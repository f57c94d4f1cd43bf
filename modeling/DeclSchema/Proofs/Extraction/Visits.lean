import DeclSchema.Proofs.Inheritance.Declarations

/-! # The visits of a source

A source is read item by item, every item before those inside of it. What one item says about
a name is of four kinds: it settles the name, with values or with members; it adds members to
the name; it only reserves the name; or it does not mention it.
-/
namespace DeclSchema.Syntax.Item

mutual

def visits : Item → List Item
  | interfaceDecl name heritage members => [interfaceDecl name heritage members]
  | classDecl name heritage members nested =>
    classDecl name heritage members nested :: visitsOfAll nested
  | aliasDecl name type => [aliasDecl name type]
  | enumDecl name isConst members => [enumDecl name isConst members]
  | constantDecl name type? initializer => [constantDecl name type? initializer]
  | namespaceDecl name items => namespaceDecl name items :: visitsOfAll items
  | functionDecl name body => functionDecl name body :: visitsOfAll body

def visitsOfAll : List Item → List Item
  | [] => []
  | item :: rest => visits item ++ visitsOfAll rest

end

/-- The keys of a constant object: the members of its annotation or, where it has none, the
keys of its value. -/
def constantKeys? (type? : Option TypeNode) (initializer : Option Initializer) :
    Option (List String) :=
  match type?, initializer with
  | some type, _ =>
    match type.unparenthesized with
    | .object _ members => some (members.map (·.name))
    | _ => none
  | none, some (.keys keys) => some keys
  | none, _ => none

inductive GivesValues (name : String) : Item → List Value → Prop
  | union {type : TypeNode} {text : String} {operands : List TypeNode}
      (h : type.unparenthesized = .union text operands) :
      GivesValues name (.aliasDecl name type) (operands.map Value.ofOperand)
  | enum (isConst : Bool) (members : List EnumMember) :
      GivesValues name (.enumDecl name isConst members) (members.map Value.ofMember)
  | constant {type? : Option TypeNode} {initializer : Option Initializer} {keys : List String}
      (h : constantKeys? type? initializer = some keys) :
      GivesValues name (.constantDecl name type? initializer) (keys.map .string)

inductive GivesMembers (name : String) : Item → List Member → Prop
  | literal {type : TypeNode} {text : String} {members : List Member}
      (h : type.unparenthesized = .object text members) :
      GivesMembers name (.aliasDecl name type) members

/-- Whatever was said about the name before counts no more. -/
def Settles (name : String) (item : Item) : Prop :=
  (∃ values, item.GivesValues name values) ∨ ∃ members, item.GivesMembers name members

def addedTo (name : String) : Item → List Member
  | interfaceDecl other _ members | classDecl other _ members _ =>
    if other = name then members else []
  | _ => []

def reserves (name : String) : Item → Bool
  | aliasDecl other type =>
    other == name && match type.unparenthesized with
      | .union _ _ | .object _ _ => false
      | _ => true
  | _ => false

def definedName? : Item → Option String
  | interfaceDecl name _ _ | classDecl name _ _ _ | aliasDecl name _ | enumDecl name _ _ => some name
  | constantDecl name type? initializer => (constantKeys? type? initializer).map fun _ => name
  | namespaceDecl _ _ | functionDecl _ _ => none

def declaration? : Item → Option Declaration
  | interfaceDecl name heritage members | classDecl name heritage members _ =>
    some (.shape name heritage (typedProperties members))
  | aliasDecl name type => some (.ofAlias name type)
  | enumDecl name _ members => some (.definite name (.enumerated (members.map Value.ofMember)))
  | constantDecl name type? initializer => Declaration.ofConstant? name type? initializer
  | namespaceDecl _ _ | functionDecl _ _ => none

mutual

theorem ofItem_eq_filterMap (item : Item) :
    Declaration.ofItem item = (visits item).filterMap declaration? := by
  cases item with
  | interfaceDecl name heritage members => rfl
  | classDecl name heritage members nested =>
    rw [Declaration.ofItem, visits, ofItems_eq_filterMap nested]
    rfl
  | aliasDecl name type => rfl
  | enumDecl name isConst members => rfl
  | constantDecl name type? initializer =>
    rw [Declaration.ofItem, visits, List.filterMap_cons]
    cases h : declaration? (constantDecl name type? initializer) <;>
      simp only [declaration?] at h <;> simp [h]
  | namespaceDecl name items =>
    rw [Declaration.ofItem, visits, ofItems_eq_filterMap items]
    rfl
  | functionDecl name body =>
    rw [Declaration.ofItem, visits, ofItems_eq_filterMap body]
    rfl

/-- The declarations of a source are those of its visits, in order. -/
theorem ofItems_eq_filterMap (items : List Item) :
    Declaration.ofItems items = (visitsOfAll items).filterMap declaration? := by
  cases items with
  | nil => rfl
  | cons item rest =>
    rw [Declaration.ofItems, visitsOfAll, List.filterMap_append, ofItem_eq_filterMap item,
      ofItems_eq_filterMap rest]

end

theorem ofConstant?_eq_map (name : String) (type? : Option TypeNode)
    (initializer : Option Initializer) :
    Declaration.ofConstant? name type? initializer =
      (constantKeys? type? initializer).map fun keys =>
        .definite name (.enumerated (keys.map .string)) := by
  unfold Declaration.ofConstant? constantKeys?
  rfl

theorem definedName?_eq_map (item : Item) :
    item.definedName? = item.declaration?.map Declaration.name := by
  cases item with
  | aliasDecl name type =>
    cases htype : type.unparenthesized <;>
      simp [definedName?, declaration?, Declaration.ofAlias, htype, Declaration.name]
  | constantDecl name type? initializer =>
    rw [definedName?, declaration?, ofConstant?_eq_map, Option.map_map]
    rfl
  | _ => rfl

variable {item : Item} {name : String}

theorem GivesValues.declaration?_eq {values : List Value} (h : item.GivesValues name values) :
    item.declaration? = some (.definite name (.enumerated values)) := by
  cases h with
  | union htype => simp [declaration?, Declaration.ofAlias, htype]
  | enum isConst members => rfl
  | constant hkeys => simp [declaration?, ofConstant?_eq_map, hkeys]

theorem GivesMembers.declaration?_eq {members : List Member} (h : item.GivesMembers name members) :
    item.declaration? = some (.definite name (.structural (typedProperties members))) := by
  cases h with
  | literal htype => simp [declaration?, Declaration.ofAlias, htype]

/-- An item that defines a name and does not settle it adds members or reserves the name. -/
theorem declaration?_of_unsettled (h : item.definedName? = some name) (hs : ¬ item.Settles name) :
    (∃ heritage, item.declaration? =
      some (.shape name heritage (typedProperties (item.addedTo name)))) ∨
    (item.reserves name = true ∧ item.declaration? = some (.bare name)) := by
  cases item with
  | interfaceDecl other heritage members =>
    cases h
    exact .inl ⟨heritage, by simp [declaration?, addedTo]⟩
  | classDecl other heritage members nested =>
    cases h
    exact .inl ⟨heritage, by simp [declaration?, addedTo]⟩
  | aliasDecl other type =>
    cases h
    cases htype : type.unparenthesized with
    | union text operands => exact absurd (.inl ⟨_, .union htype⟩) hs
    | object text members => exact absurd (.inr ⟨_, .literal htype⟩) hs
    | _ => exact .inr ⟨by simp [reserves, htype], by simp [declaration?, Declaration.ofAlias, htype]⟩
  | enumDecl other isConst members =>
    cases h
    exact absurd (.inl ⟨_, .enum isConst members⟩) hs
  | constantDecl other type? initializer =>
    obtain ⟨keys, hkeys, rfl⟩ := Option.map_eq_some_iff.mp h
    exact absurd (.inl ⟨_, .constant hkeys⟩) hs
  | namespaceDecl other items => cases h
  | functionDecl other body => cases h

theorem addedTo_of_ne (h : item.definedName? ≠ some name) : item.addedTo name = [] := by
  cases item with
  | interfaceDecl other heritage members => exact if_neg fun he => h (congrArg some he)
  | classDecl other heritage members nested => exact if_neg fun he => h (congrArg some he)
  | _ => rfl

theorem addedTo_of_reserves (h : item.reserves name = true) : item.addedTo name = [] := by
  cases item <;> first | rfl | cases h

end DeclSchema.Syntax.Item
