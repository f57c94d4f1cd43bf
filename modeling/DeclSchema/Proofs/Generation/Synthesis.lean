import DeclSchema.Proofs.Generation.Rendering
import DeclSchema.Proofs.Generation.Starts
import DeclSchema.Proofs.Reference.Views

/-! # Documents show the definitions

A document has one schema for each definition, and the schema says what the definition says: the
properties in their order, each with the arrays of its shape, which of them are required, and the
values with their common type. Behind a closed start of the paths this holds of the finished
document, and a reader of its text finds a list of required names just where there are some.
-/
namespace DeclSchema
open Json (Tree treeMembers)

namespace Shape

def depth : Shape → Nat
  | primitive _ | reference _ => 0
  | array items => items.depth + 1

def primitive? : Shape → Option Primitive
  | primitive type => some type
  | reference _ => none
  | array items => items.primitive?

/-- The schema has the arrays of the shape around its primitive, or around the reference to the
name in it. -/
def ShownBy (base : String) (shape : Shape) (schema : Schema) : Prop :=
  (∃ type, shape.primitive? = some type ∧ schema = .nested shape.depth (.primitive type)) ∨
    ∃ name, shape.referencedName? = some name ∧
      schema = .nested shape.depth (.reference (base ++ name))

theorem shownBy_toSchema (base : String) (shape : Shape) :
    shape.ShownBy base (shape.toSchema base) := by
  induction shape with
  | primitive type => exact .inl ⟨type, rfl, rfl⟩
  | reference name => exact .inr ⟨name, rfl, rfl⟩
  | array items ih =>
    rw [toSchema]
    rcases ih with ⟨type, htype, hitems⟩ | ⟨name, hname, hitems⟩
    · exact .inl ⟨type, htype, congrArg Schema.array hitems⟩
    · exact .inr ⟨name, hname, congrArg Schema.array hitems⟩

end Shape

namespace Value
variable {values : List Value}

def AllMade {α : Type} (make : α → Value) (values : List Value) : Prop :=
  values ≠ [] ∧ ∀ value ∈ values, ∃ a, value = make a

/-- The type of values is that of the booleans or of the numbers if there are no others, and that
of the strings in every other case. -/
structure TypedAs (values : List Value) (type : Primitive) : Prop where
  ofBooleans : type = .boolean ↔ AllMade boolean values
  ofNumbers : type = .number ↔ AllMade number values
  ofOthers : type = .string ↔ ¬ AllMade boolean values ∧ ¬ AllMade number values

theorem AllMade.not_number (h : AllMade boolean values) : ¬ AllMade number values := by
  rintro ⟨-, hnumbers⟩
  obtain ⟨value, hvalue⟩ := List.exists_mem_of_ne_nil values h.1
  obtain ⟨b, rfl⟩ := h.2 value hvalue
  obtain ⟨n, hn⟩ := hnumbers _ hvalue
  cases hn

/-- The three cases of the common type. -/
theorem commonType_cases (values : List Value) :
    (AllMade boolean values ∧ commonType values = .boolean) ∨
      (AllMade number values ∧ commonType values = .number) ∨
      (¬ AllMade boolean values ∧ ¬ AllMade number values ∧ commonType values = .string) := by
  unfold commonType
  cases values with
  | nil => simp [AllMade]
  | cons first rest =>
    simp only [List.isEmpty_cons, Bool.false_eq_true, if_false]
    split
    · rename_i hall
      refine .inl ⟨⟨by simp, fun value hvalue => ?_⟩, rfl⟩
      have htest := List.all_eq_true.mp hall value hvalue
      cases value <;> simp_all
    · rename_i hnot
      have hbooleans : ¬ AllMade boolean (first :: rest) := by
        rintro ⟨-, hmade⟩
        refine hnot (List.all_eq_true.mpr fun value hvalue => ?_)
        obtain ⟨b, rfl⟩ := hmade value hvalue
        rfl
      split
      · rename_i hall
        refine .inr (.inl ⟨⟨by simp, fun value hvalue => ?_⟩, rfl⟩)
        have htest := List.all_eq_true.mp hall value hvalue
        cases value <;> simp_all
      · rename_i hnot'
        refine .inr (.inr ⟨hbooleans, ?_, rfl⟩)
        rintro ⟨-, hmade⟩
        refine hnot' (List.all_eq_true.mpr fun value hvalue => ?_)
        obtain ⟨n, rfl⟩ := hmade value hvalue
        rfl

theorem typedAs_commonType (values : List Value) : TypedAs values (commonType values) := by
  rcases commonType_cases values with ⟨hmade, htype⟩ | ⟨hmade, htype⟩ | ⟨hnot, hnot', htype⟩
  · have hother := hmade.not_number
    constructor <;> simp [htype, hmade, hother]
  · have hother : ¬ AllMade boolean values := fun h => h.not_number hmade
    constructor <;> simp [htype, hmade, hother]
  · constructor <;> simp [htype, hnot, hnot']

end Value

structure RequiredNames (properties : Table Property) (names : List String) : Prop where
  sublist : names.Sublist properties.names
  mem_iff : ∀ name p, properties.value? name = some p → (name ∈ names ↔ p.optional = false)

inductive Definition.ShownBy (base : String) : Definition → Schema → Prop
  | structural {properties : Table Property} {schemas : Table Schema} {required : List String}
      (names : schemas.names = properties.names)
      (shapes : ∀ name p, properties.value? name = some p →
        ∃ schema, schemas.value? name = some schema ∧ (Shape.ofText p.typeText).ShownBy base schema)
      (requiredNames : RequiredNames properties required) :
      ShownBy base (.structural properties) (.object schemas required)
  | enumerated {values : List Value} {type : Primitive} (typed : Value.TypedAs values type) :
      ShownBy base (.enumerated values) (.enumeration type values)

theorem requiredNames_filter {properties : Table Property} (h : properties.names.Nodup) :
    RequiredNames properties ((properties.filter fun entry => !entry.2.optional).map Prod.fst) where
  sublist := List.filter_sublist.map Prod.fst
  mem_iff name p hp := by
    simp only [List.mem_map, List.mem_filter, Bool.not_eq_true']
    constructor
    · rintro ⟨⟨other, q⟩, ⟨hmem, hq⟩, rfl⟩
      have heq : some q = some p := (Table.value?_of_mem h hmem).symm.trans hp
      cases heq
      exact hq
    · intro hq
      exact ⟨(name, p), ⟨Table.mem_of_value? hp, hq⟩, rfl⟩

theorem Definition.shownBy_toSchema (base : String) {d : Definition}
    (h : (Table.names (d.properties?.getD [])).Nodup) : d.ShownBy base (d.toSchema base) := by
  cases d with
  | enumerated values => exact .enumerated (Value.typedAs_commonType values)
  | structural properties =>
    refine .structural (Table.names_mapValues _ _) (fun name p hp => ?_) (requiredNames_filter h)
    refine ⟨(Shape.ofText p.typeText).toSchema base, ?_, Shape.shownBy_toSchema base _⟩
    have hvalue := Table.value?_map
      (fun _ (q : Property) => (Shape.ofText q.typeText).toSchema base) properties name
    rwa [hp] at hvalue

namespace Json.Tree

def member? (name : String) : Tree → Option Tree
  | object members => Table.value? members name
  | _ => none

end Json.Tree

theorem Document.member?_tree (document : Document) (name : String) :
    document.toJson.tree.member? name =
      (document.value? name).map fun schema => schema.toJson.tree := by
  show Table.value? (treeMembers (Schema.membersToJson document)) name = _
  induction document with
  | nil => rfl
  | cons entry rest ih =>
    obtain ⟨other, schema⟩ := entry
    rw [Schema.membersToJson, treeMembers, Table.value?_cons, Table.value?_cons, ih]
    split <;> rfl

/-- The list of required names is written exactly if there are any. -/
theorem Schema.required_member?_tree (schemas : List (String × Schema)) (required : List String) :
    ((Schema.object schemas required).toJson.tree.member? "required").isSome ↔ required ≠ [] := by
  cases required with
  | nil => simp [Schema.toJson, Json.tree, treeMembers, Tree.member?, Table.value?]
  | cons name rest => simp [Schema.toJson, Json.tree, treeMembers, Tree.member?, Table.value?]

namespace Definitions
variable {definitions : Definitions} {settings : Settings}

theorem value?_toDocument {base : String} (hbase : ClosedStart base) (definitions : Definitions)
    (name : String) : (definitions.toDocument base).value? name =
      (definitions.value? name).map (Definition.toSchema base) := by
  rw [toDocument_of_closedStart hbase]
  exact Table.value?_map (fun _ => Definition.toSchema base) definitions name

/-- The document of definitions has their names in their order, and under each name the schema
that shows the definition. In its text, an object has a list of required names exactly if some
names are required. -/
theorem toDocument_shows (definitions : Definitions) (h : definitions.Distinct)
    (settings : Settings) (hbase : ClosedStart settings.base) :
    Table.names (definitions.toDocument settings.base) = definitions.names ∧
    (∀ name d, definitions.value? name = some d → ∃ schema,
      (definitions.toDocument settings.base).value? name = some schema ∧
        d.ShownBy settings.base schema) ∧
    (∃ value,
      Tree.read? (settings.render (definitions.toDocument settings.base)) =
        some (settings.layout.place value) ∧
      ∀ name schemas required,
        (definitions.toDocument settings.base).value? name = some (.object schemas required) →
          ∃ tree, value.member? name = some tree ∧
            ((tree.member? "required").isSome ↔ required ≠ [])) := by
  refine ⟨names_toDocument _ _, fun name d hd => ?_, ?_⟩
  · refine ⟨d.toSchema settings.base, ?_, ?_⟩
    · rw [value?_toDocument hbase, hd, Option.map_some]
    · exact Definition.shownBy_toSchema _ (h.properties _ (Table.mem_of_value? hd))
  · refine ⟨_, Settings.read?_render .., ?_⟩
    intro name schemas required hschema
    refine ⟨(Schema.object schemas required).toJson.tree, ?_, Schema.required_member?_tree _ _⟩
    rw [Document.member?_tree, hschema, Option.map_some]

def petDefinitions : Definitions :=
  [("Pet", .structural [("tags", ⟨"Array<string>[] | null", false⟩),
      ("owner", ⟨"undefined | Person[]", true⟩), ("kind", ⟨"Kind", false⟩)]),
    ("Kind", .enumerated [.string "cat", .number (.whole (-1))]),
    ("Note", .structural [("text", ⟨"(string)", true⟩)])]

theorem toDocument_shows_pets :
    petDefinitions.Distinct ∧ ClosedStart ({} : Settings).base ∧
      Table.names (petDefinitions.toDocument ({} : Settings).base) = ["Pet", "Kind", "Note"] ∧
      (∃ type, (petDefinitions.toDocument ({} : Settings).base).value? "Kind" =
        some (.enumeration type [.string "cat", .number (.whole (-1))]) ∧ type = .string) ∧
      ∃ value tree,
        Tree.read? (({} : Settings).render (petDefinitions.toDocument ({} : Settings).base)) =
          some value ∧
        value.member? "Note" = some tree ∧ ¬ (tree.member? "required").isSome := by
  have hdistinct : petDefinitions.Distinct := ⟨by decide, by decide⟩
  obtain ⟨hnames, hshown, hread⟩ :=
    toDocument_shows petDefinitions hdistinct {} Settings.closedStart_base
  obtain ⟨value, hvalue, hrequired⟩ := hread
  refine ⟨hdistinct, Settings.closedStart_base, hnames, ?_, value, ?_⟩
  · obtain ⟨schema, hschema, hs⟩ := hshown "Kind" _ rfl
    cases hs with
    | @enumerated _ type typed =>
      refine ⟨type, hschema, typed.ofOthers.mpr ⟨?_, ?_⟩⟩
      · rintro ⟨-, hmade⟩
        obtain ⟨b, hb⟩ := hmade _ List.mem_cons_self
        cases hb
      · rintro ⟨-, hmade⟩
        obtain ⟨n, hn⟩ := hmade _ List.mem_cons_self
        cases hn
  · obtain ⟨schema, hschema, hs⟩ := hshown "Note" _ rfl
    cases hs with
    | @structural _ schemas required _ _ requiredNames =>
      obtain ⟨tree, htree, hiff⟩ := hrequired "Note" schemas required hschema
      have hnone : required = [] := by
        refine (List.sublist_singleton.mp requiredNames.sublist).resolve_right fun h => ?_
        exact absurd ((requiredNames.mem_iff "text" _ rfl).mp (by simp [h])) (by decide)
      exact ⟨tree, hvalue, htree, hiff.not.mpr (by simp [hnone])⟩

end Definitions
end DeclSchema
