import DeclSchema.Proofs.Extraction.Visits
import DeclSchema.Proofs.Inheritance.Recursion

/-! # How the declarations of one name merge

The definition of a name without bases depends on the last item that settles the name, and
on the members that interfaces and classes add to it afterwards. Everything else that is
said about the name, before that item or by aliases that only reserve it, leaves no trace.
-/
namespace DeclSchema
open Syntax

/-- The properties that members make when each writes its own over those of the members
before it: a name keeps the place where it first came, and its last annotation counts. -/
structure MakeProperties (members : List Member) (properties : Table Property) : Prop where
  names_eq : properties.names =
    ((members.filter fun m => m.type?.isSome).map fun m => m.name).eraseDups
  last_counts : ∀ before m type after, members = before ++ m :: after → m.type? = some type →
    (∀ later ∈ after, later.name = m.name → later.type? = none) →
      properties.value? m.name = some ⟨type.text, m.optional⟩

structure SettlesLast (name : String) (visited : List Item) (item : Item) (after : List Item) :
    Prop where
  visited_eq : ∃ before, visited = before ++ item :: after
  unsettled : ∀ later ∈ after, ¬ later.Settles name

structure MergeInto (name : String) (visited : List Item) (definition? : Option Definition) :
    Prop where
  values : ∀ item after values, SettlesLast name visited item after →
    item.GivesValues name values → definition? = some (.enumerated values)
  members : ∀ item after members, SettlesLast name visited item after →
    item.GivesMembers name members → ∃ properties, definition? = some (.structural properties) ∧
      MakeProperties (members ++ after.flatMap (Item.addedTo name)) properties
  added : (∀ item ∈ visited, ¬ item.Settles name) →
    (∃ item ∈ visited, item.definedName? = some name) →
      ∃ properties, definition? = some (.structural properties) ∧
        MakeProperties (visited.flatMap (Item.addedTo name)) properties
  undefined : (∀ item ∈ visited, item.definedName? ≠ some name) → definition? = none

def annotation? (m : Member) : Option (String × Property) :=
  m.type?.map fun type => (m.name, ⟨type.text, m.optional⟩)

theorem typedProperties_append (members members' : List Member) :
    typedProperties (members ++ members') =
      (typedProperties members).putAll (typedProperties members') := by
  unfold typedProperties
  rw [List.filterMap_append, Table.ofEntries_append]

theorem makeProperties_typedProperties (members : List Member) :
    MakeProperties members (typedProperties members) where
  names_eq := by
    have hnames : (members.filterMap annotation?).map Prod.fst =
        (members.filter fun m => m.type?.isSome).map fun m => m.name := by
      induction members with
      | nil => rfl
      | cons m rest ih => cases h : m.type? <;> simp [annotation?, h] at ih ⊢ <;> exact ih
    rw [← hnames]
    exact Table.names_ofEntries _
  last_counts := by
    intro before m type after hmembers htype hafter
    subst hmembers
    have hentry : annotation? m = some (m.name, ⟨type.text, m.optional⟩) := by
      rw [annotation?, htype, Option.map_some]
    have hnone : (typedProperties after).value? m.name = none := by
      rw [Table.value?_eq_none_iff, typedProperties, Table.names_ofEntries, List.mem_eraseDups]
      intro hmem
      obtain ⟨entry, he, hname⟩ := List.mem_map.mp hmem
      obtain ⟨later, hl, hsome⟩ := List.mem_filterMap.mp he
      obtain ⟨_, htyped, rfl⟩ := Option.map_eq_some_iff.mp hsome
      exact Option.some_ne_none _ (htyped.symm.trans (hafter later hl hname))
    have hsplit : before ++ m :: after = (before ++ [m]) ++ after := by simp
    have hone : typedProperties [m] = [(m.name, ⟨type.text, m.optional⟩)] := by
      simp [typedProperties, htype, Table.ofEntries, Table.putAll, Table.put]
    have hnodup : ∀ members, (typedProperties members).names.Nodup :=
      fun _ => Table.nodup_names_ofEntries _
    rw [hsplit, typedProperties_append, Table.value?_putAll _ (hnodup after), hnone, Option.none_or,
      typedProperties_append, Table.value?_putAll _ (hnodup [m]), hone]
    simp [Table.value?_cons]

def Definition.adding (d : Definition) (members : List Member) : Definition :=
  match d with
  | structural properties => structural (Table.putAll properties (typedProperties members))
  | enumerated values => enumerated values

theorem Definition.adding_nil (d : Definition) : d.adding [] = d := by
  cases d <;> rfl

theorem Definition.adding_append {d : Definition} (h : d.Tidy) (members members' : List Member) :
    (d.adding members).adding members' = d.adding (members ++ members') := by
  cases d with
  | enumerated values => rfl
  | structural properties =>
    have hfirst : (Table.putAll properties (typedProperties members)).names.Nodup :=
      Table.nodup_names_putAll _ h
    show structural _ = structural _
    congr 1
    unfold typedProperties at hfirst ⊢
    rw [Table.putAll_ofEntries hfirst, Table.putAll_ofEntries h, Table.putAll_ofEntries h,
      List.filterMap_append, Table.putAll_append]

theorem Definition.Tidy.adding {d : Definition} (h : d.Tidy) (members : List Member) :
    (d.adding members).Tidy := by
  cases d with
  | enumerated values => trivial
  | structural properties => exact Table.nodup_names_putAll _ h

namespace Definitions
variable {definitions definitions' : Definitions} {name : String} {item : Item}

def afterVisits (definitions : Definitions) (visited : List Item) : Definitions :=
  (visited.filterMap Item.declaration?).foldl record definitions

theorem afterVisits_cons (definitions : Definitions) (item : Item) (rest : List Item) :
    definitions.afterVisits (item :: rest) = (definitions.afterVisits [item]).afterVisits rest := by
  unfold afterVisits
  cases h : item.declaration? <;> simp [h]

theorem afterVisits_append (definitions : Definitions) (visited later : List Item) :
    definitions.afterVisits (visited ++ later) = (definitions.afterVisits visited).afterVisits later := by
  unfold afterVisits
  rw [List.filterMap_append, List.foldl_append]

theorem afterVisits_single {dec : Declaration} (h : item.declaration? = some dec) :
    definitions.afterVisits [item] = definitions.record dec := by
  simp [afterVisits, h]

/-- An item that defines another name, or none, leaves a name as it is. -/
theorem value?_visit_of_ne (definitions : Definitions) (h : item.definedName? ≠ some name) :
    (definitions.afterVisits [item]).value? name = definitions.value? name := by
  cases hd : item.declaration? with
  | none => simp [afterVisits, hd]
  | some dec =>
    rw [afterVisits_single hd, value?_record_of_ne]
    rintro rfl
    exact h (by rw [Item.definedName?_eq_map, hd, Option.map_some])

theorem value?_visit_values {values : List Value} (h : item.GivesValues name values) :
    (definitions.afterVisits [item]).value? name = some (.enumerated values) := by
  rw [afterVisits_single h.declaration?_eq]
  exact Table.value?_put_self _ _ _

theorem value?_visit_members {members : List Member} (h : item.GivesMembers name members) :
    (definitions.afterVisits [item]).value? name =
      some (.structural (typedProperties members)) := by
  rw [afterVisits_single h.declaration?_eq]
  exact Table.value?_put_self _ _ _

/-- An item that defines a name without settling it adds its members. -/
theorem value?_visit_adds (h : item.definedName? = some name) (hs : ¬ item.Settles name) :
    (definitions.afterVisits [item]).value? name =
      some (((definitions.value? name).getD .empty).adding (item.addedTo name)) := by
  rcases Item.declaration?_of_unsettled h hs with ⟨heritage, hd⟩ | ⟨hr, hd⟩
  · rw [afterVisits_single hd]
    cases hv : definitions.value? name with
    | none =>
      have hsame : (typedProperties (item.addedTo name)) =
          Table.putAll [] (typedProperties (item.addedTo name)) :=
        (Table.putAll_ofEntries (t := []) List.nodup_nil _).symm
      simp only [record, hv, Table.value?_put_self, Option.getD_none, Definition.empty,
        Definition.adding]
      rw [← hsame]
    | some d =>
      cases d with
      | structural properties =>
        simp only [record, hv, Table.value?_put_self, Option.getD_some, Definition.adding]
      | enumerated values => simp only [record, hv, Option.getD_some, Definition.adding]
  · rw [afterVisits_single hd, Item.addedTo_of_reserves hr, Definition.adding_nil]
    show (definitions.putNew name .empty).value? name = _
    rw [Table.value?_putNew, if_pos rfl]
    cases definitions.value? name <;> rfl

section
variable {visited : List Item}

theorem value?_visits_undefined (h : ∀ item ∈ visited, item.definedName? ≠ some name) :
    (definitions.afterVisits visited).value? name = definitions.value? name := by
  induction visited generalizing definitions with
  | nil => rfl
  | cons item rest ih =>
    obtain ⟨hitem, hrest⟩ := List.forall_mem_cons.mp h
    rw [afterVisits_cons, ih hrest, value?_visit_of_ne definitions hitem]

/-- Visits that do not settle a name add their members to its definition. -/
theorem value?_visits_defined {d : Definition} (hd : definitions.value? name = some d)
    (htidy : d.Tidy) (hs : ∀ item ∈ visited, ¬ item.Settles name) :
    (definitions.afterVisits visited).value? name =
      some (d.adding (visited.flatMap (Item.addedTo name))) := by
  induction visited generalizing definitions d with
  | nil => rw [List.flatMap_nil, Definition.adding_nil]; exact hd
  | cons item rest ih =>
    obtain ⟨hitem, hrest⟩ := List.forall_mem_cons.mp hs
    have hone : (definitions.afterVisits [item]).value? name =
        some (d.adding (item.addedTo name)) := by
      by_cases hn : item.definedName? = some name
      · rw [value?_visit_adds hn hitem, hd, Option.getD_some]
      · rw [value?_visit_of_ne definitions hn, Item.addedTo_of_ne hn, Definition.adding_nil, hd]
    rw [afterVisits_cons, ih hone (htidy.adding _) hrest, Definition.adding_append htidy,
      List.flatMap_cons]

theorem value?_visits_new (hd : definitions.value? name = none)
    (hs : ∀ item ∈ visited, ¬ item.Settles name)
    (hn : ∃ item ∈ visited, item.definedName? = some name) :
    (definitions.afterVisits visited).value? name =
      some (Definition.empty.adding (visited.flatMap (Item.addedTo name))) := by
  have htidy : Definition.empty.Tidy := List.nodup_nil
  induction visited generalizing definitions with
  | nil => simp at hn
  | cons item rest ih =>
    obtain ⟨hitem, hrest⟩ := List.forall_mem_cons.mp hs
    rw [afterVisits_cons, List.flatMap_cons]
    by_cases hdef : item.definedName? = some name
    · have hone : (definitions.afterVisits [item]).value? name =
          some (Definition.empty.adding (item.addedTo name)) := by
        rw [value?_visit_adds hdef hitem, hd, Option.getD_none]
      rw [value?_visits_defined hone (htidy.adding _) hrest, Definition.adding_append htidy]
    · have hone := value?_visit_of_ne definitions hdef
      obtain ⟨other, ho, hname⟩ := hn
      have hother : other ∈ rest := (List.mem_cons.mp ho).resolve_left fun he => hdef (he ▸ hname)
      rw [ih (hone.trans hd) hrest ⟨other, hother, hname⟩, Item.addedTo_of_ne hdef,
        List.nil_append]

theorem structural_adding (members members' : List Member) :
    (Definition.structural (typedProperties members)).adding members' =
      .structural (typedProperties (members ++ members')) := by
  rw [Definition.adding, typedProperties_append]

/-- The law of merging, for whatever is visited. -/
theorem mergeInto_afterVisits (visited : List Item) (name : String) :
    MergeInto name visited ((afterVisits [] visited).value? name) where
  values := by
    intro item after values hlast hgives
    obtain ⟨before, rfl⟩ := hlast.visited_eq
    rw [afterVisits_append, afterVisits_cons,
      value?_visits_defined (value?_visit_values hgives) trivial hlast.unsettled]
    rfl
  members := by
    intro item after members hlast hgives
    obtain ⟨before, rfl⟩ := hlast.visited_eq
    refine ⟨_, ?_, makeProperties_typedProperties _⟩
    rw [afterVisits_append, afterVisits_cons,
      value?_visits_defined (value?_visit_members hgives) (Table.nodup_names_ofEntries _)
        hlast.unsettled, structural_adding]
  added := by
    intro hs hn
    refine ⟨_, ?_, makeProperties_typedProperties _⟩
    rw [value?_visits_new rfl hs hn]
    exact congrArg some (structural_adding [] _)
  undefined h := value?_visits_undefined h

end

theorem names_record (definitions : Definitions) (dec : Declaration) :
    Table.names (definitions.record dec) =
      if dec.name ∈ Table.names definitions then Table.names definitions
      else Table.names definitions ++ [dec.name] := by
  cases dec with
  | shape name heritage properties =>
    cases hv : definitions.value? name with
    | none =>
      have hnew : name ∉ Table.names definitions := Table.value?_eq_none_iff.mp hv
      simp [record, hv, Table.names_put, Declaration.name, hnew]
    | some d =>
      have hmem : name ∈ Table.names definitions := Table.mem_names_iff.mpr ⟨d, hv⟩
      cases d <;> simp [record, hv, Table.names_put, Declaration.name, hmem]
  | definite name d => exact Table.names_put _ _ _
  | bare name => exact Table.names_putNew _ _ _

theorem names_foldl_record {definitions : Definitions} (declarations : List Declaration)
    (h : (Table.names definitions).Nodup) :
    Table.names (declarations.foldl record definitions) =
      (Table.names definitions ++ declarations.map Declaration.name).eraseDups := by
  induction declarations generalizing definitions with
  | nil => simp [Table.eraseDups_of_nodup h]
  | cons dec rest ih =>
    rw [List.foldl_cons, ih (nodup_names_record h dec), names_record, List.map_cons]
    split
    · rw [Table.eraseDups_append_cons_of_mem ‹_›]
    · rw [List.append_assoc, List.singleton_append]

/-- The defined names, in the order in which visits first define them. -/
theorem names_afterVisits (visited : List Item) :
    Table.names (afterVisits [] visited) = (visited.filterMap Item.definedName?).eraseDups := by
  have hnames : visited.filterMap Item.definedName? =
      (visited.filterMap Item.declaration?).map Declaration.name := by
    rw [List.map_filterMap]
    exact List.filterMap_congr fun item _ => item.definedName?_eq_map
  have hrun := names_foldl_record (visited.filterMap Item.declaration?)
    (show (Table.names ([] : Definitions)).Nodup from List.nodup_nil)
  rw [afterVisits, hrun, hnames, Table.names_nil, List.nil_append]

theorem mem_names_afterVisits {visited : List Item} :
    name ∈ Table.names (afterVisits [] visited) ↔
      ∃ item ∈ visited, item.definedName? = some name := by
  rw [names_afterVisits, List.mem_eraseDups, List.mem_filterMap]

theorem ofDeclarations_ofItems (items : List Item) :
    ofDeclarations (Declaration.ofItems items) = afterVisits [] (Item.visitsOfAll items) := by
  rw [Item.ofItems_eq_filterMap]
  rfl

theorem names_ofItems (items : List Item) :
    Table.names (ofItems items) = Table.names (afterVisits [] (Item.visitsOfAll items)) := by
  unfold ofItems
  rw [names_inherit, ofDeclarations_ofItems]

/-- Values that an item gives to a name stay, whatever bases the name has. -/
theorem value?_ofItems_values {items after : List Item} {values : List Value}
    (hlast : SettlesLast name (Item.visitsOfAll items) item after) (hgives : item.GivesValues name values) :
    (ofItems items).value? name = some (.enumerated values) := by
  rw [ofItems, value?_inherit, ofDeclarations_ofItems,
    (mergeInto_afterVisits _ name).values item after values hlast hgives]
  rfl

end Definitions

end DeclSchema
