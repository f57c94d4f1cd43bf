import DeclSchema.Proofs.Reference.Cycle
import Mathlib.Algebra.GroupWithZero.Nat

/-! # Two views of one relation

The graph of definitions is built from all references at once, the closure follows the type
texts from one definition on. Every property that refers to a name is one entry of the graph,
an edge or a dangling reference, and the closure of a definition is what its edges lead to,
with the names at which the definitions on the way dangle.
-/
namespace DeclSchema

namespace Table
variable {α β : Type}

/-- Where only the entry of one name contributes, what a table gives is what this entry gives. -/
theorem flatMap_of_single {t : Table α} {name : String} {a : α} (h : t.names.Nodup)
    (hv : t.value? name = some a) {f : String × α → List β}
    (hf : ∀ entry ∈ t, entry.1 ≠ name → f entry = []) : t.flatMap f = f (name, a) := by
  induction t with
  | nil => cases hv
  | cons entry rest ih =>
    obtain ⟨other, b⟩ := entry
    obtain ⟨hnew, hrest⟩ := List.nodup_cons.mp h
    rw [value?_cons] at hv
    rw [List.flatMap_cons]
    split at hv
    · rename_i ho
      cases hv
      have hothers : List.flatMap f rest = [] := by
        rw [List.flatMap_eq_nil_iff]
        intro entry he
        apply hf entry (List.mem_cons_of_mem _ he)
        intro hname
        exact hnew (List.mem_map.mpr ⟨entry, he, hname.trans ho.symm⟩)
      rw [hothers, List.append_nil, ho]
    · rename_i ho
      rw [hf _ List.mem_cons_self ho, List.nil_append]
      exact ih hrest hv fun entry he => hf entry (List.mem_cons_of_mem _ he)

end Table

structure Definitions.Distinct (definitions : Definitions) : Prop where
  names : definitions.names.Nodup
  properties : ∀ entry ∈ definitions, (Table.names (entry.2.properties?.getD [])).Nodup

def Definitions.referring (definitions : Definitions) : Nat :=
  (definitions.map fun entry => (entry.2.properties?.getD []).countP fun property =>
    (targetOf? property.2.typeText).isSome).sum

def Reference.isOf (name property : String) (r : Reference) : Bool :=
  r.source == name && r.property == property

namespace Definitions
variable {definitions : Definitions} {name property : String} {properties : Table Property}
  {p : Property}

theorem length_references (definitions : Definitions) :
    (Definitions.references definitions).length = definitions.referring := by
  unfold Definitions.references Definitions.referring
  rw [List.length_flatMap]
  congr 1
  apply List.map_congr_left
  intro entry _
  show ((entry.2.properties?.getD []).filterMap _).length = _
  rw [List.length_filterMap_eq_countP]
  simp only [Option.isSome_map]

/-- A property makes one reference if its type refers to a name, and else none. -/
theorem Distinct.filter_references (h : definitions.Distinct)
    (hd : definitions.value? name = some (.structural properties))
    (hp : properties.value? property = some p) :
    (Definitions.references definitions).filter (Reference.isOf name property) =
      ((targetOf? p.typeText).map fun target => ⟨name, property, target⟩).toList := by
  have hdefinition : (Definitions.references definitions).filter (Reference.isOf name property) =
      (Definition.references name (.structural properties)).filter
        (Reference.isOf name property) := by
    unfold Definitions.references
    rw [List.filter_flatMap]
    apply Table.flatMap_of_single h.names hd
    intro entry _ hne
    rw [List.filter_eq_nil_iff]
    intro r hr
    simp [Reference.isOf, Definition.source_of_mem_references hr, hne]
  rw [hdefinition, Definition.references, List.filter_filterMap,
    List.filterMap_eq_flatMap_toList]
  refine (Table.flatMap_of_single (h.properties _ (Table.mem_of_value? hd)) hp ?_).trans ?_
  · intro entry _ hne
    dsimp only
    cases targetOf? entry.2.typeText <;> simp [Option.filter, Reference.isOf, hne]
  · dsimp only
    cases targetOf? p.typeText <;> simp [Option.filter, Reference.isOf]

/-- The same among the references that pass a test, such as the edges of the graph. -/
theorem Distinct.filter_entries (h : definitions.Distinct)
    (hd : definitions.value? name = some (.structural properties))
    (hp : properties.value? property = some p) (test : Reference → Bool) :
    ((Definitions.references definitions).filter test).filter (Reference.isOf name property) =
      (((targetOf? p.typeText).filter fun target => test ⟨name, property, target⟩).map
        fun target => ⟨name, property, target⟩).toList := by
  have hone := congrArg (List.filter test) (h.filter_references hd hp)
  rw [List.filter_filter] at hone ⊢
  simp only [Bool.and_comm] at hone ⊢
  rw [hone]
  cases targetOf? p.typeText with
  | none => rfl
  | some target => by_cases ht : test ⟨name, property, target⟩ = true <;> simp [Option.filter, ht]

end Definitions

namespace ReferenceGraph
variable {definitions : Definitions} {name other target : String}

theorem mem_successors_iff (g : ReferenceGraph) :
    other ∈ g.successors name ↔ g.Edge name other := by
  simp only [successors, mem_sortedNames, List.mem_map, List.mem_filter, beq_iff_eq, Edge,
    and_assoc]

theorem mem_predecessors_iff (g : ReferenceGraph) :
    name ∈ g.predecessors other ↔ g.Edge name other := by
  simp only [predecessors, mem_sortedNames, List.mem_map, List.mem_filter, beq_iff_eq, Edge,
    and_assoc, and_comm (a := (_ = other))]

abbrev LeadsTo (g : ReferenceGraph) : String → String → Prop :=
  Relation.ReflTransGen fun name other => other ∈ g.successors name

def Loose (g : ReferenceGraph) (name target : String) : Prop :=
  ∃ r ∈ g.dangling, r.source = name ∧ r.target = target

theorem loose_ofDefinitions_iff (hnodup : definitions.names.Nodup) :
    (ofDefinitions definitions).Loose name target ↔
      definitions.Links name target ∧ target ∉ definitions.names := by
  rw [← Definitions.exists_reference_iff hnodup]
  constructor
  · rintro ⟨r, hr, hsource, rfl⟩
    obtain ⟨hmem, htarget⟩ := List.mem_filter.mp hr
    exact ⟨⟨r, hmem, hsource, rfl⟩, by simpa using htarget⟩
  · rintro ⟨⟨r, hmem, hsource, rfl⟩, htarget⟩
    exact ⟨r, List.mem_filter.mpr ⟨hmem, by simpa using htarget⟩, hsource, rfl⟩

/-- A chain of references runs along edges, except that its last step may dangle: nothing
begins at a name without a definition. -/
theorem links_chain_iff (hnodup : definitions.names.Nodup) :
    Relation.ReflTransGen definitions.Links name target ↔
      (ofDefinitions definitions).LeadsTo name target ∨
        ∃ source, (ofDefinitions definitions).LeadsTo name source ∧
          (ofDefinitions definitions).Loose source target := by
  have hlinks : ∀ {a b : String}, b ∈ (ofDefinitions definitions).successors a →
      definitions.Links a b := fun hstep =>
    ((edge_ofDefinitions_iff hnodup).mp ((mem_successors_iff _).mp hstep)).1
  constructor
  · intro h
    induction h with
    | refl => exact .inl .refl
    | @tail middle target _ hlink ih =>
      rcases ih with hsteps | ⟨source, _, hloose⟩
      · by_cases htarget : target ∈ definitions.names
        · exact .inl (hsteps.tail
            ((mem_successors_iff _).mpr ((edge_ofDefinitions_iff hnodup).mpr ⟨hlink, htarget⟩)))
        · exact .inr ⟨middle, hsteps, (loose_ofDefinitions_iff hnodup).mpr ⟨hlink, htarget⟩⟩
      · exact absurd hlink.mem_names ((loose_ofDefinitions_iff hnodup).mp hloose).2
  · rintro (hsteps | ⟨source, hsteps, hloose⟩)
    · exact Relation.ReflTransGen.mono (fun _ _ => hlinks) _ _ hsteps
    · exact (Relation.ReflTransGen.mono (fun _ _ => hlinks) _ _ hsteps).tail
        ((loose_ofDefinitions_iff hnodup).mp hloose).1

/-- In the graph of definitions every property that refers to a name is one edge if that name
is defined, and else one dangling reference, and there are no other edges and dangling
references. Successors and predecessors are two sides of the edges, each in ascending order. The
closure of a definition consists of what it leads to over edges, and of the names at which
these definitions dangle. -/
theorem graph_accounts_for_references (definitions : Definitions) (h : definitions.Distinct) :
    (∀ name properties, definitions.value? name = some (.structural properties) →
      ∀ property p, properties.value? property = some p →
        (ofDefinitions definitions).edges.filter (Reference.isOf name property) =
          (((targetOf? p.typeText).filter definitions.names.contains).map
            fun target => ⟨name, property, target⟩).toList ∧
        (ofDefinitions definitions).dangling.filter (Reference.isOf name property) =
          (((targetOf? p.typeText).filter fun target => !definitions.names.contains target).map
            fun target => ⟨name, property, target⟩).toList) ∧
    (ofDefinitions definitions).edges.length + (ofDefinitions definitions).dangling.length =
      definitions.referring ∧
    (∀ name other, other ∈ (ofDefinitions definitions).successors name ↔
      name ∈ (ofDefinitions definitions).predecessors other) ∧
    (∀ name, ((ofDefinitions definitions).successors name).Pairwise (· < ·) ∧
      ((ofDefinitions definitions).predecessors name).Pairwise (· < ·)) ∧
    (∀ name d, definitions.value? name = some d → ∀ target,
      target ∈ closure definitions d [name] ↔
        (ofDefinitions definitions).LeadsTo name target ∨
          ∃ source, (ofDefinitions definitions).LeadsTo name source ∧
            (ofDefinitions definitions).Loose source target) := by
  refine ⟨fun name properties hd property p hp => ?_, ?_, fun name other => ?_,
    fun name => ⟨pairwise_sortedNames _, pairwise_sortedNames _⟩, fun name d hd target => ?_⟩
  · exact ⟨h.filter_entries hd hp _, h.filter_entries hd hp _⟩
  · rw [← Definitions.length_references]
    exact (List.length_eq_length_filter_add _).symm
  · rw [mem_successors_iff, mem_predecessors_iff]
  · rw [mem_closure_root_iff hd, links_chain_iff h.names]

def shelves : Definitions :=
  [("Shelf", .structural [("books", ⟨"Book[]", false⟩), ("first", ⟨"Book | null", true⟩),
      ("inner", ⟨"Array<Shelf>", false⟩), ("label", ⟨"string", false⟩), ("room", ⟨"Room", false⟩)]),
    ("Genre", .enumerated [.string "novel"]),
    ("Book", .structural [("shelf", ⟨"Shelf", false⟩), ("author", ⟨"Person", false⟩)])]

theorem graph_of_shelves :
    shelves.Distinct ∧
      (ofDefinitions shelves).edges.filter (Reference.isOf "Shelf" "first") =
        [⟨"Shelf", "first", "Book"⟩] ∧
      (ofDefinitions shelves).dangling.filter (Reference.isOf "Shelf" "room") =
        [⟨"Shelf", "room", "Room"⟩] ∧
      (ofDefinitions shelves).edges.length + (ofDefinitions shelves).dangling.length = 6 ∧
      ((ofDefinitions shelves).LeadsTo "Shelf" "Person" ∨
        ∃ source, (ofDefinitions shelves).LeadsTo "Shelf" source ∧
          (ofDefinitions shelves).Loose source "Person") := by
  have h : shelves.Distinct := ⟨by decide, by decide⟩
  obtain ⟨hentries, hcount, _, _, hclosure⟩ := graph_accounts_for_references shelves h
  have hcounted : shelves.referring = 6 := by decide +kernel
  have hfirst : targetOf? "Book | null" = some "Book" := by decide +kernel
  have hroom : targetOf? "Room" = some "Room" := by decide +kernel
  refine ⟨h, ?_, ?_, hcount.trans hcounted, ?_⟩
  · rw [(hentries "Shelf" _ rfl "first" _ rfl).1, hfirst]
    rfl
  · rw [(hentries "Shelf" _ rfl "room" _ rfl).2, hroom]
    rfl
  · exact (hclosure "Shelf" _ rfl "Person").mp (by decide +kernel)

end ReferenceGraph
end DeclSchema
