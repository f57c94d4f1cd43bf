import DeclSchema.Proofs.Reference.Closure
import DeclSchema.Reference.Graph

/-! # References and links

The references of definitions are the links between their names, with the property that
makes each of them. Leaving definitions out leaves out the references that begin at them.
-/
namespace DeclSchema

namespace Definition
variable {d : Definition} {name target : String} {r : Reference}

theorem source_of_mem_references (h : r ∈ d.references name) : r.source = name := by
  obtain ⟨entry, _, he⟩ := List.mem_filterMap.mp h
  obtain ⟨target, _, rfl⟩ := Option.map_eq_some_iff.mp he
  rfl

theorem mentions_of_mem_references (h : r ∈ d.references name) : d.Mentions r.target := by
  obtain ⟨entry, hentry, he⟩ := List.mem_filterMap.mp h
  obtain ⟨target, ht, rfl⟩ := Option.map_eq_some_iff.mp he
  cases hd : d.properties? with
  | none => simp [hd] at hentry
  | some properties =>
    rw [hd, Option.getD_some] at hentry
    exact ⟨properties, hd, entry, hentry, targetOf?_eq_some_iff.mp ht⟩

theorem exists_reference_of_mentions (h : d.Mentions target) (name : String) :
    ∃ r ∈ d.references name, r.source = name ∧ r.target = target := by
  obtain ⟨properties, hd, entry, hentry, hmention⟩ := h
  refine ⟨⟨name, entry.1, target⟩, List.mem_filterMap.mpr ⟨entry, ?_, ?_⟩, rfl, rfl⟩
  · rw [hd, Option.getD_some]
    exact hentry
  · show (targetOf? entry.2.typeText).map _ = _
    rw [targetOf?_eq_some_iff.mpr hmention, Option.map_some]

end Definition

namespace Definitions
variable {definitions : Definitions} {source target : String} {r : Reference}

theorem Links.mem_names (h : definitions.Links source target) : source ∈ definitions.names := by
  obtain ⟨d, hd, _⟩ := h
  exact Table.mem_names_iff.mpr ⟨d, hd⟩

theorem links_of_mem_references (hnodup : definitions.names.Nodup)
    (h : r ∈ Definitions.references definitions) : definitions.Links r.source r.target := by
  obtain ⟨entry, hentry, hr⟩ := List.mem_flatMap.mp h
  rw [Definition.source_of_mem_references hr]
  exact ⟨entry.2, Table.value?_of_mem hnodup hentry, Definition.mentions_of_mem_references hr⟩

/-- One name links to another exactly if there is a reference between them. -/
theorem exists_reference_iff (hnodup : definitions.names.Nodup) :
    (∃ r ∈ Definitions.references definitions, r.source = source ∧ r.target = target) ↔
      definitions.Links source target := by
  constructor
  · rintro ⟨r, hr, rfl, rfl⟩
    exact links_of_mem_references hnodup hr
  · rintro ⟨d, hd, hmention⟩
    obtain ⟨r, hr, hends⟩ := Definition.exists_reference_of_mentions hmention source
    exact ⟨r, List.mem_flatMap.mpr ⟨(source, d), Table.mem_of_value? hd, hr⟩, hends⟩

theorem references_keep (definitions : Definitions) (test : String → Bool) :
    Definitions.references (Table.keep definitions test) =
      (Definitions.references definitions).filter fun r => test r.source := by
  unfold Definitions.references Table.keep
  induction definitions with
  | nil => rfl
  | cons entry rest ih =>
    have hsource : ∀ r ∈ entry.2.references entry.1, test r.source = test entry.1 :=
      fun r hr => by rw [Definition.source_of_mem_references hr]
    rw [List.flatMap_cons, List.filter_append, ← ih, List.filter_congr hsource]
    by_cases ht : test entry.1 <;> simp [ht]

end Definitions
end DeclSchema
