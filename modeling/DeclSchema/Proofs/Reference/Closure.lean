import DeclSchema.Proofs.Table
import DeclSchema.Reference.Closure
import Mathlib.Logic.Relation

/-! # The closure is exact

A search that has not stopped yet is described by `Exploration`: what was found is
justified by a chain of references, and what is not yet followed lies on the frontier.
Each round keeps this, and each round but the first finds a definition that was missing,
so the search stops before its rounds run out.
-/
namespace DeclSchema

theorem targetOf?_eq_some_iff {text name : String} :
    targetOf? text = some name ↔
      (Shape.ofText text).referencedName? = some name ∧ name ∉ reservedNames := by
  simp [targetOf?, Option.filter_eq_some_iff, isReserved]

namespace Definition

def Mentions (d : Definition) (name : String) : Prop :=
  ∃ properties, d.properties? = some properties ∧ ∃ entry ∈ properties,
    (Shape.ofText entry.2.typeText).referencedName? = some name ∧ name ∉ reservedNames

theorem mem_targets_iff {d : Definition} {name : String} :
    name ∈ d.targets ↔ d.Mentions name := by
  unfold targets Mentions
  cases hd : d.properties? with
  | none => simp
  | some properties =>
    simp only [Option.getD_some, List.mem_filterMap, targetOf?_eq_some_iff, Option.some.injEq,
      exists_eq_left']

end Definition

def Definitions.Links (definitions : Definitions) (name target : String) : Prop :=
  ∃ d, definitions.value? name = some d ∧ d.Mentions target

/-- A name at the end of a chain of references that begins at a definition and does not
pass through the seed. -/
inductive Chained (definitions : Definitions) (seed : List String) (start : Definition) :
    String → Prop
  | first {name : String} (mention : start.Mentions name) : Chained definitions seed start name
  | next {name target : String} (chain : Chained definitions seed start name)
      (free : name ∉ seed) (link : definitions.Links name target) :
      Chained definitions seed start target

/-- Fewer names are unseen after one of them is found. -/
theorem length_unseen_lt {all found names : List String} {name : String} (ha : name ∈ all)
    (hf : name ∉ found) (hn : name ∈ names) :
    (all.filter fun other => !(found ++ names).contains other).length <
      (all.filter fun other => !found.contains other).length := by
  have hsub : all.filter (fun other => !(found ++ names).contains other) =
      (all.filter fun other => !found.contains other).filter fun other => !names.contains other := by
    rw [List.filter_filter]
    apply List.filter_congr
    intro other _
    simp [Bool.and_comm]
  rw [hsub, List.length_filter_lt_length_iff_exists]
  exact ⟨name, List.mem_filter.mpr ⟨ha, by simp [hf]⟩, by simp [hn]⟩

section Rounds
variable {definitions : Definitions} {start : Definition} {seed found : List String}
  {frontier : List Definition} {rounds : Nat}

theorem mem_freshNames_iff {found names : List String} {name : String} :
    name ∈ freshNames found names ↔ name ∈ names ∧ name ∉ found := by
  induction names generalizing found with
  | nil => simp [freshNames]
  | cons other rest ih =>
    unfold freshNames
    by_cases ho : other ∈ found
    · simp only [List.contains_eq_mem, ho, decide_true, if_true, ih, List.mem_cons]
      constructor
      · exact fun h => ⟨Or.inr h.1, h.2⟩
      · rintro ⟨rfl | h, hf⟩
        · exact absurd ho hf
        · exact ⟨h, hf⟩
    · simp only [List.contains_eq_mem, ho, decide_false, Bool.false_eq_true, if_false,
        List.mem_cons, ih, not_or]
      constructor
      · rintro (rfl | ⟨h, -, hf⟩)
        · exact ⟨Or.inl rfl, ho⟩
        · exact ⟨Or.inr h, hf⟩
      · rintro ⟨rfl | h, hf⟩
        · exact Or.inl rfl
        · by_cases hn : name = other
          · exact Or.inl hn
          · exact Or.inr ⟨h, hn, hf⟩

abbrev fresh (frontier : List Definition) (found : List String) : List String :=
  freshNames found (frontier.flatMap Definition.targets)

theorem mem_fresh_iff {name : String} :
    name ∈ fresh frontier found ↔ (∃ d ∈ frontier, d.Mentions name) ∧ name ∉ found := by
  simp only [mem_freshNames_iff, List.mem_flatMap, Definition.mem_targets_iff]

structure Exploration (definitions : Definitions) (seed : List String) (start : Definition)
    (frontier : List Definition) (found : List String) : Prop where
  seed_found : ∀ name ∈ seed, name ∈ found
  found_chained : ∀ name ∈ found, name ∈ seed ∨ Chained definitions seed start name
  frontier_chained : ∀ d ∈ frontier, ∀ name, d.Mentions name →
    Chained definitions seed start name
  start_followed : start ∈ frontier ∨ ∀ name, start.Mentions name → name ∈ found
  found_followed : ∀ name ∈ found, name ∉ seed → ∀ d, definitions.value? name = some d →
    d ∈ frontier ∨ ∀ target, d.Mentions target → target ∈ found

theorem Exploration.initial : Exploration definitions seed start [start] seed where
  seed_found _ h := h
  found_chained _ h := Or.inl h
  frontier_chained d hd name h := by
    rw [List.mem_singleton] at hd
    exact .first (hd ▸ h)
  start_followed := Or.inl (List.mem_singleton_self start)
  found_followed _ h hn := absurd h hn

/-- One round: what the frontier mentions is found, and the frontier moves on to the
definitions of the names that are new. -/
theorem Exploration.step (h : Exploration definitions seed start frontier found) :
    Exploration definitions seed start ((fresh frontier found).filterMap definitions.value?)
      (found ++ fresh frontier found) := by
  have hfollow : ∀ d ∈ frontier, ∀ name, d.Mentions name → name ∈ found ++ fresh frontier found := by
    intro d hd name hm
    by_cases hf : name ∈ found
    · exact List.mem_append_left _ hf
    · exact List.mem_append_right _ (mem_fresh_iff.mpr ⟨⟨d, hd, hm⟩, hf⟩)
  have hchain : ∀ name ∈ fresh frontier found, Chained definitions seed start name := by
    intro name hn
    obtain ⟨⟨d, hd, hm⟩, -⟩ := mem_fresh_iff.mp hn
    exact h.frontier_chained d hd name hm
  constructor
  · intro name hn
    exact List.mem_append_left _ (h.seed_found name hn)
  · intro name hn
    rcases List.mem_append.mp hn with hn | hn
    · exact h.found_chained name hn
    · exact Or.inr (hchain name hn)
  · intro d hd target hm
    obtain ⟨name, hn, hv⟩ := List.mem_filterMap.mp hd
    have hfree : name ∉ seed := fun hs => (mem_fresh_iff.mp hn).2 (h.seed_found name hs)
    exact (hchain name hn).next hfree ⟨d, hv, hm⟩
  · right
    rcases h.start_followed with hs | hs
    · exact hfollow start hs
    · exact fun name hm => List.mem_append_left _ (hs name hm)
  · intro name hn hfree d hv
    rcases List.mem_append.mp hn with hn | hn
    · right
      rcases h.found_followed name hn hfree d hv with hd | hd
      · exact hfollow d hd
      · exact fun target hm => List.mem_append_left _ (hd target hm)
    · exact Or.inl (List.mem_filterMap.mpr ⟨name, hn, hv⟩)

/-- A search whose frontier brings nothing new has found all chained names. -/
theorem Exploration.mem_iff (h : Exploration definitions seed start frontier found)
    (hdone : ∀ d ∈ frontier, ∀ name, d.Mentions name → name ∈ found) (name : String) :
    name ∈ found ↔ name ∈ seed ∨ Chained definitions seed start name := by
  refine ⟨h.found_chained name, ?_⟩
  rintro (hs | hc)
  · exact h.seed_found name hs
  · induction hc with
    | first hm => exact h.start_followed.elim (fun hs => hdone start hs _ hm) (fun hs => hs _ hm)
    | next _ hfree hlink ih =>
      obtain ⟨d, hv, hm⟩ := hlink
      exact (h.found_followed _ ih hfree d hv).elim (fun hd => hdone d hd _ hm) (fun hd => hd _ hm)

def missing (definitions : Definitions) (found : List String) : Nat :=
  (definitions.names.filter fun name => !found.contains name).length

theorem missing_le (definitions : Definitions) (found : List String) :
    missing definitions found ≤ definitions.length := by
  have h := List.length_filter_le (fun name => !found.contains name) definitions.names
  simpa [missing, Table.names] using h

theorem missing_lt {names : List String} {name : String} {d : Definition}
    (hn : name ∈ names) (hf : name ∉ found) (hv : definitions.value? name = some d) :
    missing definitions (found ++ names) < missing definitions found :=
  length_unseen_lt (Table.mem_names_iff.mpr ⟨d, hv⟩) hf hn

/-- The rounds that are left suffice: nothing is left to follow, or every further round but
the last comes upon a missing definition. -/
def Suffices (definitions : Definitions) (rounds : Nat) (frontier : List Definition)
    (found : List String) : Prop :=
  frontier = [] ∨ missing definitions found < rounds

theorem Suffices.step (h : Suffices definitions (rounds + 1) frontier found) :
    Suffices definitions rounds ((fresh frontier found).filterMap definitions.value?)
      (found ++ fresh frontier found) := by
  cases hnext : (fresh frontier found).filterMap definitions.value? with
  | nil => exact Or.inl rfl
  | cons d rest =>
    right
    have hd : d ∈ (fresh frontier found).filterMap definitions.value? := by simp [hnext]
    obtain ⟨name, hn, hv⟩ := List.mem_filterMap.mp hd
    have hlt := missing_lt hn (mem_fresh_iff.mp hn).2 hv
    rcases h with rfl | h
    · simp [mem_fresh_iff] at hn
    · omega

theorem expand_succ (definitions : Definitions) (rounds : Nat) (frontier : List Definition)
    (found : List String) :
    expand definitions (rounds + 1) frontier found =
      if (fresh frontier found).isEmpty then found
      else expand definitions rounds ((fresh frontier found).filterMap definitions.value?)
        (found ++ fresh frontier found) := rfl

theorem Exploration.mem_expand_iff (h : Exploration definitions seed start frontier found)
    (hr : Suffices definitions rounds frontier found) (name : String) :
    name ∈ expand definitions rounds frontier found ↔
      name ∈ seed ∨ Chained definitions seed start name := by
  induction rounds generalizing frontier found with
  | zero =>
    have hnil : frontier = [] := hr.resolve_right (Nat.not_lt_zero _)
    exact h.mem_iff (by simp [hnil]) name
  | succ rounds ih =>
    rw [expand_succ]
    split
    · rename_i hempty
      refine h.mem_iff ?_ name
      intro d hd other hm
      by_contra hf
      have hmem := mem_fresh_iff.mpr ⟨⟨d, hd, hm⟩, hf⟩
      rw [List.isEmpty_iff.mp hempty] at hmem
      simp at hmem
    · exact ih h.step hr.step

/-- Rounds beyond those that suffice change nothing. -/
theorem expand_add (hr : Suffices definitions rounds frontier found) (extra : Nat) :
    expand definitions (rounds + extra) frontier found = expand definitions rounds frontier found := by
  induction rounds generalizing frontier found with
  | zero =>
    have hnil : frontier = [] := hr.resolve_right (Nat.not_lt_zero _)
    cases extra <;> simp [hnil, expand, freshNames]
  | succ rounds ih =>
    rw [show rounds + 1 + extra = rounds + extra + 1 by omega, expand_succ, expand_succ]
    split
    · rfl
    · exact ih hr.step

end Rounds

theorem suffices_initial (definitions : Definitions) (start : Definition) (seed : List String) :
    Suffices definitions (definitions.length + 2) [start] seed := by
  have h := missing_le definitions seed
  exact Or.inr (by omega)

theorem mem_closure_iff (definitions : Definitions) (start : Definition) (seed : List String)
    (name : String) :
    name ∈ closure definitions start seed ↔ name ∈ seed ∨ Chained definitions seed start name :=
  Exploration.initial.mem_expand_iff (suffices_initial definitions start seed) name

/-- From the own definition of a root, chains that do not return to the root lead to
everything that the root leads to. -/
theorem mem_closure_root_iff {definitions : Definitions} {root : String} {start : Definition}
    (h : definitions.value? root = some start) (name : String) :
    name ∈ closure definitions start [root] ↔
      Relation.ReflTransGen definitions.Links root name := by
  rw [mem_closure_iff, List.mem_singleton]
  constructor
  · rintro (rfl | hc)
    · exact .refl
    · induction hc with
      | first hm => exact .single ⟨start, h, hm⟩
      | next _ _ hlink ih => exact ih.tail hlink
  · intro hr
    induction hr with
    | refl => exact Or.inl rfl
    | @tail name target _ hlink ih =>
      right
      by_cases hn : name = root
      · obtain ⟨d, hv, hm⟩ := hlink
        rw [hn, h] at hv
        cases hv
        exact .first hm
      · exact (ih.resolve_left hn).next (by simpa using hn) hlink

/-- The closure holds the seed and the names at the end of chains that do not pass through
the seed, and further rounds would change nothing. From the own definition of a root it
holds whatever the root leads to. -/
theorem closure_exact (definitions : Definitions) (start : Definition) (seed : List String) :
    (∀ name, name ∈ closure definitions start seed ↔
      name ∈ seed ∨ Chained definitions seed start name) ∧
    (∀ extra, expand definitions (definitions.length + 2 + extra) [start] seed =
      closure definitions start seed) ∧
    (∀ root, definitions.value? root = some start → ∀ name,
      name ∈ closure definitions start [root] ↔
        Relation.ReflTransGen definitions.Links root name) :=
  ⟨mem_closure_iff definitions start seed,
    expand_add (suffices_initial definitions start seed),
    fun _ h => mem_closure_root_iff h⟩

end DeclSchema
