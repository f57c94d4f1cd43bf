import DeclSchema.Suggestion
import Mathlib.Data.List.Nodup
import Mathlib.Data.List.Perm.Basic

/-! # Suggestions come in one order

Equal scores are told apart by the names, so the order of the suggestions is strict whatever
the scores are. The suggestions are therefore a front part of one list, and this list depends on
which names there are and not on the order in which they were declared.
-/
namespace DeclSchema.Suggestion

variable {score : String → Option Int} {names names' : List String} {name other third : String}

/-- A name with a better score comes first, and of two names with the same score the smaller
one. A name without a score comes nowhere. -/
def Precedes (score : String → Option Int) (name other : String) : Prop :=
  ∃ s t, score name = some s ∧ score other = some t ∧ (t < s ∨ s = t ∧ name < other)

theorem Precedes.asymm (h : Precedes score name other) : ¬ Precedes score other name := by
  obtain ⟨s, t, hs, ht, hst⟩ := h
  rintro ⟨t', s', ht', hs', hts⟩
  have hs : s = s' := Option.some.inj (hs.symm.trans hs')
  have ht : t = t' := Option.some.inj (ht.symm.trans ht')
  subst hs ht
  rcases hst with hlt | ⟨rfl, hlt⟩
  · rcases hts with hgt | ⟨heq, -⟩ <;> omega
  · rcases hts with hgt | ⟨-, hgt⟩
    · omega
    · exact Std.lt_irrefl (Std.lt_trans hlt hgt)

theorem Precedes.ne (h : Precedes score name other) : name ≠ other := by
  rintro rfl
  exact h.asymm h

def scored (score : String → Option Int) (names : List String) : List (Int × String) :=
  names.filterMap fun name => (score name).map fun s => (s, name)

def ahead (a b : Int × String) : Bool := a.1 > b.1 || (a.1 == b.1 && !(b.2 < a.2))

theorem ranked_eq (score : String → Option Int) (names : List String) :
    ranked score names = ((scored score names).mergeSort ahead).map Prod.snd := rfl

theorem ahead_iff {a b : Int × String} :
    ahead a b = true ↔ b.1 < a.1 ∨ a.1 = b.1 ∧ a.2 ≤ b.2 := by
  simp only [ahead, Bool.or_eq_true, Bool.and_eq_true, decide_eq_true_eq, beq_iff_eq,
    Bool.not_eq_true', decide_eq_false_iff_not, Std.not_lt, gt_iff_lt]

theorem ahead_trans (a b c : Int × String) (hab : ahead a b = true) (hbc : ahead b c = true) :
    ahead a c = true := by
  rw [ahead_iff] at *
  rcases hab with hab | ⟨hab, hn⟩
  · rcases hbc with hbc | ⟨hbc, -⟩ <;> omega
  · rcases hbc with hbc | ⟨hbc, hn'⟩
    · omega
    · exact .inr ⟨hab.trans hbc, Std.le_trans hn hn'⟩

theorem ahead_total (a b : Int × String) : (ahead a b || ahead b a) = true := by
  rw [Bool.or_eq_true, ahead_iff, ahead_iff]
  rcases Int.lt_trichotomy a.1 b.1 with h | h | h
  · exact .inr (.inl h)
  · rcases Std.le_total (a := a.2) (b := b.2) with hn | hn
    · exact .inl (.inr ⟨h, hn⟩)
    · exact .inr (.inr ⟨h.symm, hn⟩)
  · exact .inl (.inl h)

theorem mem_scored_iff {s : Int} :
    (s, name) ∈ scored score names ↔ name ∈ names ∧ score name = some s := by
  simp only [scored, List.mem_filterMap, Option.map_eq_some_iff, Prod.mk.injEq]
  constructor
  · rintro ⟨other, hmem, t, ht, rfl, rfl⟩
    exact ⟨hmem, ht⟩
  · rintro ⟨hmem, hs⟩
    exact ⟨name, hmem, s, hs, rfl, rfl⟩

theorem names_scored (score : String → Option Int) (names : List String) :
    (scored score names).map Prod.snd = names.filter fun name => (score name).isSome := by
  induction names with
  | nil => rfl
  | cons name rest ih =>
    cases hs : score name <;> simp_all [scored]

theorem mem_ranked_iff : name ∈ ranked score names ↔ name ∈ names ∧ ∃ s, score name = some s := by
  simp [ranked_eq, mem_scored_iff]

theorem length_ranked (score : String → Option Int) (names : List String) :
    (ranked score names).length = names.countP fun name => (score name).isSome := by
  have h := congrArg List.length (names_scored score names)
  simpa [ranked_eq, List.countP_eq_length_filter] using h

/-- Every name of the ranking precedes those behind it. -/
theorem pairwise_ranked (score : String → Option Int) (h : names.Nodup) :
    (ranked score names).Pairwise (Precedes score) := by
  have hsorted := List.pairwise_mergeSort ahead_trans ahead_total (scored score names)
  have hdiffer : ((scored score names).mergeSort ahead).Pairwise fun a b => a.2 ≠ b.2 := by
    have hperm := (List.mergeSort_perm (scored score names) ahead).map Prod.snd
    have hnodup : ((scored score names).map Prod.snd).Nodup := by
      rw [names_scored]
      exact h.filter _
    exact List.pairwise_map.mp (hperm.nodup_iff.mpr hnodup)
  rw [ranked_eq, List.pairwise_map]
  apply (hsorted.and hdiffer).imp_of_mem
  rintro ⟨s, name⟩ ⟨t, other⟩ hname hother ⟨hahead, hne⟩
  refine ⟨s, t, (mem_scored_iff.mp (List.mem_mergeSort.mp hname)).2,
    (mem_scored_iff.mp (List.mem_mergeSort.mp hother)).2, ?_⟩
  rcases ahead_iff.mp hahead with hlt | ⟨heq, hle⟩
  · exact .inl hlt
  · exact .inr ⟨heq, Std.lt_of_le_of_ne hle hne⟩

/-- The ranking is decided by which names there are. -/
theorem ranked_eq_of_mem_iff (h : names.Nodup) (h' : names'.Nodup)
    (hmem : ∀ name, name ∈ names ↔ name ∈ names') : ranked score names = ranked score names' := by
  have hsorted := pairwise_ranked score h
  have hsorted' := pairwise_ranked score h'
  have hperm : (ranked score names).Perm (ranked score names') := by
    refine (List.perm_ext_iff_of_nodup (hsorted.imp Precedes.ne) (hsorted'.imp Precedes.ne)).mpr ?_
    intro name
    simp [mem_ranked_iff, hmem]
  exact hperm.eq_of_pairwise (fun _ _ _ _ hab hba => absurd hba hab.asymm) hsorted hsorted'

/-- Nothing behind a cut precedes what stands before it. -/
theorem mem_take_of_precedes {listed : List String} {limit : Nat}
    (h : listed.Pairwise (Precedes score)) (hname : name ∈ listed.take limit)
    (hother : other ∈ listed) (hprecedes : Precedes score other name) :
    other ∈ listed.take limit := by
  rw [← List.take_append_drop limit listed] at h hother
  rcases List.mem_append.mp hother with hfront | hback
  · exact hfront
  · have hbefore := (List.pairwise_append.mp h).2.2 name hname other hback
    exact absurd hprecedes hbefore.asymm

/-- Whatever the scores are, the suggestions are names of definitions with a score, in strict
order, as many as the limit allows and none of them left out for a later one. A smaller limit
takes the first ones of a larger limit, and the order of the definitions does not matter. -/
theorem suggestBy_canonical (score : String → String → Option Int) (definitions : Definitions)
    (hnodup : definitions.names.Nodup) (query : String) (limit : Nat) :
    (∀ larger, limit ≤ larger → suggestBy score definitions query limit =
      (suggestBy score definitions query larger).take limit) ∧
    (suggestBy score definitions query limit).Nodup ∧
    (∀ name ∈ suggestBy score definitions query limit,
      name ∈ definitions.names ∧ (score name query).isSome) ∧
    (suggestBy score definitions query limit).Pairwise (Precedes (score · query)) ∧
    (∀ name ∈ suggestBy score definitions query limit, ∀ other ∈ definitions.names,
      Precedes (score · query) other name → other ∈ suggestBy score definitions query limit) ∧
    (suggestBy score definitions query limit).length =
      min limit (definitions.names.countP fun name => (score name query).isSome) ∧
    ∀ shuffled : Definitions, shuffled.names.Nodup →
      (∀ name, name ∈ shuffled.names ↔ name ∈ definitions.names) →
      suggestBy score shuffled query limit = suggestBy score definitions query limit := by
  have hranked := pairwise_ranked (score · query) hnodup
  have hlisted : (suggestBy score definitions query limit).Pairwise (Precedes (score · query)) :=
    hranked.sublist (List.take_sublist _ _)
  refine ⟨fun larger hle => ?_, hlisted.imp Precedes.ne, fun name hname => ?_, hlisted,
    fun name hname other hother hprecedes => ?_, ?_, fun shuffled hshuffled hmem => ?_⟩
  · simp [suggestBy, List.take_take, Nat.min_eq_left hle]
  · obtain ⟨hmem, s, hs⟩ := mem_ranked_iff.mp (List.mem_of_mem_take hname)
    exact ⟨hmem, Option.isSome_of_eq_some hs⟩
  · have ⟨s, _, hs, _⟩ := hprecedes
    exact mem_take_of_precedes hranked hname (mem_ranked_iff.mpr ⟨hother, s, hs⟩) hprecedes
  · simp [suggestBy, length_ranked]
  · exact congrArg (List.take limit) (ranked_eq_of_mem_iff hshuffled hnodup hmem)

def profiles : Definitions :=
  [("Order", .empty), ("UserProfiles", .empty), ("UserSettings", .empty), ("UserProfile", .empty)]

theorem suggest_of_profiles :
    profiles.names.Nodup ∧ (Table.names profiles.reverse).Nodup ∧
      suggestBy score? profiles "userprof" 1 = (suggestBy score? profiles "userprof" 2).take 1 ∧
      suggestBy score? profiles "userprof" 1 = ["UserProfile"] ∧
      suggestBy score? profiles.reverse "userprof" 1 = ["UserProfile"] := by
  have hnodup : profiles.names.Nodup := by decide
  have hreversed : (Table.names profiles.reverse).Nodup := by decide
  obtain ⟨hfirst, -, hscored, -, hcomplete, hlength, hshuffled⟩ :=
    suggestBy_canonical score? profiles hnodup "userprof" 1
  have hone : (suggestBy score? profiles "userprof" 1).length = 1 :=
    hlength.trans (by decide +kernel)
  have htie : Precedes (score? · "userprof") "UserProfile" "UserProfiles" :=
    ⟨169, 169, by decide +kernel, by decide +kernel, .inr ⟨rfl, by decide⟩⟩
  obtain ⟨name, hname⟩ := List.length_eq_one_iff.mp hone
  have hprofile : suggestBy score? profiles "userprof" 1 = ["UserProfile"] := by
    rw [hname] at hscored hcomplete ⊢
    obtain ⟨hmem, hs⟩ := hscored name List.mem_cons_self
    simp only [profiles, Table.names_cons, Table.names_nil, List.mem_cons, List.not_mem_nil,
      or_false] at hmem
    rcases hmem with rfl | rfl | rfl | rfl
    · exact absurd hs (by decide +kernel)
    · simpa using hcomplete _ List.mem_cons_self "UserProfile" (by decide) htie
    · exact absurd hs (by decide +kernel)
    · rfl
  refine ⟨hnodup, hreversed, hfirst 2 (by decide), hprofile, ?_⟩
  rw [hshuffled profiles.reverse hreversed (by simp [Table.names]), hprofile]

end DeclSchema.Suggestion
