import DeclSchema.Table
import Mathlib.Data.List.Basic
import Mathlib.Data.List.Induction
import Mathlib.Data.List.Nodup

/-! # Tables by their names and values

A table whose names differ is given by the order of its names and the value of each name.
Writing, keeping and mapping are described by what they do to these two, and a table laid
over other tables is built from them.
-/
namespace DeclSchema.Table
variable {α β : Type}

@[simp] theorem value?_nil (name : String) : value? ([] : Table α) name = none := rfl

theorem value?_cons (other : String) (a : α) (t : Table α) (name : String) :
    value? ((other, a) :: t) name = if other = name then some a else t.value? name := rfl

theorem mem_names_iff {t : Table α} {name : String} :
    name ∈ t.names ↔ ∃ a, t.value? name = some a := by
  induction t with
  | nil => simp
  | cons entry rest ih =>
    obtain ⟨other, b⟩ := entry
    by_cases ho : other = name
    · simp [value?_cons, ho]
    · simp [value?_cons, ho, Ne.symm ho, ih]

theorem value?_eq_none_iff {t : Table α} {name : String} :
    t.value? name = none ↔ name ∉ t.names := by
  rw [mem_names_iff, Option.eq_none_iff_forall_ne_some]
  simp

/-- Where names differ, every entry is what its name looks up. -/
theorem value?_of_mem {t : Table α} {name : String} {a : α} (h : t.names.Nodup)
    (hm : (name, a) ∈ t) : t.value? name = some a := by
  induction t with
  | nil => cases hm
  | cons entry rest ih =>
    obtain ⟨other, b⟩ := entry
    obtain ⟨hfresh, hrest⟩ := List.nodup_cons.mp h
    rcases List.mem_cons.mp hm with heq | hm
    · cases heq
      simp [value?_cons]
    · have hne : other ≠ name := by
        rintro rfl
        exact hfresh (List.mem_map.mpr ⟨_, hm, rfl⟩)
      rw [value?_cons, if_neg hne]
      exact ih hrest hm

theorem mem_of_value? {t : Table α} {name : String} {a : α} (h : t.value? name = some a) :
    (name, a) ∈ t := by
  induction t with
  | nil => cases h
  | cons entry rest ih =>
    obtain ⟨other, b⟩ := entry
    rw [value?_cons] at h
    split at h
    · rename_i ho
      cases h
      rw [ho]
      exact List.mem_cons_self
    · exact List.mem_cons_of_mem _ (ih h)

/-- Names in order and values determine a table whose names differ. -/
theorem ext_of_nodup {t u : Table α} (h : t.names.Nodup) (hn : t.names = u.names)
    (hv : ∀ name, t.value? name = u.value? name) : t = u := by
  induction t generalizing u with
  | nil => exact (List.map_eq_nil_iff.mp hn.symm).symm
  | cons entry rest ih =>
    obtain ⟨name, a⟩ := entry
    cases u with
    | nil => simp at hn
    | cons entry' rest' =>
      obtain ⟨name', a'⟩ := entry'
      simp only [names_cons, List.cons.injEq] at hn
      obtain ⟨rfl, hrest⟩ := hn
      have ha : a = a' := by simpa [value?_cons] using hv name
      obtain ⟨hnew, hnodup⟩ := List.nodup_cons.mp h
      have hvals : ∀ other, value? rest other = value? rest' other := by
        intro other
        by_cases ho : name = other
        · subst ho
          rw [value?_eq_none_iff.mpr hnew, value?_eq_none_iff.mpr (hrest ▸ hnew)]
        · simpa [value?_cons, ho] using hv other
      rw [ha, ih hnodup hrest hvals]

/-- Tables whose names differ and that have the same values differ in their order alone. -/
theorem perm_of_value? {t u : Table α} (h : t.names.Nodup) (h' : u.names.Nodup)
    (hv : ∀ name, t.value? name = u.value? name) : t.Perm u := by
  rw [List.perm_ext_iff_of_nodup (List.Nodup.of_map _ h) (List.Nodup.of_map _ h')]
  rintro ⟨name, a⟩
  constructor
  · intro hm
    exact mem_of_value? ((hv name).symm.trans (value?_of_mem h hm))
  · intro hm
    exact mem_of_value? ((hv name).trans (value?_of_mem h' hm))

@[simp] theorem names_mapValues (f : α → β) (t : Table α) : (t.mapValues f).names = t.names := by
  simp [names, mapValues]

theorem value?_map (f : String → α → β) (t : Table α) (name : String) :
    value? (t.map fun entry => (entry.1, f entry.1 entry.2)) name = (t.value? name).map (f name) := by
  induction t with
  | nil => rfl
  | cons entry rest ih =>
    obtain ⟨other, a⟩ := entry
    rw [List.map_cons, value?_cons, value?_cons, ih]
    split
    · rename_i ho
      rw [ho, Option.map_some]
    · rfl

theorem mapValues_keep (f : α → β) (t : Table α) (test : String → Bool) :
    (t.keep test).mapValues f = (t.mapValues f).keep test := by
  unfold keep mapValues
  rw [List.filter_map]
  rfl

theorem names_keep (t : Table α) (test : String → Bool) :
    (t.keep test).names = t.names.filter test := by
  unfold names keep
  rw [List.filter_map]
  rfl

theorem value?_keep (t : Table α) (test : String → Bool) (name : String) :
    (t.keep test).value? name = if test name then t.value? name else none := by
  induction t with
  | nil => simp [keep]
  | cons entry rest ih =>
    obtain ⟨other, a⟩ := entry
    have hkeep : keep ((other, a) :: rest) test =
        if test other then (other, a) :: keep rest test else keep rest test := List.filter_cons
    rw [hkeep]
    by_cases ht : test other = true <;> by_cases ho : other = name
    · subst ho
      simp [ht, value?_cons]
    · simp [ht, ho, value?_cons, ih]
    · subst ho
      simp [ht, ih]
    · simp [ht, ho, value?_cons, ih]

theorem keep_congr {t : Table α} {test test' : String → Bool}
    (h : ∀ name ∈ t.names, test name = test' name) : t.keep test = t.keep test' := by
  apply List.filter_congr
  intro entry he
  exact h entry.1 (List.mem_map_of_mem he)

theorem names_put (t : Table α) (name : String) (a : α) :
    (t.put name a).names = if name ∈ t.names then t.names else t.names ++ [name] := by
  split
  · exact names_put_of_mem a ‹_›
  · exact names_put_of_not_mem a ‹_›

theorem value?_put (t : Table α) (name other : String) (a : α) :
    (t.put name a).value? other = if other = name then some a else t.value? other := by
  split
  · rename_i h
    rw [h, value?_put_self]
  · exact value?_put_of_ne t a ‹_›

theorem put_append_singleton {t : Table α} {name : String} (h : name ∉ t.names) (a b : α) :
    put (t ++ [(name, a)]) name b = t ++ [(name, b)] := by
  induction t with
  | nil => simp [put]
  | cons entry rest ih =>
    obtain ⟨other, c⟩ := entry
    simp only [names_cons, List.mem_cons, not_or] at h
    simp [put, Ne.symm h.1, ih h.2]

theorem value?_append (t u : Table α) (name : String) :
    value? (t ++ u) name = (t.value? name).or (u.value? name) := by
  induction t with
  | nil => rfl
  | cons entry rest ih =>
    obtain ⟨other, a⟩ := entry
    rw [List.cons_append, value?_cons, value?_cons, ih]
    split <;> rfl

theorem has_eq_decide (t : Table α) (name : String) : t.has name = decide (name ∈ t.names) := by
  rw [Bool.eq_iff_iff, has_iff_mem_names, decide_eq_true_iff]

theorem names_putNew (t : Table α) (name : String) (a : α) :
    (t.putNew name a).names = if name ∈ t.names then t.names else t.names ++ [name] := by
  unfold putNew
  rw [has_eq_decide]
  by_cases h : name ∈ t.names
  · simp only [h, decide_true, if_true]
  · simp only [h, decide_false, Bool.false_eq_true, if_false]
    exact List.map_append

theorem value?_putNew (t : Table α) (name other : String) (a : α) :
    (t.putNew name a).value? other = (t.value? other).or (if other = name then some a else none) := by
  unfold putNew
  rw [has_eq_decide]
  by_cases h : name ∈ t.names
  · obtain ⟨b, hb⟩ := mem_names_iff.mp h
    by_cases ho : other = name
    · simp [h, ho, hb]
    · simp [h, ho]
  · simp [h, value?_append, value?_cons, eq_comm]

/-- A name that is there already does not come again. -/
theorem eraseDups_append_cons_of_mem {names rest : List String} {name : String}
    (h : name ∈ names) : (names ++ name :: rest).eraseDups = (names ++ rest).eraseDups := by
  rw [List.eraseDups_append, List.eraseDups_append]
  simp [List.removeAll, h]

theorem eraseDups_of_nodup {names : List String} (h : names.Nodup) : names.eraseDups = names := by
  induction names with
  | nil => rfl
  | cons name rest ih =>
    obtain ⟨hnew, hrest⟩ := List.nodup_cons.mp h
    rw [List.eraseDups_cons, List.filter_eq_self.mpr ?_, ih hrest]
    intro other ho
    have hne : other ≠ name := fun he => hnew (he ▸ ho)
    simpa using hne

theorem nodup_eraseDups [BEq α] [LawfulBEq α] (items : List α) : items.eraseDups.Nodup := by
  induction hn : items.length using Nat.strongRecOn generalizing items with
  | _ n ih =>
    cases items with
    | nil => simp
    | cons item rest =>
      rw [List.eraseDups_cons, List.nodup_cons]
      have hlen := List.length_filter_le (fun other => !other == item) rest
      simp only [List.length_cons] at hn
      exact ⟨by simp [List.mem_eraseDups], ih _ (by omega) _ rfl⟩

theorem eraseDups_eraseDups_append (names rest : List String) :
    (names.eraseDups ++ rest).eraseDups = (names ++ rest).eraseDups := by
  rw [List.eraseDups_append, List.eraseDups_append, eraseDups_of_nodup (nodup_eraseDups names)]
  congr 2
  simp [List.removeAll, List.mem_eraseDups]

/-- Writing one table into another appends the names that are new. -/
theorem names_putAll {t : Table α} (u : Table α) (h : t.names.Nodup) :
    (t.putAll u).names = (t.names ++ u.names).eraseDups := by
  induction u generalizing t with
  | nil => simp [putAll, eraseDups_of_nodup h]
  | cons entry rest ih =>
    obtain ⟨name, a⟩ := entry
    have hput : putAll t ((name, a) :: rest) = putAll (t.put name a) rest := rfl
    rw [hput, ih (nodup_names_put name a h), names_put, names_cons]
    split
    · rw [eraseDups_append_cons_of_mem ‹_›]
    · rw [List.append_assoc, List.singleton_append]

theorem value?_putAll (t : Table α) {u : Table α} (h : u.names.Nodup) (name : String) :
    (t.putAll u).value? name = (u.value? name).or (t.value? name) := by
  induction u generalizing t with
  | nil => rfl
  | cons entry rest ih =>
    obtain ⟨other, a⟩ := entry
    obtain ⟨hnew, hrest⟩ := List.nodup_cons.mp h
    have hput : putAll t ((other, a) :: rest) = putAll (t.put other a) rest := rfl
    rw [hput, ih _ hrest, value?_put, value?_cons]
    by_cases ho : name = other
    · subst ho
      simp [value?_eq_none_iff.mpr hnew]
    · simp [ho, Ne.symm ho]

theorem putAll_put {t u : Table α} (h : t.names.Nodup) (hu : u.names.Nodup) (name : String) (a : α) :
    t.putAll (u.put name a) = (t.putAll u).put name a := by
  have hput : (u.put name a).names.Nodup := nodup_names_put name a hu
  have hall : (t.putAll u).names.Nodup := nodup_names_putAll u h
  apply ext_of_nodup (nodup_names_putAll _ h)
  · have hone : (t.putAll u).put name a = putAll (t.putAll u) [(name, a)] := rfl
    rw [hone, names_putAll _ hall, names_putAll _ h, names_putAll _ h, eraseDups_eraseDups_append,
      names_put]
    split
    · rename_i hmem
      exact (eraseDups_append_cons_of_mem (List.mem_append_right _ hmem)).symm ▸ by simp
    · rw [List.append_assoc]
      rfl
  · intro other
    rw [value?_putAll _ hput, value?_put, value?_put, value?_putAll _ hu]
    split <;> rfl

theorem putAll_append (t u : Table α) (entries : List (String × α)) :
    t.putAll (u ++ entries) = (t.putAll u).putAll entries := List.foldl_append

theorem ofEntries_concat (entries : List (String × α)) (entry : String × α) :
    ofEntries (entries ++ [entry]) = (ofEntries entries).put entry.1 entry.2 :=
  putAll_append [] entries [entry]

/-- Writing the table that entries make is writing these entries one after another. -/
theorem putAll_ofEntries {t : Table α} (h : t.names.Nodup) (entries : List (String × α)) :
    t.putAll (ofEntries entries) = t.putAll entries := by
  induction entries using List.reverseRecOn with
  | nil => rfl
  | append_singleton entries entry ih =>
    rw [ofEntries_concat, putAll_put h (nodup_names_ofEntries entries), ih, putAll_append]
    rfl

theorem ofEntries_append (entries entries' : List (String × α)) :
    ofEntries (entries ++ entries') = (ofEntries entries).putAll (ofEntries entries') := by
  rw [putAll_ofEntries (nodup_names_ofEntries entries)]
  exact putAll_append [] entries entries'

theorem names_ofEntries (entries : List (String × α)) :
    (ofEntries entries).names = (entries.map Prod.fst).eraseDups := by
  rw [ofEntries, names_putAll entries (t := []) List.nodup_nil]
  rfl

theorem putAllNew_cons (t : Table α) (name : String) (a : α) (rest : Table α) :
    t.putAllNew ((name, a) :: rest) = (t.putNew name a).putAllNew rest := rfl

theorem nodup_names_putNew {t : Table α} (name : String) (a : α) (h : t.names.Nodup) :
    (t.putNew name a).names.Nodup := by
  unfold putNew
  split
  · exact h
  · rename_i hm
    rw [has_iff_mem_names] at hm
    rw [← put_of_not_mem a hm]
    exact nodup_names_put name a h

theorem names_putAllNew {t : Table α} (u : Table α) (h : t.names.Nodup) :
    (t.putAllNew u).names = (t.names ++ u.names).eraseDups := by
  induction u generalizing t with
  | nil => simp [putAllNew, eraseDups_of_nodup h]
  | cons entry rest ih =>
    obtain ⟨name, a⟩ := entry
    rw [putAllNew_cons, ih (nodup_names_putNew name a h), names_putNew, names_cons]
    split
    · rw [eraseDups_append_cons_of_mem ‹_›]
    · rw [List.append_assoc, List.singleton_append]

theorem value?_putAllNew (t u : Table α) (name : String) :
    (t.putAllNew u).value? name = (t.value? name).or (u.value? name) := by
  induction u generalizing t with
  | nil => simp [putAllNew]
  | cons entry rest ih =>
    obtain ⟨other, a⟩ := entry
    rw [putAllNew_cons, ih, value?_putNew, value?_cons, Option.or_assoc]
    congr 1
    by_cases ho : name = other
    · simp [ho]
    · simp [ho, Ne.symm ho]

/-- A table over others. The names come in the order in which they are first mentioned, by
the lower tables one after another and by the upper table last. The value of a name is that
of the upper table, or else that of the first lower table that has it. -/
def overlay (upper : Table α) (lower : List (Table α)) : Table α :=
  (lower.flatMap names ++ upper.names).eraseDups.filterMap fun name =>
    ((upper.value? name).or (lower.findSome? (·.value? name))).map (name, ·)

theorem names_table (f : String → Option α) (names : List String) :
    Table.names (names.filterMap fun name => (f name).map (name, ·)) =
      names.filter fun name => (f name).isSome := by
  induction names with
  | nil => rfl
  | cons name rest ih => cases h : f name <;> simp [h, ih]

theorem value?_table (f : String → Option α) (names : List String) (name : String) :
    value? (names.filterMap fun name => (f name).map (name, ·)) name =
      if name ∈ names then f name else none := by
  induction names with
  | nil => rfl
  | cons other rest ih =>
    by_cases ho : name = other
    · subst ho
      cases h : f name <;> simp [h, value?_cons, ih]
    · cases h : f other <;> simp [h, value?_cons, ih, ho, Ne.symm ho]

theorem isSome_findSome?_iff {lower : List (Table α)} {name : String} :
    (lower.findSome? (·.value? name)).isSome ↔ name ∈ lower.flatMap names := by
  rw [List.findSome?_isSome_iff]
  simp only [List.mem_flatMap, mem_names_iff, Option.isSome_iff_exists]

theorem names_overlay (upper : Table α) (lower : List (Table α)) :
    (upper.overlay lower).names = (lower.flatMap names ++ upper.names).eraseDups := by
  unfold overlay
  rw [names_table, List.filter_eq_self]
  intro name hn
  rcases List.mem_append.mp (List.mem_eraseDups.mp hn) with h | h
  · simp [isSome_findSome?_iff.mpr h]
  · obtain ⟨a, ha⟩ := mem_names_iff.mp h
    simp [ha]

theorem nodup_names_overlay (upper : Table α) (lower : List (Table α)) :
    (upper.overlay lower).names.Nodup := by
  rw [names_overlay]
  exact nodup_eraseDups _

theorem value?_overlay (upper : Table α) (lower : List (Table α)) (name : String) :
    (upper.overlay lower).value? name =
      (upper.value? name).or (lower.findSome? (·.value? name)) := by
  unfold overlay
  rw [value?_table]
  split
  · rfl
  · rename_i hn
    rw [List.mem_eraseDups, List.mem_append, not_or] at hn
    have hlower := mt isSome_findSome?_iff.mp hn.1
    rw [Bool.not_eq_true, Option.isSome_eq_false_iff, Option.isNone_iff_eq_none] at hlower
    rw [value?_eq_none_iff.mpr hn.2, hlower, Option.or_none]

theorem mem_names_overlay_iff {upper : Table α} {lower : List (Table α)} {name : String} :
    name ∈ (upper.overlay lower).names ↔ name ∈ upper.names ∨ ∃ t ∈ lower, name ∈ t.names := by
  rw [names_overlay, List.mem_eraseDups, List.mem_append, List.mem_flatMap, or_comm]

@[simp] theorem overlay_nil {upper : Table α} (h : upper.names.Nodup) : upper.overlay [] = upper := by
  apply ext_of_nodup (nodup_names_overlay upper [])
  · rw [names_overlay, List.flatMap_nil, List.nil_append, eraseDups_of_nodup h]
  · intro name
    rw [value?_overlay, List.findSome?_nil, Option.or_none]

theorem foldl_putAllNew_overlay (lower : List (Table α)) {t : Table α} (h : t.names.Nodup) :
    (lower.foldl putAllNew t).names = (t.names ++ lower.flatMap names).eraseDups ∧
      ∀ name, (lower.foldl putAllNew t).value? name =
        (t.value? name).or (lower.findSome? (·.value? name)) := by
  induction lower generalizing t with
  | nil => exact ⟨by simp [eraseDups_of_nodup h], fun name => by simp⟩
  | cons u rest ih =>
    have hnodup : (t.putAllNew u).names.Nodup := by
      rw [names_putAllNew u h]
      exact nodup_eraseDups _
    obtain ⟨hnames, hvalue⟩ := ih hnodup
    constructor
    · rw [List.foldl_cons, hnames, names_putAllNew u h, eraseDups_eraseDups_append,
        List.flatMap_cons, List.append_assoc]
    · intro name
      rw [List.foldl_cons, hvalue, value?_putAllNew, List.findSome?_cons, Option.or_assoc]
      cases u.value? name <;> rfl

/-- Collecting the lower tables, where earlier ones win, and then writing the upper table. -/
theorem putAll_foldl_putAllNew (lower : List (Table α)) {upper : Table α}
    (h : upper.names.Nodup) : putAll (lower.foldl putAllNew []) upper = upper.overlay lower := by
  obtain ⟨hnames, hvalue⟩ := foldl_putAllNew_overlay lower (t := []) List.nodup_nil
  have hnodup : (lower.foldl putAllNew []).names.Nodup := by
    rw [hnames]
    exact nodup_eraseDups _
  apply ext_of_nodup (nodup_names_putAll upper hnodup)
  · rw [names_putAll upper hnodup, hnames, names_overlay, names_nil, List.nil_append,
      eraseDups_eraseDups_append]
  · intro name
    rw [value?_putAll _ h, hvalue, value?_overlay, value?_nil, Option.none_or]

end DeclSchema.Table
