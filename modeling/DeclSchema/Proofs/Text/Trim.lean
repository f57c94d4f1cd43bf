import DeclSchema.Text.Chars
import Mathlib.Data.List.Basic
import Mathlib.Data.List.DropRight

/-! # Trimmed text

A text is trimmed if it neither begins nor ends with white space. Trimming makes it so and
takes nothing but white space away.
-/
namespace DeclSchema.Text

def AllBlank (s : List Char) : Prop := ∀ c ∈ s, isBlank c = true

structure Trimmed (s : List Char) : Prop where
  head : ∀ c, s.head? = some c → isBlank c = false
  last : ∀ c, s.getLast? = some c → isBlank c = false

variable {s before after : List Char}

theorem AllBlank.append (h : AllBlank before) (h' : AllBlank after) : AllBlank (before ++ after) :=
  fun c hc => (List.mem_append.mp hc).elim (h c) (h' c)

theorem trimStart_append (h : AllBlank before) (s : List Char) :
    trimStart (before ++ s) = trimStart s :=
  List.dropWhile_append_of_pos h

theorem trimEnd_append (h : AllBlank after) (s : List Char) : trimEnd (s ++ after) = trimEnd s := by
  rw [trimEnd, trimEnd, List.reverse_append,
    List.dropWhile_append_of_pos fun c hc => h c (List.mem_reverse.mp hc)]

theorem trimStart_of_head (h : ∀ c, s.head? = some c → isBlank c = false) : trimStart s = s := by
  cases s with
  | nil => rfl
  | cons c s => exact List.dropWhile_cons_of_neg (by simp [h c rfl])

theorem trimEnd_of_last (h : ∀ c, s.getLast? = some c → isBlank c = false) : trimEnd s = s := by
  have hhead : ∀ c, s.reverse.head? = some c → isBlank c = false := by
    intro c hc
    exact h c (by rwa [List.head?_reverse] at hc)
  have hdrop := trimStart_of_head hhead
  rw [trimStart] at hdrop
  rw [trimEnd, hdrop, List.reverse_reverse]

theorem Trimmed.trim_eq (h : Trimmed s) : trim s = s := by
  rw [trim, trimStart_of_head h.head, trimEnd_of_last h.last]

theorem trim_append_blank (h : AllBlank after) (s : List Char) : trim (s ++ after) = trim s := by
  by_cases hs : AllBlank s
  · have hboth : trimStart (s ++ after) = [] := List.dropWhile_eq_nil_iff.mpr (hs.append h)
    have hone : trimStart s = [] := List.dropWhile_eq_nil_iff.mpr hs
    rw [trim, trim, hboth, hone]
  · have hstart : trimStart (s ++ after) = trimStart s ++ after := by
      rw [trimStart, trimStart, List.dropWhile_append, if_neg]
      rw [List.isEmpty_iff, List.dropWhile_eq_nil_iff]
      exact hs
    rw [trim, trim, hstart, trimEnd_append h]

theorem trim_blank_append (h : AllBlank before) (s : List Char) : trim (before ++ s) = trim s := by
  rw [trim, trim, trimStart_append h]

theorem trimmed_trim (s : List Char) : Trimmed (trim s) where
  head c hc := by
    have hprefix : trimEnd (trimStart s) <+: trimStart s :=
      List.rdropWhile_prefix isBlank _
    have hstart : (trimStart s).head? = some c := by
      obtain ⟨rest, hrest⟩ := hprefix
      rw [← hrest, List.head?_append, show trimEnd (trimStart s) = trim s from rfl, hc]
      rfl
    cases hdrop : trimStart s with
    | nil =>
      rw [hdrop] at hstart
      cases hstart
    | cons d rest =>
      rw [hdrop] at hstart
      cases hstart
      have hnot := List.head?_dropWhile_not isBlank s
      rw [trimStart] at hdrop
      simpa [hdrop] using hnot
  last c hc := by
    rw [trim, trimEnd, List.getLast?_reverse] at hc
    have hnot := List.head?_dropWhile_not isBlank (trimStart s).reverse
    simpa [hc] using hnot

/-- A text is its trimmed text with white space around it. -/
theorem exists_blank_trim (s : List Char) :
    ∃ front back, AllBlank front ∧ AllBlank back ∧ s = front ++ trim s ++ back := by
  refine ⟨s.takeWhile isBlank, ((trimStart s).reverse.takeWhile isBlank).reverse, ?_, ?_, ?_⟩
  · exact fun c hc => List.mem_takeWhile_imp hc
  · exact fun c hc => List.mem_takeWhile_imp (List.mem_reverse.mp hc)
  · have hback : trim s ++ ((trimStart s).reverse.takeWhile isBlank).reverse = trimStart s := by
      rw [trim, trimEnd, ← List.reverse_append, List.takeWhile_append_dropWhile, List.reverse_reverse]
    rw [List.append_assoc, hback, trimStart, List.takeWhile_append_dropWhile]

theorem mem_trim {c : Char} (h : c ∈ s) (hc : isBlank c = false) : c ∈ trim s := by
  obtain ⟨front, back, hfront, hback, hs⟩ := exists_blank_trim s
  rw [hs, List.mem_append, List.mem_append] at h
  rcases h with (h | h) | h
  · rw [hfront c h] at hc
    cases hc
  · exact h
  · rw [hback c h] at hc
    cases hc

theorem trim_trim (s : List Char) : trim (trim s) = trim s := (trimmed_trim s).trim_eq

theorem trim_trimStart (s : List Char) : trim (trimStart s) = trim s :=
  congrArg trimEnd (List.dropWhile_idempotent isBlank s)

theorem trim_isInfix (s : List Char) : trim s <:+: s := by
  obtain ⟨front, back, -, -, hs⟩ := exists_blank_trim s
  exact ⟨front, back, hs.symm⟩

/-- White space at the front of a text is in no part of it that begins with something else. -/
theorem infix_trimStart {part : List Char} (h : part <:+: s)
    (hhead : ∀ c, part.head? = some c → isBlank c = false) : part <:+: trimStart s := by
  induction s with
  | nil => exact h
  | cons c rest ih =>
    cases hc : isBlank c with
    | false => rwa [trimStart_of_head (by simpa using hc)]
    | true =>
      rw [trimStart, List.dropWhile_cons_of_pos hc]
      rcases List.infix_cons_iff.mp h with hprefix | hrest
      · cases part with
        | nil => exact List.nil_infix
        | cons d part =>
          obtain ⟨rfl, -⟩ := List.cons_prefix_cons.mp hprefix
          rw [hhead d rfl] at hc
          cases hc
      · exact ih hrest

/-- A trimmed part of a text is in what trimming leaves of it. -/
theorem Trimmed.infix_trim {part : List Char} (hpart : Trimmed part) (h : part <:+: s) : part <:+: trim s := by
  have hstart := infix_trimStart h hpart.head
  have hend : part.reverse <:+: trimStart (trimStart s).reverse :=
    infix_trimStart (List.reverse_infix.mpr hstart) fun c hc => hpart.last c (by rwa [List.head?_reverse] at hc)
  rwa [← List.reverse_infix, List.reverse_reverse] at hend

/-- A last character that is no white space stays the last one. -/
theorem getLast?_trim {c : Char} (hc : isBlank c = false) (h : s.getLast? = some c) :
    (trim s).getLast? = some c := by
  have hend : trimEnd (trimStart s) = trimStart s := by
    apply trimEnd_of_last
    intro d hd
    have hsuffix : trimStart s <:+ s := List.dropWhile_suffix isBlank
    obtain ⟨front, hfront⟩ := hsuffix
    rw [← hfront, List.getLast?_append, hd] at h
    cases h
    exact hc
  rw [trim, hend]
  cases hdrop : trimStart s with
  | nil =>
    have hall := List.dropWhile_eq_nil_iff.mp hdrop c (List.mem_of_getLast? h)
    rw [hc] at hall
    cases hall
  | cons d rest =>
    have hsuffix : trimStart s <:+ s := List.dropWhile_suffix isBlank
    obtain ⟨front, hfront⟩ := hsuffix
    rw [← hfront, List.getLast?_append, hdrop] at h
    simpa using h

/-- A first character that is no white space stays the first one. -/
theorem head?_trim {c : Char} (hc : isBlank c = false) (h : s.head? = some c) :
    (trim s).head? = some c := by
  have hstart : trimStart s = s := by
    apply trimStart_of_head
    intro d hd
    rw [h] at hd
    cases hd
    exact hc
  obtain ⟨rest, hrest⟩ : trimEnd s <+: s := List.rdropWhile_prefix isBlank _
  rw [trim, hstart]
  cases hend : trimEnd s with
  | nil =>
    have hall := List.rdropWhile_eq_nil_iff.mp hend c (List.mem_of_head? h)
    rw [hc] at hall
    cases hall
  | cons d more =>
    rw [← hrest, hend] at h
    exact h

theorem trim_append_solid {front back : List Char} {c d : Char} (hc : back.head? = some c)
    (hd : back.getLast? = some d) (hblank : isBlank c = false ∧ isBlank d = false) :
    trim (front ++ back) = trimStart front ++ back := by
  have hstart : trimStart (front ++ back) = trimStart front ++ back := by
    obtain ⟨rest, rfl⟩ := List.head?_eq_some_iff.mp hc
    rw [trimStart, trimStart, List.dropWhile_append]
    split
    · rename_i hempty
      rw [List.isEmpty_iff.mp hempty, List.nil_append, List.dropWhile_cons_of_neg (by simp [hblank.1])]
    · rfl
  rw [trim, hstart]
  apply trimEnd_of_last
  intro e he
  rw [List.getLast?_append, hd] at he
  cases he
  exact hblank.2

theorem trim_solid {c d : Char} (hc : s.head? = some c) (hd : s.getLast? = some d)
    (hblank : isBlank c = false ∧ isBlank d = false) : trim s = s := by
  have hsolid : trim ([] ++ s) = trimStart [] ++ s := trim_append_solid hc hd hblank
  exact hsolid

end DeclSchema.Text
