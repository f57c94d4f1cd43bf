import DeclSchema.Proofs.Text.Trim
import DeclSchema.Shape

/-! # Scanning type text for brackets

A scan goes on over the next text from the depth and the character that the one before left it
with. A text with balanced brackets is passed at any depth without a cut and leaves the depth as
it was, and so cuts fall only between such texts.
-/
namespace DeclSchema.TypeText
open Text

variable {separator c : Char} {before : Option Char} {depth : Int} {s t : List Char}

/-- The depth at the end of a text, given the character before it and the depth it begins at. -/
def depthAfter : Option Char → Int → List Char → Int
  | _, depth, [] => depth
  | before, depth, c :: rest => depthAfter (some c) (depth + depthChange before c) rest

def lastBefore (before : Option Char) (s : List Char) : Option Char := s.getLast?.or before

/-- No separator of the text stands outside of brackets. -/
def Whole (separator : Char) (s : List Char) : Prop := splitTopLevel separator s = [s]

instance (separator : Char) (s : List Char) : Decidable (Whole separator s) :=
  inferInstanceAs (Decidable (splitTopLevel separator s = [s]))

theorem lastBefore_cons (before : Option Char) (c : Char) (s : List Char) :
    lastBefore before (c :: s) = lastBefore (some c) s := by
  cases s with
  | nil => rfl
  | cons d s =>
    rw [lastBefore, lastBefore, List.getLast?_cons_cons]
    cases hlast : (d :: s).getLast? with
    | none => cases List.getLast?_eq_none_iff.mp hlast
    | some e => rfl

def Cuts (separator : Char) (before : Option Char) (depth : Int) (c : Char) : Prop :=
  depthChange before c = 0 ∧ c = separator ∧ depth = 0

theorem splitFrom_cut (h : Cuts separator before depth c) (s : List Char) :
    splitFrom separator before depth (c :: s) = [] :: splitFrom separator (some c) 0 s := by
  obtain ⟨hchange, rfl, rfl⟩ := h
  simp [splitFrom, hchange]

theorem splitFrom_uncut (h : ¬ Cuts separator before depth c) (s : List Char) :
    splitFrom separator before depth (c :: s) =
      (splitFrom separator (some c) (depth + depthChange before c) s).modifyHead (c :: ·) := by
  have hcut : (depthChange before c == 0 && c == separator && depth == 0) = false := by
    rw [Bool.eq_false_iff]
    intro hall
    simp only [Bool.and_eq_true, beq_iff_eq] at hall
    exact h ⟨hall.1.1, hall.1.2, hall.2⟩
  rw [splitFrom, hcut, if_neg Bool.false_ne_true]
  cases hpieces : splitFrom separator (some c) (depth + depthChange before c) s with
  | nil => exact absurd hpieces (splitFrom_ne_nil _ _ _ _)
  | cons piece more => rfl

theorem modifyHead_eq_singleton {f : List Char → List Char} {pieces : List (List Char)} {piece : List Char}
    (h : pieces.modifyHead f = [piece]) : ∃ p, pieces = [p] ∧ f p = piece := by
  cases pieces with
  | nil => cases h
  | cons p more =>
    rw [List.modifyHead_cons, List.cons.injEq] at h
    exact ⟨p, by rw [h.2], h.1⟩

/-- What is in one piece is the text. -/
theorem eq_of_splitFrom_eq_singleton {piece : List Char} (h : splitFrom separator before depth s = [piece]) :
    piece = s := by
  induction s generalizing before depth piece with
  | nil =>
    cases h
    rfl
  | cons c s ih =>
    by_cases hcut : Cuts separator before depth c
    · rw [splitFrom_cut hcut, List.cons.injEq] at h
      exact absurd h.2 (splitFrom_ne_nil _ _ _ _)
    · rw [splitFrom_uncut hcut] at h
      obtain ⟨p, hp, rfl⟩ := modifyHead_eq_singleton h
      rw [ih hp]

theorem splitFrom_uncut_eq (h : splitFrom separator before depth (c :: s) = [c :: s]) :
    ¬ Cuts separator before depth c ∧
      splitFrom separator (some c) (depth + depthChange before c) s = [s] := by
  by_cases hcut : Cuts separator before depth c
  · rw [splitFrom_cut hcut, List.cons.injEq] at h
    cases h.1
  · rw [splitFrom_uncut hcut] at h
    obtain ⟨p, hp, -⟩ := modifyHead_eq_singleton h
    exact ⟨hcut, by rw [hp, eq_of_splitFrom_eq_singleton hp]⟩

/-- Behind a text in one piece the scan goes on with that piece. -/
theorem splitFrom_append (h : splitFrom separator before depth s = [s]) (t : List Char) :
    splitFrom separator before depth (s ++ t) =
      (splitFrom separator (lastBefore before s) (depthAfter before depth s) t).modifyHead (s ++ ·) := by
  induction s generalizing before depth with
  | nil =>
    simp only [List.nil_append, lastBefore, List.getLast?_nil, Option.none_or, depthAfter]
    cases splitFrom separator before depth t <;> rfl
  | cons c s ih =>
    obtain ⟨hcut, hrest⟩ := splitFrom_uncut_eq h
    rw [List.cons_append, splitFrom_uncut hcut, ih hrest, lastBefore_cons, depthAfter,
      List.modifyHead_modifyHead]
    rfl

theorem splitFrom_append_eq (h : splitFrom separator before depth s = [s]) :
    splitFrom separator before depth (s ++ t) = [s ++ t] ↔
      splitFrom separator (lastBefore before s) (depthAfter before depth s) t = [t] := by
  rw [splitFrom_append h]
  constructor
  · intro ht
    obtain ⟨p, hp, hpt⟩ := modifyHead_eq_singleton ht
    rw [hp, List.append_cancel_left hpt]
  · intro ht
    rw [ht]
    rfl

/-- The front of a text in one piece is in one piece. -/
theorem splitFrom_front (h : splitFrom separator before depth (s ++ t) = [s ++ t]) :
    splitFrom separator before depth s = [s] := by
  induction s generalizing before depth with
  | nil => rfl
  | cons c s ih =>
    rw [List.cons_append] at h
    obtain ⟨hcut, hrest⟩ := splitFrom_uncut_eq h
    rw [splitFrom_uncut hcut, ih hrest]
    rfl

theorem splitFrom_of_not_mem (h : separator ∉ s) (before : Option Char) (depth : Int) :
    splitFrom separator before depth s = [s] := by
  induction s generalizing before depth with
  | nil => rfl
  | cons c s ih =>
    rw [List.mem_cons, not_or] at h
    rw [splitFrom_uncut fun hcut => h.1 hcut.2.1.symm, ih h.2]
    rfl

def Level (c : Char) : Prop := c ∉ "()<>\x7b\x7d[]".toList

instance (c : Char) : Decidable (Level c) := inferInstanceAs (Decidable (c ∉ "()<>\x7b\x7d[]".toList))

theorem Level.depthChange_eq (h : Level c) (before : Option Char) : depthChange before c = 0 := by
  unfold depthChange
  split <;> first | rfl | exact absurd (by decide) h

theorem level_of_isBlank (h : isBlank c = true) : Level c := by
  have hall : ∀ d ∈ "()<>\x7b\x7d[]".toList, isBlank d = false := by decide
  intro hc
  rw [hall c hc] at h
  cases h

theorem depthAfter_of_level (h : ∀ c ∈ s, Level c) (before : Option Char) (depth : Int) :
    depthAfter before depth s = depth := by
  induction s generalizing before with
  | nil => rfl
  | cons c s ih =>
    obtain ⟨hc, hs⟩ := List.forall_mem_cons.mp h
    rw [depthAfter, hc.depthChange_eq, Int.add_zero, ih hs]

/-- Only an equals sign before a text has a bearing on how it is scanned. -/
theorem depthChange_of_ne (h : before ≠ some '=') (c : Char) : depthChange before c = depthChange none c := by
  unfold depthChange
  split <;> try rfl
  simp [h]

theorem splitFrom_of_ne (h : before ≠ some '=') (separator : Char) (depth : Int) (s : List Char) :
    splitFrom separator before depth s = splitFrom separator none depth s := by
  cases s with
  | nil => rfl
  | cons c s => rw [splitFrom, splitFrom, depthChange_of_ne h]

/-- At a higher depth nothing is cut, and the depth comes back to what it was. -/
theorem balancedFrom_raised (h : balancedFrom before depth s = true) (hdepth : 0 ≤ depth) {n : Int} (hn : 0 < n)
    (separator : Char) : splitFrom separator before (depth + n) s = [s] ∧ depthAfter before (depth + n) s = n := by
  induction s generalizing before depth with
  | nil =>
    have hzero : depth = 0 := eq_of_beq h
    subst hzero
    exact ⟨rfl, Int.zero_add n⟩
  | cons c s ih =>
    rw [balancedFrom] at h
    split at h
    · cases h
    · rename_i hlow
      have hrest := ih h (Int.not_lt.mp hlow)
      have hmove : depth + n + depthChange before c = depth + depthChange before c + n := by omega
      have hcut : ¬ Cuts separator before (depth + n) c := fun hcut => by
        have := hcut.2.2
        omega
      rw [splitFrom_uncut hcut, depthAfter, hmove, hrest.1]
      exact ⟨rfl, hrest.2⟩

theorem balancedFrom_depthAfter (h : balancedFrom before depth s = true) : depthAfter before depth s = 0 := by
  induction s generalizing before depth with
  | nil => exact eq_of_beq h
  | cons c s ih =>
    rw [balancedFrom] at h
    split at h
    · cases h
    · exact ih h

theorem balancedFrom_level_append (h : ∀ c ∈ s, Level c) (hdepth : 0 ≤ depth) (t : List Char) :
    balancedFrom before depth (s ++ t) = balancedFrom (lastBefore before s) depth t := by
  induction s generalizing before with
  | nil => rfl
  | cons c s ih =>
    obtain ⟨hc, hs⟩ := List.forall_mem_cons.mp h
    rw [List.cons_append, balancedFrom, hc.depthChange_eq, Int.add_zero, if_neg (Int.not_lt.mpr hdepth), ih hs,
      lastBefore_cons]

theorem balanced_of_level (h : ∀ c ∈ s, Level c) : balanced s = true := by
  rw [balanced, ← List.append_nil s, balancedFrom_level_append h (Int.le_refl 0)]
  rfl

theorem balancedFrom_append (h : balancedFrom before depth s = true) (t : List Char) :
    balancedFrom before depth (s ++ t) = balancedFrom (lastBefore before s) 0 t := by
  induction s generalizing before depth with
  | nil =>
    have hzero : depth = 0 := eq_of_beq h
    rw [hzero]
    rfl
  | cons c s ih =>
    rw [balancedFrom] at h
    split at h
    · cases h
    · rename_i hlow
      rw [List.cons_append, balancedFrom, if_neg hlow, ih h, lastBefore_cons]

/-- Balanced text does not begin with a closing bracket, and so an equals sign before it makes no arrow. -/
theorem balancedFrom_of_balanced (h : balanced s = true) (before : Option Char) : balancedFrom before 0 s = true := by
  cases s with
  | nil => rfl
  | cons c s =>
    rw [balanced, balancedFrom] at h
    have hc : c ≠ '>' := by
      rintro rfl
      cases h
    have hchange : depthChange before c = depthChange none c := by
      unfold depthChange
      split <;> first | rfl | exact absurd rfl hc
    rw [balancedFrom, hchange]
    exact h

theorem balanced_append (hs : balanced s = true) (ht : balanced t = true) : balanced (s ++ t) = true := by
  rw [balanced, balancedFrom_append hs, balancedFrom_of_balanced ht]

/-- Between balanced brackets and a separator the text is cut. -/
theorem not_whole_of_balanced (hseparator : Level separator) (h : balanced s = true) (t : List Char) :
    ¬ Whole separator (s ++ separator :: t) := by
  intro hwhole
  have hcut : Cuts separator (lastBefore none s) 0 separator := ⟨hseparator.depthChange_eq _, rfl, rfl⟩
  have hrest := (splitFrom_append_eq (splitFrom_front hwhole)).mp hwhole
  rw [balancedFrom_depthAfter h, splitFrom_cut hcut, List.cons.injEq] at hrest
  cases hrest.1

/-- One level deeper, no front of a text that stays above its beginning is balanced. -/
theorem balancedFrom_front (h : balancedFrom before depth (s ++ t) = true) (hdepth : 0 ≤ depth) :
    balancedFrom before (depth + 1) s = false := by
  induction s generalizing before depth with
  | nil =>
    have hne : depth + 1 ≠ 0 := by omega
    simpa [balancedFrom] using hne
  | cons c s ih =>
    rw [List.cons_append, balancedFrom] at h
    split at h
    · cases h
    · rename_i hlow
      rw [balancedFrom, Int.add_right_comm, ih h (Int.not_lt.mp hlow), ite_self]

theorem splitFrom_blank (h : AllBlank s) (hseparator : isBlank separator = false) (before : Option Char)
    (depth : Int) : splitFrom separator before depth s = [s] :=
  splitFrom_of_not_mem (fun hmem => by simpa [hseparator] using h _ hmem) before depth

theorem depthAfter_blank (h : AllBlank s) (before : Option Char) (depth : Int) :
    depthAfter before depth s = depth :=
  depthAfter_of_level (fun c hc => level_of_isBlank (h c hc)) before depth

theorem lastBefore_blank (h : AllBlank s) (hbefore : before ≠ some '=') : lastBefore before s ≠ some '=' := by
  unfold lastBefore
  cases hlast : s.getLast? with
  | none => exact hbefore
  | some c =>
    rintro ⟨⟩
    exact absurd (h _ (List.mem_of_getLast? hlast)) (by decide)

theorem Whole.trim (h : Whole separator s) (hseparator : isBlank separator = false) :
    Whole separator (trim s) := by
  obtain ⟨front, back, hfront, hback, hs⟩ := exists_blank_trim s
  have hwhole : splitFrom separator none 0 (front ++ (Text.trim s ++ back)) = [front ++ (Text.trim s ++ back)] := by
    rw [← List.append_assoc, ← hs]
    exact h
  have hrest := (splitFrom_append_eq (splitFrom_blank hfront hseparator none 0)).mp hwhole
  rw [depthAfter_blank hfront, splitFrom_of_ne (lastBefore_blank hfront (by decide))] at hrest
  exact splitFrom_front hrest

theorem balancedFrom_of_ne (h : before ≠ some '=') (depth : Int) (s : List Char) :
    balancedFrom before depth s = balancedFrom none depth s := by
  cases s with
  | nil => rfl
  | cons c s => rw [balancedFrom, balancedFrom, depthChange_of_ne h]

theorem balanced_of_blank (h : AllBlank s) : balanced s = true :=
  balanced_of_level fun c hc => level_of_isBlank (h c hc)

theorem balanced_padded {front back : List Char} (h : balanced s = true) (hfront : AllBlank front)
    (hback : AllBlank back) : balanced (front ++ (s ++ back)) = true :=
  balanced_append (balanced_of_blank hfront) (balanced_append h (balanced_of_blank hback))

theorem balancedFrom_of_append_blank {back : List Char} (h : balancedFrom before depth (s ++ back) = true)
    (hback : AllBlank back) : balancedFrom before depth s = true := by
  induction s generalizing before depth with
  | nil =>
    have hdepth := balancedFrom_depthAfter h
    rw [List.nil_append, depthAfter_blank hback] at hdepth
    rw [hdepth]
    rfl
  | cons c s ih =>
    rw [List.cons_append, balancedFrom] at h
    split at h
    · cases h
    · rename_i hlow
      rw [balancedFrom, if_neg hlow, ih h]

theorem balanced_trim (h : balanced s = true) : balanced (trim s) = true := by
  obtain ⟨front, back, hfront, hback, hs⟩ := exists_blank_trim s
  rw [hs, List.append_assoc, balanced, balancedFrom_append (balanced_of_blank hfront),
    balancedFrom_of_ne (lastBefore_blank hfront (by decide))] at h
  exact balancedFrom_of_append_blank h hback

theorem whole_padded {front back : List Char} (h : Whole separator s) (hseparator : isBlank separator = false)
    (hfront : AllBlank front) (hback : AllBlank back) : Whole separator (front ++ (s ++ back)) := by
  rw [Whole, splitTopLevel, splitFrom_append_eq (splitFrom_blank hfront hseparator none 0), depthAfter_blank hfront,
    splitFrom_of_ne (lastBefore_blank hfront (by decide)), splitFrom_append_eq h]
  exact splitFrom_blank hback hseparator _ _

/-- White space at the ends of a text does not cut it. -/
theorem whole_of_trim (h : Whole separator (trim s)) (hseparator : isBlank separator = false) : Whole separator s := by
  obtain ⟨front, back, hfront, hback, hs⟩ := exists_blank_trim s
  rw [hs, List.append_assoc]
  exact whole_padded h hseparator hfront hback

end DeclSchema.TypeText
