import DeclSchema.Proofs.TypeText.NormalForms

/-! # The pieces of a text

Splitting loses nothing: the pieces with the separator between them are the text. The separators
between them are those that stand at depth zero, where the depth is counted through the whole text
and may be negative. A piece that is split by itself stays in one piece, since it begins at depth
zero, behind a separator that has no bearing on how the next character is counted.
-/
namespace DeclSchema.TypeText
open Text

variable {separator c : Char} {before : Option Char} {depth : ℤ} {s : List Char}
  {pieces : List (List Char)}

theorem joinWith_modifyHead (mark : List Char) (h : pieces ≠ []) (c : Char) :
    joinWith mark (pieces.modifyHead (c :: ·)) = c :: joinWith mark pieces := by
  cases pieces with
  | nil => exact absurd rfl h
  | cons piece rest => cases rest <;> rfl

theorem joinWith_nil_cons (mark : List Char) (h : pieces ≠ []) :
    joinWith mark ([] :: pieces) = mark ++ joinWith mark pieces := by
  cases pieces with
  | nil => exact absurd rfl h
  | cons piece rest => rfl

theorem joinWith_splitFrom (separator : Char) (before : Option Char) (depth : ℤ) (s : List Char) :
    joinWith [separator] (splitFrom separator before depth s) = s := by
  induction s generalizing before depth with
  | nil => rfl
  | cons c s ih =>
    by_cases hcut : Cuts separator before depth c
    · rw [splitFrom_cut hcut, joinWith_nil_cons _ (splitFrom_ne_nil _ _ _ _), ih, hcut.2.1]
      rfl
    · rw [splitFrom_uncut hcut, joinWith_modifyHead _ (splitFrom_ne_nil _ _ _ _), ih]

/-- The places of the separators at depth zero, given the character before the text and the depth
it begins at. -/
def cutsFrom (separator : Char) (before : Option Char) (depth : ℤ) (s : List Char) : List ℕ :=
  (List.range s.length).filter fun place =>
    s[place]? = some separator ∧ depthAfter before depth (s.take place) = 0

def cuts (separator : Char) (s : List Char) : List ℕ := cutsFrom separator none 0 s

/-- Behind the first character everything stands one place further. -/
theorem cutsFrom_cons (separator : Char) (before : Option Char) (depth : ℤ) (c : Char) (s : List Char) :
    cutsFrom separator before depth (c :: s) = (if c = separator ∧ depth = 0 then [0] else []) ++
      (cutsFrom separator (some c) (depth + depthChange before c) s).map (· + 1) := by
  have hrest : ((fun place => decide ((c :: s)[place]? = some separator ∧
      depthAfter before depth ((c :: s).take place) = 0)) ∘ Nat.succ) = fun place =>
        decide (s[place]? = some separator ∧
          depthAfter (some c) (depth + depthChange before c) (s.take place) = 0) := rfl
  rw [cutsFrom, List.length_cons, List.range_succ_eq_map, List.filter_cons, List.filter_map, hrest, cutsFrom]
  by_cases hfirst : c = separator ∧ depth = 0
  · obtain ⟨rfl, rfl⟩ := hfirst
    simp [depthAfter]
  · simp [depthAfter, hfirst]

def joints : List (List Char) → List ℕ
  | [] => []
  | [_] => []
  | piece :: rest => piece.length :: (joints rest).map (· + (piece.length + 1))

theorem length_joints (h : pieces ≠ []) : pieces.length = 1 + (joints pieces).length := by
  induction pieces with
  | nil => exact absurd rfl h
  | cons piece rest ih =>
    cases rest with
    | nil => rfl
    | cons next more =>
      have hrest := ih (List.cons_ne_nil next more)
      rw [joints, List.length_cons, hrest, List.length_cons, List.length_map, Nat.add_assoc]
      exact nofun

theorem joints_nil_cons (h : pieces ≠ []) : joints ([] :: pieces) = 0 :: (joints pieces).map (· + 1) := by
  cases pieces with
  | nil => exact absurd rfl h
  | cons piece rest => rfl

theorem joints_modifyHead (pieces : List (List Char)) (c : Char) :
    joints (pieces.modifyHead (c :: ·)) = (joints pieces).map (· + 1) := by
  cases pieces with
  | nil => rfl
  | cons piece rest =>
    cases rest with
    | nil => rfl
    | cons next more =>
      simp only [List.modifyHead_cons, joints, List.length_cons, List.map_cons, List.map_map]
      rfl

/-- The pieces meet where the text is cut. -/
theorem joints_splitFrom (h : Level separator) (before : Option Char) (depth : ℤ) (s : List Char) :
    joints (splitFrom separator before depth s) = cutsFrom separator before depth s := by
  induction s generalizing before depth with
  | nil => rfl
  | cons c s ih =>
    rw [cutsFrom_cons]
    by_cases hcut : Cuts separator before depth c
    · rw [splitFrom_cut hcut, joints_nil_cons (splitFrom_ne_nil _ _ _ _), ih, if_pos hcut.2,
        hcut.1, hcut.2.2, Int.add_zero]
      rfl
    · have hother : ¬ (c = separator ∧ depth = 0) := by
        rintro ⟨rfl, rfl⟩
        exact hcut ⟨h.depthChange_eq before, rfl, rfl⟩
      rw [splitFrom_uncut hcut, joints_modifyHead, ih, if_neg hother, List.nil_append]

/-- A text is split without loss at exactly the separators outside of brackets, and its pieces are
split no further. -/
theorem splitTopLevel_partition (hlevel : Level separator) (hequals : separator ≠ '=') (s : List Char) :
    joinWith [separator] (splitTopLevel separator s) = s ∧
      joints (splitTopLevel separator s) = cuts separator s ∧
      (splitTopLevel separator s).length = 1 + (cuts separator s).length ∧
      ∀ piece ∈ splitTopLevel separator s, splitTopLevel separator piece = [piece] := by
  have hjoints : joints (splitTopLevel separator s) = cuts separator s :=
    joints_splitFrom hlevel none 0 s
  refine ⟨joinWith_splitFrom separator none 0 s, hjoints, ?_, fun piece => whole_of_mem hequals⟩
  rw [← hjoints]
  exact length_joints (splitFrom_ne_nil separator none 0 s)

/-- The closing mark of an arrow is no bracket, and a bracket that closes too early makes the depth
negative. -/
def arrowText : List Char := "é|Map<a|b, () => c>|x)|y(|=>|".toList

theorem splitTopLevel_partition_arrowText :
    (Level '|' ∧ '|' ≠ '=') ∧
      splitTopLevel '|' arrowText = ["é", "Map<a|b, () => c>", "x)|y(", "=>", ""].map String.toList ∧
      joinWith ['|'] (splitTopLevel '|' arrowText) = arrowText ∧
      joints (splitTopLevel '|' arrowText) = [1, 19, 25, 28] ∧
      ∀ piece ∈ splitTopLevel '|' arrowText, splitTopLevel '|' piece = [piece] := by
  have hbar : Level '|' ∧ '|' ≠ '=' := by decide
  obtain ⟨hjoin, hjoints, -, hpieces⟩ := splitTopLevel_partition hbar.1 hbar.2 arrowText
  have hcuts : cuts '|' arrowText = [1, 19, 25, 28] := by decide
  exact ⟨hbar, by decide, hjoin, hjoints.trans hcuts, hpieces⟩

end DeclSchema.TypeText
