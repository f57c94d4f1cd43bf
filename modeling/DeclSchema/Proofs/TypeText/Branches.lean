import DeclSchema.Proofs.Syntax.Woven
import DeclSchema.Proofs.TypeText.Scan
import Mathlib.Data.List.Forall2

/-! # The branch that a union is reduced to

A union is cut at its bars. White space around a branch and branches without text do not
matter, so the branch that is left is the first one other than `undefined` of the operands in a row.
-/
namespace DeclSchema.TypeText
open Text Syntax

variable {separator c : Char} {before : Option Char} {depth : Int} {s t front back : List Char}

def branches (before : Option Char) (s : List Char) : List (List Char) :=
  (splitFrom '|' before 0 s).map trim

theorem branches_of_ne (h : before ≠ some '=') (s : List Char) : branches before s = branches none s := by
  rw [branches, branches, splitFrom_of_ne h]

theorem branches_blank_append (h : AllBlank front) (hbefore : before ≠ some '=') (s : List Char) :
    branches before (front ++ s) = branches none s := by
  rw [branches, splitFrom_append (splitFrom_blank h (by decide) before 0), depthAfter_blank h,
    splitFrom_of_ne (lastBefore_blank h hbefore), branches]
  cases splitFrom '|' none 0 s with
  | nil => rfl
  | cons piece more => rw [List.modifyHead_cons, List.map_cons, List.map_cons, trim_blank_append h]

/-- Behind the text white space goes to the last piece. -/
theorem forall₂_splitFrom_append (h : AllBlank back) (hseparator : isBlank separator = false)
    (before : Option Char) (depth : Int) (s : List Char) :
    List.Forall₂ (fun piece longer => longer = piece ++ back ∨ longer = piece)
      (splitFrom separator before depth s) (splitFrom separator before depth (s ++ back)) := by
  induction s generalizing before depth with
  | nil =>
    rw [List.nil_append, splitFrom_blank h hseparator, splitFrom]
    exact .cons (.inl rfl) .nil
  | cons c s ih =>
    rw [List.cons_append]
    by_cases hcut : Cuts separator before depth c
    · rw [splitFrom_cut hcut, splitFrom_cut hcut]
      exact .cons (.inr rfl) (ih (some c) 0)
    · rw [splitFrom_uncut hcut, splitFrom_uncut hcut]
      have hrest := ih (some c) (depth + depthChange before c)
      generalize splitFrom separator (some c) (depth + depthChange before c) s = pieces at hrest ⊢
      generalize splitFrom separator (some c) (depth + depthChange before c) (s ++ back) = longer at hrest ⊢
      cases hrest with
      | nil => exact .nil
      | cons hpiece hmore =>
        refine .cons ?_ hmore
        rcases hpiece with rfl | rfl
        · exact .inl rfl
        · exact .inr rfl

theorem branches_append_blank (h : AllBlank back) (before : Option Char) (s : List Char) :
    branches before (s ++ back) = branches before s := by
  refine List.forall₂_eq_eq_eq ▸ ?_
  rw [branches, branches, List.forall₂_map_left_iff, List.forall₂_map_right_iff]
  refine (forall₂_splitFrom_append h (by decide) before 0 s).flip.imp fun longer piece hpiece => ?_
  rcases hpiece with rfl | rfl
  · exact trim_append_blank h piece
  · rfl

theorem branches_trim (s : List Char) : branches none (trim s) = branches none s := by
  obtain ⟨front, back, hfront, hback, hs⟩ := exists_blank_trim s
  have hbranches := congrArg (branches none) hs
  rw [branches_append_blank hback, branches_blank_append hfront (by decide)] at hbranches
  exact hbranches.symm

def taken? (before : Option Char) (s : List Char) : Option (List Char) :=
  (branches before s).find? fun branch => !branch.isEmpty && branch != Shape.undefinedWord

theorem prune_eq_taken? (h : trim s ≠ []) : Shape.prune s = (taken? none s).getD Shape.undefinedWord := by
  unfold Shape.prune
  dsimp only
  rw [taken?, ← branches_trim]
  split
  · rename_i hlength
    obtain ⟨piece, hpiece⟩ := List.length_eq_one_iff.mp (eq_of_beq hlength)
    have hwhole : splitFrom '|' none 0 (trim s) = [trim s] := by
      have hsplit : splitFrom '|' none 0 (trim s) = [piece] := hpiece
      rw [hsplit, eq_of_splitFrom_eq_singleton hsplit]
    rw [branches, hwhole, List.map_singleton, trim_trim, List.find?_singleton]
    by_cases hword : trim s = Shape.undefinedWord
    · simp [hword]
    · simp [hword, h]
  · rfl

theorem depthChange_bar (before : Option Char) : depthChange before '|' = 0 := rfl

theorem branches_bar (before : Option Char) (s : List Char) :
    branches before ('|' :: s) = [] :: branches none s := by
  rw [branches, splitFrom_cut ⟨depthChange_bar before, rfl, rfl⟩, List.map_cons,
    ← branches_of_ne (show some '|' ≠ some '=' by decide)]
  rfl

/-- Bars and white space in front of a branch are passed over. -/
theorem taken?_bare_append (h : ∀ c ∈ s, isBlank c = true ∨ c = '|') (hbefore : before ≠ some '=')
    (t : List Char) : taken? before (s ++ t) = taken? none t := by
  induction s generalizing before with
  | nil => rw [List.nil_append, taken?, branches_of_ne hbefore, taken?]
  | cons c s ih =>
    obtain ⟨hc, hs⟩ := List.forall_mem_cons.mp h
    rcases hc with hblank | rfl
    · have hone : AllBlank [c] := fun d hd => List.mem_singleton.mp hd ▸ hblank
      rw [taken?, show c :: s ++ t = [c] ++ (s ++ t) from rfl, branches_blank_append hone hbefore]
      exact ih hs (by decide)
    · rw [taken?, List.cons_append, branches_bar, List.find?_cons_of_neg (by decide)]
      exact ih hs (by decide)

/-- A text in one piece is the branch before the bar that follows it. -/
theorem branches_append (hwhole : Whole '|' s) (hdepth : depthAfter none 0 s = 0)
    (h : BareBetween '|' t) (rest : List Char) : ∃ more, (∀ c ∈ more, isBlank c = true ∨ c = '|') ∧
      branches none (s ++ (t ++ rest)) = trim s :: branches none (more ++ rest) := by
  obtain ⟨blanks, more, rfl, hbar⟩ := List.eq_append_cons_of_mem h.2
  have hblanks : AllBlank blanks := fun c hc =>
    (h.1 c (List.mem_append_left _ hc)).resolve_right fun heq => hbar (heq ▸ hc)
  refine ⟨more, fun c hc => h.1 c (List.mem_append_right _ (List.mem_cons_of_mem _ hc)), ?_⟩
  have hcut : ∀ before, splitFrom '|' before 0 ('|' :: (more ++ rest)) =
      [] :: splitFrom '|' (some '|') 0 (more ++ rest) := fun before =>
    splitFrom_cut ⟨depthChange_bar before, rfl, rfl⟩ _
  rw [branches, splitFrom_append hwhole, hdepth, List.append_assoc,
    splitFrom_append (splitFrom_blank hblanks (by decide) _ _), depthAfter_blank hblanks, List.cons_append,
    hcut, List.modifyHead_cons, List.modifyHead_cons, List.map_cons, List.append_nil,
    trim_append_blank hblanks, ← branches_of_ne (show some '|' ≠ some '=' by decide)]
  rfl

/-- The scan reads the first part other than `undefined`: it is in one piece, and another part
follows only behind balanced brackets. -/
def FirstReads : List (List Char) → Prop
  | [] => True
  | part :: rest =>
    if part = Shape.undefinedWord then FirstReads rest
    else part ≠ [] ∧ Whole '|' part ∧ (rest = [] ∨ balanced part = true)

theorem whole_undefinedWord : Whole '|' Shape.undefinedWord := by decide

/-- The branch taken is the first part other than `undefined`. -/
theorem taken?_row {parts : List (List Char)} {text : List Char} (h : Row (BareBetween '|') parts text)
    (htrim : ∀ part ∈ parts, trim part = part) (hreads : FirstReads parts) :
    taken? none text = parts.find? fun part => part != Shape.undefinedWord := by
  induction h with
  | @last part after hafter =>
    have hpart := htrim part (List.mem_singleton_self part)
    rw [taken?, branches_append_blank hafter, List.find?_singleton]
    by_cases hword : part = Shape.undefinedWord
    · rw [hword]
      rfl
    · rw [FirstReads, if_neg hword] at hreads
      obtain ⟨hne, hwhole, -⟩ := hreads
      rw [branches, show splitFrom '|' none 0 part = [part] from hwhole, List.map_singleton, hpart,
        List.find?_singleton]
      simp [hne, hword]
  | @more part filler text rest hfiller hrest ih =>
    obtain ⟨hpart, htrimRest⟩ := List.forall_mem_cons.mp htrim
    by_cases hword : part = Shape.undefinedWord
    · rw [FirstReads, if_pos hword] at hreads
      obtain ⟨more, hmore, hbranches⟩ := branches_append whole_undefinedWord (by decide) hfiller text
      rw [hword, taken?, hbranches, List.find?_cons_of_neg (by decide), List.find?_cons_of_neg (by decide),
        ← ih htrimRest hreads]
      exact taken?_bare_append hmore (by decide) text
    · rw [FirstReads, if_neg hword] at hreads
      obtain ⟨hne, hwhole, hbalanced⟩ := hreads
      have hdepth : depthAfter none 0 part = 0 := by
        rcases hbalanced with hnil | hbalanced
        · subst hnil
          cases hrest
        · exact balancedFrom_depthAfter hbalanced
      obtain ⟨more, -, hbranches⟩ := branches_append hwhole hdepth hfiller text
      rw [taken?, hbranches, hpart, List.find?_cons_of_pos (by simp [hne, hword]),
        List.find?_cons_of_pos (by simp [hword])]

end DeclSchema.TypeText
