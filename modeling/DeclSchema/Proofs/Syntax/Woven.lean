import DeclSchema.Proofs.TypeText.Scan
import DeclSchema.Syntax.Token
import Mathlib.Algebra.GroupWithZero.Nat

/-! # Texts woven from parts

Between the parts of a text stand marks, white space and comments. The ink of a text is what is
neither white space nor one of the marks that may stand there. A comment has ink, and so a text
with no more ink than its parts has no comments beside them.
-/
namespace DeclSchema.Syntax
open Text TypeText

variable {marks some all : List Char} {s t : List Char}

/-- What may stand beside the parts of a text: gaps and these marks. Every comment has a slash. -/
def Filler (marks s : List Char) : Prop :=
  '/' ∈ s ∨ ∀ c ∈ s, isBlank c = true ∨ isGapChar c = true ∨ c ∈ marks

theorem Filler.of_blank (h : AllBlank s) : Filler marks s := .inr fun c hc => .inl (h c hc)

theorem Filler.of_mark {c : Char} (h : c ∈ marks) : Filler marks [c] :=
  .inr fun _ hd => .inr (.inr (List.mem_singleton.mp hd ▸ h))

theorem Filler.mono (h : Filler some s) (hsub : some ⊆ all) : Filler all s :=
  h.imp_right fun hall c hc => (hall c hc).imp_right fun hc => hc.imp_right fun hmark => hsub hmark

theorem Filler.append (hs : Filler marks s) (ht : Filler marks t) : Filler marks (s ++ t) := by
  rcases hs with hslash | hs
  · exact .inl (List.mem_append_left t hslash)
  · rcases ht with hslash | ht
    · exact .inl (List.mem_append_right s hslash)
    · exact .inr fun c hc => (List.mem_append.mp hc).elim (hs c) (ht c)

/-- Words, points and gaps. Without comments the only brackets in them are the braces of escapes. -/
def Named (s : List Char) : Prop := '/' ∈ s ∨ (∀ c ∈ s, c ∉ "()<>[]|".toList) ∧ balanced s = true

theorem Named.append (hs : Named s) (ht : Named t) : Named (s ++ t) := by
  rcases hs with hslash | ⟨hs, hbalanced⟩
  · exact .inl (List.mem_append_left t hslash)
  · rcases ht with hslash | ⟨ht, hbalanced'⟩
    · exact .inl (List.mem_append_right s hslash)
    · exact .inr ⟨List.forall_mem_append.mpr ⟨hs, ht⟩, balanced_append hbalanced hbalanced'⟩

theorem Named.of_filler (h : Filler ['.'] s) : Named s := by
  refine h.imp_right fun hall => ?_
  have hnone : ∀ d ∈ "()<>[]|\x7b\x7d".toList, isBlank d = false ∧ isGapChar d = false ∧ d ≠ '.' := by decide
  have hfree : ∀ c ∈ s, c ∉ "()<>[]|\x7b\x7d".toList := by
    intro c hc hmem
    obtain ⟨hblank, hgap, hpoint⟩ := hnone c hmem
    rcases hall c hc with h | h | h
    · rw [hblank] at h
      cases h
    · rw [hgap] at h
      cases h
    · exact hpoint (List.mem_singleton.mp h)
  have hmarks : "()<>[]|".toList ⊆ "()<>[]|\x7b\x7d".toList := by decide
  have hbrackets : "()<>\x7b\x7d[]".toList ⊆ "()<>[]|\x7b\x7d".toList := by decide
  exact ⟨fun c hc hmem => hfree c hc (hmarks hmem), balanced_of_level fun c hc hmem => hfree c hc (hbrackets hmem)⟩

theorem Named.trim (h : Named s) : Named (trim s) := by
  rcases h with hslash | ⟨hall, hbalanced⟩
  · exact .inl (mem_trim hslash (by decide))
  · exact .inr ⟨fun c hc => hall c ((trim_isInfix s).subset hc), balanced_trim hbalanced⟩

/-- How many characters are neither white space nor one of these marks. -/
def ink (marks s : List Char) : Nat := s.countP fun c => !isBlank c && !marks.contains c

theorem ink_append (marks s t : List Char) : ink marks (s ++ t) = ink marks s + ink marks t :=
  List.countP_append

theorem ink_eq_zero_iff : ink marks s = 0 ↔ ∀ c ∈ s, isBlank c = true ∨ c ∈ marks := by
  simp only [ink, List.countP_eq_zero, Bool.and_eq_true, Bool.not_eq_true', List.contains_eq_mem,
    decide_eq_false_iff_not, not_and, not_not]
  refine forall₂_congr fun c _ => ?_
  cases isBlank c <;> simp

theorem ink_of_blank (h : AllBlank s) : ink marks s = 0 := ink_eq_zero_iff.mpr fun c hc => .inl (h c hc)

theorem ink_trim (marks s : List Char) : ink marks (trim s) = ink marks s := by
  obtain ⟨front, back, hfront, hback, hs⟩ := exists_blank_trim s
  have hink := congrArg (ink marks) hs
  rw [ink_append, ink_append, ink_of_blank hfront, ink_of_blank hback] at hink
  omega

def IsPlainMark (c : Char) : Prop := isBlank c = false ∧ isGapChar c = false ∧ c ≠ '/'

instance (c : Char) : Decidable (IsPlainMark c) :=
  inferInstanceAs (Decidable (isBlank c = false ∧ isGapChar c = false ∧ c ≠ '/'))

/-- Without ink a filler is made of white space and of its marks. -/
theorem Filler.of_ink (h : Filler some s) (hall : ∀ m ∈ all, IsPlainMark m) (hink : ink all s = 0) :
    ∀ c ∈ s, isBlank c = true ∨ c ∈ some := by
  intro c hc
  have hbare := ink_eq_zero_iff.mp hink
  rcases h with hslash | h
  · rcases hbare '/' hslash with hblank | hmark
    · exact absurd hblank (by decide)
    · exact absurd rfl (hall _ hmark).2.2
  · rcases hbare c hc with hblank | hmark
    · exact .inl hblank
    · rcases h c hc with hblank | hgap | hsome
      · exact .inl hblank
      · rw [(hall c hmark).2.1] at hgap
        cases hgap
      · exact .inr hsome

theorem Filler.blank_of_ink (h : Filler [] s) (hall : ∀ m ∈ all, IsPlainMark m) (hink : ink all s = 0) :
    AllBlank s :=
  fun c hc => (h.of_ink hall hink c hc).resolve_right List.not_mem_nil

/-- The parts in their order, with fillers of this kind between them. -/
inductive Row (P : List Char → Prop) : List (List Char) → List Char → Prop
  | last {part after : List Char} (h : AllBlank after) : Row P [part] (part ++ after)
  | more {part filler text : List Char} {rest : List (List Char)} (h : P filler) (hrest : Row P rest text) :
      Row P (part :: rest) (part ++ (filler ++ text))

def Between (mark : Char) (s : List Char) : Prop := Filler [mark] s ∧ mark ∈ s

def BareBetween (mark : Char) (s : List Char) : Prop := (∀ c ∈ s, isBlank c = true ∨ c = mark) ∧ mark ∈ s

variable {P Q : List Char → Prop} {parts : List (List Char)} {text : List Char} {mark : Char}

theorem Row.ink_le (marks : List Char) (h : Row P parts text) :
    (parts.map (ink marks)).sum ≤ ink marks text := by
  induction h with
  | last h => simp [ink_append]
  | more h _ ih =>
    rw [List.map_cons, List.sum_cons, ink_append, ink_append]
    omega

/-- With no ink beside the parts there is none in the fillers. -/
theorem Row.imp_of_ink (h : Row P parts text) (hink : ink marks text = (parts.map (ink marks)).sum)
    (himp : ∀ s, P s → ink marks s = 0 → Q s) : Row Q parts text := by
  induction h with
  | last h => exact .last h
  | more h hrest ih =>
    have hle := hrest.ink_le marks
    rw [List.map_cons, List.sum_cons, ink_append, ink_append] at hink
    exact .more (himp _ h (by omega)) (ih (by omega))

theorem Row.bare (h : Row (Between mark) parts text) (hmarks : ∀ m ∈ marks, IsPlainMark m)
    (hink : ink marks text = (parts.map (ink marks)).sum) : Row (BareBetween mark) parts text :=
  h.imp_of_ink hink fun _ hs hzero =>
    ⟨fun c hc => (hs.1.of_ink hmarks hzero c hc).imp_right List.mem_singleton.mp, hs.2⟩

end DeclSchema.Syntax
