import DeclSchema.Proofs.Syntax.Woven
import DeclSchema.Syntax.Source
import Mathlib.Logic.Relation

/-! # The way of a reader through a text

A reader moves from token to token. It leaves this track only at an operator made of several
marks, and at a template, a slash or a comment mark, where it jumps ahead in the same text.
-/
namespace DeclSchema.Syntax
open Text

theorem afterComment?_eq {passed : Nat} {s : List Char} {result : Nat × List Char}
    (h : afterComment? passed s = some result) :
    ∃ comment, s = comment ++ result.2 ∧ result.1 = passed + comment.length := by
  fun_induction afterComment? passed s with
  | case1 => cases h
  | case2 passed rest =>
    cases h
    exact ⟨['*', '/'], rfl, rfl⟩
  | case3 passed c rest _ ih =>
    obtain ⟨comment, hrest, hwidth⟩ := ih h
    exact ⟨c :: comment, by rw [hrest, List.cons_append], by
      rw [hwidth, List.length_cons]
      omega⟩

/-- A gap stands at the front of its text. -/
theorem exists_gap (width : Nat) (breaksLine : Bool) (s : List Char) :
    ∃ gap, s = gap ++ (readGap width breaksLine s).rest ∧
      (readGap width breaksLine s).width = width + gap.length ∧ Filler [] gap := by
  have hnil : Filler [] [] := .of_blank fun _ hc => absurd hc List.not_mem_nil
  fun_induction readGap width breaksLine s with
  | case1 => exact ⟨[], rfl, rfl, hnil⟩
  | case2 width breaksLine c rest hc ih =>
    obtain ⟨gap, hrest, hwidth, hgap⟩ := ih
    refine ⟨c :: gap, by rw [List.cons_append, ← hrest], ?_, ?_⟩
    · rw [hwidth, List.length_cons]
      omega
    · have hone : Filler [] [c] := .inr fun d hd => .inr (.inl (List.mem_singleton.mp hd ▸ hc))
      exact hone.append hgap
  | case3 width breaksLine c _ hc line ih =>
    obtain ⟨gap, hrest, hwidth, -⟩ := ih
    refine ⟨c :: '/' :: (line.takeWhile (!isLineEnd ·) ++ gap), ?_, ?_, .inl (by simp)⟩
    · rw [List.cons_append, List.cons_append, List.append_assoc, ← hrest,
        List.takeWhile_append_dropWhile]
    · rw [hwidth]
      simp only [List.length_cons, List.length_append]
      omega
  | case4 width breaksLine c _ hc block after hafter ih =>
    obtain ⟨gap, hrest, hwidth, -⟩ := ih
    obtain ⟨comment, hblock, hcomment⟩ := afterComment?_eq hafter
    refine ⟨c :: '*' :: (comment ++ gap), ?_, ?_, .inl ?_⟩
    · rw [List.cons_append, List.cons_append, List.append_assoc, ← hrest, ← hblock]
    · rw [hwidth, hcomment]
      simp only [List.length_cons, List.length_append]
      omega
    · rw [eq_of_beq hc]
      exact List.mem_cons_self
  | case5 => exact ⟨[], rfl, rfl, hnil⟩
  | case6 => exact ⟨[], rfl, rfl, hnil⟩
  | case7 => exact ⟨[], rfl, rfl, hnil⟩

theorem readGap_rest (s : List Char) :
    (readGap 0 false s).rest = s.drop (readGap 0 false s).width := by
  obtain ⟨gap, hgap, hwidth, -⟩ := exists_gap 0 false s
  have hdrop : (gap ++ (readGap 0 false s).rest).drop gap.length = (readGap 0 false s).rest :=
    List.drop_left
  rw [← hgap] at hdrop
  rw [hwidth, Nat.zero_add, hdrop]

namespace State

def Placed (s : State) : Prop := s.token = (readToken s.here).1

structure Ahead (s t : State) : Prop where
  here : t.here = s.here.drop (t.offset - s.offset)
  offset_le_stop : s.offset ≤ t.stop
  stop_le_offset : t.stop ≤ t.offset
  gap : Filler [] ((s.here.drop (t.stop - s.offset)).take (t.offset - t.stop))
  placed : t.Placed

variable {s t u : State}

theorem Ahead.offset_le (h : s.Ahead t) : s.offset ≤ t.offset :=
  Nat.le_trans h.offset_le_stop h.stop_le_offset

theorem ahead_past (s : State) (width : Nat) : s.Ahead (s.past width) where
  here := by
    show (readGap 0 false (s.here.drop width)).rest =
      s.here.drop (s.offset + width + (readGap 0 false (s.here.drop width)).width - s.offset)
    rw [readGap_rest, List.drop_drop]
    congr 1
    omega
  offset_le_stop := Nat.le_add_right _ _
  stop_le_offset := Nat.le_add_right _ _
  gap := by
    obtain ⟨gap, hgap, hwidth, hfiller⟩ := exists_gap 0 false (s.here.drop width)
    show Filler [] ((s.here.drop (s.offset + width - s.offset)).take
      (s.offset + width + (readGap 0 false (s.here.drop width)).width - (s.offset + width)))
    rw [Nat.add_sub_cancel_left, Nat.add_sub_cancel_left, hwidth, Nat.zero_add, hgap, List.take_left]
    exact hfiller
  placed := rfl

theorem Ahead.trans (hst : s.Ahead t) (htu : t.Ahead u) : s.Ahead u where
  here := by
    have hs := hst.offset_le
    have ht := htu.offset_le
    rw [htu.here, hst.here, List.drop_drop]
    congr 1
    omega
  offset_le_stop := Nat.le_trans hst.offset_le htu.offset_le_stop
  stop_le_offset := htu.stop_le_offset
  gap := by
    have hs := hst.offset_le
    have ht := htu.offset_le_stop
    have hgap := htu.gap
    rw [hst.here, List.drop_drop,
      show t.offset - s.offset + (u.stop - t.offset) = u.stop - s.offset by omega] at hgap
    exact hgap
  placed := htu.placed

def SamePlace (s t : State) : Prop := t = { s with found := t.found }

theorem SamePlace.ahead (hst : s.SamePlace t) (htu : t.Ahead u) : s.Ahead u := by
  rw [hst] at htu
  exact ⟨htu.here, htu.offset_le_stop, htu.stop_le_offset, htu.gap, htu.placed⟩

theorem Ahead.samePlace (hst : s.Ahead t) (htu : t.SamePlace u) : s.Ahead u := by
  rw [htu]
  exact ⟨hst.here, hst.offset_le_stop, hst.stop_le_offset, hst.gap, hst.placed⟩

abbrev Reaches (s u : State) : Prop := s.SamePlace u ∨ s.Ahead u

theorem reaches_self (s : State) : s.Reaches s := .inl rfl

theorem ahead_next (s : State) : s.Ahead s.next := s.ahead_past _

theorem reaches_next (s : State) : s.Reaches s.next := .inr s.ahead_next

theorem SamePlace.trans (hst : s.SamePlace t) (htu : t.SamePlace u) : s.SamePlace u := by
  rw [SamePlace, htu, hst]

theorem Reaches.ahead (hst : s.Reaches t) (htu : t.Ahead u) : s.Ahead u :=
  hst.elim (·.ahead htu) (·.trans htu)

theorem Ahead.reaches (hst : s.Ahead t) (htu : t.Reaches u) : s.Ahead u :=
  htu.elim hst.samePlace hst.trans

theorem Reaches.trans (hst : s.Reaches t) (htu : t.Reaches u) : s.Reaches u :=
  htu.elim (fun h => hst.elim (fun h' => .inl (h'.trans h)) fun h' => .inr (h'.samePlace h))
    fun h => .inr (hst.ahead h)

theorem Reaches.offset_le (h : s.Reaches u) : s.offset ≤ u.offset := by
  rcases h with h | h
  · rw [h]
  · exact h.offset_le

theorem Reaches.here (h : s.Reaches u) : u.here = s.here.drop (u.offset - s.offset) := by
  rcases h with h | h
  · rw [h]
    simp
  · exact Ahead.here h

theorem Reaches.here_suffix (h : s.Reaches u) : u.here <:+ s.here := by
  rw [h.here]
  exact List.drop_suffix _ _

structure PlacedIn (source : List Char) (s : State) : Prop where
  placed : s.Placed
  suffix : s.here <:+ source

theorem PlacedIn.of_reaches {source : List Char} (hs : s.PlacedIn source) (h : s.Reaches u) (hu : u.Placed) :
    u.PlacedIn source := ⟨hu, h.here_suffix.trans hs.suffix⟩

theorem PlacedIn.past {source : List Char} (hs : s.PlacedIn source) (width : Nat) : (s.past width).PlacedIn source :=
  hs.of_reaches (.inr (s.ahead_past width)) (s.ahead_past width).placed

theorem textTo_isInfix (s t : State) : (s.textTo t).toList <:+: s.here := by
  rw [textTo, String.toList_ofList]
  exact (trim_isInfix _).trans (List.take_prefix _ _).isInfix

/-- Whatever is read between the two places is a part of the text. -/
def Covered (text : List Char) (s t : State) : Prop :=
  ∀ u v, s.Reaches u → u.Ahead v → v.Reaches t → (u.textTo v).toList <:+: text

variable {text : List Char} {v : State}

theorem Covered.mono (h : Covered text s v) (hst : s.Reaches t) (huv : u.Reaches v) : Covered text t u :=
  fun x y htx hxy hyu => h x y (hst.trans htx) hxy (hyu.trans huv)

theorem PlacedIn.covered (h : s.PlacedIn text) (t : State) : Covered text s t :=
  fun u v hsu _ _ => (u.textTo_isInfix v).trans (hsu.here_suffix.trans h.suffix).isInfix

end State

/-- Where a reader may jump: at a template, a slash or a comment mark. -/
def State.MayJump (s : State) : Prop :=
  s.token.kind = .template ∨ s.here.head? = some '/' ∨ commentMarks.any (·.isPrefixOf s.here)

inductive Step : State → State → Prop
  /-- What has been met may change at any place. -/
  | record (s : State) (items : List Item) : Step s { s with found := items }
  | token (s : State) : Step s s.next
  | operator {s : State} {kind : Operator} {width : Nat}
      (h : operatorAt? s.here = some (kind, width)) : Step s (s.past width)
  | jump {s t : State} (h : s.MayJump) (ahead : s.Ahead t) : Step s t

abbrev Trail : State → State → Prop := Relation.ReflTransGen Step

theorem Trail.samePlace_or_ahead {s t : State} (h : Trail s t) : s.SamePlace t ∨ s.Ahead t := by
  induction h with
  | refl => exact .inl rfl
  | @tail t u _ hstep ih =>
    have hone : t.SamePlace u ∨ t.Ahead u := by
      cases hstep with
      | record items => exact .inl rfl
      | token => exact .inr (t.ahead_past _)
      | operator _ => exact .inr (t.ahead_past _)
      | jump _ ahead => exact .inr ahead
    rcases ih with ih | ih
    · rcases hone with hone | hone
      · left
        rw [State.SamePlace, hone, ih]
      · exact .inr (ih.ahead hone)
    · rcases hone with hone | hone
      · exact .inr (ih.samePlace hone)
      · exact .inr (ih.trans hone)

end DeclSchema.Syntax
