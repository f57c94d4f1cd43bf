import DeclSchema.Proofs.Nesting.Quiet

/-! # One source alone and as a body

A source that is read alone is compared with the same source as the body of something. Two readers
stand beside each other if both stand in front of the same token of the source, or if the one is at
the end of the source and the other one at the brace that closes the body.
-/
namespace DeclSchema.Syntax
open Text

/-- A source as a body: how far it is shifted there, where it ends, and what stands behind its brace. -/
structure Body where
  shift : Nat
  finish : Nat
  behind : List Char
  quiet : Quiet behind

namespace Body
variable {b : Body}

def rest (b : Body) : List Char := '\n' :: '}' :: b.behind

theorem rest_quiet (b : Body) : Quiet b.rest := .mark (by decide) (.mark (by decide) b.quiet)

inductive Place (b : Body) (s t : State) : Prop
  | inside (hne : s.here ≠ []) (here : t.here = s.here ++ b.rest) (offset : t.offset = s.offset + b.shift)
      (newline : t.newline = s.newline)
  | atEnd (none : s.here = []) (here : t.here = '}' :: b.behind) (newline : t.newline = true)
      (offset : b.finish + b.shift ≤ t.offset)

/-- The first reader reads the source alone, the second one reads it as a body, and they stand beside
each other. -/
structure Beside (b : Body) (s t : State) : Prop where
  alone : s.Placed
  nested : t.Placed
  offset : s.offset + s.here.length = b.finish
  stop_le : s.stop ≤ s.offset
  stop : t.stop - b.shift = s.stop
  place : b.Place s t

structure Places (b : Body) where
  alone : State
  nested : State
  beside : b.Beside alone nested

end Body

variable {b : Body}

theorem Token.not_isMark_of_kind {token : Token} (h : token.kind ≠ .mark) (mark : String) :
    token.isMark mark = false := by rw [Token.isMark, beq_eq_false_iff_ne.mpr h, Bool.false_and]

theorem Token.not_isWord_of_kind {token : Token} (h : token.kind ≠ .word) (word : String) :
    token.isWord word = false := by rw [Token.isWord, beq_eq_false_iff_ne.mpr h, Bool.false_and]

theorem Token.not_isOneOf_of_kind {token : Token} (h : token.kind ≠ .word) (words : List String) :
    token.isOneOf words = false := by rw [Token.isOneOf, beq_eq_false_iff_ne.mpr h, Bool.false_and]

/-- Both tokens are the same one, or both are strings without an end, or the source ends here. -/
class inductive Token.Beside (token other : Token) : Prop
  | same (whole : token.isWhole = true) (eq : other = token)
  | broken (alone : token.kind = .brokenString) (nested : other.kind = .brokenString)
  | atEnd (alone : token = ⟨.finish, []⟩) (nested : other = ⟨.mark, ['\x7d']⟩)

namespace Token.Beside
variable {token other : Token} (h : token.Beside other)
include h

theorem isMark {mark : String} (hmark : mark ≠ "\x7d") : other.isMark mark = token.isMark mark := by
  cases h with
  | same _ heq => rw [heq]
  | broken halone hnested =>
    rw [Token.not_isMark_of_kind (by simp [hnested]), Token.not_isMark_of_kind (by simp [halone])]
  | atEnd halone hnested =>
    have hne : (['\x7d'] == mark.toList) = false :=
      beq_eq_false_iff_ne.mpr fun heq => hmark (String.toList_inj.mp heq.symm)
    rw [halone, hnested, Token.isMark, hne, Bool.and_false]
    rfl

theorem isOneOf (words : List String) : other.isOneOf words = token.isOneOf words := by
  cases h with
  | same _ heq => rw [heq]
  | broken halone hnested =>
    rw [Token.not_isOneOf_of_kind (by simp [hnested]), Token.not_isOneOf_of_kind (by simp [halone])]
  | atEnd halone hnested =>
    rw [halone, hnested]
    rfl

theorem isWord (word : String) : other.isWord word = token.isWord word := by
  cases h with
  | same _ heq => rw [heq]
  | broken halone hnested =>
    rw [Token.not_isWord_of_kind (by simp [hnested]), Token.not_isWord_of_kind (by simp [halone])]
  | atEnd halone hnested =>
    rw [halone, hnested]
    rfl

theorem kind {kind : TokenKind} (hmark : kind ≠ .mark) (hfinish : kind ≠ .finish) :
    (other.kind == kind) = (token.kind == kind) := by
  cases h with
  | same _ heq => rw [heq]
  | broken halone hnested => rw [halone, hnested]
  | atEnd halone hnested =>
    rw [halone, hnested, beq_eq_false_iff_ne.mpr (Ne.symm hmark), beq_eq_false_iff_ne.mpr (Ne.symm hfinish)]

theorem startsName : other.startsName = token.startsName := by
  cases h with
  | same _ heq => rw [heq]
  | broken halone hnested =>
    rw [Token.startsName, Token.startsName, halone, hnested, Token.not_isMark_of_kind (by simp [hnested]),
      Token.not_isMark_of_kind (by simp [halone])]
  | atEnd halone hnested =>
    rw [halone, hnested]
    decide

theorem startsType : other.startsType = token.startsType := by
  cases h with
  | same _ heq => rw [heq]
  | broken halone hnested => simp [Token.startsType, halone, hnested]
  | atEnd halone hnested =>
    rw [halone, hnested]
    decide

theorem startsOperand : other.startsOperand = token.startsOperand := by
  cases h with
  | same _ heq => rw [heq]
  | broken halone hnested => simp [Token.startsOperand, halone, hnested]
  | atEnd halone hnested =>
    rw [halone, hnested]
    decide

theorem isWhole (hwhole : token.isWhole = true) : other = token := by
  cases h with
  | same _ heq => exact heq
  | broken halone _ =>
    rw [Token.isWhole, halone] at hwhole
    cases hwhole
  | atEnd halone _ =>
    rw [halone] at hwhole
    cases hwhole

/-- The end of the body cannot be told from other marks, but nothing is taken at the end of the source. -/
theorem not_isWhole (hwhole : token.isWhole = false) : token.kind = .brokenString ∧ other.kind = .brokenString ∨
    token = ⟨.finish, []⟩ ∧ other = ⟨.mark, ['\x7d']⟩ := by
  cases h with
  | same htrue _ =>
    rw [htrue] at hwhole
    cases hwhole
  | broken halone hnested => exact .inl ⟨halone, hnested⟩
  | atEnd halone hnested => exact .inr ⟨halone, hnested⟩

theorem eq_close (hfinish : token.kind = .finish) : other = ⟨.mark, ['\x7d']⟩ := by
  rcases h.not_isWhole (by rw [Token.isWhole, hfinish]; rfl) with ⟨hbroken, -⟩ | ⟨-, heq⟩
  · rw [hbroken] at hfinish
    cases hfinish
  · exact heq

/-- In front of the end nothing at all is different. -/
theorem isMark_of_ne (hfinish : token.kind ≠ .finish) (mark : String) : other.isMark mark = token.isMark mark := by
  cases h with
  | same _ heq => rw [heq]
  | broken halone hnested =>
    rw [Token.not_isMark_of_kind (by simp [hnested]), Token.not_isMark_of_kind (by simp [halone])]
  | atEnd halone _ => exact absurd (by rw [halone]) hfinish

theorem kind_of_ne (hfinish : token.kind ≠ .finish) : other.kind = token.kind := by
  cases h with
  | same _ heq => rw [heq]
  | broken halone hnested => rw [halone, hnested]
  | atEnd halone _ => exact absurd (by rw [halone]) hfinish

end Token.Beside

theorem Body.not_mem_rest (b : Body) {c : Char} (hmark : c ∉ quietMarks) (hletter : isLetter c = false)
    (hdigit : isDigit c = false) : c ∉ '\n' :: '}' :: b.behind := b.rest_quiet.not_mem hmark hletter hdigit

theorem readToken_finish {s : List Char} (h : (readToken s).1.kind = .finish) : s = [] := by
  cases s with
  | nil => rfl
  | cons c rest =>
    exfalso
    revert h
    unfold readToken
    dsimp only
    grind

theorem readMark_ne_nil {s : List Char} (hs : s ≠ []) : (readMark s).1 ≠ [] := by
  have hmarks : ∀ mark ∈ longMarks, mark ≠ [] := by decide
  unfold readMark
  split
  · rename_i mark rest hfind
    obtain ⟨entry, hentry, heq⟩ := List.exists_of_findSome?_eq_some hfind
    obtain ⟨_, _, hpair⟩ := Option.map_eq_some_iff.mp heq
    cases hpair
    split
    · exact List.cons_ne_nil _ _
    · exact hmarks _ hentry
  · simpa using hs

/-- Something is taken with each token but the end of the source. -/
theorem readToken_ne_nil {s : List Char} (hs : s ≠ []) : (readToken s).1.text ≠ [] := by
  obtain ⟨c, rest, rfl⟩ := List.exists_cons_of_ne_nil hs
  have hmark := readMark_ne_nil hs
  unfold readToken
  dsimp only
  split
  · split
    · exact List.cons_ne_nil _ _
    · rename_i name after hne _
      exact hne
  · split
    · rename_i h
      refine readNumber_ne_nil ?_
      simp only [Bool.or_eq_true, Bool.and_eq_true, beq_iff_eq] at h
      exact h.imp id And.left
    · grind

theorem Body.Beside.token {s t : State} (h : b.Beside s t) : s.token.Beside t.token := by
  cases h.place with
  | inside hne here =>
    have htoken := readToken_append_line (b.not_mem_rest (c := '"') (by decide) (by decide) (by decide))
      (b.not_mem_rest (c := '\'') (by decide) (by decide) (by decide)) hne
    have hnested : t.token = (readToken (s.here ++ b.rest)).1 := by rw [h.nested, here]
    rw [← Body.rest, ← h.alone, ← hnested] at htoken
    by_cases hbroken : s.token.kind = .brokenString
    · rw [if_pos hbroken] at htoken
      exact .broken hbroken htoken
    · rw [if_neg hbroken] at htoken
      have hfinish : s.token.kind ≠ .finish := fun hfinish => hne (readToken_finish (by rwa [← h.alone]))
      refine .same (by simp [Token.isWhole, hfinish, hbroken]) ?_
      rw [hnested, htoken]
  | atEnd none here =>
    refine .atEnd ?_ ?_
    · rw [h.alone, none]
      rfl
    · rw [h.nested, here]
      exact congrArg Prod.fst (readToken_mark (by decide) _)

theorem readGap_total (s : List Char) : (readGap 0 false s).width + (readGap 0 false s).rest.length = s.length := by
  obtain ⟨gap, hgap, hwidth, -⟩ := exists_gap 0 false s
  have hlength := congrArg List.length hgap
  rw [List.length_append] at hlength
  omega

theorem State.next_length_lt {s : State} (hs : s.Placed) (hne : s.here ≠ []) : s.next.here.length < s.here.length := by
  have htext := List.length_pos_iff.mpr (readToken_ne_nil hne)
  have hhere := List.length_pos_iff.mpr hne
  have htotal := readGap_total (s.here.drop s.token.text.length)
  rw [← hs] at htext
  rw [List.length_drop] at htotal
  show (readGap 0 false (s.here.drop s.token.text.length)).rest.length < s.here.length
  omega

theorem Body.Beside.past {s t : State} (h : b.Beside s t) (hne : s.here ≠ []) {width : Nat}
    (hwidth : width ≤ s.here.length) : b.Beside (s.past width) (t.past width) := by
  obtain ⟨here, offset⟩ : t.here = s.here ++ b.rest ∧ t.offset = s.offset + b.shift := by
    cases h.place with
    | inside _ here offset => exact ⟨here, offset⟩
    | atEnd none => exact absurd none hne
  have hslash : '/' ∉ '\n' :: '\x7d' :: b.behind := b.not_mem_rest (by decide) (by decide) (by decide)
  have htotal := readGap_total (s.here.drop width)
  rw [List.length_drop] at htotal
  have hoffset := h.offset
  have hstart : t.past width = State.start (t.offset + width) t.found (s.here.drop width ++ b.rest) := by
    rw [State.past, here, List.drop_append_of_le_length hwidth]
  refine ⟨rfl, by rw [hstart]; rfl, ?_, Nat.le_add_right _ _, ?_, ?_⟩
  · show s.offset + width + (readGap 0 false (s.here.drop width)).width +
      (readGap 0 false (s.here.drop width)).rest.length = b.finish
    omega
  · show t.offset + width - b.shift = s.offset + width
    omega
  · rw [hstart, Body.rest, State.past, State.start, State.start, readGap_append hslash]
    by_cases hnil : (readGap 0 false (s.here.drop width)).rest = []
    · have hbrace : readGap ((readGap 0 false (s.here.drop width)).width + 1) true ('\x7d' :: b.behind) =
          ⟨(readGap 0 false (s.here.drop width)).width + 1, true, '\x7d' :: b.behind⟩ :=
        readGap_of_noGap (noGap_mark (by decide) _) _ _
      rw [if_pos hnil, hbrace]
      rw [hnil, List.length_nil] at htotal
      refine .atEnd hnil rfl rfl ?_
      dsimp only
      omega
    · rw [if_neg hnil]
      refine .inside hnil rfl ?_ rfl
      dsimp only
      omega

namespace Body.Places

instance token (x : b.Places) : x.alone.token.Beside x.nested.token := x.beside.token

def past (x : b.Places) (width : Nat) (hne : x.alone.here ≠ []) (hwidth : width ≤ x.alone.here.length) : b.Places :=
  ⟨x.alone.past width, x.nested.past width, x.beside.past hne hwidth⟩

theorem here_ne_nil (x : b.Places) (hwhole : x.alone.token.isWhole = true) : x.alone.here ≠ [] := by
  intro hnil
  rw [x.beside.alone, hnil] at hwhole
  cases hwhole

theorem nested_here (x : b.Places) (hne : x.alone.here ≠ []) : x.nested.here = x.alone.here ++ b.rest := by
  cases x.beside.place with
  | inside _ here => exact here
  | atEnd none => exact absurd none hne

theorem nested_ne_nil (x : b.Places) : x.nested.here ≠ [] := by
  cases x.beside.place with
  | inside _ here =>
    rw [here, Body.rest]
    simp
  | atEnd _ here =>
    rw [here]
    exact List.cons_ne_nil _ _

theorem token_length_le (x : b.Places) : x.alone.token.text.length ≤ x.alone.here.length := by
  have happend := congrArg List.length (readToken_append x.alone.here)
  rw [List.length_append, ← x.beside.alone] at happend
  omega

def next (x : b.Places) (hwhole : x.alone.token.isWhole = true) : b.Places :=
  ⟨x.alone.next, x.nested.next, by
    have hpast := x.beside.past (x.here_ne_nil hwhole) x.token_length_le
    rw [State.next, State.next, x.token.isWhole hwhole]
    exact hpast⟩

def withFound (x : b.Places) (alone nested : List Item) : b.Places :=
  ⟨{ x.alone with found := alone }, { x.nested with found := nested },
    ⟨x.beside.alone, x.beside.nested, x.beside.offset, x.beside.stop_le, x.beside.stop,
      match x.beside.place with
      | .inside hne here offset newline => .inside hne here offset newline
      | .atEnd hnil here newline offset => .atEnd hnil here newline offset⟩⟩

theorem stop_le_finish (x : b.Places) : x.alone.stop ≤ b.finish := by
  have hoffset := x.beside.offset
  have hstop := x.beside.stop_le
  omega

/-- What is read between two places is as long in the body. -/
theorem stop_sub_offset (x y : b.Places) : y.nested.stop - x.nested.offset = y.alone.stop - x.alone.offset := by
  have hstop := y.beside.stop
  have hfinish := y.stop_le_finish
  have hoffset := x.beside.offset
  cases x.beside.place with
  | inside _ _ offset => omega
  | atEnd none _ _ offset =>
    rw [none, List.length_nil] at hoffset
    omega

/-- The text between two places of the source is the same. -/
theorem textTo_nested (x y : b.Places) : x.nested.textTo y.nested = x.alone.textTo y.alone := by
  have hfinish := y.stop_le_finish
  have hoffset := x.beside.offset
  rw [State.textTo, State.textTo, x.stop_sub_offset y]
  cases x.beside.place with
  | inside _ here => rw [here, List.take_append_of_le_length (by omega)]
  | atEnd none here =>
    rw [none, List.length_nil] at hoffset
    rw [none, show y.alone.stop - x.alone.offset = 0 by omega, List.take_zero, List.take_nil]

theorem endsBefore_nested (x : b.Places) (lineEnd : LineEnd) :
    x.nested.endsBefore lineEnd = x.alone.endsBefore lineEnd := by
  cases x.beside.place with
  | inside hne here _ newline =>
    obtain ⟨c, rest, hrest⟩ := List.exists_cons_of_ne_nil hne
    have hcolon : (((rest ++ '\n' :: '\x7d' :: b.behind).dropWhile isBlank).head? == some ':') =
        ((rest.dropWhile isBlank).head? == some ':') := by
      rw [List.dropWhile_append]
      cases hblank : rest.dropWhile isBlank with
      | nil => simp [show isBlank '\n' = true by decide, show isBlank '\x7d' = false by decide]
      | cons d more => simp
    have hbegins := beginsAnew_append (t := '\x7d' :: b.behind) lineEnd (List.cons_ne_nil c rest)
    rw [List.cons_append] at hbegins
    rw [State.endsBefore, State.endsBefore, here, hrest, newline, Body.rest]
    simp only [List.cons_append, hcolon, hbegins]
  | atEnd none here newline =>
    rw [State.endsBefore, State.endsBefore, none, here, newline]
    rfl

end Body.Places

end DeclSchema.Syntax
