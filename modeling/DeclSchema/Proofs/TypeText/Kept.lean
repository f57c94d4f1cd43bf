import DeclSchema.Proofs.TypeText.Legible

/-! # Types that are kept as they are

The text of a legible type of these kinds is of none of the forms that are taken apart. What its parts
are and how they stand in it rules the forms out one by one.
-/
namespace DeclSchema.Syntax
open Text TypeText

namespace TypeNode

variable {text name : String} {args operands : List TypeNode} {s : List Char} {c : Char}

theorem bracketElement?_eq_none (h : ¬ "[]".toList <:+ s) : Shape.bracketElement? s = none := by
  cases helement : Shape.bracketElement? s with
  | none => rfl
  | some element => exact absurd ⟨element, (beforeTail?_eq_some_iff.mp helement).symm⟩ h

theorem not_brackets_suffix (h : s.getLast? ≠ some ']') : ¬ "[]".toList <:+ s := by
  rintro ⟨front, rfl⟩
  exact h (by simp)

theorem genericElement?_eq_none (h : s.getLast? ≠ some '>') : Shape.genericElement? s = none := by
  cases helement : Shape.genericElement? s with
  | none => rfl
  | some element =>
    obtain ⟨_, -, _, rfl, -⟩ := Shape.genericElement?_eq_some helement
    exact absurd (by simp [List.getLast?_cons]) h

theorem parenthesized?_eq_none (h : s.getLast? ≠ some ')') : Shape.parenthesized? s = none := by
  cases hinner : Shape.parenthesized? s with
  | none => rfl
  | some inner =>
    obtain ⟨rfl, -⟩ := Shape.parenthesized?_eq_some hinner
    exact absurd (by simp [List.getLast?_cons]) h

theorem ofName?_eq_none_of_endsWith (h : EndsWith text c) (hc : Foreign c) : Primitive.ofName? text = none :=
  ofName?_eq_none_of_mem (List.mem_of_getLast? h) hc

theorem ofChars_kept {node : TypeNode} (h : node.Spelled) (hverbatim : Shape.Verbatim node.text.toList)
    (hname : Primitive.ofName? node.text = none) : Shape.ofChars node.text.toList = .reference node.text := by
  rw [Shape.ofChars_verbatim h.trimmed hverbatim (by rwa [String.ofList_toList]), String.ofList_toList]

theorem verbatim_literal {value : Literal} (h : (literal text value).Spelled) (hwhole : Whole '|' text.toList) :
    Shape.Verbatim text.toList := by
  obtain ⟨-, hbracket, hparenthesis, hangle⟩ := h.woven
  exact ⟨hwhole, bracketElement?_eq_none (not_brackets_suffix hbracket), genericElement?_eq_none hangle,
    parenthesized?_eq_none hparenthesis⟩

/-- A closing mark that no form ends with. -/
theorem verbatim_of_endsWith (h : EndsWith text c) (hc : c ≠ '>' ∧ c ≠ ')') (hwhole : Whole '|' text.toList)
    (hbracket : ¬ "[]".toList <:+ text.toList) : Shape.Verbatim text.toList where
  whole := hwhole
  bracket := bracketElement?_eq_none hbracket
  generic := genericElement?_eq_none (by rw [h]; simpa using hc.1)
  parenthesis := parenthesized?_eq_none (by rw [h]; simpa using hc.2)

/-- A name without comments has none of the marks that the forms are made of. -/
theorem verbatim_name (h : Named text.toList) (hslash : '/' ∉ text.toList) : Shape.Verbatim text.toList := by
  obtain ⟨hfree, -⟩ := h.resolve_left hslash
  have hnone : ∀ c ∈ "()<>[]|".toList, c ∉ text.toList := fun c hc hmem => hfree c hmem hc
  refine ⟨splitFrom_of_not_mem (hnone '|' (by decide)) none 0, bracketElement?_eq_none fun hbrackets => ?_, ?_, ?_⟩
  · exact hnone '[' (by decide) (hbrackets.subset (by decide))
  · exact genericElement?_eq_none fun hlast => hnone '>' (by decide) (List.mem_of_getLast? hlast)
  · exact parenthesized?_eq_none fun hlast => hnone ')' (by decide) (List.mem_of_getLast? hlast)

theorem isPlainMark_marks : ∀ marks ∈ ["[]", "()", "<>", "<>,", "|", "&"], ∀ m ∈ marks.toList, IsPlainMark m := by
  decide

/-- Texts are the same up to the first of such marks, and behind it. -/
theorem eq_of_first {front front' back back' : List Char} (h : c ∉ front) (h' : c ∉ front')
    (heq : front ++ c :: back = front' ++ c :: back') : front = front' ∧ back = back' := by
  have hcut : ∀ {s rest : List Char}, c ∉ s → (s ++ c :: rest).takeWhile (· != c) = s ∧
      (s ++ c :: rest).dropWhile (· != c) = c :: rest := fun {s rest} hs =>
    takeWhile_append_of_stop (fun d hd => bne_iff_ne.mpr (ne_of_mem_of_not_mem hd hs)) (by simp)
  have hfront := congrArg (List.takeWhile (· != c)) heq
  have hback := congrArg (List.dropWhile (· != c)) heq
  rw [(hcut h).1, (hcut h').1] at hfront
  rw [(hcut h).2, (hcut h').2, List.cons.injEq] at hback
  exact ⟨hfront, hback.2⟩

/-- Beside plain parts of a generic type there is nothing but white space and commas. -/
theorem Applied.bare (h : Applied text.toList name.toList (args.map (·.text.toList)))
    (hplain : PlainlyApplied text name args) : ∃ before gap front row back, AllBlank before ∧ AllBlank gap ∧
      (∀ c ∈ front, isBlank c = true ∨ c = ',') ∧ (∀ c ∈ back, isBlank c = true ∨ c = ',') ∧
      Row (BareBetween ',') (args.map (·.text.toList)) row ∧
      text.toList = trim (before ++ (name.toList ++ gap) ++ '<' :: ((front ++ (row ++ back)) ++ ['>'])) := by
  obtain ⟨-, hbare, -⟩ := hplain
  obtain ⟨-, -, before, gap, front, row, back, hbefore, hgap, hfront, hrow, hback, htext⟩ := h
  have hmarks := isPlainMark_marks "<>," (by decide)
  have hle := hrow.ink_le "<>,".toList
  have hform : before ++ (name.toList ++ (gap ++ '<' :: (front ++ (row ++ (back ++ ['>']))))) =
      before ++ (name.toList ++ gap) ++ (['<'] ++ ((front ++ (row ++ back)) ++ ['>'])) := by
    simp only [List.append_assoc, List.cons_append, List.nil_append]
  have hsum : ink "<>,".toList text.toList = ink "<>,".toList name.toList +
      ((args.map (·.text.toList)).map (ink "<>,".toList)).sum := by
    rw [Bare, List.map_cons, List.sum_cons, List.map_map] at hbare
    rw [hbare, List.map_map]
    rfl
  rw [htext, ink_trim, hform] at hsum
  simp only [ink_append] at hsum
  have hcommas {s : List Char} (hs : Filler [','] s) (hink : ink "<>,".toList s = 0) :
      ∀ c ∈ s, isBlank c = true ∨ c = ',' := by
    simpa using hs.of_ink hmarks hink
  exact ⟨before, gap, front, row, back, hbefore, hgap.blank_of_ink hmarks (by omega), hcommas hfront (by omega),
    hcommas hback (by omega), hrow.bare hmarks (by omega), by rw [htext, hform]; rfl⟩

/-- The brackets of a name with arguments show the name and the arguments, and so it is an array
only if it is named like one and has one argument. -/
theorem verbatim_applied (h : Applied text.toList name.toList (args.map (·.text.toList)))
    (hplain : PlainlyApplied text name args) (hkind : name ∉ Shape.arrayNames ∨ args.length ≠ 1) :
    Shape.Verbatim text.toList ∧ EndsWith text '>' := by
  obtain ⟨before, gap, front, row, back, hbefore, hgap, hfront, hback, hrow, htext⟩ := h.bare hplain
  obtain ⟨hfree, hname⟩ := h.named.resolve_left hplain.1
  have hargs : ∀ part ∈ args.map (·.text.toList), balanced part = true := List.forall_mem_map.mpr hplain.2.2
  have hfront := balanced_of_level (level_of_bare (by decide) hfront)
  have hback := balanced_of_level (level_of_bare (by decide) hback)
  have hinner := balanced_append hfront (balanced_append (balanced_row hrow (by decide) hargs) hback)
  have hlead := balanced_padded hname hbefore hgap
  have hnone : ∀ c ∈ ['<', '|'], c ∉ before ++ (name.toList ++ gap) := by
    intro c hc hmem
    have hmark : isBlank c = false ∧ c ∈ "()<>[]|".toList := by
      rcases List.mem_pair.mp hc with rfl | rfl <;> decide
    simp only [List.mem_append] at hmem
    rcases hmem with hmem | hmem | hmem
    · simpa [hmark.1] using hbefore c hmem
    · exact hfree c hmem hmark.2
    · simpa [hmark.1] using hgap c hmem
  have hend : EndsWith text '>' := by
    rw [EndsWith, htext]
    exact getLast?_trim (by decide) (by simp [List.getLast?_cons])
  refine ⟨⟨?_, bracketElement?_eq_none (not_brackets_suffix (by rw [hend]; decide)), ?_,
    parenthesized?_eq_none (by rw [hend]; decide)⟩, hend⟩
  · rw [htext]
    exact (whole_enclosed hlead (hnone '|' (by decide)) hinner (fun _ => rfl) (by decide) (by decide)).trim (by decide)
  · cases helement : Shape.genericElement? text.toList with
    | none => rfl
    | some element =>
      obtain ⟨word, hword, inside, hinside, -, hcommas⟩ := Shape.genericElement?_eq_some helement
      have hsolid : text.toList =
          trimStart (before ++ (name.toList ++ gap)) ++ '<' :: ((front ++ (row ++ back)) ++ ['>']) := by
        rw [htext]
        exact trim_append_solid (c := '<') (d := '>') rfl (by simp [List.getLast?_cons]) (by decide)
      have hwords : ∀ word ∈ Shape.arrayNames, '<' ∉ word.toList ∧ trim word.toList = word.toList := by decide
      have hangle : '<' ∉ trimStart (before ++ (name.toList ++ gap)) := fun hmem =>
        hnone '<' (by decide) ((List.dropWhile_suffix _).subset hmem)
      rw [hsolid] at hinside
      obtain ⟨hlead, hinside⟩ := eq_of_first hangle (hwords word hword).1 hinside
      rcases hkind with hkind | hlength
      · -- The name in front of the bracket is the one of the form.
        have hsame : name.toList = word.toList := calc
          name.toList = trim name.toList := h.trimmed.symm
          _ = trim (before ++ (name.toList ++ gap)) := by rw [trim_blank_append hbefore, trim_append_blank hgap]
          _ = trim word.toList := by rw [← trim_trimStart, hlead]
          _ = word.toList := (hwords word hword).2
        exact absurd (String.toList_inj.mp hsame ▸ hword) hkind
      · rw [← (List.append_inj' hinside rfl).1] at hcommas
        exact absurd hcommas (not_whole_row hrow (by decide) (by simpa using hlength) hargs hfront back)

/-- Beside plain operands in a row there is nothing but white space and the mark. -/
theorem bare_row {marks : String} {mark : Char} {front row : List Char} (hplain : ∀ m ∈ marks.toList, IsPlainMark m)
    (hfront : Filler [mark] front) (hrow : Row (Between mark) (operands.map (·.text.toList)) row)
    (htext : text.toList = trim (front ++ row)) (hbare : Bare marks text (operands.map TypeNode.text)) :
    (∀ c ∈ front, isBlank c = true ∨ c = mark) ∧ Row (BareBetween mark) (operands.map (·.text.toList)) row := by
  have hle := hrow.ink_le marks.toList
  have hsum : ink marks.toList front + ink marks.toList row =
      ((operands.map (·.text.toList)).map (ink marks.toList)).sum := by
    rw [← ink_append, ← ink_trim, ← htext, List.map_map]
    rw [Bare, List.map_map] at hbare
    exact hbare
  refine ⟨?_, hrow.bare hplain (by omega)⟩
  simpa using hfront.of_ink hplain (show ink marks.toList front = 0 by omega)

/-- An ampersand of an intersection stands outside of brackets, and so no form encloses it. -/
theorem verbatim_intersection (h : (intersection text operands).Spelled) (hplain : PlainlyCrossed text operands)
    (hbracket : ¬ "[]".toList <:+ text.toList) : Shape.Verbatim text.toList ∧ Primitive.ofName? text = none := by
  obtain ⟨hbare, hoperands⟩ := hplain
  obtain ⟨-, front, row, hfront, hrow, hlead, htext⟩ := h.woven
  obtain ⟨hfront, hrow⟩ := bare_row (isPlainMark_marks "&" (by decide)) hfront hrow htext hbare
  have hparts : ∀ part ∈ operands.map (·.text.toList), Whole '|' part ∧ balanced part = true :=
    List.forall_mem_map.mpr hoperands
  have hfrontBalanced := balanced_of_level (level_of_bare (by decide) hfront)
  have hcut : ¬ Whole '&' text.toList := by
    intro hwhole
    rw [htext] at hwhole
    replace hwhole := whole_of_trim hwhole (by decide)
    rcases hlead with hmem | hlength
    · obtain ⟨blanks, more, rfl, -⟩ := List.eq_append_cons_of_mem hmem
      rw [List.append_assoc, List.cons_append] at hwhole
      exact not_whole_of_balanced (by decide)
        (balanced_of_level fun c hc => level_of_bare (by decide) hfront c (List.mem_append_left _ hc)) _ hwhole
    · rw [← List.append_nil row] at hwhole
      exact not_whole_row hrow (by decide) (by simpa using hlength) (fun part hpart => (hparts part hpart).2)
        hfrontBalanced [] hwhole
  refine ⟨⟨?_, bracketElement?_eq_none hbracket, ?_, ?_⟩, ?_⟩
  · rw [htext]
    refine Whole.trim ?_ (by decide)
    have hbefore : lastBefore none front ≠ some '=' := lastBefore_bare hfront (by decide) (.inl (by decide))
    exact (splitFrom_bare_append hfront (by decide) (by decide) (by decide) hbefore row).mpr
      (whole_row hrow (by decide) (by decide) (by decide) (by decide) hparts)
  · cases helement : Shape.genericElement? text.toList with
    | none => rfl
    | some element =>
      obtain ⟨word, hword, inside, hinside, hbalanced, -⟩ := Shape.genericElement?_eq_some helement
      have hwords : ∀ word ∈ Shape.arrayNames, balanced word.toList = true ∧ '&' ∉ word.toList := by decide
      rw [hinside] at hcut
      exact absurd (whole_enclosed (hwords word hword).1 (hwords word hword).2 hbalanced (fun _ => rfl) (by decide)
        (by decide)) hcut
  · cases hinner : Shape.parenthesized? text.toList with
    | none => rfl
    | some inner =>
      obtain ⟨hinside, hbalanced⟩ := Shape.parenthesized?_eq_some hinner
      have hwhole : Whole '&' ([] ++ '(' :: (inner ++ [')'])) :=
        whole_enclosed rfl List.not_mem_nil hbalanced (fun _ => rfl) (by decide) (by decide)
      rw [hinside] at hcut
      exact absurd hwhole hcut
  · cases hname : Primitive.ofName? text with
    | none => rfl
    | some p =>
      rw [Primitive.ofName?_eq_some hname] at hcut
      cases p <;> exact absurd (by decide) hcut

/-- What is closed early is not closed at the end. -/
theorem ClosedEarly.balanced_eq_false {word : String} {opening closing : Char} {inner : List Char}
    (h : ClosedEarly text) (hhead : word.push opening ∈ formHeads) (hlevel : ∀ c ∈ word.toList, Level c)
    (hopening : ∀ before, depthChange before opening = 1) (hequals : opening ≠ '=')
    (htext : text.toList = word.toList ++ opening :: (inner ++ [closing])) : balanced inner = false := by
  have hstarts : (word.push opening).toList <+: text.toList := by
    rw [htext, String.toList_push]
    exact ⟨inner ++ [closing], by simp⟩
  obtain ⟨n, hn, hlow, hbalanced⟩ := h _ hhead hstarts
  rw [String.toList_push, List.length_append, List.length_singleton] at hlow
  rw [htext] at hn hbalanced
  refine not_balanced_of_closed hlevel hopening hequals hlow ?_ hbalanced
  simp only [List.length_append, List.length_cons, List.length_nil] at hn
  omega

theorem verbatim_other (hwhole : Whole '|' text.toList) (hclosed : ClosedEarly text)
    (hbracket : ¬ "[]".toList <:+ text.toList) : Shape.Verbatim text.toList := by
  refine ⟨hwhole, bracketElement?_eq_none hbracket, ?_, ?_⟩
  · cases helement : Shape.genericElement? text.toList with
    | none => rfl
    | some element =>
      obtain ⟨word, hword, args, htext, hbalanced, -⟩ := Shape.genericElement?_eq_some helement
      have hwords : ∀ word ∈ Shape.arrayNames, word.push '<' ∈ formHeads ∧ ∀ c ∈ word.toList, Level c := by decide
      have hfalse := hclosed.balanced_eq_false (hwords word hword).1 (hwords word hword).2 (fun _ => rfl) (by decide)
        htext
      rw [hbalanced] at hfalse
      cases hfalse
  · cases hinner : Shape.parenthesized? text.toList with
    | none => rfl
    | some inner =>
      obtain ⟨htext, hbalanced⟩ := Shape.parenthesized?_eq_some hinner
      have hfalse := hclosed.balanced_eq_false (show "".push '(' ∈ formHeads by decide) (by decide) (fun _ => rfl)
        (by decide) htext
      rw [hbalanced] at hfalse
      cases hfalse

end TypeNode

end DeclSchema.Syntax
