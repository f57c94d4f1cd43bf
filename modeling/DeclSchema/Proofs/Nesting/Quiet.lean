import DeclSchema.Proofs.Nesting.Lines

/-! # Texts that take nothing up

Behind a body stand only names, round brackets, braces and semicolons. No bracket, operator or
string that was opened in the body is closed there, and wherever a reader gets to, the rest is of
the same kind.
-/
namespace DeclSchema.Syntax
open Text

def quietMarks : List Char := [' ', '\n', '{', '}', '(', ')', ';']

inductive Quiet : List Char → Prop
  | nil : Quiet []
  | mark {c : Char} {rest : List Char} (hc : c ∈ quietMarks) (h : Quiet rest) : Quiet (c :: rest)
  /-- A name that says nothing about a loop, with a mark behind it. -/
  | word {word rest : List Char} {m : Char} (hword : isWord word = true) (hof : word ≠ "of".toList)
      (hin : word ≠ "in".toList) (hm : m ∈ [' ', '\n', '}', '(', ')', ';']) (h : Quiet (m :: rest)) :
      Quiet (word ++ m :: rest)

variable {text rest : List Char} {c : Char} {s t : State}

theorem readToken_quietMark (hc : c ∈ quietMarks) (rest : List Char) :
    ((readToken (c :: rest)).1.kind = .mark ∨ (readToken (c :: rest)).1.kind = .stray) ∧
      (readToken (c :: rest)).1.text = [c] ∧ (readToken (c :: rest)).2 = rest := by
  simp only [quietMarks, List.mem_cons, List.not_mem_nil, or_false] at hc
  rcases hc with rfl | rfl | rfl | rfl | rfl | rfl | rfl
  · exact ⟨.inr rfl, rfl, rfl⟩
  · exact ⟨.inr rfl, rfl, rfl⟩
  all_goals exact ⟨.inl rfl, rfl, rfl⟩

theorem endsName_of_quiet {m : Char} (hm : m ∈ [' ', '\n', '}', '(', ')', ';']) (rest : List Char) :
    EndsName (m :: rest) := by
  have hsub : [' ', '\n', '}', '(', ')', ';'] ⊆
      [' ', '\n', ';', ',', '{', '}', '(', ')', '[', ']', ':', '<', '>', '|', '?'] := by decide
  exact endsName_of_mem (hsub hm) rest

/-- A token that goes on with nothing that stands before it. -/
structure Token.Quiet (token : Token) : Prop where
  mark : ∀ mark, token.isMark mark = true → ∃ c ∈ quietMarks, mark.toList = [c]
  not_of : token.isWord "of" = false
  not_in : token.isWord "in" = false
  kind : token.kind = .finish ∨ token.kind = .mark ∨ token.kind = .stray ∨ token.kind = .word

theorem Quiet.readToken (h : Quiet text) : (readToken text).1.Quiet ∧ Quiet (readToken text).2 := by
  cases h with
  | nil =>
    refine ⟨⟨fun mark hmark => ?_, rfl, rfl, .inl rfl⟩, .nil⟩
    cases hmark
  | @mark c rest hc h =>
    obtain ⟨hkind, htext, hrest⟩ := readToken_quietMark hc rest
    have hword : ∀ word, (Syntax.readToken (c :: rest)).1.isWord word = false := by
      intro word
      rcases hkind with hkind | hkind <;> rw [Token.isWord, hkind] <;> rfl
    refine ⟨⟨fun mark hmark => ⟨c, hc, ?_⟩, hword _, hword _, hkind.elim (.inr ∘ .inl) (.inr ∘ .inr ∘ .inl)⟩, ?_⟩
    · rw [← htext, Token.text_of_isMark hmark]
    · rw [hrest]
      exact h
  | @word word rest m hword hof hin hm h =>
    rw [readToken_word hword (endsName_of_quiet hm rest)]
    refine ⟨⟨fun mark hmark => ?_, ?_, ?_, .inr (.inr (.inr rfl))⟩, h⟩
    · cases hmark
    · simpa [Token.isWord] using hof
    · simpa [Token.isWord] using hin

theorem Quiet.tail (h : Quiet (c :: rest)) (hc : isLetter c = false) : Quiet rest := by
  generalize htext : c :: rest = text at h
  cases h with
  | nil => cases htext
  | mark _ h =>
    cases htext
    exact h
  | @word word rest m hword _ _ _ _ =>
    cases word with
    | nil => cases hword
    | cons d word =>
      cases htext
      rw [((Bool.and_eq_true _ _).mp hword).1] at hc
      cases hc

theorem Quiet.head (h : Quiet (c :: rest)) : c ∈ quietMarks ∨ isLetter c = true := by
  generalize htext : c :: rest = text at h
  cases h with
  | nil => cases htext
  | mark hc _ =>
    cases htext
    exact .inl hc
  | @word word rest m hword _ _ _ _ =>
    cases word with
    | nil => cases hword
    | cons d word =>
      cases htext
      exact .inr ((Bool.and_eq_true _ _).mp hword).1

theorem Quiet.head_ne (h : Quiet (c :: rest)) {d : Char} (hmark : d ∉ quietMarks) (hletter : isLetter d = false) :
    c ≠ d := by
  rintro rfl
  rcases h.head with hc | hc
  · exact hmark hc
  · rw [hletter] at hc
    cases hc

/-- What no mark and no name of a quiet text has in it is not in the text. -/
theorem Quiet.not_mem (h : Quiet text) {d : Char} (hmark : d ∉ quietMarks) (hletter : isLetter d = false)
    (hdigit : isDigit d = false) : d ∉ text := by
  induction h with
  | nil => exact List.not_mem_nil
  | mark hc _ ih =>
    rw [List.mem_cons, not_or]
    exact ⟨fun heq => hmark (heq ▸ hc), ih⟩
  | @word word rest m hword _ _ _ _ ih =>
    rw [List.mem_append, not_or]
    refine ⟨fun hmem => ?_, ih⟩
    have hd := (isWord_chars hword).2 d hmem
    rw [hletter, hdigit] at hd
    cases hd

theorem Quiet.readGap (h : Quiet text) (width : Nat) (breaksLine : Bool) :
    Quiet (readGap width breaksLine text).rest := by
  fun_induction Syntax.readGap width breaksLine text with
  | case1 => exact h
  | case2 width breaksLine c rest hc ih =>
    refine ih (h.tail (Bool.eq_false_iff.mpr fun hletter => ?_))
    have hname := isNamePart_of_isLetter (c := c) (by simp [hletter])
    rw [isNamePart, hc] at hname
    simp at hname
  | case3 width breaksLine c _ hc => exact absurd (eq_of_beq hc) (h.head_ne (by decide) (by decide))
  | case4 width breaksLine c _ hc => exact absurd (eq_of_beq hc) (h.head_ne (by decide) (by decide))
  | case5 => exact h
  | case6 => exact h
  | case7 => exact h

theorem Quiet.token (h : Quiet s.here) (hs : s.Placed) : s.token.Quiet := by
  rw [hs]
  exact h.readToken.1

theorem Token.Quiet.not_isMark {token : Token} (h : token.Quiet) {mark : String}
    (hmark : ∀ c ∈ quietMarks, mark.toList ≠ [c]) : token.isMark mark = false := by
  refine Bool.eq_false_iff.mpr fun htoken => ?_
  obtain ⟨c, hc, htext⟩ := h.mark mark htoken
  exact hmark c hc htext

theorem Quiet.not_mayJump (h : Quiet s.here) (hs : s.Placed) : ¬ s.MayJump := by
  rintro (htemplate | hslash | hcomment)
  · rcases (h.token hs).kind with hkind | hkind | hkind | hkind <;> rw [hkind] at htemplate <;> cases htemplate
  · obtain ⟨rest, hrest⟩ := List.head?_eq_some_iff.mp hslash
    rw [hrest] at h
    exact h.head_ne (by decide) (by decide) rfl
  · obtain ⟨mark, hmark, hprefix⟩ := List.any_eq_true.mp hcomment
    obtain ⟨rest, hrest⟩ := List.isPrefixOf_iff_prefix.mp hprefix
    rw [← hrest] at h
    simp only [commentMarks, List.mem_cons, List.not_mem_nil, or_false] at hmark
    rcases hmark with rfl | rfl <;> exact h.head_ne (by decide) (by decide) rfl

theorem Quiet.next (h : Quiet s.here) (hs : s.Placed) : Quiet s.next.here := by
  rw [hs.next_here]
  exact h.readToken.2.readGap 0 false

theorem Quiet.operatorAt?_eq_none (h : Quiet text) : operatorAt? text = none := by
  have hheads : ∀ entry ∈ operators, ∃ d ∈ entry.1.head?, d ∉ quietMarks ∧ isLetter d = false := by decide
  have hnone : operators.find? (fun entry => entry.1.isPrefixOf text) = none := by
    refine List.find?_eq_none.mpr fun entry hentry hprefix => ?_
    obtain ⟨d, hd, hmark, hletter⟩ := hheads entry hentry
    obtain ⟨rest, hrest⟩ := List.isPrefixOf_iff_prefix.mp hprefix
    obtain ⟨more, hmore⟩ := List.head?_eq_some_iff.mp hd
    rw [← hrest, hmore, List.cons_append] at h
    exact h.head_ne hmark hletter rfl
  rw [operatorAt?, hnone]
  rfl

theorem Quiet.step (h : Quiet s.here) (hs : s.Placed) (hstep : Step s t) : Quiet t.here ∧ t.Placed := by
  cases hstep with
  | record items => exact ⟨h, hs⟩
  | token => exact ⟨h.next hs, rfl⟩
  | operator hoperator =>
    rw [h.operatorAt?_eq_none] at hoperator
    cases hoperator
  | jump hjump _ => exact absurd hjump (h.not_mayJump hs)

theorem Quiet.trail (h : Quiet s.here) (hs : s.Placed) (htrail : Trail s t) : Quiet t.here ∧ t.Placed := by
  induction htrail with
  | refl => exact ⟨h, hs⟩
  | tail _ hstep ih => exact ih.1.step ih.2 hstep

theorem Quiet.not_isOdd (h : Quiet s.here) (hs : s.Placed) : s.token.isOdd = false := by
  have hslash : s.token.isMark "/" = false := (h.token hs).not_isMark (by decide)
  rw [Token.isOdd, hslash]
  rcases (h.token hs).kind with hkind | hkind | hkind | hkind <;> rw [hkind] <;> rfl

/-- In a quiet text no arrow follows what is in brackets. -/
theorem Quiet.not_arrowMayFollow (h : Quiet s.here) (hs : s.Placed) (n depth : Nat) :
    s.arrowMayFollow n depth = false :=
  State.not_arrowMayFollow (P := fun s => Quiet s.here ∧ s.Placed) (fun h => ⟨h.1.next h.2, rfl⟩)
    (fun h => h.1.not_isOdd h.2) (fun h => (h.1.token h.2).not_isMark (by decide)) ⟨h, hs⟩ n depth

theorem Quiet.not_part (h : Quiet text) (front rest : List Char) : text ≠ front ++ '$' :: '{' :: rest := by
  induction h generalizing front with
  | nil => simp
  | mark hc _ ih =>
    cases front with
    | nil =>
      rintro heq
      cases heq
      exact absurd hc (by decide)
    | cons d front => exact fun heq => ih front (List.cons.inj heq).2
  | @word word _ m hword _ _ hm _ ih =>
    intro heq
    obtain ⟨back, -, hback⟩ | ⟨back, hfront, hback⟩ := List.append_eq_append_iff.mp heq
    · exact ih back hback
    · -- the dollar sign ends the name, so the mark behind the name would be the brace
      have hbrace : '{' ∉ word := fun hmem => absurd ((isWord_chars hword).2 _ hmem) (by decide)
      match back, hback with
      | [], hback =>
        cases hback
        exact absurd hm (by decide)
      | [_], hback =>
        cases hback
        exact absurd hm (by decide)
      | _ :: _ :: _, hback =>
        cases hback
        exact hbrace (hfront ▸ by simp)

theorem templateText_eq_none (hback : '\\' ∉ text) (htick : '\x60' ∉ text)
    (hpart : ∀ front rest, text ≠ front ++ '$' :: '{' :: rest) : (templateText text).2 = none := by
  fun_induction templateText text with
  | case1 => rfl
  | case2 => exact absurd List.mem_cons_self htick
  | case3 rest => exact absurd rfl (hpart [] rest)
  | case4 => exact absurd List.mem_cons_self hback
  | case5 => rfl
  | case6 c rest _ _ _ width stop hread ih =>
    rw [hread] at ih
    exact ih (fun hmem => hback (List.mem_cons_of_mem _ hmem)) (fun hmem => htick (List.mem_cons_of_mem _ hmem))
      fun front more heq => hpart (c :: front) more (by rw [heq, List.cons_append])

/-- No text or part of a template ends in a quiet text. -/
theorem Quiet.templateText (h : Quiet text) {tail : List Char} (htail : tail <:+ text) :
    (templateText tail).2 = none := by
  refine templateText_eq_none (fun hmem => ?_) (fun hmem => ?_) fun front rest heq => ?_
  · exact h.not_mem (by decide) (by decide) (by decide) (htail.subset hmem)
  · exact h.not_mem (by decide) (by decide) (by decide) (htail.subset hmem)
  · obtain ⟨before, hbefore⟩ := htail
    exact h.not_part (before ++ front) rest (by rw [List.append_assoc, ← heq, hbefore])

end DeclSchema.Syntax
