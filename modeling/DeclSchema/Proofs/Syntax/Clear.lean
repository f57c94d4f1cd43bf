import DeclSchema.Proofs.Syntax.Places

/-! # Texts without surprises

In a clear text stand only names, numbers, a few marks and whole strings. Wherever a reader gets
to in it the rest is clear, too, and no arrow stands there: what is in parentheses is not the head
of a function.
-/
namespace DeclSchema.Syntax
open Text

def clearMarks : List Char := [' ', '\n', '{', '}', '(', ')', '[', ']', '<', '>', ';', ':', ',', '|', '?']

def isClear (c : Char) : Bool := isLetter c || isDigit c || clearMarks.contains c

inductive Clear : List Char → Prop
  | nil : Clear []
  | char {c : Char} {rest : List Char} (hc : isClear c = true) (h : Clear rest) : Clear (c :: rest)
  | equals {rest : List Char} (h : Clear rest) : Clear ('=' :: ' ' :: rest)
  | string {value : String} {rest : List Char} (quote : Quote) (hvalue : isPlain value = true)
      (h : Clear rest) : Clear (quoted quote value ++ rest)

variable {c : Char} {front rest text : List Char}

theorem clear_ascii {P : Char → Bool} (hall : ∀ n : Fin 128, isClear (Char.ofNat n) = true →
    P (Char.ofNat n) = true) (h : isClear c = true) : P c = true := by
  have hlt : c.toNat < 128 := by
    rcases (Bool.or_eq_true _ _).mp h with h | h
    · exact toNat_lt_of_isLetter h
    · have hmarks : ∀ d ∈ clearMarks, d.toNat < 128 := by decide
      exact hmarks c (by simpa using h)
  have hc := hall ⟨c.toNat, hlt⟩
  rw [Char.ofNat_toNat] at hc
  exact hc h

def isQuote (c : Char) : Bool := c == '"' || c == '\''

theorem isQuote_mark (quote : Quote) : isQuote quote.mark = true := by
  cases quote <;> rfl

def unclearMarks : List Char := ['"', '\'', '\x60', '/', '\\', '!', '-', '#', '=']

theorem not_mem_of_isClear (h : isClear c = true) : c ∉ unclearMarks := by
  have hall : ∀ n : Fin 128, isClear (Char.ofNat n) = true →
      (!unclearMarks.contains (Char.ofNat n)) = true := by decide
  simpa using clear_ascii (P := fun c => !unclearMarks.contains c) hall h

theorem Clear.head_not_mem (h : Clear (c :: rest)) (hquote : isQuote c = false) (hequals : c ≠ '=') :
    c ∉ unclearMarks := by
  generalize htext : c :: rest = text at h
  cases h with
  | nil => cases htext
  | char hc _ =>
    cases htext
    exact not_mem_of_isClear hc
  | equals _ =>
    cases htext
    exact absurd rfl hequals
  | string quote _ _ =>
    rw [quoted, List.cons_append] at htext
    cases htext
    rw [isQuote_mark] at hquote
    cases hquote

/-- Outside of strings every end of a clear text is clear. -/
theorem Clear.tail (h : Clear (c :: rest)) (hquote : isQuote c = false) : Clear rest := by
  generalize htext : c :: rest = text at h
  cases h with
  | nil => cases htext
  | char _ h =>
    cases htext
    exact h
  | equals h =>
    cases htext
    exact .char (by decide) h
  | string quote _ _ =>
    rw [quoted, List.cons_append] at htext
    cases htext
    rw [isQuote_mark] at hquote
    cases hquote

theorem Clear.drop_front (h : Clear (front ++ rest)) (hfront : ∀ c ∈ front, isQuote c = false) :
    Clear rest := by
  induction front with
  | nil => exact h
  | cons c front ih =>
    obtain ⟨hc, hfront⟩ := List.forall_mem_cons.mp hfront
    exact ih (h.tail hc) hfront

/-- A string in a clear text is whole. -/
theorem Clear.exists_string (h : Clear (c :: rest)) (hquote : isQuote c = true) :
    ∃ quote value after, c :: rest = quoted quote value ++ after ∧ isPlain value = true ∧ Clear after := by
  generalize htext : c :: rest = text at h
  cases h with
  | nil => cases htext
  | char hc _ =>
    cases htext
    have hnot := not_mem_of_isClear hc
    rcases (Bool.or_eq_true _ _).mp hquote with hquote | hquote <;> rw [eq_of_beq hquote] at hnot <;>
      exact absurd (by decide) hnot
  | equals _ =>
    cases htext
    cases hquote
  | string quote hvalue h => exact ⟨quote, _, _, rfl, hvalue, h⟩

theorem isQuote_eq_false {P : Char → Bool} (hdouble : P '"' = false) (hsingle : P '\'' = false)
    (h : P c = true) : isQuote c = false := by
  rw [isQuote, Bool.or_eq_false_iff, beq_eq_false_iff_ne, beq_eq_false_iff_ne]
  constructor
  · rintro rfl
    rw [hdouble] at h
    cases h
  · rintro rfl
    rw [hsingle] at h
    cases h

theorem Clear.ne_slash (h : Clear (c :: rest)) : c ≠ '/' := by
  rintro rfl
  exact h.head_not_mem (by decide) (by decide) (by decide)

theorem Clear.readGap (h : Clear text) (width : Nat) (breaksLine : Bool) :
    Clear (readGap width breaksLine text).rest := by
  fun_induction Syntax.readGap width breaksLine text with
  | case1 => exact h
  | case2 width breaksLine c rest hc ih =>
    exact ih (h.tail (isQuote_eq_false (P := isGapChar) (by decide) (by decide) hc))
  | case3 width breaksLine c _ hc => exact absurd (eq_of_beq hc) h.ne_slash
  | case4 width breaksLine c _ hc => exact absurd (eq_of_beq hc) h.ne_slash
  | case5 => exact h
  | case6 => exact h
  | case7 => exact h

theorem Clear.readName (h : Clear text) : Clear (readName text).2 := by
  fun_induction Syntax.readName text with
  | case1 => exact h
  | case2 c rest hc part after hread ih =>
    have hrest := ih (h.tail (isQuote_eq_false (P := isNamePart) (by decide) (by decide) hc))
    rwa [hread] at hrest
  | case3 c rest _ hc =>
    obtain rfl := eq_of_beq ((Bool.and_eq_true _ _).mp hc).1
    exact absurd (by decide) (h.head_not_mem (by decide) (by decide))
  | case4 => exact h
  | case5 => exact h

theorem not_isQuote_of_mem_longMarks {mark : List Char} (h : mark ∈ longMarks) :
    ∀ c ∈ mark, isQuote c = false := by
  have hall : ∀ mark ∈ longMarks, ∀ c ∈ mark, isQuote c = false := by decide
  exact hall mark h

theorem Clear.readMark (h : Clear (c :: rest)) (hquote : isQuote c = false) :
    Clear (readMark (c :: rest)).2 := by
  have hall : Clear ((Syntax.readMark (c :: rest)).1 ++ (Syntax.readMark (c :: rest)).2) := by
    rwa [readMark_append]
  refine hall.drop_front ?_
  unfold Syntax.readMark
  split
  · rename_i mark after hfound
    obtain ⟨long, hmem, hlong⟩ := List.exists_of_findSome?_eq_some hfound
    obtain ⟨_, _, heq⟩ := Option.map_eq_some_iff.mp hlong
    cases heq
    split
    · intro d hd
      obtain rfl := List.mem_singleton.mp hd
      decide
    · exact not_isQuote_of_mem_longMarks hmem
  · intro d hd
    obtain rfl := List.mem_singleton.mp hd
    exact hquote

theorem Clear.readToken (h : Clear text) : Clear (readToken text).2 := by
  cases text with
  | nil => exact h
  | cons c rest =>
    cases hquote : isQuote c with
    | true =>
      obtain ⟨quote, value, after, htext, hvalue, hafter⟩ := h.exists_string hquote
      rw [htext, readToken_quoted quote hvalue]
      exact hafter
    | false =>
      rw [readToken.eq_def]
      dsimp only
      split
      · have hname := h.readName
        split
        · exact h.tail hquote
        · rename_i name after _ hread
          rwa [hread] at hname
      · split
        · have hfronts := readNumber_fronts (c :: rest)
          have hall : Clear ((readNumber (c :: rest)).1 ++ (readNumber (c :: rest)).2) := by
            rwa [hfronts.append]
          refine hall.drop_front fun d hd => ?_
          have hnot := (hfronts.chars d hd).not_mem
          rw [isQuote, Bool.or_eq_false_iff, beq_eq_false_iff_ne, beq_eq_false_iff_ne]
          exact ⟨fun heq => hnot (by simp [heq]), fun heq => hnot (by simp [heq])⟩
        · split
          · rename_i hstring
            rw [isQuote, hstring] at hquote
            cases hquote
          · split
            · exact h.tail hquote
            · split
              · split
                · exact (h.tail hquote).readName
                · exact h.tail hquote
              · split
                · exact h.readMark hquote
                · exact h.tail hquote

variable {s t : State}

/-- In a clear text nothing makes a reader jump. -/
theorem Clear.not_mayJump (h : Clear s.here) (hs : s.Placed) : ¬ s.MayJump := by
  rintro (htemplate | hslash | hcomment)
  · rw [hs] at htemplate
    obtain ⟨rest, hrest⟩ := List.head?_eq_some_iff.mp (template_token htemplate)
    rw [hrest] at h
    exact h.head_not_mem (by decide) (by decide) (by decide)
  · obtain ⟨rest, hrest⟩ := List.head?_eq_some_iff.mp hslash
    rw [hrest] at h
    exact h.ne_slash rfl
  · obtain ⟨mark, hmark, hprefix⟩ := List.any_eq_true.mp hcomment
    obtain ⟨rest, hrest⟩ := List.isPrefixOf_iff_prefix.mp hprefix
    rw [← hrest] at h
    simp only [commentMarks, List.mem_cons, List.not_mem_nil, or_false] at hmark
    rcases hmark with rfl | rfl
    · exact (h.tail (by decide)).head_not_mem (by decide) (by decide) (by decide)
    · exact h.head_not_mem (by decide) (by decide) (by decide)

/-- Behind its token a reader faces what the token and the gap behind it leave. -/
theorem State.Placed.next_here (hs : s.Placed) :
    s.next.here = (Syntax.readGap 0 false (Syntax.readToken s.here).2).rest := by
  have hrest : s.here.drop s.token.text.length = (Syntax.readToken s.here).2 := by
    have hdrop : ((Syntax.readToken s.here).1.text ++ (Syntax.readToken s.here).2).drop
        (Syntax.readToken s.here).1.text.length = (Syntax.readToken s.here).2 := List.drop_left
    rw [readToken_append] at hdrop
    rw [hs]
    exact hdrop
  rw [← hrest]
  rfl

/-- Where no odd token and no arrow comes, no arrow follows what is in brackets. -/
theorem State.not_arrowMayFollow {P : State → Prop} (hnext : ∀ {s}, P s → P s.next)
    (hodd : ∀ {s}, P s → s.token.isOdd = false) (harrow : ∀ {s}, P s → s.token.isMark "=>" = false)
    (h : P s) (n depth : Nat) : s.arrowMayFollow n depth = false := by
  induction n generalizing s depth with
  | zero => rfl
  | succ n ih =>
    rw [State.arrowMayFollow, hodd h]
    simp only [ih (hnext h), harrow (hnext h), Bool.false_eq_true, if_false, ite_self]

theorem Clear.next (h : Clear s.here) (hs : s.Placed) : Clear s.next.here := by
  rw [hs.next_here]
  exact h.readToken.readGap 0 false

theorem Clear.not_arrow (h : Clear s.here) (hs : s.Placed) : s.token.isMark "=>" = false := by
  cases harrow : s.token.isMark "=>" with
  | false => rfl
  | true =>
    have htext := Token.text_of_isMark harrow
    have happend := readToken_append s.here
    rw [← hs, htext] at happend
    rw [← happend] at h
    generalize htext : "=>".toList ++ (Syntax.readToken s.here).2 = text at h
    cases h with
    | nil => cases htext
    | char hc _ =>
      cases htext
      exact absurd (by decide) (not_mem_of_isClear hc)
    | equals _ => cases htext
    | string quote _ _ => cases quote <;> cases htext

theorem Clear.not_brokenString (h : Clear text) : (Syntax.readToken text).1.kind ≠ .brokenString := by
  cases text with
  | nil => simp [Syntax.readToken]
  | cons c rest =>
    cases hquote : isQuote c with
    | true =>
      obtain ⟨quote, value, after, htext, hvalue, -⟩ := h.exists_string hquote
      rw [htext, readToken_quoted quote hvalue]
      simp
    | false =>
      have hnot : (c == '"' || c == '\'') = false := hquote
      rw [readToken.eq_def]
      simp only [hnot]
      grind

theorem Clear.not_isOdd (h : Clear s.here) (hs : s.Placed) : s.token.isOdd = false := by
  have hjump := h.not_mayJump hs
  have hbroken := h.not_brokenString
  rw [← hs] at hbroken
  rw [Token.isOdd, Bool.or_eq_false_iff, Bool.or_eq_false_iff, beq_eq_false_iff_ne, beq_eq_false_iff_ne]
  refine ⟨⟨fun htemplate => hjump (.inl htemplate), hbroken⟩, ?_⟩
  cases hslash : s.token.isMark "/" with
  | false => rfl
  | true =>
    have happend := readToken_append s.here
    rw [← hs, Token.text_of_isMark hslash] at happend
    exact absurd (.inr (.inl (by rw [← happend]; rfl))) hjump

/-- In a clear text no arrow follows what is in brackets. -/
theorem Clear.not_arrowMayFollow (h : Clear s.here) (hs : s.Placed) (n depth : Nat) :
    s.arrowMayFollow n depth = false :=
  State.not_arrowMayFollow (P := fun s => Clear s.here ∧ s.Placed) (fun h => ⟨h.1.next h.2, rfl⟩)
    (fun h => h.1.not_isOdd h.2) (fun h => h.1.not_arrow h.2) ⟨h, hs⟩ n depth

end DeclSchema.Syntax
