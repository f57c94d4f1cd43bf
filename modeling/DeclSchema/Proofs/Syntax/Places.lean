import DeclSchema.Proofs.Json.Numbers
import DeclSchema.Proofs.Syntax.Runs
import DeclSchema.Proofs.Syntax.TypeOperators
import DeclSchema.Proofs.Syntax.Written

/-! # Readers in front of a known text

In one source the place of a reader is known from what it still has in front of it. `At` says
what that is; `facing` is the state of a reader that has just taken everything before it.
-/
namespace DeclSchema.Syntax
open Text

/-- The state in front of this rest of a source that ends at this offset. -/
def State.facing (finish : Nat) (found : List Item) (rest : List Char) : State :=
  State.start (finish - rest.length) found rest

/-- The reader stands in front of this text, with nothing in between. -/
structure State.At (s : State) (finish : Nat) (found : List Item) (text : List Char) : Prop where
  here : s.here = text
  offset : s.offset + text.length = finish
  found_eq : s.found = found
  placed : s.Placed

def IsSpace (s : List Char) : Prop := ∀ c ∈ s, c = ' ' ∨ c = '\n'

def NoGap (s : List Char) : Prop := ∀ c, s.head? = some c → isGapChar c = false ∧ c ≠ '/'

section Places
variable {s : State} {finish : Nat} {found : List Item} {gap text rest : List Char}

theorem readGap_of_noGap (h : NoGap text) (width : Nat) (breaksLine : Bool) :
    readGap width breaksLine text = ⟨width, breaksLine, text⟩ := by
  cases text with
  | nil => rw [readGap]
  | cons c text =>
    obtain ⟨hgap, hslash⟩ := h c rfl
    rw [readGap.eq_def]
    simp [hgap, hslash]

theorem isGapChar_of_isSpace {c : Char} (h : c = ' ' ∨ c = '\n') : isGapChar c = true := by
  rcases h with rfl | rfl <;> decide

theorem readGap_space (hgap : IsSpace gap) (htext : NoGap text) (width : Nat) (breaksLine : Bool) :
    ∃ breaks, readGap width breaksLine (gap ++ text) = ⟨width + gap.length, breaks, text⟩ := by
  induction gap generalizing width breaksLine with
  | nil => exact ⟨breaksLine, readGap_of_noGap htext width breaksLine⟩
  | cons c gap ih =>
    obtain ⟨hc, hgap⟩ := List.forall_mem_cons.mp hgap
    obtain ⟨breaks, hbreaks⟩ := ih hgap (width + 1) (breaksLine || c == '\n')
    refine ⟨breaks, ?_⟩
    rw [List.cons_append, readGap.eq_def]
    simp only [isGapChar_of_isSpace hc, if_true, hbreaks, List.length_cons]
    congr 1
    omega

theorem at_facing (found : List Item) (hgap : IsSpace gap) (htext : NoGap text)
    (hle : (gap ++ text).length ≤ finish) :
    (State.facing finish found (gap ++ text)).At finish found text := by
  obtain ⟨breaks, hbreaks⟩ := readGap_space hgap htext 0 false
  rw [List.length_append] at hle
  refine ⟨?_, ?_, rfl, rfl⟩
  · rw [State.facing, State.start, hbreaks]
  · rw [State.facing, State.start, hbreaks, List.length_append]
    dsimp only
    omega

/-- Without a gap nothing but the text decides on the state. -/
theorem facing_eq (htext : NoGap text) : State.facing finish found text =
    ⟨finish - text.length, text, (readToken text).1, false, finish - text.length, found⟩ := by
  rw [State.facing, State.start, readGap_of_noGap htext]
  rfl

theorem not_endsBefore (finish : Nat) (found : List Item) {c : Char} (htext : NoGap (c :: text)) (hc : c ≠ '}')
    (lineEnd : LineEnd) :
    (State.facing finish found (c :: text)).endsBefore lineEnd = false := by
  rw [facing_eq htext]
  simp [State.endsBefore, hc]

/-- A space is no end of a line. -/
theorem not_endsBefore_space (finish : Nat) (found : List Item) {c : Char} (htext : NoGap (c :: text))
    (hc : c ≠ '}') (lineEnd : LineEnd) :
    (State.facing finish found (' ' :: c :: text)).endsBefore lineEnd = false := by
  have hgap : readGap 0 false (' ' :: c :: text) = ⟨1, false, c :: text⟩ := by
    rw [readGap.eq_def]
    simp only [show isGapChar ' ' = true from by decide, if_true]
    exact readGap_of_noGap htext 1 false
  rw [State.facing, State.start, hgap]
  simp [State.endsBefore, hc]

theorem State.At.le (h : s.At finish found text) : text.length ≤ finish := by
  have := h.offset
  omega

theorem State.At.token_eq (h : s.At finish found text) : s.token = (readToken text).1 := by
  rw [h.placed, h.here]

/-- Past a token the reader faces what follows it. -/
theorem State.At.next_eq (h : s.At finish found (text ++ rest)) (htoken : s.token.text = text) :
    s.next = .facing finish found rest := by
  have hoffset := h.offset
  rw [List.length_append] at hoffset
  rw [State.next, State.past, htoken, h.found_eq, h.here, List.drop_left, State.facing]
  congr 1
  omega

/-- What was taken up to a rest is the text before it. -/
theorem State.At.textTo_facing (h : s.At finish found (text ++ rest)) (found' : List Item) :
    s.textTo (.facing finish found' rest) = String.ofList (trim text) := by
  have hoffset := h.offset
  rw [List.length_append] at hoffset
  have hwidth : (State.facing finish found' rest).stop - s.offset = text.length := by
    show finish - rest.length - s.offset = text.length
    omega
  rw [State.textTo, hwidth, h.here, List.take_left]

end Places

def EndsName (rest : List Char) : Prop := ∀ c, rest.head? = some c → isNamePart c = false ∧ c ≠ '\\'

section Tokens
variable {word rest : List Char}

theorem toNat_lt_of_isLetter {c : Char} (h : (isLetter c || isDigit c) = true) : c.toNat < 128 := by
  simp only [isLetter, isLower, isUpper, isDigit, Bool.or_eq_true, Bool.and_eq_true,
    decide_eq_true_eq, beq_iff_eq, Char.le_def, UInt32.le_iff_toNat_le] at h
  rcases h with (((h | h) | rfl) | rfl) | h
  · exact Nat.lt_of_le_of_lt h.2 (by decide)
  · exact Nat.lt_of_le_of_lt h.2 (by decide)
  · decide
  · decide
  · exact Nat.lt_of_le_of_lt h.2 (by decide)

/-- What can be checked for every character of ASCII holds of letters and digits. -/
theorem of_isLetter {P : Char → Bool} (hall : ∀ n : Fin 128, P (Char.ofNat n) = true) {c : Char}
    (h : (isLetter c || isDigit c) = true) : P c = true := by
  have hc := hall ⟨c.toNat, toNat_lt_of_isLetter h⟩
  rwa [Char.ofNat_toNat] at hc

theorem isNamePart_of_isLetter {c : Char} (h : (isLetter c || isDigit c) = true) :
    isNamePart c = true := by
  have hall : ∀ n : Fin 128, (!(isLetter (Char.ofNat n) || isDigit (Char.ofNat n)) ||
      isNamePart (Char.ofNat n)) = true := by decide
  have hc := of_isLetter (P := fun c => !(isLetter c || isDigit c) || isNamePart c) hall h
  simpa [h] using hc

theorem isNameStart_of_isLetter {c : Char} (h : isLetter c = true) : isNameStart c = true := by
  have hpart : isNamePart c = true := isNamePart_of_isLetter (by simp [h])
  have hall : ∀ n : Fin 128, (!isLetter (Char.ofNat n) || !isDigit (Char.ofNat n)) = true := by decide
  have hc := of_isLetter (P := fun c => !isLetter c || !isDigit c) hall (c := c) (by simp [h])
  rw [isNameStart, hpart]
  simpa [h] using hc

theorem readName_of_parts (h : ∀ c ∈ word, isNamePart c = true) (hr : EndsName rest) :
    readName (word ++ rest) = (word, rest) := by
  induction word with
  | nil =>
    cases rest with
    | nil => rw [List.nil_append, readName.eq_def]
    | cons c rest =>
      obtain ⟨hc, hescape⟩ := hr c rfl
      rw [List.nil_append, readName.eq_def]
      simp [hc, hescape]
  | cons c word ih =>
    obtain ⟨hc, hword⟩ := List.forall_mem_cons.mp h
    rw [List.cons_append, readName.eq_def]
    simp only [hc, if_true, ih hword]

theorem readToken_word (h : isWord word = true) (hr : EndsName rest) :
    readToken (word ++ rest) = (⟨.word, word⟩, rest) := by
  cases word with
  | nil => cases h
  | cons c word =>
    obtain ⟨hc, hword⟩ := (Bool.and_eq_true _ _).mp h
    have hparts : ∀ d ∈ c :: word, isNamePart d = true := by
      refine List.forall_mem_cons.mpr ⟨isNamePart_of_isLetter (by simp [hc]), fun d hd => ?_⟩
      exact isNamePart_of_isLetter (List.all_eq_true.mp hword d hd)
    have hname := readName_of_parts hparts hr
    rw [List.cons_append] at hname ⊢
    simp only [readToken, isNameStart_of_isLetter hc, Bool.true_or, if_true, hname]

def loneMarks : List Char := [';', ',', '{', '}', '(', ')', '[', ']', ':', '<', '>', '|']

theorem readToken_mark {m : Char} (hm : m ∈ loneMarks) (rest : List Char) :
    readToken (m :: rest) = (⟨.mark, [m]⟩, rest) := by
  simp only [loneMarks, List.mem_cons, List.not_mem_nil, or_false] at hm
  rcases hm with rfl | rfl | rfl | rfl | rfl | rfl | rfl | rfl | rfl | rfl | rfl | rfl <;> rfl

theorem readToken_equals (rest : List Char) :
    readToken ('=' :: ' ' :: rest) = (⟨.mark, ['=']⟩, ' ' :: rest) := rfl

theorem readToken_question {m : Char} (hm : m = ':' ∨ m = ';') (rest : List Char) :
    readToken ('?' :: m :: rest) = (⟨.mark, ['?']⟩, m :: rest) := by
  rcases hm with rfl | rfl <;> rfl

theorem readString_plain {value : List Char} {quote : Char}
    (h : ∀ c ∈ value, c ≠ quote ∧ c ∉ ['\\', '\n', '\r']) (rest : List Char) :
    readString quote (value ++ quote :: rest) = (true, value ++ [quote], rest) := by
  induction value with
  | nil =>
    rw [List.nil_append, readString.eq_def]
    simp
  | cons c value ih =>
    obtain ⟨⟨hquote, hc⟩, hvalue⟩ := List.forall_mem_cons.mp h
    simp only [List.mem_cons, List.not_mem_nil, or_false, not_or] at hc
    rw [List.cons_append, readString.eq_def]
    simp [hquote, hc, ih hvalue]

theorem isPlain_chars {value : String} (h : isPlain value = true) (quote : Quote) :
    ∀ c ∈ value.toList, c ≠ quote.mark ∧ c ∉ ['\\', '\n', '\r'] := by
  intro c hc
  have hplain := List.all_eq_true.mp h c hc
  simp only [List.contains_eq_mem, List.mem_cons, List.not_mem_nil, or_false, Bool.not_eq_true',
    decide_eq_false_iff_not, not_or] at hplain
  refine ⟨?_, by simp [hplain]⟩
  cases quote
  · exact hplain.2.1
  · exact hplain.1

theorem readToken_quoted (quote : Quote) {value : String} (h : isPlain value = true)
    (rest : List Char) :
    readToken (quoted quote value ++ rest) = (⟨.string, quoted quote value⟩, rest) := by
  have hstring := readString_plain (isPlain_chars h quote) rest
  have hshape : quoted quote value ++ rest =
      quote.mark :: (value.toList ++ quote.mark :: rest) := by simp [quoted]
  have hname : (isNameStart quote.mark || quote.mark == '\\') = false := by cases quote <;> decide
  have hdigit : isDigit quote.mark = false := by cases quote <;> decide
  have hpoint : (quote.mark == '.') = false := by cases quote <;> decide
  have hquote : (quote.mark == '"' || quote.mark == '\'') = true := by cases quote <;> decide
  rw [hshape]
  simp only [readToken, hname, hdigit, hpoint, hquote, Bool.false_and, Bool.or_false,
    Bool.false_eq_true, if_false, if_true, hstring]
  rfl

theorem readDigits_before_comma {digits : List Char} (h : ∀ c ∈ digits, isDigit c = true)
    (rest : List Char) : readDigits isDigit (digits ++ ',' :: rest) = (digits, ',' :: rest) := by
  induction digits with
  | nil => rfl
  | cons d digits ih =>
    obtain ⟨hd, hdigits⟩ := List.forall_mem_cons.mp h
    have hne : d ≠ '_' := by
      rintro rfl
      cases hd
    rw [List.cons_append, readDigits.eq_3 _ _ _ (fun _ _ h _ => hne h), if_pos hd, ih hdigits]

theorem baseDigits?_eq_none {c : Char} (h : isDigit c = true ∨ c = ',') : baseDigits? c = none := by
  have hne : ∀ d ∈ ['x', 'X', 'o', 'O', 'b', 'B'], (c == d) = false := by
    have hall : ∀ d ∈ ['x', 'X', 'o', 'O', 'b', 'B'], isDigit d = false ∧ d ≠ ',' := by decide
    intro d hd
    rw [beq_eq_false_iff_ne]
    rintro rfl
    rcases h with h | h
    · rw [(hall c hd).1] at h
      cases h
    · exact (hall c hd).2 h
  unfold baseDigits?
  simp only [hne, List.mem_cons, true_or, or_true, Bool.or_self, Bool.false_eq_true, if_false]

theorem readNumber_before_comma {digits : List Char} (h : ∀ c ∈ digits, isDigit c = true)
    (hne : digits ≠ []) (rest : List Char) :
    readNumber (digits ++ ',' :: rest) = (digits, ',' :: rest) := by
  have hdecimal : readDecimal (digits ++ ',' :: rest) = (digits, ',' :: rest) := by
    rw [readDecimal, readDigits_before_comma h]
    simp [readPower]
  obtain ⟨d, more, rfl⟩ := List.exists_cons_of_ne_nil hne
  obtain ⟨hd, hmore⟩ := List.forall_mem_cons.mp h
  rw [← hdecimal]
  unfold readNumber
  split
  · rename_i hpoint
    rw [List.cons_append, List.cons.injEq] at hpoint
    rw [hpoint.1] at hd
    cases hd
  · rename_i mark c _ hbase
    have hmark : isDigit mark = true ∨ mark = ',' := by
      rw [List.cons_append, List.cons.injEq] at hbase
      cases more with
      | nil => exact .inr (List.cons.inj hbase.2).1.symm
      | cons m more => exact .inl ((List.cons.inj hbase.2).1 ▸ hmore m (by simp))
    rw [baseDigits?_eq_none hmark]
  · rfl

theorem isDigits_toString (n : Nat) : Json.Tree.IsDigits (toString n).toList := by
  show Json.Tree.IsDigits (String.ofList (Nat.toDigits 10 n)).toList
  rw [String.toList_ofList]
  exact Json.Tree.isDigits_toDigits n

theorem readToken_number (n : Nat) (rest : List Char) :
    readToken ((toString n).toList ++ ',' :: rest) = (⟨.number, (toString n).toList⟩, ',' :: rest) := by
  have hdigits := isDigits_toString n
  generalize (toString n).toList = digits at hdigits ⊢
  have hnumber := readNumber_before_comma hdigits.digits hdigits.nonempty rest
  obtain ⟨d, more, rfl⟩ := List.exists_cons_of_ne_nil hdigits.nonempty
  have hd : isDigit d = true := hdigits.digits d (by simp)
  have hname : (isNameStart d || d == '\\') = false := by
    have hne : (d == '\\') = false := by
      rw [beq_eq_false_iff_ne]
      rintro rfl
      cases hd
    simp [isNameStart, hd, hne]
  rw [List.cons_append] at hnumber ⊢
  simp only [readToken, hname, hd, Bool.true_or, Bool.false_eq_true, if_false, if_true, hnumber]

end Tokens

end DeclSchema.Syntax
