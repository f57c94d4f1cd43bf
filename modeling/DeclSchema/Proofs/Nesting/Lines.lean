import DeclSchema.Proofs.Syntax.Reads

/-! # Texts in front of a line end

Behind a line feed stands another text. What a scanner finds at the front of the line is the same
with that text and without it, as long as it finds something whole.
-/
namespace DeclSchema.Syntax
open Text

variable {s t : List Char}

def Split.before (r : Split) (t : List Char) : Split := (r.1, r.2 ++ '\n' :: t)

theorem afterHead?_append {head : List Char} (h : '\n' ∉ head) :
    afterHead? head (s ++ '\n' :: t) = (afterHead? head s).map (· ++ '\n' :: t) := by
  induction head generalizing s with
  | nil => rfl
  | cons c head ih =>
    rw [List.mem_cons, not_or] at h
    cases s with
    | nil => simp [afterHead?, Ne.symm h.1]
    | cons d s =>
      simp only [List.cons_append, afterHead?, ih h.2]
      split <;> rfl

theorem dropWhile_append {p : Char → Bool} (h : p '\n' = false) :
    (s ++ '\n' :: t).dropWhile p = s.dropWhile p ++ '\n' :: t := by
  induction s with
  | nil => simp [h]
  | cons c s ih =>
    simp only [List.cons_append, List.dropWhile_cons, ih]
    split <;> rfl

theorem takeWhile_append {p : Char → Bool} (h : p '\n' = false) :
    (s ++ '\n' :: t).takeWhile p = s.takeWhile p := by
  induction s with
  | nil => simp [h]
  | cons c s ih =>
    simp only [List.cons_append, List.takeWhile_cons, ih]

theorem test_head?_append {p : Char → Bool} (h : p '\n' = false) :
    (((s ++ '\n' :: t).head?.map p).getD false) = ((s.head?.map p).getD false) := by
  cases s with
  | nil => simp [h]
  | cons d s => rfl

theorem readDigits_append {isBaseDigit : Char → Bool} (h : isBaseDigit '\n' = false)
    (hunder : isBaseDigit '_' = false) :
    readDigits isBaseDigit (s ++ '\n' :: t) = (readDigits isBaseDigit s).before t := by
  fun_induction readDigits isBaseDigit s with
  | case1 => simp [readDigits, Split.before, h]
  | case2 c rest hc part after hread ih =>
    simp only [List.cons_append, readDigits, hc, if_true, ih, hread, Split.before]
  | case3 c rest hc => simp [readDigits, hc, Split.before]
  | case4 c rest _ hc part after hread ih =>
    have hne : c ≠ '_' := ne_of_test hc hunder
    rw [List.cons_append, readDigits.eq_3 _ _ _ (fun _ _ h _ => hne h), if_pos hc, ih, hread]
    rfl
  | case5 c rest hlone hc =>
    cases rest with
    | nil => by_cases hc' : c = '_' <;> simp_all [readDigits, Split.before]
    | cons d rest =>
      have hne : c ≠ '_' := fun hc => hlone _ _ hc rfl
      rw [List.cons_append, readDigits.eq_3 _ _ _ (fun _ _ h _ => hne h), if_neg hc]
      rfl

theorem readSuffix_append : readSuffix (s ++ '\n' :: t) = (readSuffix s).before t := by
  rcases s with _ | ⟨c, s⟩
  · rfl
  · by_cases hc : c = 'n'
    · subst hc
      rfl
    · simp [readSuffix, hc, Split.before]

theorem readSign_append : readSign (s ++ '\n' :: t) = (readSign s).before t := by
  rcases s with _ | ⟨c, s⟩
  · rfl
  · by_cases hplus : c = '+'
    · subst hplus
      rfl
    · by_cases hminus : c = '-'
      · subst hminus
        rfl
      · simp [readSign, hplus, hminus, Split.before]

theorem readFraction_append : readFraction (s ++ '\n' :: t) = (readFraction s).before t := by
  unfold readFraction
  rw [test_head?_append (by decide), readDigits_append (by decide) (by decide)]
  split <;> rfl

theorem readPower_append : readPower (s ++ '\n' :: t) = (readPower s).before t := by
  rcases s with _ | ⟨e, s⟩
  · rfl
  · simp only [List.cons_append, readPower, readSign_append, Split.before, readFraction_append]
    split
    · split <;> rfl
    · rfl

theorem readDecimal_append : readDecimal (s ++ '\n' :: t) = (readDecimal s).before t := by
  unfold readDecimal
  rw [readDigits_append (by decide) (by decide)]
  rcases readDigits isDigit s with ⟨whole, rest⟩
  dsimp only [Split.before]
  rcases rest with _ | ⟨c, rest⟩
  · rfl
  · by_cases hn : c = 'n'
    · subst hn
      rfl
    · by_cases hpoint : c = '.'
      · subst hpoint
        simp only [List.cons_append, readFraction_append, Split.before, readPower_append]
        split <;> rfl
      · have hpower := @readPower_append (c :: rest) t
        rw [List.cons_append] at hpower
        simp [hn, hpoint, hpower, Split.before]

/-- No digit is a line feed or an underscore. -/
theorem not_baseDigit {mark : Char} {isBaseDigit : Char → Bool} (h : baseDigits? mark = some isBaseDigit) :
    isBaseDigit '\n' = false ∧ isBaseDigit '_' = false := by
  unfold baseDigits? at h
  split at h
  · cases h
    decide
  · split at h
    · cases h
      decide
    · split at h
      · cases h
        decide
      · cases h

theorem readNumber_append : readNumber (s ++ '\n' :: t) = (readNumber s).before t := by
  have hdecimal : readDecimal (s ++ '\n' :: t) = (readDecimal s).before t := readDecimal_append
  rcases s with _ | ⟨c, s⟩
  · rfl
  · by_cases hpoint : c = '.'
    · subst hpoint
      simp only [List.cons_append, readNumber, readDigits_append (by decide : isDigit '\n' = false) (by decide),
        readPower_append, Split.before]
    · by_cases hzero : c = '0'
      · subst hzero
        rcases s with _ | ⟨mark, _ | ⟨d, s⟩⟩
        · cases t <;> simpa [readNumber, baseDigits?] using hdecimal
        · simp only [List.cons_append, List.nil_append] at hdecimal ⊢
          simp only [readNumber]
          cases hbase : baseDigits? mark with
          | none => exact hdecimal
          | some isBaseDigit => simpa [(not_baseDigit hbase).1] using hdecimal
        · simp only [List.cons_append] at hdecimal ⊢
          simp only [readNumber]
          cases hbase : baseDigits? mark with
          | none => exact hdecimal
          | some isBaseDigit =>
            obtain ⟨hline, hunder⟩ := not_baseDigit hbase
            have hdigits := readDigits_append (s := d :: s) (t := t) hline hunder
            rw [List.cons_append] at hdigits
            simp only [hdigits, Split.before, readSuffix_append]
            split
            · rfl
            · exact hdecimal
      · simpa [readNumber, hpoint, hzero] using hdecimal

theorem longMarks_lineless : ∀ mark ∈ longMarks, '\n' ∉ mark := by decide

theorem readMark_append_line {c : Char} :
    readMark (c :: (s ++ '\n' :: t)) = (readMark (c :: s)).before t := by
  have hmarks : ∀ marks : List (List Char), (∀ mark ∈ marks, '\n' ∉ mark) →
      (marks.findSome? fun mark => (afterHead? mark (c :: (s ++ '\n' :: t))).map fun rest => (mark, rest)) =
        (marks.findSome? fun mark => (afterHead? mark (c :: s)).map fun rest => (mark, rest)).map
          fun found => (found.1, found.2 ++ '\n' :: t) := by
    intro marks hmarks
    induction marks with
    | nil => rfl
    | cons mark marks ih =>
      obtain ⟨hmark, hrest⟩ := List.forall_mem_cons.mp hmarks
      have hhead := afterHead?_append (s := c :: s) (t := t) hmark
      rw [List.cons_append] at hhead
      simp only [List.findSome?_cons, hhead, ih hrest]
      cases afterHead? mark (c :: s) <;> rfl
  unfold readMark
  rw [hmarks longMarks longMarks_lineless]
  cases hfound : longMarks.findSome? fun mark => (afterHead? mark (c :: s)).map fun rest => (mark, rest) with
  | none => simp [Split.before]
  | some found =>
    simp only [Option.map_some, test_head?_append (show isDigit '\n' = false by decide)]
    split <;> rfl

theorem afterEscape?_hex :
    Escape.afterEscape? ('x' :: (s ++ '\n' :: t)) = (Escape.afterEscape? ('x' :: s)).map (· ++ '\n' :: t) := by
  have hline : isHexDigit '\n' = false := by decide
  rcases s with _ | ⟨a, _ | ⟨b, s⟩⟩
  · cases t <;> simp [Escape.afterEscape?, hline]
  · simp [Escape.afterEscape?, hline]
  · simp only [List.cons_append, Escape.afterEscape?]
    split <;> rfl

theorem afterEscape?_code :
    Escape.afterEscape? ('u' :: (s ++ '\n' :: t)) = (Escape.afterEscape? ('u' :: s)).map (· ++ '\n' :: t) := by
  have hline : isHexDigit '\n' = false := by decide
  rcases s with _ | ⟨a, s⟩
  · rcases t with _ | ⟨_, _ | ⟨_, _ | ⟨_, t⟩⟩⟩ <;> simp [Escape.afterEscape?, hline]
  · by_cases ha : a = '{'
    · subst ha
      simp only [List.cons_append, Escape.afterEscape?, test_head?_append hline, dropWhile_append hline,
        afterHead?_append (show '\n' ∉ ['\x7d'] by decide)]
      split <;> rfl
    · rcases s with _ | ⟨b, _ | ⟨c, _ | ⟨d, s⟩⟩⟩
      · rcases t with _ | ⟨_, _ | ⟨_, t⟩⟩ <;> simp [Escape.afterEscape?, ha, hline]
      · rcases t with _ | ⟨_, t⟩ <;> simp [Escape.afterEscape?, ha, hline]
      · simp [Escape.afterEscape?, ha, hline]
      · simp only [List.cons_append, Escape.afterEscape?]
        split <;> simp

/-- A line feed goes on with an escape only behind the backslash or a carriage return. -/
theorem afterEscape?_append (hnil : s ≠ []) (hreturn : s ≠ ['\r']) :
    Escape.afterEscape? (s ++ '\n' :: t) = (Escape.afterEscape? s).map (· ++ '\n' :: t) := by
  obtain ⟨c, s, rfl⟩ := List.exists_cons_of_ne_nil hnil
  by_cases hhex : c = 'x'
  · subst hhex
    exact afterEscape?_hex
  · by_cases hcode : c = 'u'
    · subst hcode
      exact afterEscape?_code
    · by_cases hc : c = '\r'
      · subst hc
        obtain ⟨d, s, rfl⟩ := List.exists_cons_of_ne_nil (show s ≠ [] by rintro rfl; exact hreturn rfl)
        by_cases hd : d = '\n' <;> simp [Escape.afterEscape?, hd]
      · simp [Escape.afterEscape?, hhex, hcode, hc]

theorem take_sub_append {front back : List Char} (h : back <:+ front) :
    (front ++ '\n' :: t).take ((front ++ '\n' :: t).length - (back ++ '\n' :: t).length) =
      front.take (front.length - back.length) := by
  have hle := h.length_le
  have hwidth : (front ++ '\n' :: t).length - (back ++ '\n' :: t).length = front.length - back.length := by
    simp only [List.length_append]
    omega
  rw [hwidth, List.take_append_of_le_length (Nat.sub_le _ _)]

section Escaped
variable {rest after : List Char}

theorem readName_escape (hcode : (rest.head? == some 'u') = true) (h : Escape.afterEscape? rest = some after) :
    readName ('\\' :: rest) =
      ('\\' :: (rest.take (rest.length - after.length) ++ (readName after).1), (readName after).2) := by
  rw [readName.eq_def]
  simp only [show isNamePart '\\' = false by decide, hcode, Bool.false_eq_true, if_false, beq_self_eq_true,
    Bool.and_self, if_true]
  split
  · rename_i found hfound
    obtain rfl : after = found := Option.some.inj (h.symm.trans hfound)
    rfl
  · rename_i hfound
    rw [h] at hfound
    cases hfound

theorem readName_noEscape (h : Escape.afterEscape? rest = none) : readName ('\\' :: rest) = ([], '\\' :: rest) := by
  rw [readName.eq_def]
  simp only [show isNamePart '\\' = false by decide, Bool.false_eq_true, if_false]
  split
  · split
    · rename_i hfound
      rw [h] at hfound
      cases hfound
    · rfl
  · rfl

end Escaped

theorem readName_append_line : readName (s ++ '\n' :: t) = (readName s).before t := by
  have hline : isNamePart '\n' = false := by decide
  have hhead : ∀ rest : List Char, ((rest ++ '\n' :: t).head? == some 'u') = (rest.head? == some 'u') := by
    rintro (_ | ⟨d, rest⟩) <;> rfl
  have hescapes : ∀ rest : List Char, (rest.head? == some 'u') = true →
      Escape.afterEscape? (rest ++ '\n' :: t) = (Escape.afterEscape? rest).map (· ++ '\n' :: t) := by
    rintro (_ | ⟨d, rest⟩) hd
    · cases hd
    · obtain rfl : d = 'u' := by simpa using hd
      exact afterEscape?_code
  fun_induction readName s with
  | case1 => simp [readName, hline, Split.before]
  | case2 c rest hc part after hread ih =>
    rw [List.cons_append, readName.eq_def]
    simp only [hc, if_true, ih, hread, Split.before]
  | case3 c rest hc hescape after hafter part tail hread ih =>
    obtain ⟨hback, hcode⟩ := (Bool.and_eq_true _ _).mp hescape
    obtain rfl := eq_of_beq hback
    have hfollows := hescapes rest hcode
    rw [hafter, Option.map_some] at hfollows
    rw [List.cons_append, readName_escape ((hhead rest).trans hcode) hfollows, ih, hread,
      take_sub_append (afterEscape?_suffix hafter)]
    rfl
  | case4 c rest hc hescape hafter =>
    obtain ⟨hback, hcode⟩ := (Bool.and_eq_true _ _).mp hescape
    obtain rfl := eq_of_beq hback
    have hfollows := hescapes rest hcode
    rw [hafter, Option.map_none] at hfollows
    rw [List.cons_append, readName_noEscape hfollows]
    rfl
  | case5 c rest hc hescape =>
    rw [List.cons_append, readName.eq_def]
    simp only [hc, hescape, hhead, Bool.false_eq_true, if_false, Split.before, List.cons_append]

theorem mem_of_readString {quote : Char} (h : (readString quote s).1 = true) : quote ∈ s := by
  obtain ⟨body, hbody⟩ := exists_of_readString h
  rw [← readString_append quote s, hbody]
  simp

theorem readString_escape {quote : Char} {rest after : List Char} (hquote : ¬('\\' == quote) = true)
    (h : Escape.afterEscape? rest = some after) :
    readString quote ('\\' :: rest) = ((readString quote after).1,
      '\\' :: (rest.take (rest.length - after.length) ++ (readString quote after).2.1), (readString quote after).2.2) := by
  rw [readString.eq_def]
  simp only [hquote, Bool.false_eq_true, if_false, beq_self_eq_true, if_true]
  split
  · rename_i found hfound
    obtain rfl : after = found := Option.some.inj (h.symm.trans hfound)
    rfl
  · rename_i hfound
    rw [h] at hfound
    cases hfound

theorem readString_noEscape {quote : Char} {rest : List Char} (hquote : ¬('\\' == quote) = true)
    (h : Escape.afterEscape? rest = none) : readString quote ('\\' :: rest) = (false, [], '\\' :: rest) := by
  rw [readString.eq_def]
  simp only [hquote, Bool.false_eq_true, if_false, beq_self_eq_true, if_true]
  split
  · rename_i hfound
    rw [h] at hfound
    cases hfound
  · rfl

/-- Behind the line no string is closed: it is whole before, or not at all. -/
theorem readString_append_line {quote : Char} (hquote : quote ∉ '\n' :: t) :
    if (readString quote s).1 then readString quote (s ++ '\n' :: t) = (true, (readString quote s).2.before t)
    else (readString quote (s ++ '\n' :: t)).1 = false := by
  have hopen : ∀ tail, tail <:+ '\n' :: t → (readString quote tail).1 = false := fun tail htail =>
    Bool.eq_false_iff.mpr fun hwhole => hquote (htail.subset (mem_of_readString hwhole))
  fun_induction readString quote s with
  | case1 => exact hopen _ (List.suffix_refl _)
  | case2 c rest hc =>
    rw [List.cons_append, readString.eq_def]
    simp [hc, Split.before]
  | case3 c rest hc hescape after hafter whole part tail hread ih =>
    obtain rfl := eq_of_beq hescape
    rw [hread] at ih
    by_cases hreturn : rest = ['\r']
    · -- behind a carriage return the line feed belongs to the escape
      subst hreturn
      obtain rfl : [] = after := Option.some.inj hafter
      obtain rfl : whole = false := by
        rw [readString] at hread
        exact (congrArg Prod.fst hread).symm
      rw [List.cons_append, List.singleton_append, readString_escape hc rfl]
      exact hopen t (List.suffix_cons _ _)
    · have hnil : rest ≠ [] := by
        rintro rfl
        cases hafter
      have hfollows := afterEscape?_append (t := t) hnil hreturn
      rw [hafter, Option.map_some] at hfollows
      rw [List.cons_append, readString_escape hc hfollows]
      cases whole with
      | true =>
        simp only [if_true] at ih ⊢
        rw [ih]
        simp only [Split.before, take_sub_append (afterEscape?_suffix hafter)]
      | false => exact ih
  | case4 c rest hc hescape hafter =>
    obtain rfl := eq_of_beq hescape
    rw [List.cons_append]
    by_cases hnil : rest = []
    · subst hnil
      rw [List.nil_append, readString_escape hc rfl]
      exact hopen _ (List.suffix_cons _ _)
    · have hreturn : rest ≠ ['\r'] := by
        rintro rfl
        cases hafter
      have hfollows := afterEscape?_append (t := t) hnil hreturn
      rw [hafter, Option.map_none] at hfollows
      rw [readString_noEscape hc hfollows]
      rfl
  | case5 c rest hc hescape hline =>
    rw [List.cons_append, readString.eq_def]
    simp [hc, hescape, hline]
  | case6 c rest hc hescape hline whole part tail hread ih =>
    rw [List.cons_append, readString.eq_def]
    simp only [hc, hescape, hline, Bool.false_eq_true, if_false]
    rw [hread] at ih
    cases whole with
    | true =>
      simp only [if_true] at ih ⊢
      rw [ih]
      rfl
    | false =>
      simp only [Bool.false_eq_true, if_false] at ih ⊢
      exact ih

/-- A token in front of a line end is the same with what follows; a string without its end stays one. -/
theorem readToken_append_line (hdouble : '"' ∉ '\n' :: t) (hsingle : '\'' ∉ '\n' :: t) (hs : s ≠ []) :
    if (readToken s).1.kind = .brokenString then (readToken (s ++ '\n' :: t)).1.kind = .brokenString
    else readToken (s ++ '\n' :: t) = ((readToken s).1, (readToken s).2 ++ '\n' :: t) := by
  obtain ⟨c, rest, rfl⟩ := List.exists_cons_of_ne_nil hs
  have hname := readName_append_line (s := c :: rest) (t := t)
  rw [List.cons_append] at hname ⊢
  unfold readToken
  dsimp only
  rw [test_head?_append (show isDigit '\n' = false by decide), test_head?_append (show isNameStart '\n' = false by decide)]
  split
  · rw [hname]
    rcases readName (c :: rest) with ⟨_ | ⟨d, name⟩, after⟩ <;> simp [Split.before]
  · split
    · have hnumber := readNumber_append (s := c :: rest) (t := t)
      rw [List.cons_append] at hnumber
      simp [hnumber, Split.before]
    · split
      · rename_i hquote
        have hfresh : c ∉ '\n' :: t := by
          rcases (Bool.or_eq_true _ _).mp hquote with hc | hc <;> rw [eq_of_beq hc] <;> assumption
        have hstring := readString_append_line (s := rest) hfresh
        rcases hread : readString c rest with ⟨whole, part, after⟩
        rw [hread] at hstring
        cases whole with
        | true =>
          simp only [if_true] at hstring
          simp [hstring, Split.before]
        | false =>
          simp only [Bool.false_eq_true, if_false] at hstring
          simp [hstring]
      · split
        · simp
        · split
          · split
            · simp [readName_append_line, Split.before]
            · simp
          · split
            · simp [readMark_append_line, Split.before]
            · simp

theorem afterComment?_append (passed : Nat) (hslash : '/' ∉ '\n' :: t) :
    afterComment? passed (s ++ '\n' :: t) =
      (afterComment? passed s).map fun result => (result.1, result.2 ++ '\n' :: t) := by
  have hnone : ∀ text passed, '/' ∉ text → afterComment? passed text = none := by
    intro text passed htext
    fun_induction afterComment? passed text with
    | case1 => rfl
    | case2 => simp at htext
    | case3 passed c rest _ ih => exact ih fun hmem => htext (List.mem_cons_of_mem _ hmem)
  fun_induction afterComment? passed s with
  | case1 passed => exact hnone _ _ hslash
  | case2 passed rest => rfl
  | case3 passed c rest hend ih =>
    rw [← ih]
    cases rest with
    | nil =>
      rw [List.cons_append, List.nil_append, afterComment?.eq_3]
      rintro tail rfl htail
      cases htail
    | cons d rest =>
      rw [List.cons_append, List.cons_append, afterComment?.eq_3]
      rintro tail rfl htail
      cases htail
      exact hend rest rfl rfl

section Gap
variable {block line rest : List Char} {width : Nat} {breaksLine : Bool}

theorem readGap_line : readGap width breaksLine ('/' :: '/' :: line) =
    readGap (width + 2 + (line.takeWhile (!isLineEnd ·)).length) breaksLine (line.dropWhile (!isLineEnd ·)) := by
  rw [readGap.eq_def]
  simp [show isGapChar '/' = false by decide]

theorem readGap_block {after : Nat × List Char} (h : afterComment? 0 block = some after) :
    readGap width breaksLine ('/' :: '*' :: block) = readGap (width + 2 + after.1) breaksLine after.2 := by
  rw [readGap.eq_def]
  simp only [show isGapChar '/' = false by decide, Bool.false_eq_true, if_false, beq_self_eq_true, if_true]
  split
  · rename_i found hfound
    obtain rfl : after = found := Option.some.inj (h.symm.trans hfound)
    rfl
  · rename_i hfound
    rw [h] at hfound
    cases hfound

theorem readGap_openBlock (h : afterComment? 0 block = none) :
    readGap width breaksLine ('/' :: '*' :: block) = ⟨width, breaksLine, '/' :: '*' :: block⟩ := by
  rw [readGap.eq_def]
  simp only [show isGapChar '/' = false by decide, Bool.false_eq_true, if_false, beq_self_eq_true, if_true]
  split
  · rename_i hfound
    rw [h] at hfound
    cases hfound
  · rfl

theorem readGap_slash (h : ∀ d tail, rest = d :: tail → d ≠ '/' ∧ d ≠ '*') :
    readGap width breaksLine ('/' :: rest) = ⟨width, breaksLine, '/' :: rest⟩ := by
  rw [readGap.eq_def]
  simp only [show isGapChar '/' = false by decide, Bool.false_eq_true, if_false, beq_self_eq_true, if_true]
  split
  · exact absurd rfl (h _ _ rfl).1
  · exact absurd rfl (h _ _ rfl).2
  · rfl

end Gap

/-- A gap that reaches the end of the line goes on behind it. -/
theorem readGap_append (hslash : '/' ∉ '\n' :: t) (width : Nat) (breaksLine : Bool) :
    readGap width breaksLine (s ++ '\n' :: t) =
      if (readGap width breaksLine s).rest = [] then readGap ((readGap width breaksLine s).width + 1) true t
      else ⟨(readGap width breaksLine s).width, (readGap width breaksLine s).breaksLine,
        (readGap width breaksLine s).rest ++ '\n' :: t⟩ := by
  have hline : isGapChar '\n' = true := by decide
  fun_induction readGap width breaksLine s with
  | case1 width breaksLine =>
    rw [List.nil_append, readGap.eq_def]
    simp [hline]
  | case2 width breaksLine c rest hc ih =>
    rw [List.cons_append, readGap.eq_def]
    simp only [hc, if_true, ih]
  | case3 width breaksLine c hgap hc line ih =>
    obtain rfl := eq_of_beq hc
    rw [List.cons_append, List.cons_append, readGap_line, dropWhile_append (by decide), takeWhile_append (by decide), ih]
  | case4 width breaksLine c hgap hc block after hafter ih =>
    obtain rfl := eq_of_beq hc
    have hblock := afterComment?_append (s := block) 0 hslash
    rw [hafter, Option.map_some] at hblock
    rw [List.cons_append, List.cons_append, readGap_block hblock, ih]
  | case5 width breaksLine c hgap hc block hafter =>
    obtain rfl := eq_of_beq hc
    have hblock := afterComment?_append (s := block) 0 hslash
    rw [hafter, Option.map_none] at hblock
    rw [List.cons_append, List.cons_append, readGap_openBlock hblock, if_neg (List.cons_ne_nil _ _)]
  | case6 width breaksLine c rest hgap hc hline hblock =>
    obtain rfl := eq_of_beq hc
    rw [if_neg (List.cons_ne_nil _ _), List.cons_append, readGap_slash]
    intro d tail htail
    cases rest with
    | nil =>
      cases htail
      decide
    | cons e rest =>
      cases htail
      refine ⟨?_, ?_⟩
      · rintro rfl
        exact hline _ rfl
      · rintro rfl
        exact hblock _ rfl
  | case7 width breaksLine c rest hgap hc =>
    rw [List.cons_append, readGap.eq_def]
    simp [hgap, hc]

/-- What was passed before a gap does not change what is passed in it. -/
theorem readGap_add (passed : Nat) (broken : Bool) (width : Nat) (breaksLine : Bool) (s : List Char) :
    readGap (passed + width) (broken || breaksLine) s = ⟨passed + (readGap width breaksLine s).width,
      broken || (readGap width breaksLine s).breaksLine, (readGap width breaksLine s).rest⟩ := by
  fun_induction readGap width breaksLine s with
  | case1 => rw [readGap]
  | case2 width breaksLine c rest hc ih =>
    rw [readGap.eq_def]
    simp only [hc, if_true, Bool.or_assoc, Nat.add_assoc] at ih ⊢
    exact ih
  | case3 width breaksLine c hgap hc line ih =>
    obtain rfl := eq_of_beq hc
    rw [readGap_line, ← ih]
    simp only [Nat.add_assoc]
  | case4 width breaksLine c hgap hc block after hafter ih =>
    obtain rfl := eq_of_beq hc
    rw [readGap_block hafter, ← ih]
    simp only [Nat.add_assoc]
  | case5 width breaksLine c hgap hc block hafter =>
    obtain rfl := eq_of_beq hc
    rw [readGap_openBlock hafter]
  | case6 width breaksLine c rest hgap hc hline hblock =>
    obtain rfl := eq_of_beq hc
    rw [readGap_slash]
    rintro d tail rfl
    exact ⟨fun h => hline tail (by rw [h]), fun h => hblock tail (by rw [h])⟩
  | case7 width breaksLine c rest hgap hc =>
    rw [readGap.eq_def]
    simp [hgap, hc]

-- Where a reader leaves the track of the tokens it looks at the text itself.
theorem isPrefixOf_append_line {mark : List Char} (h : '\n' ∉ mark) :
    mark.isPrefixOf (s ++ '\n' :: t) = mark.isPrefixOf s := by
  induction mark generalizing s with
  | nil => simp
  | cons c mark ih =>
    rw [List.mem_cons, not_or] at h
    cases s with
    | nil => simp [List.isPrefixOf, Ne.symm h.1]
    | cons d s => simp [List.isPrefixOf, ih h.2]

theorem operatorAt?_append (s : List Char) : operatorAt? (s ++ '\n' :: t) = operatorAt? s := by
  have hlines : ∀ entry ∈ operators, '\n' ∉ entry.1 := by decide
  have hfind : ∀ entries : List (List Char × Option Operator), (∀ entry ∈ entries, '\n' ∉ entry.1) →
      entries.find? (fun entry => entry.1.isPrefixOf (s ++ '\n' :: t)) =
        entries.find? fun entry => entry.1.isPrefixOf s := by
    intro entries hentries
    induction entries with
    | nil => rfl
    | cons entry entries ih =>
      obtain ⟨hentry, hentries⟩ := List.forall_mem_cons.mp hentries
      simp only [List.find?_cons, isPrefixOf_append_line hentry, ih hentries]
  rw [operatorAt?, operatorAt?, hfind _ hlines]

theorem commentMarks_append (s : List Char) : (commentMarks.any (·.isPrefixOf (s ++ '\n' :: t))) =
    commentMarks.any (·.isPrefixOf s) := by
  simp only [commentMarks, List.any_cons, List.any_nil,
    isPrefixOf_append_line (show '\n' ∉ "<!--".toList by decide),
    isPrefixOf_append_line (show '\n' ∉ "-->".toList by decide)]

theorem regexWidth?_append (inClass : Bool) (s : List Char) :
    regexWidth? inClass (s ++ '\n' :: t) = regexWidth? inClass s := by
  fun_induction regexWidth? inClass s with
  | case1 => simp [regexWidth?]
  | case2 inClass c rest hc => simp [regexWidth?, eq_of_beq hc]
  | case3 inClass c rest hc ih => simp [regexWidth?, hc, ih]
  | case4 inClass c rest hescape hc =>
    obtain rfl := eq_of_beq hc
    simp [regexWidth?]
  | case5 inClass c rest hescape hc hslash =>
    rw [List.cons_append, regexWidth?.eq_def]
    grind
  | case6 inClass c rest hescape hc hslash ih =>
    by_cases hback : c = '\\'
    · subst hback
      have hnil : rest = [] := by
        cases rest with
        | nil => rfl
        | cons d rest => exact absurd rfl (hescape d rest rfl)
      subst hnil
      simp [regexWidth?]
    · rw [List.cons_append, regexWidth?.eq_3 _ _ _ (fun d tail h _ => hback h)]
      simp only [ih]
      grind

theorem regexWidth?_le {inClass : Bool} {width : Nat} (h : regexWidth? inClass s = some width) :
    width ≤ s.length := by
  fun_induction regexWidth? inClass s generalizing width with
  | case1 => cases h
  | case2 => cases h
  | case3 inClass c rest hc ih =>
    obtain ⟨w, hw, rfl⟩ := Option.map_eq_some_iff.mp h
    have := ih hw
    simp only [List.length_cons]
    omega
  | case4 => cases h
  | case5 =>
    cases h
    simp
  | case6 inClass c rest hescape hc hslash ih =>
    obtain ⟨w, hw, rfl⟩ := Option.map_eq_some_iff.mp h
    have := ih hw
    simp only [List.length_cons]
    omega

theorem regexAt?_append (s : List Char) : regexAt? (s ++ '\n' :: t) = regexAt? s := by
  rcases s with _ | ⟨c, rest⟩
  · rfl
  · by_cases hc : c = '/'
    · subst hc
      simp only [List.cons_append, regexAt?, regexWidth?_append]
      cases hwidth : regexWidth? false rest with
      | none => rfl
      | some width =>
        rw [Option.bind_some, Option.bind_some, List.drop_append_of_le_length (regexWidth?_le hwidth),
          takeWhile_append (by decide)]
    · simp [regexAt?, hc]

theorem regexAt?_le {width : Nat} (h : regexAt? s = some width) : width ≤ s.length := by
  unfold regexAt? at h
  split at h
  · rename_i rest
    obtain ⟨w, hw, hflags⟩ := Option.bind_eq_some_iff.mp h
    have hle := regexWidth?_le hw
    split at hflags
    · cases hflags
    · cases hflags
      have hflags := (List.takeWhile_sublist isLower (l := rest.drop w)).length_le
      rw [List.length_drop] at hflags
      simp only [List.length_cons]
      omega
  · cases h

theorem operatorAt?_le {kind : Operator} {width : Nat} (h : operatorAt? s = some (kind, width)) :
    width ≤ s.length := by
  obtain ⟨entry, hfind, hentry⟩ := Option.bind_eq_some_iff.mp h
  obtain ⟨_, _, heq⟩ := Option.map_eq_some_iff.mp hentry
  cases heq
  have hprefix := List.find?_some hfind
  exact (List.isPrefixOf_iff_prefix.mp hprefix).length_le

/-- Where a part of a template ends or is interrupted on the line, it does so in front of more text, too. -/
theorem templateText_append (hmore : ∀ tail, tail <:+ '\n' :: t → (templateText tail).2 = none) :
    if (templateText s).2 = none then (templateText (s ++ '\n' :: t)).2 = none
    else templateText (s ++ '\n' :: t) = templateText s := by
  fun_induction templateText s with
  | case1 => exact hmore _ List.suffix_rfl
  | case2 rest => simp [templateText]
  | case3 rest => simp [templateText]
  | case4 c rest hescape width stop hread ih =>
    rw [hread] at ih
    have hsome : (Escape.afterEscape? (c :: (rest ++ '\n' :: t))).isSome = true := by
      by_cases hreturn : c :: rest = ['\r']
      · cases hreturn
        rfl
      · rw [← List.cons_append, afterEscape?_append (List.cons_ne_nil _ _) hreturn, Option.isSome_map]
        exact hescape
    simp only [List.cons_append, templateText, hsome, if_true]
    cases stop with
    | none =>
      simp only [if_true] at ih ⊢
      exact ih
    | some stop =>
      simp only [reduceCtorEq, if_false] at ih ⊢
      rw [ih]
  | case5 c rest hescape =>
    have hnone : (Escape.afterEscape? (c :: (rest ++ '\n' :: t))).isSome = false := by
      have hreturn : c :: rest ≠ ['\r'] := by
        intro hreturn
        cases hreturn
        exact hescape rfl
      rw [← List.cons_append, afterEscape?_append (List.cons_ne_nil _ _) hreturn, Option.isSome_map]
      exact Bool.eq_false_iff.mpr hescape
    simp [templateText, hnone]
  | case6 c rest hback hpart hescape width stop hread ih =>
    rw [hread] at ih
    by_cases hlast : c = '\\'
    · -- a backslash at the end of the line takes the line feed along
      subst hlast
      obtain rfl : rest = [] := by
        cases rest with
        | nil => rfl
        | cons d rest => exact absurd rfl (hescape d rest rfl)
      obtain rfl : none = stop := congrArg Prod.snd hread
      simpa [templateText, Escape.afterEscape?] using hmore t (List.suffix_cons _ _)
    · have hpart' : ∀ tail, c = '$' → rest ++ '\n' :: t = '{' :: tail → False := by
        rintro tail rfl htail
        cases rest with
        | nil => cases htail
        | cons d rest =>
          cases htail
          exact hpart rest rfl rfl
      rw [List.cons_append, templateText.eq_5 _ _ hback hpart' fun d tail h _ => hlast h]
      cases stop with
      | none =>
        simp only [if_true] at ih ⊢
        exact ih
      | some stop =>
        simp only [reduceCtorEq, if_false] at ih ⊢
        rw [ih]

theorem templateText_le {width : Nat} {stop : Char} (h : templateText s = (width, some stop)) :
    width < s.length ∧ (stop ≠ '\x60' → width + 1 < s.length) := by
  fun_induction templateText s generalizing width with
  | case1 => cases h
  | case2 rest =>
    cases h
    simp
  | case3 rest =>
    cases h
    simp
  | case4 c rest hescape w stop' hread ih =>
    cases h
    obtain ⟨hlt, hpart⟩ := ih hread
    simp only [List.length_cons]
    exact ⟨by omega, fun hstop => by
      have := hpart hstop
      omega⟩
  | case5 => cases h
  | case6 c rest hback hpart hescape w stop' hread ih =>
    cases h
    obtain ⟨hlt, hpart⟩ := ih hread
    simp only [List.length_cons]
    exact ⟨by omega, fun hstop => by
      have := hpart hstop
      omega⟩

theorem startsWithWord_append {word : List Char} (h : '\n' ∉ word) :
    startsWithWord word (s ++ '\n' :: t) = startsWithWord word s := by
  unfold startsWithWord
  rw [afterHead?_append h]
  rcases afterHead? word s with _ | ⟨_ | ⟨c, rest⟩⟩
  · rfl
  · rfl
  · rfl

theorem beginsAnew_append (lineEnd : LineEnd) (hs : s ≠ []) :
    beginsAnew lineEnd (s ++ '\n' :: t) = beginsAnew lineEnd s := by
  obtain ⟨c, rest, rfl⟩ := List.exists_cons_of_ne_nil hs
  have hwords := fun word (h : '\n' ∉ word) => startsWithWord_append (s := c :: rest) (t := t) h
  rw [List.cons_append] at hwords ⊢
  unfold beginsAnew
  dsimp only
  rw [hwords _ (show '\n' ∉ "in".toList by decide), hwords _ (show '\n' ∉ "instanceof".toList by decide)]
  cases rest with
  | nil =>
    by_cases hc : c = '\n'
    · subst hc
      rfl
    · have hsame : ∀ d : Char, '\n' ≠ d → (some '\n' == some d) = (none == some d) := by simp
      simp only [List.nil_append, List.head?_cons, List.head?_nil, bne, hsame c (Ne.symm hc),
        hsame '=' (by decide)]
  | cons d rest => rfl

end DeclSchema.Syntax
