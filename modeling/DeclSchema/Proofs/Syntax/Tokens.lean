import DeclSchema.Syntax.Token

/-! # What tokens are made of

A token is the front of the text it is read from. Numbers consist of few characters, and a
whole string stands between two quotes of one kind.
-/
namespace DeclSchema.Syntax
open Text

theorem take_length_sub_append {s rest : List Char} (h : rest <:+ s) :
    s.take (s.length - rest.length) ++ rest = s := by
  obtain ⟨front, rfl⟩ := h
  simp

theorem afterEscape?_suffix {s rest : List Char} (h : Escape.afterEscape? s = some rest) :
    rest <:+ s := by
  unfold Escape.afterEscape? at h
  split at h
  · cases h
  · split at h
    · cases h
      exact ⟨['x', _, _], rfl⟩
    · cases h
  · cases h
  · split at h
    · rename_i more _
      have hdigits : '}' :: rest <:+ more := by
        rw [← List.singleton_append, ← afterHead?_eq_some_iff.mp h]
        exact List.dropWhile_suffix isHexDigit
      have hrest : rest <:+ more := (List.suffix_cons '}' rest).trans hdigits
      exact hrest.trans ⟨['u', '{'], rfl⟩
    · cases h
  · split at h
    · cases h
      exact ⟨['u', _, _, _, _], rfl⟩
    · cases h
  · cases h
  · cases h
    exact ⟨['\r', '\n'], rfl⟩
  · cases h
    exact List.suffix_cons _ _

theorem readName_append (s : List Char) : (readName s).1 ++ (readName s).2 = s := by
  fun_induction readName s with
  | case1 => rfl
  | case2 c rest _ part after hread ih =>
    rw [hread] at ih
    rw [List.cons_append, ih]
  | case3 c rest _ _ more hmore part after hread ih =>
    rw [hread] at ih
    rw [List.cons_append, List.append_assoc, ih,
      take_length_sub_append (afterEscape?_suffix hmore)]
  | case4 => rfl
  | case5 => rfl

/-- A front of the text, made of certain characters, and the rest. -/
structure Fronts (P : Char → Prop) (s : List Char) (r : Split) : Prop where
  append : r.1 ++ r.2 = s
  chars : ∀ c ∈ r.1, P c

section Fronts
variable {P : Char → Prop} {s rest : List Char} {c : Char}

theorem Fronts.nil (s : List Char) : Fronts P s ([], s) := ⟨rfl, by simp⟩

theorem Fronts.cons (hc : P c) {r : Split} (h : Fronts P rest r) :
    Fronts P (c :: rest) (c :: r.1, r.2) where
  append := by rw [List.cons_append, h.append]
  chars := by
    intro d hd
    rcases List.mem_cons.mp hd with rfl | hd
    · exact hc
    · exact h.chars d hd

theorem Fronts.then {r r' : Split} (h : Fronts P s r) (h' : Fronts P r.2 r') :
    Fronts P s (r.1 ++ r'.1, r'.2) where
  append := by rw [List.append_assoc, h'.append, h.append]
  chars d hd := (List.mem_append.mp hd).elim (h.chars d) (h'.chars d)

end Fronts

def IsNumberChar (c : Char) : Prop :=
  isHexDigit c = true ∨ c ∈ ['x', 'X', 'o', 'O', 'n', '_', '.', '+', '-']

theorem IsNumberChar.not_mem {c : Char} (h : IsNumberChar c) :
    c ∉ ['"', '\'', ']', ')', '>', '=', '\\', '/', '\x60', ' ', 's'] := by
  intro hmem
  have hall : ∀ d ∈ ['"', '\'', ']', ')', '>', '=', '\\', '/', '\x60', ' ', 's'],
      isHexDigit d = false ∧ d ∉ ['x', 'X', 'o', 'O', 'n', '_', '.', '+', '-'] := by decide
  obtain ⟨hdigit, hmark⟩ := hall c hmem
  rcases h with h | h
  · rw [h] at hdigit
    cases hdigit
  · exact hmark h

theorem IsNumberChar.isBlank_eq_false {c : Char} (h : IsNumberChar c) : isBlank c = false := by
  rcases h with h | h
  · have hbounds : 0x30 ≤ c.toNat ∧ c.toNat ≤ 0x66 := by
      simp only [isHexDigit, isDigit, Bool.or_eq_true, Bool.and_eq_true, decide_eq_true_eq,
        Char.le_def, UInt32.le_iff_toNat_le] at h
      simp only [Char.toNat]
      rcases h with (h | h) | h <;> exact ⟨Nat.le_trans (by decide) h.1, Nat.le_trans h.2 (by decide)⟩
    unfold isBlank
    simp
    omega
  · have hall : ∀ d ∈ ['x', 'X', 'o', 'O', 'n', '_', '.', '+', '-'], isBlank d = false := by decide
    exact hall c h

theorem isNumberChar_of_isDigit {c : Char} (h : isDigit c = true) : IsNumberChar c := by
  left
  simp only [isHexDigit, isDigit] at h ⊢
  simp [h]

theorem readDigits_fronts {isBaseDigit : Char → Bool}
    (hdigit : ∀ c, isBaseDigit c = true → IsNumberChar c) (s : List Char) :
    Fronts IsNumberChar s (readDigits isBaseDigit s) := by
  fun_induction readDigits isBaseDigit s with
  | case1 => exact .nil []
  | case2 c rest hc part after hread ih =>
    rw [hread] at ih
    exact .cons (.inr (by decide)) (.cons (hdigit c hc) ih)
  | case3 => exact .nil _
  | case4 c rest hc _ part after hread ih =>
    rw [hread] at ih
    exact .cons (hdigit c ‹_›) ih
  | case5 => exact .nil _

theorem readSuffix_fronts (s : List Char) : Fronts IsNumberChar s (readSuffix s) := by
  unfold readSuffix
  split
  · exact .cons (.inr (by decide)) (.nil _)
  · exact .nil _

theorem readSign_fronts (s : List Char) : Fronts IsNumberChar s (readSign s) := by
  unfold readSign
  split
  · exact .cons (.inr (by decide)) (.nil _)
  · exact .cons (.inr (by decide)) (.nil _)
  · exact .nil _

theorem readFraction_fronts (s : List Char) : Fronts IsNumberChar s (readFraction s) := by
  unfold readFraction
  split
  · exact readDigits_fronts (fun _ => isNumberChar_of_isDigit) s
  · exact .nil _

theorem readPower_fronts (s : List Char) : Fronts IsNumberChar s (readPower s) := by
  unfold readPower
  split
  · exact .nil _
  · rename_i e rest
    split
    · rename_i he
      have hmark : IsNumberChar e := by
        rcases (Bool.or_eq_true _ _).mp he with he | he <;> rw [eq_of_beq he] <;> exact .inl (by decide)
      dsimp only
      split
      · exact .nil _
      · exact .cons hmark ((readSign_fronts rest).then (readFraction_fronts _))
    · exact .nil _

theorem readDecimal_fronts (s : List Char) : Fronts IsNumberChar s (readDecimal s) := by
  have hwhole := readDigits_fronts (fun _ => isNumberChar_of_isDigit) s
  unfold readDecimal
  dsimp only
  split
  · rename_i after hrest
    have hsuffix : Fronts IsNumberChar (readDigits isDigit s).2 (['n'], after) := by
      rw [hrest]
      exact .cons (.inr (by decide)) (.nil _)
    exact hwhole.then hsuffix
  · rename_i more hrest
    split
    · have hafter : Fronts IsNumberChar (readDigits isDigit s).2
          ('.' :: ((readFraction more).1 ++ (readPower (readFraction more).2).1),
            (readPower (readFraction more).2).2) := by
        rw [hrest]
        exact .cons (.inr (by decide)) ((readFraction_fronts more).then (readPower_fronts _))
      exact hwhole.then hafter
    · exact hwhole
  · exact hwhole.then (readPower_fronts _)

theorem baseDigits?_eq_some {mark : Char} {isBaseDigit : Char → Bool}
    (h : baseDigits? mark = some isBaseDigit) :
    IsNumberChar mark ∧ ∀ c, isBaseDigit c = true → IsNumberChar c := by
  unfold baseDigits? at h
  split at h
  · rename_i hmark
    cases h
    refine ⟨?_, fun c hc => .inl hc⟩
    rcases (Bool.or_eq_true _ _).mp hmark with hmark | hmark <;> rw [eq_of_beq hmark] <;>
      exact .inr (by decide)
  · split at h
    · rename_i hmark
      cases h
      refine ⟨?_, fun c hc => isNumberChar_of_isDigit ?_⟩
      · rcases (Bool.or_eq_true _ _).mp hmark with hmark | hmark <;> rw [eq_of_beq hmark] <;>
          exact .inr (by decide)
      · simp only [isOctalDigit, isDigit, Bool.and_eq_true, decide_eq_true_eq] at hc ⊢
        exact ⟨hc.1, Char.le_trans hc.2 (by decide)⟩
    · split at h
      · rename_i hmark
        cases h
        refine ⟨?_, fun c hc => ?_⟩
        · rcases (Bool.or_eq_true _ _).mp hmark with hmark | hmark <;> rw [eq_of_beq hmark] <;>
            exact .inl (by decide)
        · rcases (Bool.or_eq_true _ _).mp hc with hc | hc <;> rw [eq_of_beq hc] <;>
            exact .inl (by decide)
      · cases h

theorem readNumber_fronts (s : List Char) : Fronts IsNumberChar s (readNumber s) := by
  unfold readNumber
  split
  · exact .cons (.inr (by decide)) ((readDigits_fronts (fun _ => isNumberChar_of_isDigit) _).then
      (readPower_fronts _))
  · rename_i mark c rest
    split
    · rename_i isBaseDigit hbase
      obtain ⟨hmark, hdigit⟩ := baseDigits?_eq_some hbase
      split
      · exact .cons (.inl (by decide)) (.cons hmark
          ((readDigits_fronts hdigit _).then (readSuffix_fronts _)))
      · exact readDecimal_fronts _
    · exact readDecimal_fronts _
  · exact readDecimal_fronts _

theorem readString_append (quote : Char) (s : List Char) :
    (readString quote s).2.1 ++ (readString quote s).2.2 = s := by
  fun_induction readString quote s with
  | case1 => rfl
  | case2 => rfl
  | case3 c rest _ _ more hmore whole part after hread ih =>
    rw [hread] at ih
    rw [List.cons_append, List.append_assoc, ih,
      take_length_sub_append (afterEscape?_suffix hmore)]
  | case4 => rfl
  | case5 => rfl
  | case6 c rest _ _ _ whole part after hread ih =>
    rw [hread] at ih
    rw [List.cons_append, ih]

/-- A whole string ends with its quote. -/
theorem exists_of_readString {quote : Char} {s : List Char} (h : (readString quote s).1 = true) :
    ∃ body, (readString quote s).2.1 = body ++ [quote] := by
  fun_induction readString quote s with
  | case1 => cases h
  | case2 c rest hc => exact ⟨[], by rw [eq_of_beq hc]; rfl⟩
  | case3 c rest _ _ more hmore whole part after hread ih =>
    rw [hread] at ih
    obtain ⟨body, hbody⟩ := ih h
    refine ⟨c :: (rest.take (rest.length - more.length) ++ body), ?_⟩
    dsimp only at hbody ⊢
    rw [hbody, List.cons_append, List.append_assoc]
  | case4 => cases h
  | case5 => cases h
  | case6 c rest _ _ _ whole part after hread ih =>
    rw [hread] at ih
    obtain ⟨body, hbody⟩ := ih h
    refine ⟨c :: body, ?_⟩
    dsimp only at hbody ⊢
    rw [hbody, List.cons_append]

theorem readMark_append (s : List Char) : (readMark s).1 ++ (readMark s).2 = s := by
  unfold readMark
  split
  · rename_i mark rest hfound
    obtain ⟨long, -, hlong⟩ := List.exists_of_findSome?_eq_some hfound
    obtain ⟨after, hafter, heq⟩ := Option.map_eq_some_iff.mp hlong
    cases heq
    have hs := afterHead?_eq_some_iff.mp hafter
    split
    · rename_i hpoint
      rw [hs, eq_of_beq ((Bool.and_eq_true _ _).mp hpoint).1]
      rfl
    · exact hs.symm
  · exact List.take_append_drop 1 s

theorem readToken_append (s : List Char) : (readToken s).1.text ++ (readToken s).2 = s := by
  unfold readToken
  split
  · rfl
  · rename_i c rest
    split
    · have hname := readName_append (c :: rest)
      split
      · rfl
      · rename_i name after _ hread
        rw [hread] at hname
        exact hname
    · split
      · exact (readNumber_fronts (c :: rest)).append
      · split
        · have hstring := readString_append c rest
          dsimp only
          rw [List.cons_append, hstring]
        · split
          · rfl
          · split
            · split
              · have hname := readName_append rest
                dsimp only
                rw [List.cons_append, hname]
              · rfl
            · split
              · exact readMark_append (c :: rest)
              · rfl

theorem readDigits_ne_nil {isBaseDigit : Char → Bool} {c : Char} (hc : isBaseDigit c = true)
    (hne : c ≠ '_') (rest : List Char) : (readDigits isBaseDigit (c :: rest)).1 ≠ [] := by
  rw [readDigits.eq_3 _ _ _ (fun _ _ h _ => hne h), if_pos hc]
  exact List.cons_ne_nil _ _

theorem readDecimal_ne_nil {c : Char} (hc : isDigit c = true) (rest : List Char) :
    (readDecimal (c :: rest)).1 ≠ [] := by
  have hne : c ≠ '_' := by
    rintro rfl
    cases hc
  have hwhole := readDigits_ne_nil hc hne rest
  unfold readDecimal
  dsimp only
  split
  · simp [hwhole]
  · split
    · simp
    · exact hwhole
  · simp [hwhole]

theorem readNumber_ne_nil {c : Char} {rest : List Char}
    (hc : isDigit c = true ∨ c = '.') : (readNumber (c :: rest)).1 ≠ [] := by
  have hdecimal : c ≠ '.' → (readDecimal (c :: rest)).1 ≠ [] := fun hne =>
    readDecimal_ne_nil (hc.resolve_right hne) rest
  unfold readNumber
  split
  · exact List.cons_ne_nil _ _
  · rename_i h
    cases h
    split
    · split
      · exact List.cons_ne_nil _ _
      · exact hdecimal (by decide)
    · exact hdecimal (by decide)
  · rename_i hpoint _
    exact hdecimal fun h => hpoint rest (by rw [h])

/-- A number begins with a digit or a point and consists of characters of numbers. -/
theorem number_token {s : List Char} (h : (readToken s).1.kind = .number) :
    (∀ c ∈ (readToken s).1.text, IsNumberChar c) ∧
      ∃ c more, (readToken s).1.text = c :: more ∧ (isDigit c = true ∨ c = '.') := by
  unfold readToken at h ⊢
  split at h
  · cases h
  · rename_i c rest
    split at h
    · split at h <;> cases h
    · split at h
      · rename_i hname hnumber
        rw [if_neg hname, if_pos hnumber]
        refine ⟨(readNumber_fronts (c :: rest)).chars, ?_⟩
        have hc : isDigit c = true ∨ c = '.' := by
          rcases (Bool.or_eq_true _ _).mp hnumber with hc | hc
          · exact .inl hc
          · exact .inr (eq_of_beq ((Bool.and_eq_true _ _).mp hc).1)
        cases hread : (readNumber (c :: rest)).1 with
        | nil => exact absurd hread (readNumber_ne_nil hc)
        | cons d more =>
          refine ⟨d, more, hread, ?_⟩
          have happend := (readNumber_fronts (c :: rest)).append
          rw [hread] at happend
          obtain rfl : d = c := by simpa using congrArg List.head? happend
          exact hc
      · split at h
        · dsimp only at h
          split at h <;> cases h
        · split at h
          · cases h
          · split at h
            · split at h <;> cases h
            · split at h <;> cases h

theorem string_token {s : List Char} (h : (readToken s).1.kind = .string) :
    ∃ quote body, (readToken s).1.text = quote :: (body ++ [quote]) ∧ (quote = '"' ∨ quote = '\'') := by
  unfold readToken at h ⊢
  split at h
  · cases h
  · rename_i c rest
    split at h
    · split at h <;> cases h
    · split at h
      · cases h
      · split at h
        · rename_i hname hnumber hquote
          rw [if_neg hname, if_neg hnumber, if_pos hquote]
          dsimp only at h ⊢
          cases hwhole : (readString c rest).1 with
          | false =>
            rw [hwhole] at h
            cases h
          | true =>
            obtain ⟨body, hbody⟩ := exists_of_readString hwhole
            refine ⟨c, body, by rw [hbody], ?_⟩
            rcases (Bool.or_eq_true _ _).mp hquote with hquote | hquote
            · exact .inl (eq_of_beq hquote)
            · exact .inr (eq_of_beq hquote)
        · split at h
          · cases h
          · split at h
            · split at h <;> cases h
            · split at h <;> cases h

theorem template_token {s : List Char} (h : (readToken s).1.kind = .template) : s.head? = some '\x60' := by
  unfold readToken at h
  split at h
  · cases h
  · split at h
    · split at h <;> cases h
    · split at h
      · cases h
      · split at h
        · dsimp only at h
          split at h <;> cases h
        · split at h
          · rename_i hmark
            rw [eq_of_beq hmark]
            rfl
          · split at h
            · split at h <;> cases h
            · split at h <;> cases h

end DeclSchema.Syntax
