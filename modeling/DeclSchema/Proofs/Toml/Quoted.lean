import DeclSchema.Toml.Quoted
import Mathlib.Tactic.Common

/-! # Quoted strings are read back

Whatever characters a string has, the way of quoting that is chosen for it brings every one of
them back, whatever stands behind the quotes except one more quote.
-/
namespace DeclSchema.Toml
open Text

variable {onLines : Bool} {c : Char} {s rest body code : List Char}

/-- The code of two digits covers all characters that do not stand for themselves. -/
theorem hexEscape?_control : ∀ n < 128,
    ['0', '0', hexDigit (n / 16), hexDigit n].all isHexDigit = true ∧
      digitsValue 16 ['0', '0', hexDigit (n / 16), hexDigit n] = n := by decide

theorem toNat_lt_of_isPlain_eq_false (h : isPlain c = false) : c.toNat < 128 := by
  simp only [isPlain, Bool.or_eq_false_iff, Bool.and_eq_false_iff, decide_eq_false_iff_not,
    bne_eq_false_iff_eq] at h
  omega

theorem hexEscape?_append {digits : List Char} (h : digits.all isHexDigit = true)
    (rest : List Char) : hexEscape? digits.length (digits ++ rest) =
      (Escape.scalar? (digitsValue 16 digits)).map fun c => (c, rest) := by
  rw [hexEscape?, List.take_left, List.drop_left, h, beq_self_eq_true]
  rfl

/-- How a character may be spelled in quotes with escapes: by an escape, or as it is. -/
inductive Spelled (onLines : Bool) (c : Char) : List Char → Prop
  | escaped {code : List Char} (read : ∀ rest, escape? (code ++ rest) = some (c, rest)) :
      Spelled onLines c ('\\' :: code)
  | itself (notQuote : c ≠ '"') (notSlash : c ≠ '\\')
      (allowed : isPlain c = true ∨ onLines = true ∧ c = '\n') : Spelled onLines c [c]

theorem Spelled.append_ne (h : Spelled onLines c code) (rest more : List Char) :
    code ++ rest ≠ '"' :: more := by
  cases h with
  | escaped => simp
  | itself notQuote => simp [notQuote]

theorem spelled_spell (onLines : Bool) (c : Char) : Spelled onLines c (spell onLines c) := by
  unfold spell
  split
  case h_3 =>
    cases onLines with
    | true => exact .itself (by decide) (by decide) (.inr ⟨rfl, rfl⟩)
    | false => exact .escaped fun _ => rfl
  case h_8 _ _ _ _ hquote hslash =>
    split
    · rename_i hplain
      exact .itself hquote hslash (.inl hplain)
    · rename_i hplain
      obtain ⟨hdigits, hvalue⟩ :=
        hexEscape?_control c.toNat (toNat_lt_of_isPlain_eq_false (by simpa using hplain))
      refine .escaped fun rest => (hexEscape?_append hdigits rest).trans ?_
      rw [hvalue, Escape.scalar?_toNat]
      rfl
  all_goals exact .escaped fun _ => rfl

theorem basicBody_of_spelled (h : Spelled false c code) (rest : List Char) :
    basicBody (code ++ rest) = prepend c (basicBody rest) := by
  cases h with
  | @escaped code read =>
    rw [List.cons_append, basicBody]
    split
    · rename_i h
      cases (read rest).symm.trans h
      rfl
    · rename_i h
      cases (read rest).symm.trans h
  | itself notQuote notSlash allowed =>
    have hc : isPlain c = true := allowed.resolve_right fun h => by cases h.1
    rw [List.cons_append, List.nil_append, basicBody.eq_4 _ _ notQuote notSlash, if_pos hc]

theorem basicBody_spelled (s rest : List Char) :
    basicBody (s.flatMap (spell false) ++ '"' :: rest) = some (s, rest) := by
  induction s with
  | nil => simp [basicBody]
  | cons c s ih =>
    rw [List.flatMap_cons, List.append_assoc, basicBody_of_spelled (spelled_spell false c), ih]
    rfl

/-- No more quotes belong to a string on several lines where none follows. -/
theorem closing_of_head {mark : Char} (h : rest.head? ≠ some mark) :
    closing mark rest = ([], rest) := by
  cases rest with
  | nil => rfl
  | cons d rest =>
    have hd : (d == mark) = false := by simpa using h
    simp [closing, hd]

theorem basicLines_of_spelled (h : Spelled true c code) (rest : List Char) :
    basicLines (code ++ rest) = prepend c (basicLines rest) := by
  cases h with
  | @escaped code read =>
    rw [List.cons_append, basicLines]
    split
    · rename_i h
      cases (read rest).symm.trans h
      rfl
    · rename_i h _
      cases (read rest).symm.trans h
    · rename_i h _
      cases (read rest).symm.trans h
  | itself notQuote notSlash allowed =>
    have hreturn : c ≠ '\r' := by
      rintro rfl
      rcases allowed with h | ⟨_, h⟩ <;> exact absurd h (by decide)
    have hc : (isPlain c || c == '\n') = true := by
      rcases allowed with h | ⟨_, h⟩ <;> simp [h]
    rw [List.cons_append, List.nil_append, basicLines.eq_5 _ _ (fun _ h => absurd h notQuote)
      notSlash (fun _ h => absurd h hreturn), if_pos hc]

theorem basicLines_spelled (s : List Char) (h : rest.head? ≠ some '"') :
    basicLines (s.flatMap (spell true) ++ '"' :: '"' :: '"' :: rest) = some (s, rest) := by
  induction s with
  | nil => simp [basicLines, closing_of_head h]
  | cons c s ih =>
    rw [List.flatMap_cons, List.append_assoc, basicLines_of_spelled (spelled_spell true c), ih]
    rfl

theorem literalBody_append (hs : ∀ c ∈ s, isPlain c = true ∧ c ≠ '\'') (rest : List Char) :
    literalBody (s ++ '\'' :: rest) = some (s, rest) := by
  induction s with
  | nil => rfl
  | cons c s ih =>
    obtain ⟨hplain, hquote⟩ := hs c List.mem_cons_self
    rw [List.cons_append, literalBody.eq_3 _ _ hquote, if_pos hplain,
      ih fun d hd => hs d (List.mem_cons_of_mem c hd)]
    rfl

theorem hasTripleQuote_tail (h : hasTripleQuote (c :: s) = false) : hasTripleQuote s = false := by
  unfold hasTripleQuote at h
  split at h
  · cases h
  · rename_i heq
    cases heq
    exact h
  · rename_i heq
    cases heq

/-- Three quotes do not begin in a text without them that does not end with a quote either. -/
theorem ne_tripleQuote (htriple : hasTripleQuote (c :: s) = false)
    (hlast : (c :: s).getLast? ≠ some '\'') (rest more : List Char) :
    c :: (s ++ rest) ≠ '\'' :: '\'' :: '\'' :: more := by
  intro h
  match s with
  | [] =>
    cases h
    exact hlast rfl
  | [d] =>
    cases h
    exact hlast rfl
  | d :: e :: s =>
    cases h
    cases htriple

theorem literalLines_append (hs : ∀ c ∈ s, (isPlain c || c == '\n') = true)
    (htriple : hasTripleQuote s = false) (hlast : s.getLast? ≠ some '\'')
    (h : rest.head? ≠ some '\'') :
    literalLines (s ++ '\'' :: '\'' :: '\'' :: rest) = some (s, rest) := by
  induction s with
  | nil => simp [literalLines, closing_of_head h]
  | cons c s ih =>
    have hc := hs c List.mem_cons_self
    have hreturn : c ≠ '\r' := by
      rintro rfl
      exact absurd hc (by decide)
    have hne := ne_tripleQuote htriple hlast ('\'' :: '\'' :: '\'' :: rest)
    have hlast' : s.getLast? ≠ some '\'' := by
      cases s with
      | nil => nofun
      | cons d s => rwa [List.getLast?_cons_cons] at hlast
    rw [List.cons_append, literalLines.eq_4 _ _ (fun more hc h => hne more (by rw [hc, h]))
      (fun _ h => absurd h hreturn), if_pos hc,
      ih (fun d hd => hs d (List.mem_cons_of_mem c hd)) (hasTripleQuote_tail htriple) hlast']
    rfl

theorem suitsLiteral_iff : suitsLiteral s = true ↔ '\\' ∈ s ∧
    (∀ c ∈ s, (isPlain c || c == '\n') = true) ∧ hasTripleQuote s = false ∧
      s.getLast? ≠ some '\'' := by
  simp only [suitsLiteral, Bool.and_eq_true, List.contains_iff_mem, List.all_eq_true,
    Bool.not_eq_true', bne_iff_ne, and_assoc]

theorem unquoted?_escaped (s : List Char) (h : rest.head? ≠ some '"') :
    unquoted? ('"' :: (s.flatMap (spell false) ++ '"' :: rest)) = some (s, rest) := by
  rw [unquoted?.eq_2, basicBody_spelled]
  intro more heq
  cases s with
  | nil =>
    cases heq
    exact h rfl
  | cons c s =>
    rw [List.flatMap_cons, List.append_assoc] at heq
    exact (spelled_spell false c).append_ne _ _ heq

theorem unquoted?_plain (hne : s ≠ []) (hs : ∀ c ∈ s, isPlain c = true ∧ c ≠ '\'')
    (rest : List Char) : unquoted? ('\'' :: (s ++ '\'' :: rest)) = some (s, rest) := by
  rw [unquoted?.eq_4, literalBody_append hs]
  intro more heq
  cases s with
  | nil => exact hne rfl
  | cons c s => exact (hs c List.mem_cons_self).2 (List.cons.inj heq).1

/-- Nothing is dropped in front of a character that ends no line. -/
theorem dropLineEnd_of_plain (hne : s ≠ []) (hs : ∀ c ∈ s, isPlain c = true) :
    dropLineEnd (s ++ rest) = s ++ rest := by
  cases s with
  | nil => exact absurd rfl hne
  | cons c s =>
    have hc := hs c List.mem_cons_self
    rw [List.cons_append, dropLineEnd, afterLineEnd?.eq_3]
    · rfl
    all_goals
      intro _ heq
      rw [(List.cons.inj heq).1] at hc
      exact absurd hc (by decide)

/-- What was quoted is read back, and no more than that. -/
theorem unquoted?_quote (s : List Char) (hdouble : rest.head? ≠ some '"')
    (hsingle : rest.head? ≠ some '\'') : unquoted? (quote s ++ rest) = some (s, rest) := by
  dsimp only [quote]
  split
  · rename_i hsuits
    obtain ⟨hslash, hall, htriple, hlast⟩ := suitsLiteral_iff.mp hsuits
    have hread := literalLines_append hall htriple hlast hsingle
    have hne : s ≠ [] := List.ne_nil_of_mem hslash
    split
    · show unquoted? ('\'' :: '\'' :: '\'' :: '\n' :: (s ++ ['\'', '\'', '\''] ++ rest)) = _
      rw [List.append_assoc]
      exact hread
    · rename_i hlines
      -- On one line only plain characters are left, so nothing is dropped behind the quotes.
      have hplain : ∀ c ∈ s, isPlain c = true := by
        intro c hc
        refine (Bool.or_eq_true_iff.mp (hall c hc)).resolve_right fun h => hlines ?_
        rw [List.contains_iff_mem, ← beq_iff_eq.mp h]
        exact hc
      split
      · show unquoted? ('\'' :: '\'' :: '\'' :: (s ++ ['\'', '\'', '\''] ++ rest)) = _
        rw [List.append_assoc, unquoted?, dropLineEnd_of_plain hne hplain]
        exact hread
      · rename_i hquote
        show unquoted? ('\'' :: (s ++ ['\''] ++ rest)) = _
        rw [List.append_assoc]
        exact unquoted?_plain hne
          (fun c hc => ⟨hplain c hc, fun h => hquote (List.contains_iff_mem.mpr (h ▸ hc))⟩) rest
  · split
    · rename_i hlines
      rw [hlines]
      show unquoted? ('"' :: '"' :: '"' :: '\n' ::
        (s.flatMap (spell true) ++ ['"', '"', '"'] ++ rest)) = _
      rw [List.append_assoc]
      exact basicLines_spelled s hdouble
    · rename_i hlines
      rw [Bool.eq_false_iff.mpr hlines]
      show unquoted? ('"' :: (s.flatMap (spell false) ++ ['"'] ++ rest)) = _
      rw [List.append_assoc]
      exact unquoted?_escaped s hdouble

end DeclSchema.Toml
