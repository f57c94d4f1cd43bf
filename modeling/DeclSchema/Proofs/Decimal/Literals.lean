import DeclSchema.Proofs.Decimal.Integers
import DeclSchema.Proofs.Decimal.Rounding
import DeclSchema.Schema.Basic

/-! # Whole numbers as literals

A literal that is written as a whole number has this number for its value, in its decimal text, if
the number has 64 bits. Any other one has the closest double, or stays the text that it is if it
is too large for a double.
-/
namespace DeclSchema
open Text Decimal

namespace Number
variable {digits : List (Fin 10)} {n : ℕ}

/-- Digits are read completely as long as their number stays below 2^64. -/
theorem significand_digitChars (digits : List (Fin 10))
    (h : n * 10 ^ digits.length + magnitudeOf digits < Nat.pow 2 64) :
    significand n (digitChars digits) = (n * 10 ^ digits.length + magnitudeOf digits, []) := by
  induction digits generalizing n with
  | nil => simp [significand, digitChars, magnitudeOf]
  | cons d digits ih =>
    have hsplit : n * 10 ^ (d :: digits).length + magnitudeOf (d :: digits) =
        (n * 10 + d) * 10 ^ digits.length + magnitudeOf digits := by
      rw [magnitudeOf_cons, List.length_cons]
      ring
    rw [hsplit] at h ⊢
    have hfirst : n * 10 + d < Nat.pow 2 64 := by
      have hone : 1 ≤ 10 ^ digits.length := Nat.one_le_pow _ _ (by omega)
      nlinarith
    show significand n (digitChar d :: digitChars digits) = _
    rw [significand, digitValue_digitChar, if_pos hfirst, ih h]

/-- Digits without a needless zero pass the check for one. -/
theorem digits_pass (h : Shortest digits) : ((digitChars digits).isEmpty ||
    decide ((digitChars digits).length > 1) && (digitChars digits).head? == some '0') = false := by
  obtain rfl | ⟨d, more, hd, rfl⟩ := h.zero_or_positive
  · rfl
  · have hchar : digitChar d ≠ '0' := fun heq => hd (digitChar_injective heq)
    simp [digitChars, hchar]

theorem significand_magnitude {t : IntegerText} (h : t.magnitude < Nat.pow 2 64) :
    significand 0 (digitChars t.digits) = (t.magnitude, []) := by
  have hzero : 0 * 10 ^ t.digits.length + magnitudeOf t.digits = t.magnitude := by
    rw [Nat.zero_mul, Nat.zero_add]
    rfl
  rw [← hzero] at h ⊢
  exact significand_digitChars t.digits h

theorem magnitude_le {t : IntegerText} (h : IntegerText.Fits t.value) : t.magnitude ≤ Nat.pow 2 63 := by
  rw [← t.natAbs_value, Nat.pow_eq]
  unfold IntegerText.Fits at h
  omega

/-- A number with a sign is no zero, and so its sign is not dropped. -/
theorem sign_passes {t : IntegerText} (ht : t.Canonical) (h : IntegerText.Fits t.value) :
    (!t.negative || (t.magnitude != 0 && decide (t.magnitude ≤ Nat.pow 2 63))) = true := by
  cases hsign : t.negative with
  | false => rfl
  | true =>
    have hne : t.magnitude ≠ 0 := by
      have hless := ht.value_lt hsign
      rw [← t.natAbs_value]
      omega
    simp [hne, magnitude_le h]

/-- A whole number of 64 bits is read back from its decimal text. -/
theorem ofJson?_canonical {t : IntegerText} (ht : t.Canonical) (h : IntegerText.Fits t.value) :
    ofJson? t.text = some (whole t.value) := by
  obtain ⟨htake, hdrop⟩ := @takeWhile_append_of_stop isDigit (digitChars t.digits) []
    isDigit_of_mem_digitChars nofun
  rw [List.append_nil] at htake hdrop
  unfold ofJson?
  split
  rename_i negative body hbody
  have hsplit : negative = t.negative ∧ body = digitChars t.digits := by
    rw [IntegerText.text, String.toList_ofList, IntegerText.chars] at hbody
    rcases ht.sign_eq with hsign | hsign
    · obtain ⟨d, digits, hdigits⟩ := t.exists_chars_eq
      rw [hsign, Sign.chars, List.nil_append, hdigits] at hbody
      rw [IntegerText.negative, hsign, hdigits]
      split at hbody
      · rename_i heq
        exact absurd (List.cons.inj heq).1 (ne_of_test (isDigit_digitChar d) rfl)
      · cases hbody
        exact ⟨rfl, rfl⟩
    · rw [hsign] at hbody
      cases hbody
      rw [IntegerText.negative, hsign]
      exact ⟨rfl, rfl⟩
  obtain ⟨rfl, rfl⟩ := hsplit
  dsimp only
  rw [htake, hdrop, digits_pass ht.digits, if_neg Bool.false_ne_true,
    significand_magnitude ((magnitude_le h).trans_lt (by decide))]
  dsimp only [power?]
  rw [if_neg (by decide), if_pos]
  · rfl
  · exact sign_passes ht h

end Number

namespace Value
variable {t : IntegerText}

/-- The value of a literal is a number if its text is read as one, and else the text. -/
theorem ofLiteral_text (t : IntegerText) : ofLiteral (.number t.text) =
    if IntegerText.Fits t.value then number (.whole t.value)
    else match Double.ofDecimal t.negative t.magnitude 0 with
      | .finite d => number (.double d)
      | _ => string t.text := by
  rw [ofLiteral, Number.ofLiteral?, IntegerText.text, String.toList_ofList, t.integer?_chars,
    t.double?_chars]
  split_ifs
  · rfl
  · cases Double.ofDecimal t.negative t.magnitude 0 <;> rfl

/-- A number beyond 64 bits is not zero. -/
theorem magnitude_pos (h : ¬ IntegerText.Fits t.value) : 0 < t.magnitude := by
  rw [← t.natAbs_value]
  unfold IntegerText.Fits at h
  omega

theorem signed_magnitude (t : IntegerText) :
    Binary64.signed t.negative ((t.magnitude : ℚ) / (1 : ℕ)) = t.value := by
  unfold Binary64.signed IntegerText.value
  split <;> simp

theorem abs_value (t : IntegerText) : |(t.value : ℚ)| = (t.magnitude : ℚ) / (1 : ℕ) := by
  rw [← t.natAbs_value, Nat.cast_natAbs, Int.cast_abs]
  simp

theorem exists_ofLiteral_double (h : ¬ IntegerText.Fits t.value)
    (hsize : |(t.value : ℚ)| < Binary64.overflow) :
    ∃ d : Binary64, ofLiteral (.number t.text) = number (.double d) ∧ d.Closest t.value := by
  rw [abs_value] at hsize
  obtain ⟨d, hnearest, -, hclosest⟩ :=
    Binary64.nearest_of_lt t.negative (magnitude_pos h) Nat.one_pos hsize
  rw [signed_magnitude] at hclosest
  refine ⟨d, ?_, hclosest⟩
  rw [ofLiteral_text, if_neg h, Double.ofDecimal_whole _ (magnitude_pos h), hnearest]

theorem ofLiteral_string (h : ¬ IntegerText.Fits t.value)
    (hsize : Binary64.overflow ≤ |(t.value : ℚ)|) : ofLiteral (.number t.text) = string t.text := by
  rw [abs_value] at hsize
  rw [ofLiteral_text, if_neg h, Double.ofDecimal_whole _ (magnitude_pos h),
    Binary64.nearest_of_le t.negative (magnitude_pos h) Nat.one_pos hsize]

/-- A literal that is written as a whole number has a whole number for its value exactly if the
number has 64 bits. This is the number that is written, in its decimal text, from which it is read
back. Beyond 64 bits the value is the closest double, or the text itself from the overflow on. -/
theorem ofLiteral_integer (t : IntegerText) :
    ((∃ n, ofLiteral (.number t.text) = number (.whole n)) ↔ -2 ^ 63 ≤ t.value ∧ t.value ≤ 2 ^ 63 - 1) ∧
      (-2 ^ 63 ≤ t.value ∧ t.value ≤ 2 ^ 63 - 1 →
        ofLiteral (.number t.text) = number (.whole t.value) ∧
        ∃ c : IntegerText, c.Canonical ∧ c.value = t.value ∧
          (ofLiteral (.number t.text)).toJson.compact = c.text ∧
          (ofLiteral (.number t.text)).toJson.indented = c.text ∧
          Number.ofJson? c.text = some (.whole t.value) ∧
          ofLiteral (.number c.text) = number (.whole t.value)) ∧
      (¬ (-2 ^ 63 ≤ t.value ∧ t.value ≤ 2 ^ 63 - 1) →
        (|(t.value : ℚ)| < 2 ^ 1024 - 2 ^ 970 →
          ∃ d : Binary64, ofLiteral (.number t.text) = number (.double d) ∧ d.Closest t.value) ∧
        (2 ^ 1024 - 2 ^ 970 ≤ |(t.value : ℚ)| → ofLiteral (.number t.text) = string t.text)) := by
  have hwhole (u : IntegerText) (h : IntegerText.Fits u.value) :
      ofLiteral (.number u.text) = number (.whole u.value) := by rw [ofLiteral_text, if_pos h]
  have hbeyond (h : ¬ IntegerText.Fits t.value) :=
    And.intro (exists_ofLiteral_double h) (ofLiteral_string h)
  refine ⟨⟨?_, fun h => ⟨_, hwhole t h⟩⟩, fun h => ⟨hwhole t h, ?_⟩, hbeyond⟩
  · rintro ⟨n, hn⟩
    by_contra h
    rcases lt_or_ge |(t.value : ℚ)| Binary64.overflow with hsize | hsize
    · obtain ⟨d, hd, -⟩ := (hbeyond h).1 hsize
      cases hn.symm.trans hd
    · cases hn.symm.trans ((hbeyond h).2 hsize)
  · obtain ⟨c, hcanonical, hvalue⟩ := IntegerText.exists_canonical t.value
    have hjson : (Number.whole t.value).text = c.text := by
      rw [hcanonical.text_eq, hvalue]
      rfl
    refine ⟨c, hcanonical, hvalue, ?_, ?_, ?_, ?_⟩
    · rw [hwhole t h, ← hjson]
      exact String.ofList_toList
    · rw [hwhole t h, ← hjson]
      exact String.ofList_toList
    · rw [Number.ofJson?_canonical hcanonical (hvalue ▸ h), hvalue]
    · rw [hwhole c (hvalue ▸ h), hvalue]

/-- The least number of 64 bits with a needless zero, the number behind the greatest one with a
needless sign, and a number that is too large for a double. -/
def leastText : IntegerText :=
  ⟨.minus, [0, 9, 2, 2, 3, 3, 7, 2, 0, 3, 6, 8, 5, 4, 7, 7, 5, 8, 0, 8], List.cons_ne_nil _ _⟩

def nextText : IntegerText :=
  ⟨.plus, [9, 2, 2, 3, 3, 7, 2, 0, 3, 6, 8, 5, 4, 7, 7, 5, 8, 0, 8], List.cons_ne_nil _ _⟩

def hugeText : IntegerText := ⟨.none, 1 :: List.replicate 310 0, List.cons_ne_nil _ _⟩

theorem ofLiteral_integer_bounds :
    ofLiteral (.number "-09223372036854775808") = number (.whole (-9223372036854775808)) ∧
      (∃ d : Binary64, ofLiteral (.number "+9223372036854775808") = number (.double d) ∧
        d.Closest 9223372036854775808) ∧
      ofLiteral (.number hugeText.text) = string hugeText.text := by
  have hleast : leastText.text = "-09223372036854775808" := by decide +kernel
  have hnext : nextText.text = "+9223372036854775808" := by decide +kernel
  have hleastValue : leastText.value = -9223372036854775808 := by decide +kernel
  have hnextValue : nextText.value = 9223372036854775808 := by decide +kernel
  have hhugeValue : hugeText.value = 10 ^ 310 := by decide +kernel
  have hsmall : |((9223372036854775808 : ℤ) : ℚ)| < 2 ^ 1024 - 2 ^ 970 := by
    have hpow : (2 : ℚ) ^ 10 ≤ 2 ^ 970 := pow_le_pow_right₀ (by norm_num) (by norm_num)
    rw [← Binary64.overflow, Binary64.overflow_eq]
    generalize (2 : ℚ) ^ 970 = unit at hpow ⊢
    norm_num at hpow ⊢
    linarith
  refine ⟨?_, ?_, ?_⟩
  · obtain ⟨-, hfits, -⟩ := ofLiteral_integer leastText
    rw [hleast, hleastValue] at hfits
    exact (hfits (by norm_num)).1
  · obtain ⟨-, -, hbeyond⟩ := ofLiteral_integer nextText
    rw [hnext, hnextValue] at hbeyond
    exact_mod_cast (hbeyond (by norm_num)).1 hsmall
  · obtain ⟨-, -, hbeyond⟩ := ofLiteral_integer hugeText
    refine (hbeyond ?_).2 ?_
    · rw [hhugeValue]
      decide +kernel
    · rw [hhugeValue, Int.cast_pow, Int.cast_ofNat, abs_of_nonneg (by positivity)]
      exact Binary64.overflow_le

end Value

end DeclSchema
