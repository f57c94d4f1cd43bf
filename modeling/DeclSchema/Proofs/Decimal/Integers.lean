import DeclSchema.Proofs.Json.Numbers
import Mathlib.Data.Nat.Digits.Defs

/-! # Texts of whole numbers

A text of a whole number is an optional sign with digits behind it. However many digits it has, it
is read as the number that it denotes if that number has 64 bits, and as a double by the other
reading. The decimal text of a number is its only text without a needless sign or zero.
-/
namespace DeclSchema.Decimal
open Text

def digitChar (d : Fin 10) : Char := Nat.digitChar d

def digitChars (digits : List (Fin 10)) : List Char := digits.map digitChar

def magnitudeOf (digits : List (Fin 10)) : ℕ := Nat.ofDigits 10 (digits.reverse.map Fin.val)

variable {digits : List (Fin 10)} {s : List Char} {n : ℕ}

theorem isDigit_digitChar : ∀ d : Fin 10, isDigit (digitChar d) = true := by decide

theorem digitValue_digitChar : ∀ d : Fin 10, digitValue (digitChar d) = d := by decide

theorem digitChar_injective : Function.Injective digitChar := by
  unfold Function.Injective
  decide

theorem digitChars_injective : Function.Injective digitChars :=
  List.map_injective_iff.mpr digitChar_injective

theorem isDigit_of_mem_digitChars : ∀ c ∈ digitChars digits, isDigit c = true :=
  List.forall_mem_map.mpr fun d _ => isDigit_digitChar d

theorem exists_digitChar {c : Char} (h : isDigit c = true) : ∃ d, digitChar d = c := by
  simp only [isDigit, Bool.and_eq_true, decide_eq_true_eq, Char.le_def, UInt32.le_iff_toNat_le] at h
  have hcode : 48 ≤ c.toNat ∧ c.toNat ≤ 57 := h
  have hlt : c.toNat - 48 < 10 := by omega
  refine ⟨⟨c.toNat - 48, hlt⟩, Char.toNat_inj.mp ?_⟩
  rw [digitChar, Nat.toNat_digitChar_of_lt_ten hlt]
  exact Nat.add_sub_of_le hcode.1

theorem exists_digitChars (h : ∀ c ∈ s, isDigit c = true) : ∃ digits, digitChars digits = s := by
  induction s with
  | nil => exact ⟨[], rfl⟩
  | cons c s ih =>
    obtain ⟨hc, hs⟩ := List.forall_mem_cons.mp h
    obtain ⟨d, rfl⟩ := exists_digitChar hc
    obtain ⟨digits, rfl⟩ := ih hs
    exact ⟨d :: digits, rfl⟩

theorem magnitudeOf_concat (digits : List (Fin 10)) (d : Fin 10) :
    magnitudeOf (digits ++ [d]) = magnitudeOf digits * 10 + d := by
  simp [magnitudeOf, Nat.ofDigits_cons]
  omega

theorem magnitudeOf_cons (d : Fin 10) (digits : List (Fin 10)) :
    magnitudeOf (d :: digits) = d * 10 ^ digits.length + magnitudeOf digits := by
  simp [magnitudeOf, Nat.ofDigits_append]
  ring

theorem digitsValue_digitChars (digits : List (Fin 10)) :
    digitsValue 10 (digitChars digits) = magnitudeOf digits := by
  induction digits using List.reverseRecOn with
  | nil => rfl
  | append_singleton digits d ih =>
    have hvalue : digitsValue 10 (digitChars (digits ++ [d])) =
        digitsValue 10 (digitChars digits) * 10 + digitValue (digitChar d) := by
      simp [digitsValue, digitChars]
    rw [hvalue, ih, digitValue_digitChar, magnitudeOf_concat]

structure Shortest (digits : List (Fin 10)) : Prop where
  nonempty : digits ≠ []
  zero : digits.head? = some 0 → digits = [0]

/-- Behind the digits of a positive number further digits go on with it. -/
theorem toDigits_append_digitChars (hn : 0 < n) (digits : List (Fin 10)) :
    Nat.toDigits 10 n ++ digitChars digits =
      Nat.toDigits 10 (n * 10 ^ digits.length + magnitudeOf digits) := by
  induction digits generalizing n with
  | nil => simp [digitChars, magnitudeOf]
  | cons d digits ih =>
    have hnext : Nat.toDigits 10 n ++ [digitChar d] = Nat.toDigits 10 (10 * n + d) := by
      rw [← Nat.toDigits_append_toDigits (by omega) hn d.isLt, Nat.toDigits_of_lt_base d.isLt]
      rfl
    calc Nat.toDigits 10 n ++ digitChars (d :: digits)
        = (Nat.toDigits 10 n ++ [digitChar d]) ++ digitChars digits := by simp [digitChars]
      _ = Nat.toDigits 10 ((10 * n + d) * 10 ^ digits.length + magnitudeOf digits) := by
        rw [hnext, ih (by omega)]
      _ = _ := by
        rw [magnitudeOf_cons, List.length_cons]
        congr 1
        ring

theorem Shortest.zero_or_positive (h : Shortest digits) :
    digits = [0] ∨ ∃ d more, d ≠ 0 ∧ digits = d :: more := by
  obtain ⟨d, more, rfl⟩ := List.exists_cons_of_ne_nil h.nonempty
  by_cases hd : d = 0
  · exact .inl (h.zero (congrArg some hd))
  · exact .inr ⟨d, more, hd, rfl⟩

theorem Shortest.digitChars_eq (h : Shortest digits) :
    digitChars digits = Nat.toDigits 10 (magnitudeOf digits) := by
  obtain rfl | ⟨d, more, hd, rfl⟩ := h.zero_or_positive
  · rfl
  · have hpos : 0 < d.val := by omega
    rw [magnitudeOf_cons, ← toDigits_append_digitChars hpos, Nat.toDigits_of_lt_base d.isLt]
    rfl

theorem toDigits_injective : Function.Injective (Nat.toDigits 10) := by
  intro n m h
  rw [← @Nat.ofDigitChars_ten_toDigits n, h, Nat.ofDigitChars_ten_toDigits]

theorem exists_shortest (n : ℕ) : ∃ digits, Shortest digits ∧ magnitudeOf digits = n := by
  obtain ⟨hdigits, hzero⟩ := Json.Tree.isWhole_toDigits n
  obtain ⟨digits, hchars⟩ := exists_digitChars hdigits.digits
  have hshortest : Shortest digits := by
    refine ⟨?_, fun h => ?_⟩
    · rintro rfl
      exact hdigits.nonempty hchars.symm
    · refine digitChars_injective (hchars.trans (hzero ?_))
      rw [← hchars, digitChars, List.head?_map, h]
      rfl
  refine ⟨digits, hshortest, toDigits_injective ?_⟩
  rw [← hshortest.digitChars_eq, hchars]

inductive Sign
  | none
  | plus
  | minus
deriving DecidableEq

def Sign.chars : Sign → List Char
  | none => []
  | plus => ['+']
  | minus => ['-']

structure IntegerText where
  sign : Sign
  digits : List (Fin 10)
  nonempty : digits ≠ []

namespace IntegerText

def chars (t : IntegerText) : List Char := t.sign.chars ++ digitChars t.digits

def text (t : IntegerText) : String := String.ofList t.chars

def magnitude (t : IntegerText) : ℕ := magnitudeOf t.digits

def negative (t : IntegerText) : Bool := t.sign = .minus

def value (t : IntegerText) : ℤ := if t.negative then -t.magnitude else t.magnitude

structure Canonical (t : IntegerText) : Prop where
  sign : t.sign = if t.value < 0 then .minus else .none
  digits : Shortest t.digits

variable {t u : IntegerText} {v : ℤ}

theorem natAbs_value (t : IntegerText) : t.value.natAbs = t.magnitude := by
  unfold value
  split <;> simp

theorem exists_chars_eq (t : IntegerText) :
    ∃ d digits, digitChars t.digits = digitChar d :: digitChars digits := by
  obtain ⟨d, digits, hdigits⟩ := List.exists_cons_of_ne_nil t.nonempty
  exact ⟨d, digits, by rw [hdigits]; rfl⟩

theorem splitSign_chars (t : IntegerText) :
    splitSign t.chars = (t.negative, digitChars t.digits) := by
  obtain ⟨d, digits, hdigits⟩ := t.exists_chars_eq
  unfold chars negative
  cases t.sign with
  | none =>
    rw [hdigits]
    exact splitSign.eq_3 _ (fun _ h => ne_of_test (isDigit_digitChar d) rfl (List.cons.inj h).1)
      fun _ h => ne_of_test (isDigit_digitChar d) rfl (List.cons.inj h).1
  | plus => rfl
  | minus => rfl

theorem ext_chars (h : t.chars = u.chars) : t = u := by
  have hsplit : (t.negative, digitChars t.digits) = (u.negative, digitChars u.digits) := by
    rw [← splitSign_chars, h, splitSign_chars]
  have hdigits := digitChars_injective (Prod.mk.inj hsplit).2
  have hsign : t.sign.chars = u.sign.chars := by
    unfold chars at h
    rw [hdigits] at h
    exact List.append_cancel_right h
  obtain ⟨sign, digits, _⟩ := t
  obtain ⟨sign', digits', _⟩ := u
  obtain rfl : digits = digits' := hdigits
  cases sign <;> cases sign' <;> first | rfl | cases hsign

def Fits (v : ℤ) : Prop := -2 ^ 63 ≤ v ∧ v ≤ 2 ^ 63 - 1

instance (v : ℤ) : Decidable (Fits v) := inferInstanceAs (Decidable (_ ∧ _))

/-- A text is read as a whole number of 64 bits exactly if it denotes one. -/
theorem integer?_chars (t : IntegerText) :
    integer? t.chars = if Fits t.value then some t.value else none := by
  have hall : (digitChars t.digits).all isDigit = true :=
    List.all_eq_true.mpr isDigit_of_mem_digitChars
  have hempty : (digitChars t.digits).isEmpty = false := by
    obtain ⟨d, digits, hdigits⟩ := t.exists_chars_eq
    rw [hdigits]
    rfl
  have hfits : (decide (-(Nat.pow 2 63 : ℤ) ≤ t.value) && decide (t.value < (Nat.pow 2 63 : ℤ))) = true ↔
      Fits t.value := by
    simp only [Fits, Nat.pow_eq, Nat.cast_pow, Nat.cast_ofNat, Bool.and_eq_true, decide_eq_true_eq]
    omega
  unfold integer?
  rw [splitSign_chars]
  dsimp only
  rw [hall, hempty, digitsValue_digitChars, if_neg (by decide)]
  exact if_congr hfits rfl rfl

theorem exists_sign (s : List Char) : ∃ sign : Sign, s = sign.chars ++ (splitSign s).2 := by
  unfold splitSign
  split
  · exact ⟨.minus, rfl⟩
  · exact ⟨.plus, rfl⟩
  · exact ⟨.none, rfl⟩

/-- Nothing else is read as a whole number. -/
theorem exists_of_integer? {s : List Char} (h : integer? s = some v) :
    ∃ t : IntegerText, t.chars = s ∧ t.value = v ∧ Fits v := by
  have hdigits : (splitSign s).2 ≠ [] ∧ ∀ c ∈ (splitSign s).2, isDigit c = true := by
    unfold integer? at h
    dsimp only at h
    split at h
    · cases h
    · rename_i hread
      simpa using hread
  obtain ⟨sign, hs⟩ := exists_sign s
  obtain ⟨digits, hchars⟩ := exists_digitChars hdigits.2
  have hne : digits ≠ [] := by
    rintro rfl
    exact hdigits.1 hchars.symm
  have htext : IntegerText.chars ⟨sign, digits, hne⟩ = s := by
    rw [hs, ← hchars]
    rfl
  rw [← htext, integer?_chars] at h
  split at h
  · cases h
    exact ⟨_, htext, rfl, ‹_›⟩
  · cases h

theorem double?_chars (t : IntegerText) :
    double? t.chars = some (.ofDecimal t.negative t.magnitude 0) := by
  obtain ⟨htake, hdrop⟩ := @takeWhile_append_of_stop isDigit (digitChars t.digits) []
    isDigit_of_mem_digitChars nofun
  rw [List.append_nil] at htake hdrop
  have hdecimal : decimal? (digitChars t.digits) = some (t.magnitude, 0) := by
    obtain ⟨d, digits, hdigits⟩ := t.exists_chars_eq
    unfold decimal?
    rw [htake, hdrop]
    dsimp only
    rw [List.append_nil, digitsValue_digitChars, hdigits]
    rfl
  rw [double?, splitSign_chars]
  dsimp only
  rw [hdecimal]

theorem toList_toString (v : ℤ) :
    (toString v).toList = (if v < 0 then ['-'] else []) ++ Nat.toDigits 10 v.natAbs := by
  rw [Int.toString_eq_repr, Int.repr_eq_if]
  by_cases hv : 0 ≤ v
  · rw [if_pos hv, if_neg (by omega), Nat.toList_repr, List.nil_append]
    congr 1
    omega
  · rw [if_neg hv, if_pos (by omega), String.toList_append, Nat.toList_repr]
    congr 2
    omega

theorem Canonical.text_eq (h : t.Canonical) : t.text = toString t.value := by
  rw [← String.toList_inj, toList_toString, text, String.toList_ofList, chars, h.sign,
    h.digits.digitChars_eq, natAbs_value]
  split <;> rfl

theorem Canonical.sign_eq (h : t.Canonical) : t.sign = .none ∨ t.sign = .minus := by
  rw [h.sign]
  split
  · exact .inr rfl
  · exact .inl rfl

theorem Canonical.value_lt (h : t.Canonical) (hnegative : t.negative = true) : t.value < 0 := by
  by_contra hvalue
  have hsign := h.sign
  rw [if_neg hvalue] at hsign
  rw [negative, hsign] at hnegative
  cases hnegative

theorem exists_canonical (v : ℤ) : ∃ t : IntegerText, t.Canonical ∧ t.value = v := by
  obtain ⟨digits, hshortest, hvalue⟩ := exists_shortest v.natAbs
  let t : IntegerText := ⟨if v < 0 then .minus else .none, digits, hshortest.nonempty⟩
  have hv : t.value = v := by
    unfold value negative magnitude
    by_cases hneg : v < 0
    · simp [t, hneg, hvalue, abs_of_neg hneg]
    · simp [t, hneg, hvalue, abs_of_nonneg (Int.not_lt.mp hneg)]
  exact ⟨t, ⟨by rw [hv], hshortest⟩, hv⟩

/-- The decimal text of the number that a text denotes is the text itself exactly if it is in
canonical form. -/
theorem text_eq_iff : t.text = toString t.value ↔ t.Canonical := by
  refine ⟨fun h => ?_, Canonical.text_eq⟩
  obtain ⟨u, hu, hvalue⟩ := exists_canonical t.value
  rw [← hvalue, ← hu.text_eq] at h
  have hchars : t.chars = u.chars := String.ofList_injective h
  exact ext_chars hchars ▸ hu

end IntegerText

end DeclSchema.Decimal
