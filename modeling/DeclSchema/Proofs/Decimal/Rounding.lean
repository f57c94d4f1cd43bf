import DeclSchema.Proofs.Decimal.Nearest

/-! # Rounding to the nearest double

A quotient is rounded at the exponent at which its mantissa is full, or at the least one. There no
double is nearer to it, since a double of a smaller exponent lies below the full mantissas. Whole
mantissas reach up to half a unit behind the greatest finite double, and from there on the quotient
is infinite.
-/
namespace DeclSchema.Decimal

namespace Binary64

variable {num den n k : ℕ} {d : Binary64} {negative : Bool}

theorem roundHalfEven_bounds (hk : 0 < k) (n : ℕ) :
    2 * n ≤ 2 * (roundHalfEven n k * k) + k ∧ 2 * (roundHalfEven n k * k) ≤ 2 * n + k := by
  have hsplit := Nat.div_add_mod' n k
  have hmod := Nat.mod_lt n hk
  unfold roundHalfEven
  dsimp only
  split
  · rename_i h
    have hlow : 2 * (n % k) ≤ k := by
      simp only [Bool.or_eq_true, Bool.and_eq_true, decide_eq_true_eq, beq_iff_eq] at h
      omega
    omega
  · rename_i h
    have hhigh : k ≤ 2 * (n % k) := by
      simp only [Bool.or_eq_true, Bool.and_eq_true, decide_eq_true_eq, beq_iff_eq] at h
      omega
    rw [Nat.add_mul, Nat.one_mul]
    omega

/-- Of two whole numbers that are equally near the even one is taken. -/
theorem roundHalfEven_even (hk : 0 < k) (h : 2 * n = 2 * (roundHalfEven n k * k) + k) :
    roundHalfEven n k % 2 = 0 := by
  have hsplit := Nat.div_add_mod' n k
  have hmod := Nat.mod_lt n hk
  unfold roundHalfEven at h ⊢
  dsimp only at h ⊢
  split at h
  · rename_i hcase
    rw [if_pos hcase]
    simp only [Bool.or_eq_true, Bool.and_eq_true, decide_eq_true_eq, beq_iff_eq] at hcase
    omega
  · rename_i hcase
    simp only [Bool.or_eq_true, Bool.and_eq_true, decide_eq_true_eq, beq_iff_eq] at hcase
    rw [Nat.add_mul, Nat.one_mul] at h
    omega

theorem abs_roundHalfEven_sub_le (hk : 0 < k) (n : ℕ) :
    |(roundHalfEven n k : ℚ) - n / k| ≤ 1 / 2 := by
  obtain ⟨hupper, hlower⟩ := roundHalfEven_bounds hk n
  have hk' : (0 : ℚ) < k := by exact_mod_cast hk
  have hupper' : 2 * (n : ℚ) ≤ 2 * (roundHalfEven n k * k) + k := by exact_mod_cast hupper
  have hlower' : 2 * ((roundHalfEven n k : ℚ) * k) ≤ 2 * n + k := by exact_mod_cast hlower
  have hquotient : (n : ℚ) / k * k = n := div_mul_cancel₀ _ hk'.ne'
  rw [abs_le]
  constructor <;> nlinarith

/-- No whole number is nearer. -/
theorem abs_roundHalfEven_sub_le_abs (hk : 0 < k) (n : ℕ) (other : ℤ) :
    |(roundHalfEven n k : ℚ) - n / k| ≤ |(other : ℚ) - n / k| := by
  have hhalf := abs_roundHalfEven_sub_le hk n
  by_cases h : other = roundHalfEven n k
  · rw [h, Int.cast_natCast]
  · have hone : (1 : ℚ) ≤ |(other : ℚ) - roundHalfEven n k| := by
      have hint : 1 ≤ |other - roundHalfEven n k| := Int.one_le_abs (sub_ne_zero.mpr h)
      exact_mod_cast hint
    have htriangle := abs_sub_le (other : ℚ) (n / k) (roundHalfEven n k)
    rw [abs_sub_comm ((n : ℚ) / k)] at htriangle
    linarith

theorem leastExponent_le_exponentFor (num den : ℕ) : leastExponent ≤ exponentFor num den := by
  unfold exponentFor
  dsimp only
  split <;> omega

theorem lt_mantissaBound (hden : 0 < den) (num : ℕ) :
    (num : ℚ) / den * 2 ^ (-exponentFor num den) < mantissaBound := by
  have hpos := scale_snd_pos hden num (exponentFor num den)
  have hdiv := (Nat.div_lt_iff_lt_mul hpos).mp (div_exponentFor_lt num den)
  rw [← scale_eq, div_lt_iff₀ (by exact_mod_cast hpos)]
  exact_mod_cast hdiv

/-- The guessed exponent leaves 53 bits at least. -/
theorem le_quotient (hnum : 0 < num) (hden : 0 < den) :
    (2 : ℚ) ^ 52 ≤ num / den * 2 ^ (-((num.log2 : ℤ) - den.log2 - 53)) := by
  have hlower : (2 : ℚ) ^ (num.log2 : ℤ) ≤ num := by
    exact_mod_cast Nat.log2_self_le (by omega : num ≠ 0)
  have hupper : (den : ℚ) ≤ 2 ^ ((den.log2 : ℤ) + 1) := by
    exact_mod_cast (Nat.lt_log2_self (n := den)).le
  have hden' : (0 : ℚ) < den := by exact_mod_cast hden
  calc (2 : ℚ) ^ 52
      = 2 ^ (num.log2 : ℤ) / 2 ^ ((den.log2 : ℤ) + 1) * 2 ^ (-((num.log2 : ℤ) - den.log2 - 53)) := by
        rw [← zpow_sub₀ (by norm_num), ← zpow_add₀ (by norm_num), ← zpow_natCast]
        congr 1
        push_cast
        ring
    _ ≤ num / den * 2 ^ (-((num.log2 : ℤ) - den.log2 - 53)) := by gcongr

/-- Above the least exponent the mantissa is full. -/
theorem le_of_least_lt (hnum : 0 < num) (hden : 0 < den) (h : leastExponent < exponentFor num den) :
    (2 : ℚ) ^ 52 ≤ num / den * 2 ^ (-exponentFor num den) := by
  unfold exponentFor at h ⊢
  dsimp only at h ⊢
  split at h
  · rename_i hfull
    rw [if_pos hfull]
    generalize max ((num.log2 : ℤ) - den.log2 - 53) leastExponent = low at hfull ⊢
    have hpos := scale_snd_pos hden num low
    have hbound : ((mantissaBound : ℕ) : ℚ) ≤ num / den * 2 ^ (-low) := by
      rw [← scale_eq, le_div_iff₀ (by exact_mod_cast hpos)]
      exact_mod_cast (Nat.le_div_iff_mul_le hpos).mp hfull
    rw [neg_add, zpow_add₀ (by norm_num), ← mul_assoc]
    norm_num [mantissaBound] at hbound ⊢
    linarith
  · rename_i hfull
    rw [if_neg hfull, max_eq_left (by omega)]
    exact le_quotient hnum hden

structure IsDouble (d : Binary64) : Prop where
  least : leastExponent ≤ d.exponent
  greatest : d.exponent ≤ greatestExponent

def signed (negative : Bool) (x : ℚ) : ℚ := if negative then -x else x

def value (d : Binary64) : ℚ := signed d.negative d.size

structure Closest (d : Binary64) (x : ℚ) : Prop where
  double : d.IsDouble
  nearest : ∀ other : Binary64, other.IsDouble → |d.value - x| ≤ |other.value - x|

def overflow : ℚ := 2 ^ 1024 - 2 ^ 970

def rounded (num den : ℕ) : ℕ :=
  roundHalfEven (scale num den (exponentFor num den)).1 (scale num den (exponentFor num den)).2

theorem rounded_le (num den : ℕ) : rounded num den ≤ mantissaBound :=
  (roundHalfEven_le _ _).trans (div_exponentFor_lt num den)

/-- Rounding keeps the distance to every whole mantissa of the exponent at least as large. -/
theorem abs_rounded_sub_le (hden : 0 < den) (num : ℕ) (other : ℤ) :
    |(rounded num den : ℚ) * 2 ^ exponentFor num den - num / den| ≤
      |(other : ℚ) * 2 ^ exponentFor num den - num / den| := by
  have hround := abs_roundHalfEven_sub_le_abs (scale_snd_pos hden num (exponentFor num den))
    (scale num den (exponentFor num den)).1 other
  have hunit : (0 : ℚ) < 2 ^ exponentFor num den := by positivity
  have hscaled (a : ℚ) : |a - num / den * 2 ^ (-exponentFor num den)| * 2 ^ exponentFor num den =
      |a * 2 ^ exponentFor num den - num / den| := by
    rw [← abs_of_pos hunit, ← abs_mul, abs_of_pos hunit, sub_mul, zpow_neg,
      inv_mul_cancel_right₀ hunit.ne']
  rw [scale_eq] at hround
  rw [← hscaled, ← hscaled]
  exact mul_le_mul_of_nonneg_right hround hunit.le

/-- A double has a whole mantissa at every smaller exponent, too. -/
theorem exists_size_eq {e : ℤ} (h : e ≤ d.exponent) : ∃ m : ℤ, d.size = m * 2 ^ e := by
  obtain ⟨shift, hshift⟩ := Int.eq_ofNat_of_zero_le (Int.sub_nonneg.mpr h)
  refine ⟨d.mantissa * 2 ^ shift, ?_⟩
  have hexponent : d.exponent = (shift : ℤ) + e := by omega
  rw [size, hexponent, zpow_add₀ (by norm_num), zpow_natCast]
  push_cast
  ring

/-- Below an exponent all doubles are at most its least full mantissa. -/
theorem size_le_of_exponent_lt {e : ℤ} (h : d.exponent < e) :
    d.size ≤ 2 ^ 52 * 2 ^ e := by
  have hm : (d.mantissa : ℚ) ≤ 2 ^ 53 := by
    have hmantissa : d.mantissa < Nat.pow 2 53 := d.bounded
    exact_mod_cast hmantissa.le
  calc d.size ≤ 2 ^ 53 * 2 ^ (e - 1) := by
        unfold size
        gcongr
        · norm_num
        · omega
    _ = 2 ^ 52 * 2 ^ e := by
        rw [zpow_sub₀ (by norm_num)]
        ring

/-- No double is nearer to a quotient than its rounded mantissa at its exponent. -/
theorem abs_rounded_sub_le_size (hnum : 0 < num) (hden : 0 < den) {other : Binary64} (h : other.IsDouble) :
    |(rounded num den : ℚ) * 2 ^ exponentFor num den - num / den| ≤ |other.size - num / den| := by
  rcases le_or_gt (exponentFor num den) other.exponent with hle | hlt
  · obtain ⟨m, hsize⟩ := exists_size_eq hle
    rw [hsize]
    exact abs_rounded_sub_le hden num m
  · -- the other double lies below the least full mantissa, and the quotient does not
    have hfull := le_of_least_lt hnum hden (h.least.trans_lt hlt)
    have hquotient : 2 ^ 52 * 2 ^ exponentFor num den ≤ (num : ℚ) / den := by
      have hunit : (0 : ℚ) < 2 ^ exponentFor num den := by positivity
      have hmul := mul_le_mul_of_nonneg_right hfull hunit.le
      rwa [zpow_neg, inv_mul_cancel_right₀ hunit.ne'] at hmul
    have hother := size_le_of_exponent_lt hlt
    have hleast := abs_rounded_sub_le hden num (2 ^ 52)
    rw [Int.cast_pow, Int.cast_ofNat] at hleast
    calc |(rounded num den : ℚ) * 2 ^ exponentFor num den - num / den|
        ≤ |2 ^ 52 * 2 ^ exponentFor num den - (num : ℚ) / den| := hleast
      _ = num / den - 2 ^ 52 * 2 ^ exponentFor num den := by
        rw [abs_sub_comm, abs_of_nonneg (sub_nonneg.mpr hquotient)]
      _ ≤ num / den - other.size := sub_le_sub_left hother _
      _ = |other.size - num / den| := by
        rw [abs_sub_comm, abs_of_nonneg (sub_nonneg.mpr (hother.trans hquotient))]

/-- The number just below the bound is odd, so a tie is not rounded down to it. -/
theorem rounded_ne_of_le (hden : 0 < den)
    (h : (2 : ℚ) ^ 53 - 1 / 2 ≤ num / den * 2 ^ (-exponentFor num den)) :
    rounded num den ≠ mantissaBound - 1 := by
  intro hm
  have hpos := scale_snd_pos hden num (exponentFor num den)
  have hround := abs_roundHalfEven_sub_le hpos (scale num den (exponentFor num den)).1
  rw [scale_eq, abs_le] at hround
  have hm' : (rounded num den : ℚ) = 2 ^ 53 - 1 := by
    rw [hm]
    norm_num [mantissaBound]
  have hq : (num : ℚ) / den * 2 ^ (-exponentFor num den) = 2 ^ 53 - 1 / 2 := by
    refine le_antisymm ?_ h
    unfold rounded at hm'
    linarith
  have htie : (2 : ℚ) * (scale num den (exponentFor num den)).1 =
      2 * (rounded num den * (scale num den (exponentFor num den)).2) +
        (scale num den (exponentFor num den)).2 := by
    rw [← scale_eq, div_eq_iff (by exact_mod_cast hpos.ne')] at hq
    rw [hq, hm']
    ring
  have heven : rounded num den % 2 = 0 := roundHalfEven_even hpos (by exact_mod_cast htie)
  rw [hm] at heven
  exact absurd heven (by decide)

/-- The mantissa is rounded up to its bound from half a unit below. -/
theorem rounded_eq_bound_iff (hden : 0 < den) (num : ℕ) : rounded num den = mantissaBound ↔
    (2 : ℚ) ^ 53 - 1 / 2 ≤ num / den * 2 ^ (-exponentFor num den) := by
  have hround := abs_roundHalfEven_sub_le (scale_snd_pos hden num (exponentFor num den))
    (scale num den (exponentFor num den)).1
  rw [scale_eq, abs_le] at hround
  change _ ≤ (rounded num den : ℚ) - _ ∧ (rounded num den : ℚ) - _ ≤ _ at hround
  constructor
  · intro h
    have hm : (rounded num den : ℚ) = 2 ^ 53 := by
      rw [h]
      norm_num [mantissaBound]
    linarith
  · intro h
    have hlow : mantissaBound - 1 ≤ rounded num den := by
      have hm : (2 : ℚ) ^ 53 - 1 ≤ rounded num den := by linarith
      have hone : ((mantissaBound - 1 : ℕ) : ℚ) = 2 ^ 53 - 1 := by norm_num [mantissaBound]
      rw [← hone] at hm
      exact_mod_cast hm
    have hne := rounded_ne_of_le hden h
    have hupper := rounded_le num den
    omega

def Overflows (num den : ℕ) : Prop :=
  greatestExponent < exponentFor num den + if rounded num den = mantissaBound then 1 else 0

theorem overflow_eq : overflow = (2 ^ 54 - 1) * 2 ^ 970 := by
  rw [overflow, sub_mul, one_mul, ← pow_add]

/-- The overflow is half a unit below the bound of the mantissas at the greatest exponent. -/
theorem overflow_eq_half : overflow = (2 ^ 53 - 1 / 2) * 2 ^ greatestExponent := by
  have hunit : (2 : ℚ) ^ greatestExponent = 2 * 2 ^ 970 := by
    rw [← pow_succ', ← zpow_natCast]
    rfl
  rw [overflow_eq, hunit]
  generalize (2 : ℚ) ^ 970 = unit
  ring

theorem quotient_eq (num den : ℕ) :
    (num : ℚ) / den = num / den * 2 ^ (-exponentFor num den) * 2 ^ exponentFor num den := by
  have hunit : (0 : ℚ) < 2 ^ exponentFor num den := by positivity
  rw [zpow_neg, inv_mul_cancel_right₀ hunit.ne']

theorem lt_overflow (hden : 0 < den) (h : exponentFor num den < greatestExponent) :
    (num : ℚ) / den < overflow := by
  have hupper := lt_mantissaBound hden num
  rw [show ((mantissaBound : ℕ) : ℚ) = 2 ^ 53 by norm_num [mantissaBound]] at hupper
  have hpow : (2 : ℚ) ^ exponentFor num den ≤ 2 ^ 970 := by
    rw [← zpow_natCast]
    refine zpow_le_zpow_right₀ (by norm_num) ?_
    unfold greatestExponent at h
    push_cast
    omega
  rw [overflow_eq, quotient_eq]
  calc (num : ℚ) / den * 2 ^ (-exponentFor num den) * 2 ^ exponentFor num den
      < 2 ^ 53 * 2 ^ exponentFor num den := mul_lt_mul_of_pos_right hupper (by positivity)
    _ ≤ 2 ^ 53 * 2 ^ 970 := by gcongr
    _ ≤ (2 ^ 54 - 1) * 2 ^ 970 := mul_le_mul_of_nonneg_right (by norm_num) (by positivity)

theorem overflow_le_of_lt (hnum : 0 < num) (hden : 0 < den) (h : greatestExponent < exponentFor num den) :
    overflow ≤ (num : ℚ) / den := by
  have hfull := le_of_least_lt hnum hden (lt_trans (by decide) h)
  have hpow : (2 : ℚ) ^ 972 ≤ 2 ^ exponentFor num den := by
    rw [← zpow_natCast]
    refine zpow_le_zpow_right₀ (by norm_num) ?_
    unfold greatestExponent at h
    push_cast
    omega
  rw [overflow_eq, quotient_eq]
  calc ((2 : ℚ) ^ 54 - 1) * 2 ^ 970 ≤ 2 ^ 54 * 2 ^ 970 :=
        mul_le_mul_of_nonneg_right (by norm_num) (by positivity)
    _ = 2 ^ 52 * 2 ^ 972 := by rw [← pow_add, ← pow_add]
    _ ≤ (num : ℚ) / den * 2 ^ (-exponentFor num den) * 2 ^ exponentFor num den := by gcongr

theorem overflows_iff (hnum : 0 < num) (hden : 0 < den) :
    Overflows num den ↔ overflow ≤ (num : ℚ) / den := by
  unfold Overflows
  rcases lt_trichotomy (exponentFor num den) greatestExponent with hlt | heq | hgt
  · exact iff_of_false (by split <;> omega) (not_le.mpr (lt_overflow hden hlt))
  · -- at the greatest exponent everything depends on the mantissa
    have hone : (greatestExponent < greatestExponent + if rounded num den = mantissaBound then 1 else 0) ↔
        rounded num den = mantissaBound := by
      split <;> simp_all
    have hunit : (0 : ℚ) < 2 ^ greatestExponent := by positivity
    have hq := quotient_eq num den
    rw [heq] at hq
    rw [heq, hone, rounded_eq_bound_iff hden, heq]
    calc (2 : ℚ) ^ 53 - 1 / 2 ≤ num / den * 2 ^ (-greatestExponent)
        ↔ (2 ^ 53 - 1 / 2) * 2 ^ greatestExponent ≤
            (num : ℚ) / den * 2 ^ (-greatestExponent) * 2 ^ greatestExponent :=
          (mul_le_mul_iff_of_pos_right hunit).symm
      _ ↔ overflow ≤ (num : ℚ) / den := by rw [overflow_eq_half, ← hq]
  · exact iff_of_true (by split <;> omega) (overflow_le_of_lt hnum hden hgt)

theorem nearest_eq (negative : Bool) (hnum : 0 < num) : nearest negative num den =
    (ofRounded negative (rounded num den) (exponentFor num den)).toDouble := by
  rw [nearest, beq_false_of_ne hnum.ne', if_neg Bool.false_ne_true]
  rfl

theorem ofRounded_negative (negative : Bool) (m : ℕ) (e : ℤ) : (ofRounded negative m e).negative = negative := by
  unfold ofRounded
  split <;> rfl

/-- The exponent goes up where the mantissa is rounded up to its bound. -/
theorem ofRounded_exponent (negative : Bool) (num den : ℕ) (e : ℤ) : (ofRounded negative (rounded num den) e).exponent =
    e + if rounded num den = mantissaBound then 1 else 0 := by
  have hle := rounded_le num den
  unfold ofRounded
  split
  · rw [if_neg (by omega), add_zero]
  · rw [if_pos (by omega)]

theorem ofRounded_size (negative : Bool) (num den : ℕ) (e : ℤ) :
    (ofRounded negative (rounded num den) e).size = rounded num den * 2 ^ e := by
  have hle := rounded_le num den
  unfold ofRounded
  split
  · rfl
  · have hbound : rounded num den = mantissaBound := by omega
    rw [hbound, size, zpow_add_one₀ (by norm_num)]
    norm_num [mantissaBound]
    ring

theorem abs_signed_sub (negative : Bool) (a b : ℚ) :
    |signed negative a - signed negative b| = |a - b| := by
  cases negative with
  | false => rfl
  | true => rw [signed, signed, if_pos rfl, if_pos rfl, neg_sub_neg, abs_sub_comm]

/-- Numbers of different signs are no nearer to each other than their sizes. -/
theorem abs_sub_le_abs_signed {a b : ℚ} (ha : 0 ≤ a) (hb : 0 ≤ b) (negative negative' : Bool) :
    |a - b| ≤ |signed negative a - signed negative' b| := by
  by_cases h : negative = negative'
  · rw [h, abs_signed_sub]
  · have hsum : |signed negative a - signed negative' b| = a + b := by
      cases negative <;> cases negative'
      · exact absurd rfl h
      · simp only [signed, Bool.false_eq_true, if_false, if_true, sub_neg_eq_add]
        exact abs_of_nonneg (add_nonneg ha hb)
      · simp only [signed, Bool.false_eq_true, if_false, if_true, ← neg_add', abs_neg]
        exact abs_of_nonneg (add_nonneg ha hb)
      · exact absurd rfl h
    rw [hsum, abs_le]
    constructor <;> linarith

/-- A double of the rounded size and of the sign of a number is the closest one to it. -/
theorem closest_of_size (hnum : 0 < num) (hden : 0 < den) (hd : d.IsDouble)
    (hsize : d.size = rounded num den * 2 ^ exponentFor num den) :
    d.Closest (signed d.negative (num / den)) := by
  refine ⟨hd, fun other hother => ?_⟩
  have hnonneg : 0 ≤ other.size := by
    unfold size
    positivity
  calc |d.value - signed d.negative (num / den)|
      = |d.size - num / den| := abs_signed_sub _ _ _
    _ ≤ |other.size - num / den| := by
      rw [hsize]
      exact abs_rounded_sub_le_size hnum hden hother
    _ ≤ |other.value - signed d.negative (num / den)| :=
      abs_sub_le_abs_signed hnonneg (by positivity) _ _

/-- Below the overflow the result is the closest double. -/
theorem nearest_of_lt (negative : Bool) (hnum : 0 < num) (hden : 0 < den) (h : (num : ℚ) / den < overflow) :
    ∃ d, nearest negative num den = .finite d ∧ d.negative = negative ∧
      d.Closest (signed negative (num / den)) := by
  have hfits : ¬ Overflows num den := fun hover => absurd ((overflows_iff hnum hden).mp hover) (not_le.mpr h)
  rw [Overflows, ← ofRounded_exponent negative] at hfits
  have hleast := leastExponent_le_exponentFor num den
  have hexponent := ofRounded_exponent negative num den (exponentFor num den)
  refine ⟨_, (nearest_eq negative hnum).trans (if_neg hfits), ofRounded_negative .., ?_⟩
  have hclosest := closest_of_size hnum hden ⟨?_, not_lt.mp hfits⟩ (ofRounded_size negative num den _)
  · rwa [ofRounded_negative] at hclosest
  · rw [hexponent]
    split <;> omega

theorem nearest_of_le (negative : Bool) (hnum : 0 < num) (hden : 0 < den) (h : overflow ≤ (num : ℚ) / den) :
    nearest negative num den = .infinite negative := by
  have hover : Overflows num den := (overflows_iff hnum hden).mpr h
  rw [Overflows, ← ofRounded_exponent negative] at hover
  rw [nearest_eq negative hnum, toDouble, if_pos hover, ofRounded_negative]

end Binary64

theorem Binary64.overflow_le : overflow ≤ 10 ^ 310 := by
  calc overflow ≤ 2 ^ 1024 := sub_le_self _ (by positivity)
    _ = 2 * (2 ^ 93) ^ 11 := by rw [← pow_mul, ← pow_succ']
    _ ≤ 10 ^ 2 * (10 ^ 28) ^ 11 := by
      gcongr <;> norm_num
    _ = 10 ^ 310 := by rw [← pow_mul, ← pow_add]

/-- A whole number is rounded as a quotient by one, since numbers of very many digits are infinite
either way. -/
theorem Double.ofDecimal_whole (negative : Bool) {n : ℕ} (hn : 0 < n) :
    Double.ofDecimal negative n 0 = Binary64.nearest negative n 1 := by
  unfold Double.ofDecimal
  dsimp only
  rw [Int.add_zero, if_neg, if_pos (Int.le_refl 0)]
  · split
    · rename_i hplace
      have hmany : 310 ≤ digitCount n - 1 := by
        unfold greatestPlace at hplace
        omega
      have hlarge : Binary64.overflow ≤ n := by
        calc Binary64.overflow ≤ 10 ^ 310 := Binary64.overflow_le
          _ ≤ 10 ^ (digitCount n - 1) := pow_le_pow_right₀ (by norm_num) hmany
          _ ≤ n := by exact_mod_cast pow_digitCount_le hn.ne'
      refine (Binary64.nearest_of_le negative hn Nat.one_pos ?_).symm
      rwa [Nat.cast_one, div_one]
    · rw [Int.toNat_zero, Nat.pow_eq, Nat.pow_zero, Nat.mul_one]
  · have hplace : ¬ (digitCount n : ℤ) < leastPlace := by
      unfold leastPlace
      omega
    simp [hn.ne', hplace]

end DeclSchema.Decimal
