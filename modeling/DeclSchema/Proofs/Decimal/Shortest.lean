import DeclSchema.Decimal.Shortest
import Mathlib.Algebra.Order.Field.Power
import Mathlib.Data.Rat.Cast.Order
import Mathlib.Tactic.Linarith
import Mathlib.Tactic.NormNum
import Mathlib.Tactic.Positivity
import Mathlib.Tactic.Ring

/-! # The shortest digits of a double are not zero

The grids that `shortest` tries begin at the leading place of the value, so no number on them
that is near the value is zero, and after eighteen of them the grid is finer than the last
place of a mantissa of 53 bits.
-/
namespace DeclSchema.Decimal

theorem pow_toNat_div_pow_toNat (b : ℚ) (z : ℤ) :
    b ^ z.toNat / b ^ (-z).toNat = b ^ z := by
  rcases le_total 0 z with h | h
  · rw [Int.toNat_of_nonpos (by omega : -z ≤ 0), pow_zero, div_one, ← zpow_natCast,
      Int.toNat_of_nonneg h]
  · rw [Int.toNat_of_nonpos h, pow_zero, ← zpow_natCast, Int.toNat_of_nonneg (by omega), zpow_neg,
      one_div, inv_inv]

/-- The decimal digits of a number say between which powers of ten it lies. -/
theorem pow_digitCount_le {n : ℕ} (h : n ≠ 0) : 10 ^ (digitCount n - 1) ≤ n := by
  unfold digitCount
  have hpos : 0 < (Nat.toDigits 10 n).length := Nat.length_toDigits_pos
  rcases Nat.lt_or_ge 1 (Nat.toDigits 10 n).length with hlong | hshort
  · have hiff := Nat.length_toDigits_le_iff (n := n) (by omega : 1 < 10)
      (by omega : 0 < (Nat.toDigits 10 n).length - 1)
    have hnot : ¬ (Nat.toDigits 10 n).length ≤ (Nat.toDigits 10 n).length - 1 := by omega
    exact Nat.le_of_not_lt fun hlt => hnot (hiff.mpr hlt)
  · have hone : (Nat.toDigits 10 n).length - 1 = 0 := by omega
    rw [hone]
    omega

theorem lt_pow_digitCount (n : ℕ) : n < 10 ^ digitCount n :=
  (Nat.length_toDigits_le_iff (by omega) Nat.length_toDigits_pos).mp (Nat.le_refl _)

namespace Binary64
variable {d : Binary64} {power : ℤ} {c : ℕ}

def size (d : Binary64) : ℚ := d.mantissa * 2 ^ d.exponent

theorem size_eq_quotient (d : Binary64) : d.size = (d.quotient.1 : ℚ) / d.quotient.2 := by
  have hpow := pow_toNat_div_pow_toNat 2 d.exponent
  unfold size quotient
  split
  · rename_i h
    rw [Int.toNat_of_nonpos (by omega : -d.exponent ≤ 0), pow_zero, div_one] at hpow
    rw [← hpow]
    simp only [Nat.pow_eq]
    push_cast
    rw [div_one]
  · rename_i h
    rw [Int.toNat_of_nonpos (by omega : d.exponent ≤ 0), pow_zero] at hpow
    rw [← hpow]
    simp only [Nat.pow_eq]
    push_cast
    rw [mul_one_div]

theorem quotient_pos (hd : d.mantissa ≠ 0) : 0 < d.quotient.1 ∧ 0 < d.quotient.2 := by
  unfold quotient
  split
  · exact ⟨Nat.mul_pos (by omega) (Nat.pow_pos (by omega)), Nat.one_pos⟩
  · exact ⟨by omega, Nat.pow_pos (by omega)⟩

/-- The leading place does not lie above the value. -/
theorem pow_leadingPlace_le (hd : d.mantissa ≠ 0) : (10 : ℚ) ^ d.leadingPlace ≤ d.size := by
  obtain ⟨hn, hk⟩ := quotient_pos hd
  rw [size_eq_quotient]
  unfold leadingPlace
  generalize d.quotient = q at hn hk ⊢
  obtain ⟨n, k⟩ := q
  dsimp only at hn hk ⊢
  have hk' : (0 : ℚ) < k := by exact_mod_cast hk
  have hn' : (0 : ℚ) < n := by exact_mod_cast hn
  split
  · rename_i hnk
    have hquot : n / k ≠ 0 := by
      have := Nat.div_pos hnk hk
      omega
    have hpos : 0 < digitCount (n / k) := Nat.length_toDigits_pos
    have hle : 10 ^ (digitCount (n / k) - 1) * k ≤ n :=
      (Nat.mul_le_mul_right k (pow_digitCount_le hquot)).trans (Nat.div_mul_le_self n k)
    rw [show (digitCount (n / k) : ℤ) - 1 = ((digitCount (n / k) - 1 : ℕ) : ℤ) by omega,
      zpow_natCast, le_div_iff₀ hk']
    exact_mod_cast hle
  · rename_i hnk
    have hpos : 0 < digitCount (k / n) := Nat.length_toDigits_pos
    split
    · rename_i hle
      rw [show -((digitCount (k / n) : ℤ) - 1) = -((digitCount (k / n) - 1 : ℕ) : ℤ) by omega,
        zpow_neg, zpow_natCast, inv_le_comm₀ (by positivity) (by positivity), inv_div,
        div_le_iff₀ hn', mul_comm]
      exact_mod_cast hle
    · have hlt : k < n * 10 ^ digitCount (k / n) := by
        have h := Nat.lt_mul_div_succ k hn
        exact h.trans_le (Nat.mul_le_mul_left n (lt_pow_digitCount (k / n)))
      rw [zpow_neg, zpow_natCast, inv_le_comm₀ (by positivity) (by positivity), inv_div,
        div_le_iff₀ hn', mul_comm]
      exact_mod_cast hlt.le

theorem quarterUnit_pos (d : Binary64) (power : ℤ) :
    0 < (d.quarterUnit power).1 ∧ 0 < (d.quarterUnit power).2 :=
  ⟨Nat.mul_pos (Nat.pow_pos (by omega)) (Nat.pow_pos (by omega)),
    Nat.mul_pos (Nat.pow_pos (by omega)) (Nat.pow_pos (by omega))⟩

theorem quarterUnit_eq (d : Binary64) (power : ℤ) :
    ((d.quarterUnit power).1 : ℚ) / (d.quarterUnit power).2 =
      2 ^ (d.exponent - 2) / 10 ^ power := by
  have htwo := pow_toNat_div_pow_toNat 2 (d.exponent - 2)
  have hten := pow_toNat_div_pow_toNat 10 (-power)
  rw [neg_neg, zpow_neg] at hten
  rw [← htwo, div_eq_mul_inv _ ((10 : ℚ) ^ power), ← hten, div_mul_div_comm]
  unfold quarterUnit
  simp only [Nat.pow_eq]
  push_cast
  rfl

theorem unit_le_value (h : (10 : ℚ) ^ power ≤ d.size) :
    (d.quarterUnit power).2 ≤ 4 * d.mantissa * (d.quarterUnit power).1 := by
  have hk : (0 : ℚ) < (d.quarterUnit power).2 := by exact_mod_cast (quarterUnit_pos d power).2
  have hsize : d.size = 4 * d.mantissa * 2 ^ (d.exponent - 2) := by
    rw [size, zpow_sub₀ (by norm_num)]
    ring
  have hone : 1 ≤ (4 * d.mantissa * (d.quarterUnit power).1 : ℚ) / (d.quarterUnit power).2 := by
    rw [mul_div_assoc, quarterUnit_eq, ← mul_div_assoc, ← hsize, le_div_iff₀ (by positivity), one_mul]
    exact h
  rw [le_div_iff₀ hk, one_mul] at hone
  exact_mod_cast hone

/-- Where the unit of a grid is no more than the value, no number on it near the value is
zero. -/
theorem onGrid?_ne_zero (h : (10 : ℚ) ^ power ≤ d.size) (hc : d.onGrid? power = some c) :
    c ≠ 0 := by
  have hk := (quarterUnit_pos d power).2
  have hfloor : 0 < 4 * d.mantissa * (d.quarterUnit power).1 / (d.quarterUnit power).2 :=
    Nat.div_pos (unit_le_value h) hk
  unfold onGrid? quarters at hc
  dsimp only at hc
  split at hc
  · split at hc <;> cases hc <;> omega
  · cases hc
    omega
  · cases hc
    omega
  · cases hc

/-- A grid finer than a quarter of the last place has a number that rounds to the double. -/
theorem isSome_onGrid? (hd : d.mantissa ≠ 0) (h : (10 : ℚ) ^ power ≤ 2 ^ (d.exponent - 2)) :
    (d.onGrid? power).isSome := by
  obtain ⟨hn, hk⟩ := quarterUnit_pos d power
  have hk' : (0 : ℚ) < (d.quarterUnit power).2 := by exact_mod_cast hk
  have hfine : (d.quarterUnit power).2 ≤ (d.quarterUnit power).1 := by
    have hone : 1 ≤ ((d.quarterUnit power).1 : ℚ) / (d.quarterUnit power).2 := by
      rw [quarterUnit_eq, le_div_iff₀ (by positivity), one_mul]
      exact h
    rw [le_div_iff₀ hk', one_mul] at hone
    exact_mod_cast hone
  -- the multiple of the unit just below the value lies above the lower end
  unfold onGrid? quarters
  generalize d.quarterUnit power = u at hn hk hfine ⊢
  obtain ⟨n, k⟩ := u
  dsimp only at hn hk hfine ⊢
  have hbelow : 4 * d.mantissa * n < 4 * d.mantissa * n / k * k + k := by
    have h := Nat.lt_mul_div_succ (4 * d.mantissa * n) hk
    rw [Nat.mul_add, Nat.mul_one, Nat.mul_comm k] at h
    exact h
  have habove : 4 * d.mantissa * n / k * k ≤ 4 * d.mantissa * n := Nat.div_mul_le_self _ _
  generalize 4 * d.mantissa * n / k = floor at hbelow habove ⊢
  have hlow : ∀ below : ℕ, 1 ≤ below → below ≤ 2 →
      (4 * d.mantissa - below) * n < floor * k := by
    intro below hone htwo
    have hsplit : (4 * d.mantissa - below) * n + below * n = 4 * d.mantissa * n := by
      rw [← Nat.add_mul, Nat.sub_add_cancel (by omega)]
    have hle : k ≤ below * n := hfine.trans (Nat.le_mul_of_pos_left n hone)
    omega
  have hhigh : floor * k < (4 * d.mantissa + 2) * n := by
    rw [Nat.add_mul]
    omega
  have hinside : ∀ below : ℕ, 1 ≤ below → below ≤ 2 →
      (if d.mantissa % 2 == 0 then
        decide ((4 * d.mantissa - below) * n ≤ floor * k) &&
          decide (floor * k ≤ (4 * d.mantissa + 2) * n)
      else
        decide ((4 * d.mantissa - below) * n < floor * k) &&
          decide (floor * k < (4 * d.mantissa + 2) * n)) = true := by
    intro below hone htwo
    have hl := hlow below hone htwo
    split <;> simp only [Bool.and_eq_true, decide_eq_true_eq] <;> omega
  have hin := hinside (if (d.mantissa == Nat.pow 2 52 && decide (d.exponent > leastExponent)) = true
    then 1 else 2) (by split <;> omega) (by split <;> omega)
  rw [hin]
  split
  · split <;> rfl
  · rfl
  · rename_i hfalse _
    cases hfalse
  · rename_i hfalse _
    cases hfalse

theorem firstGrid_digits_ne_zero {count : ℕ} (hpower : (10 : ℚ) ^ power ≤ d.size)
    (hsome : ∃ step < count, (d.onGrid? (power - step)).isSome) :
    (d.firstGrid count power).digits ≠ 0 := by
  induction count generalizing power with
  | zero => simp at hsome
  | succ count ih =>
    unfold firstGrid
    cases hgrid : d.onGrid? power with
    | some c => exact onGrid?_ne_zero hpower hgrid
    | none =>
      apply ih
      · exact (zpow_le_zpow_right₀ (by norm_num) (by omega)).trans hpower
      · obtain ⟨step, hstep, hs⟩ := hsome
        cases step with
        | zero => simp [hgrid] at hs
        | succ step =>
          refine ⟨step, by omega, ?_⟩
          rw [show power - 1 - (step : ℤ) = power - ((step + 1 : ℕ) : ℤ) by push_cast; ring]
          exact hs

end Binary64

theorem Digits.strip_digits_ne_zero {limit : ℕ} {d : Digits} (h : d.digits ≠ 0) :
    (d.strip limit).digits ≠ 0 := by
  induction limit generalizing d with
  | zero => exact h
  | succ limit ih =>
    unfold Digits.strip
    split
    · rename_i hzero
      apply ih
      simp only [Bool.and_eq_true, beq_iff_eq] at hzero
      show d.digits / 10 ≠ 0
      omega
    · exact h

/-- Eighteen grids are enough for a mantissa of 53 bits. -/
theorem Binary64.shortest_digits_ne_zero {d : Binary64} (hd : d.mantissa ≠ 0) :
    d.shortest.digits ≠ 0 := by
  have hplace := pow_leadingPlace_le hd
  apply Digits.strip_digits_ne_zero
  apply firstGrid_digits_ne_zero hplace
  refine ⟨17, by omega, isSome_onGrid? hd ?_⟩
  have hm : (d.mantissa : ℚ) ≤ 2 ^ 53 := by
    have h : d.mantissa < Nat.pow 2 53 := d.bounded
    exact_mod_cast h.le
  have hsize : d.size ≤ 10 ^ 17 * 2 ^ (d.exponent - 2) := by
    rw [size, zpow_sub₀ (by norm_num)]
    have hpos : (0 : ℚ) < 2 ^ d.exponent := by positivity
    nlinarith
  rw [zpow_sub₀ (by norm_num), div_le_iff₀ (by positivity)]
  calc (10 : ℚ) ^ d.leadingPlace ≤ d.size := hplace
    _ ≤ 10 ^ 17 * 2 ^ (d.exponent - 2) := hsize
    _ = 2 ^ (d.exponent - 2) * 10 ^ ((17 : ℕ) : ℤ) := by rw [zpow_natCast, mul_comm]

end DeclSchema.Decimal
