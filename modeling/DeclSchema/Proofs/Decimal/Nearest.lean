import DeclSchema.Proofs.Decimal.Shortest

/-! # The mantissa of the nearest double

At the exponent that is chosen a quotient is below the bound of the mantissas, and rounding takes it
no further than up to that bound.
-/
namespace DeclSchema.Decimal.Binary64

variable {num den : ℕ}

theorem scale_eq (num den : ℕ) (e : ℤ) :
    ((scale num den e).1 : ℚ) / (scale num den e).2 = num / den * 2 ^ (-e) := by
  unfold scale
  split
  · rename_i he
    obtain ⟨k, rfl⟩ := Int.eq_ofNat_of_zero_le he
    simp only [Nat.pow_eq, Int.toNat_natCast]
    push_cast
    rw [zpow_neg, zpow_natCast, div_mul_eq_div_div, div_eq_mul_inv (_ / _)]
  · rename_i he
    obtain ⟨k, hk⟩ := Int.eq_ofNat_of_zero_le (show 0 ≤ -e by omega)
    rw [hk]
    simp only [Nat.pow_eq, Int.toNat_natCast]
    push_cast
    rw [zpow_natCast]
    ring

theorem scale_snd_pos (hden : 0 < den) (num : ℕ) (e : ℤ) : 0 < (scale num den e).2 := by
  unfold scale
  split
  · exact Nat.mul_pos hden (Nat.pow_pos (by omega))
  · exact hden

/-- Above the guessed exponent the quotient has 54 bits at most. -/
theorem quotient_lt (hden : 0 < den) {low : ℤ}
    (hlow : (num.log2 : ℤ) - den.log2 - 53 ≤ low) : (num : ℚ) / den * 2 ^ (-low) < 2 ^ 54 := by
  have hupper : (num : ℚ) < 2 ^ ((num.log2 : ℤ) + 1) := by
    exact_mod_cast Nat.lt_log2_self (n := num)
  have hlower : (2 : ℚ) ^ (den.log2 : ℤ) ≤ den := by
    exact_mod_cast Nat.log2_self_le (by omega : den ≠ 0)
  have hpos : (0 : ℚ) < 2 ^ (den.log2 : ℤ) := by positivity
  calc (num : ℚ) / den * 2 ^ (-low)
      < 2 ^ ((num.log2 : ℤ) + 1) / 2 ^ (den.log2 : ℤ) * 2 ^ (-low) := by
        have hquotient : (num : ℚ) / den < 2 ^ ((num.log2 : ℤ) + 1) / 2 ^ (den.log2 : ℤ) :=
          div_lt_div₀ hupper hlower (by positivity) hpos
        exact mul_lt_mul_of_pos_right hquotient (by positivity)
    _ = 2 ^ ((num.log2 : ℤ) + 1 - den.log2 - low) := by
        rw [← zpow_sub₀ (by norm_num), ← zpow_add₀ (by norm_num)]
        ring_nf
    _ ≤ 2 ^ (54 : ℤ) := zpow_le_zpow_right₀ (by norm_num) (by omega)
    _ = 2 ^ 54 := by norm_num

theorem div_scale_lt {bound : ℕ} (hden : 0 < den) {e : ℤ} (h : (num : ℚ) / den * 2 ^ (-e) < bound) :
    (scale num den e).1 / (scale num den e).2 < bound := by
  have hpos := scale_snd_pos hden num e
  rw [← scale_eq, div_lt_iff₀ (by exact_mod_cast hpos)] at h
  exact (Nat.div_lt_iff_lt_mul hpos).mpr (by exact_mod_cast h)

/-- At the chosen exponent the whole part fits the mantissa. -/
theorem div_exponentFor_lt (num den : ℕ) :
    (scale num den (exponentFor num den)).1 / (scale num den (exponentFor num den)).2
      < mantissaBound := by
  rcases Nat.eq_zero_or_pos den with rfl | hden
  · have hzero : ∀ e, (scale num 0 e).2 = 0 := by
      intro e
      unfold scale
      split
      · exact Nat.zero_mul _
      · rfl
    rw [hzero, Nat.div_zero]
    decide
  unfold exponentFor
  dsimp only
  split
  · refine div_scale_lt hden ?_
    have hquotient := quotient_lt hden (le_max_left ((num.log2 : ℤ) - den.log2 - 53) leastExponent)
    rw [neg_add, zpow_add₀ (by norm_num), ← mul_assoc]
    norm_num [mantissaBound] at hquotient ⊢
    linarith
  · rename_i h
    omega

theorem roundHalfEven_le (n d : ℕ) : roundHalfEven n d ≤ n / d + 1 := by
  unfold roundHalfEven
  dsimp only
  split <;> omega

end DeclSchema.Decimal.Binary64
