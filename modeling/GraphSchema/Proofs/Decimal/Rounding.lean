/-
Decimals are rounded to the float whose interval they lie in.

The interval of a float reaches half of the way to its neighbours, and its ends belong to it
exactly if the significand is even.  A quotient in it is rounded at the float's own last place,
except just below a power of two: there the last place is the next smaller one, and rounding
carries over into the power of two.

Nothing here is about texts.  The reader of a numeral and the rounding of an integer to a float
both go through these quotients.
-/
import Mathlib.Algebra.Order.Field.Power
import Mathlib.Data.Rat.Cast.Order
import Mathlib.Tactic.FieldSimp
import Mathlib.Tactic.Linarith
import GraphSchema.Proofs.Decimal.Bits

namespace GraphSchema.Decimal

/-! ### Powers -/

/-- A power with either sign as a quotient of whole numbers. -/
theorem zpow_eq_div (base : ℚ) (e : ℤ) :
    base ^ e = base ^ e.toNat / base ^ (-e).toNat := by
  rcases le_total 0 e with he | he
  · rw [Int.toNat_of_nonpos (by omega : -e ≤ 0), pow_zero, div_one, ← zpow_natCast, Int.toNat_of_nonneg he]
  · rw [Int.toNat_of_nonpos he, pow_zero, one_div, ← zpow_natCast, Int.toNat_of_nonneg (by omega),
      zpow_neg, inv_inv]

theorem two_zpow_pos (e : ℤ) : (0 : ℚ) < 2 ^ e := zpow_pos (by norm_num) e

theorem two_zpow_add (e : ℤ) (n : ℕ) : (2 : ℚ) ^ (e + n) = 2 ^ n * 2 ^ e := by
  rw [zpow_add₀ (by norm_num), zpow_natCast, mul_comm]

theorem two_zpow_le {e f : ℤ} (h : e ≤ f) : (2 : ℚ) ^ e ≤ 2 ^ f :=
  zpow_le_zpow_right₀ (by norm_num) h

/-! ### Quotients

The reader of a decimal divides at a last place that it has computed first.  The quotient it gets
is of the size of a significand, which is what determines that place.
-/

section Quotients

variable {numerator denominator : ℕ}

/-- The second number is not zero. -/
theorem scaled_pos (h : 0 < denominator) (e : ℤ) : 0 < (scaled numerator denominator e).2 :=
  Nat.mul_pos h (Nat.pow_pos (by decide))

theorem scaled_quotient (numerator denominator : ℕ) (e : ℤ) :
    ((scaled numerator denominator e).1 : ℚ) / (scaled numerator denominator e).2
      = numerator / denominator / 2 ^ e := by
  rw [zpow_eq_div, scaled]
  simp only [Nat.pow_eq, Nat.cast_mul, Nat.cast_pow, Nat.cast_ofNat]
  rw [div_div_div_eq]

/-- The quotient, by the sizes of the two numbers. -/
theorem quotient_between (hnumerator : numerator ≠ 0) (hdenominator : denominator ≠ 0) :
    (2 : ℚ) ^ ((numerator.log2 : ℤ) - denominator.log2 - 1) ≤ numerator / denominator ∧
      (numerator : ℚ) / denominator < 2 ^ ((numerator.log2 : ℤ) - denominator.log2 + 1) := by
  have hsub : ∀ n m : ℕ, (2 : ℚ) ^ ((n : ℤ) - m) = 2 ^ n / 2 ^ m := by
    intro n m
    rw [zpow_sub₀ (by norm_num), zpow_natCast, zpow_natCast]
  have hleast : (2 : ℚ) ^ numerator.log2 ≤ numerator := by
    exact_mod_cast Nat.log2_self_le hnumerator
  have hgreatest : (numerator : ℚ) < 2 ^ (numerator.log2 + 1) := by
    exact_mod_cast Nat.lt_log2_self
  have hleast' : (2 : ℚ) ^ denominator.log2 ≤ denominator := by
    exact_mod_cast Nat.log2_self_le hdenominator
  have hgreatest' : (denominator : ℚ) < 2 ^ (denominator.log2 + 1) := by
    exact_mod_cast Nat.lt_log2_self
  have hpos : (0 : ℚ) < denominator := by exact_mod_cast Nat.pos_of_ne_zero hdenominator
  constructor
  · have hexponent : (numerator.log2 : ℤ) - denominator.log2 - 1
        = (numerator.log2 : ℤ) - (denominator.log2 + 1 : ℕ) := by omega
    rw [hexponent, hsub]
    exact div_le_div₀ (Nat.cast_nonneg _) hleast hpos hgreatest'.le
  · have hexponent : (numerator.log2 : ℤ) - denominator.log2 + 1
        = ((numerator.log2 + 1 : ℕ) : ℤ) - denominator.log2 := by omega
    rw [hexponent, hsub]
    exact div_lt_div₀ hgreatest hleast' (by positivity) (by positivity)

/-- The last place leaves as many bits in front of it as a significand has, unless it is the least
one. -/
theorem lastPlace_spec (hnumerator : numerator ≠ 0) (hdenominator : denominator ≠ 0) :
    leastExponent ≤ lastPlace numerator denominator ∧
      (numerator : ℚ) / denominator < 2 ^ (lastPlace numerator denominator + 53) ∧
      (lastPlace numerator denominator = leastExponent ∨
        (2 : ℚ) ^ (lastPlace numerator denominator + 52) ≤ numerator / denominator) := by
  obtain ⟨hleast, hgreatest⟩ := quotient_between hnumerator hdenominator
  have hquotient := scaled_quotient numerator denominator
  have hpos : ∀ place, 0 < (scaled numerator denominator place).2 :=
    scaled_pos (Nat.pos_of_ne_zero hdenominator)
  unfold lastPlace
  dsimp only
  generalize hhigh : (numerator.log2 : ℤ) - denominator.log2 - fractionBits = high
  generalize hv : (numerator : ℚ) / denominator = v at hleast hgreatest hquotient ⊢
  have hhigh : (numerator.log2 : ℤ) - denominator.log2 = high + 52 := by
    rw [← hhigh, fractionBits]
    omega
  rw [hhigh] at hleast hgreatest
  -- The place before it is raised to the least one: the quotient has 53 bits in front of it.
  obtain ⟨place, hplace, hbelow, habove⟩ : ∃ place,
      (if (scaled numerator denominator high).1 / (scaled numerator denominator high).2 < leadingBit
        then high - 1 else high) = place ∧ v < 2 ^ (place + 53) ∧ (2 : ℚ) ^ (place + 52) ≤ v := by
    have htest : (scaled numerator denominator high).1 / (scaled numerator denominator high).2 < leadingBit
        ↔ v < 2 ^ (high + 52) := by
      have hcast : (0 : ℚ) < (scaled numerator denominator high).2 := by exact_mod_cast hpos high
      have hpower : (2 : ℚ) ^ (high + 52) = leadingBit * 2 ^ high := by
        rw [leadingBit_eq]
        exact two_zpow_add high 52
      rw [Nat.div_lt_iff_lt_mul (hpos high), ← Nat.cast_lt (α := ℚ), Nat.cast_mul, ← div_lt_iff₀ hcast,
        hquotient, div_lt_iff₀ (two_zpow_pos high), hpower]
    by_cases htest' : v < 2 ^ (high + 52)
    · refine ⟨high - 1, if_pos (htest.mpr htest'), ?_, ?_⟩
      · rwa [show high - 1 + 53 = high + 52 by omega]
      · rwa [show high - 1 + 52 = high + 52 - 1 by omega]
    · refine ⟨high, if_neg fun hlt => htest' (htest.mp hlt), ?_, not_lt.mp htest'⟩
      rwa [show high + 53 = high + 52 + 1 by omega]
  rw [hplace]
  rcases le_total place leastExponent with hle | hle
  · rw [max_eq_right hle]
    exact ⟨le_refl _, hbelow.trans_le (two_zpow_le (by omega)), Or.inl rfl⟩
  · rw [max_eq_left hle]
    exact ⟨hle, hbelow, Or.inr habove⟩

end Quotients

/-! ### Ties -/

/-- What lies within half of a whole number is rounded to it, from the middle if it is even. -/
theorem roundEven_eq {above below n : ℕ} (hbelow : 0 < below)
    (hlow : 2 * n * below ≤ 2 * above + below) (hhigh : 2 * above ≤ (2 * n + 1) * below)
    (hodd : n % 2 = 1 → 2 * n * below ≠ 2 * above + below ∧ 2 * above ≠ (2 * n + 1) * below) :
    roundEven above below = n := by
  have hdivision := Nat.div_add_mod above below
  have hrest := Nat.mod_lt above hbelow
  unfold roundEven
  dsimp only
  generalize above / below = quotient at hdivision ⊢
  generalize above % below = rest at hdivision hrest ⊢
  subst hdivision
  -- The whole part is the number or the one before it.
  have hle : quotient ≤ n := by
    by_contra hgt
    have hmul := Nat.mul_le_mul_right below (show n + 1 ≤ quotient by omega)
    nlinarith
  have hge : n ≤ quotient + 1 := by
    by_contra hlt
    have hmul := Nat.mul_le_mul_right below (show quotient + 2 ≤ n by omega)
    nlinarith
  rcases Nat.lt_or_eq_of_le hle with hlt | rfl
  · obtain rfl : n = quotient + 1 := by omega
    rw [if_pos]
    have hhalf : below ≤ 2 * rest := by nlinarith
    rcases Nat.lt_or_eq_of_le hhalf with hmore | htie
    · exact Or.inl hmore
    · refine Or.inr ⟨htie.symm, ?_⟩
      by_contra heven
      exact (hodd (by omega)).1 (by nlinarith)
  · rw [if_neg]
    have hhalf : 2 * rest ≤ below := by nlinarith
    rintro (hmore | ⟨htie, hoddQuotient⟩)
    · omega
    · exact (hodd hoddQuotient).2 (by nlinarith)

end GraphSchema.Decimal
