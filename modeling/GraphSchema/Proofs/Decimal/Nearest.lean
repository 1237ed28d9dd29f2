/-
Decimals in the interval of a float are rounded to it.

A decimal is rounded at its own last place.  For one in the interval of a float that is the
float's last place, except just below a power of two: there the last place is the next smaller
one, and rounding carries over into the power of two.

The result is `nearest_eq`.  At an end of the interval the quotient lies half of the way
between two numbers, and there the even significand that `Binary.Holds` asks for decides.
-/
import GraphSchema.Proofs.Decimal.Shortest

namespace GraphSchema.Decimal

variable {b : Binary} {numerator denominator : ℕ}

/-! ### At a place -/

/-- A quotient within half of a multiple of a place is rounded to the multiple. -/
theorem roundEven_scaled {place : ℤ} {n : ℕ} (hdenominator : 0 < denominator)
    (hlow : (2 * n - 1 : ℚ) * 2 ^ place ≤ 2 * (numerator / denominator))
    (hhigh : 2 * (numerator / denominator : ℚ) ≤ (2 * n + 1) * 2 ^ place)
    (hodd : n % 2 = 1 → (2 * n - 1 : ℚ) * 2 ^ place ≠ 2 * (numerator / denominator) ∧
      2 * (numerator / denominator : ℚ) ≠ (2 * n + 1) * 2 ^ place) :
    roundEven (scaled numerator denominator place).1 (scaled numerator denominator place).2 = n := by
  have hpos : 0 < (scaled numerator denominator place).2 := scaled_pos hdenominator place
  have hpower := two_zpow_pos place
  have hbelow : (0 : ℚ) < (scaled numerator denominator place).2 := by exact_mod_cast hpos
  have hvalue : (numerator / denominator : ℚ) = (scaled numerator denominator place).1
      / (scaled numerator denominator place).2 * 2 ^ place := by
    rw [scaled_quotient, div_mul_cancel₀ _ hpower.ne']
  generalize (scaled numerator denominator place).1 = above at hvalue ⊢
  generalize (scaled numerator denominator place).2 = below at hpos hbelow hvalue ⊢
  rw [hvalue, ← mul_assoc, mul_le_mul_iff_left₀ hpower, ← mul_div_assoc, le_div_iff₀ hbelow] at hlow
  rw [hvalue, ← mul_assoc, mul_le_mul_iff_left₀ hpower, ← mul_div_assoc, div_le_iff₀ hbelow] at hhigh
  refine roundEven_eq hpos ?_ ?_ fun hn => ?_
  · have hcast : (2 * n * below : ℚ) ≤ 2 * above + below := by linarith
    exact_mod_cast hcast
  · exact_mod_cast hhigh
  · obtain ⟨hlowest, hhighest⟩ := hodd hn
    rw [hvalue, ← mul_assoc] at hlowest hhighest
    constructor
    · intro heq
      have hcast : (2 * n * below : ℚ) = 2 * above + below := by exact_mod_cast heq
      refine hlowest (congrArg (· * (2 : ℚ) ^ place) ?_)
      rw [← mul_div_assoc, eq_div_iff hbelow.ne']
      linarith
    · intro heq
      have hcast : (2 * above : ℚ) = (2 * n + 1) * below := by exact_mod_cast heq
      refine hhighest (congrArg (· * (2 : ℚ) ^ place) ?_)
      rw [← mul_div_assoc, div_eq_iff hbelow.ne']
      exact hcast

/-! ### At the last place

In the interval of a float there are two last places to be rounded at, and the smaller one only
below a power of two.  In both cases the result is the float.
-/

namespace Binary

/-- The last place in quarters of it, and the places behind it. -/
theorem two_zpow_exponent (b : Binary) (n : ℕ) :
    (2 : ℚ) ^ (b.exponent - 2 + n) = 2 ^ n * 2 ^ (b.exponent - 2) :=
  two_zpow_add (b.exponent - 2) n

theorem cast_high (b : Binary) : (b.high : ℚ) = 4 * b.significand + 2 := by
  unfold high
  push_cast
  rfl

theorem cast_low (hpos : 0 < b.significand) :
    (b.low : ℚ) = 4 * b.significand - if b.narrowBelow then 1 else 2 := by
  unfold low
  split
  · rw [Nat.cast_sub (by omega)]
    norm_num
  · rw [Nat.cast_sub (by omega)]
    norm_num

end Binary

/-- Nothing in the interval of a float has a larger last place. -/
theorem le_exponent_of_holds (hvalid : b.Valid) {v : ℚ} (h : b.Holds v) {place : ℤ}
    (hnormal : place = leastExponent ∨ (2 : ℚ) ^ (place + 52) ≤ v) : place ≤ b.exponent := by
  by_contra hgt
  have hlarge : (2 : ℚ) ^ (place + 52) ≤ v := hnormal.resolve_left fun heq => by
    have := hvalid.least
    omega
  have hpower : (2 : ℚ) ^ (b.exponent - 2 + (55 : ℕ)) ≤ 2 ^ (place + 52) := two_zpow_le (by omega)
  have hquarter := two_zpow_pos (b.exponent - 2)
  have hsmall : (b.significand : ℚ) + 1 ≤ 2 ^ 53 := by
    have hnat := hvalid.small
    rw [leadingBit_eq] at hnat
    norm_cast
  have hhigh := h.high
  rw [b.two_zpow_exponent] at hpower
  rw [b.cast_high] at hhigh
  nlinarith

/-- Only just below a power of two the last place is smaller, by one. -/
theorem eq_of_lt_exponent (hvalid : b.Valid) (hpos : 0 < b.significand) {v : ℚ} (h : b.Holds v)
    {place : ℤ} (hsmall : v < 2 ^ (place + 53)) (hlt : place < b.exponent)
    (hleast : leastExponent ≤ place) :
    place = b.exponent - 1 ∧ b.significand = leadingBit ∧ b.narrowBelow = true ∧
      v < 4 * leadingBit * 2 ^ (b.exponent - 2) := by
  have hquarter := two_zpow_pos (b.exponent - 2)
  have hlow := h.low
  rw [Binary.cast_low hpos] at hlow
  have hbelow : v < 4 * leadingBit * 2 ^ (b.exponent - 2) := by
    have hpower : (2 : ℚ) ^ (place + 53) ≤ 2 ^ (b.exponent - 2 + (54 : ℕ)) := two_zpow_le (by omega)
    rw [b.two_zpow_exponent] at hpower
    rw [leadingBit_eq]
    push_cast
    linarith
  have hnormal : leadingBit ≤ b.significand := hvalid.normal.resolve_left (by omega)
  have hmost : b.significand ≤ leadingBit := by
    have hcast : (b.significand : ℚ) < leadingBit + 1 := by
      split at hlow <;> nlinarith
    have hnat : b.significand < leadingBit + 1 := by exact_mod_cast hcast
    omega
  have hsignificand : b.significand = leadingBit := Nat.le_antisymm hmost hnormal
  have hnarrow : b.narrowBelow = true := hvalid.narrow.mpr ⟨hsignificand, by omega⟩
  refine ⟨?_, hsignificand, hnarrow, hbelow⟩
  by_contra hne
  have hpower : (2 : ℚ) ^ (place + 53) ≤ 2 ^ (b.exponent - 2 + (53 : ℕ)) := two_zpow_le (by omega)
  rw [b.two_zpow_exponent] at hpower
  rw [if_pos hnarrow, hsignificand, leadingBit_eq] at hlow
  push_cast at hlow
  nlinarith

/-- Just below a power of two the next smaller place is rounded at, up to the power. -/
theorem roundEven_below (hpos : 0 < b.significand) (hdenominator : 0 < denominator)
    (h : b.Holds (numerator / denominator)) (hnarrow : b.narrowBelow = true)
    (hbelow : (numerator / denominator : ℚ) < 4 * b.significand * 2 ^ (b.exponent - 2)) :
    roundEven (scaled numerator denominator (b.exponent - 1)).1 (scaled numerator denominator (b.exponent - 1)).2
      = 2 * b.significand := by
  have hquarter := two_zpow_pos (b.exponent - 2)
  have hunit : (2 : ℚ) ^ (b.exponent - 1) = 2 * 2 ^ (b.exponent - 2) := by
    have hpower := b.two_zpow_exponent 1
    rwa [show b.exponent - 2 + (1 : ℕ) = b.exponent - 1 by omega, pow_one] at hpower
  have hlow := h.low
  rw [Binary.cast_low hpos, if_pos hnarrow] at hlow
  refine roundEven_scaled hdenominator ?_ ?_ fun hodd => by omega
  · rw [hunit]
    push_cast
    nlinarith
  · rw [hunit]
    push_cast
    nlinarith

/-- In the interval of a float, its last place is rounded at to its significand. -/
theorem roundEven_exponent (hvalid : b.Valid) (hpos : 0 < b.significand) (hdenominator : 0 < denominator)
    (h : b.Holds (numerator / denominator)) :
    roundEven (scaled numerator denominator b.exponent).1 (scaled numerator denominator b.exponent).2
      = b.significand := by
  have hquarter := two_zpow_pos (b.exponent - 2)
  have hunit : (2 : ℚ) ^ b.exponent = 4 * 2 ^ (b.exponent - 2) := by
    have hpower := b.two_zpow_exponent 2
    rw [show b.exponent - 2 + (2 : ℕ) = b.exponent by omega] at hpower
    rw [hpower]
    norm_num
  obtain ⟨hlow, hhigh, hodd⟩ := h
  rw [Binary.cast_low hpos] at hlow hodd
  rw [b.cast_high] at hhigh hodd
  refine roundEven_scaled hdenominator ?_ ?_ fun hn => ?_
  · rw [hunit]
    split at hlow <;> nlinarith
  · rw [hunit]
    linarith
  · have hwide : b.narrowBelow = false := by
      by_contra hnarrow
      have hsignificand := (hvalid.narrow.mp (Bool.not_eq_false _ ▸ hnarrow)).1
      rw [leadingBit_eq] at hsignificand
      omega
    obtain ⟨hlowest, hhighest⟩ := hodd hn
    rw [hwide, if_neg Bool.false_ne_true] at hlowest
    rw [hunit]
    constructor
    · intro heq
      exact hlowest (by linarith)
    · intro heq
      exact hhighest (by linarith)

/-- **What belongs to the interval of a float is rounded to it.** -/
theorem nearestBits_eq (hvalid : b.Valid) (hpos : 0 < b.significand) (hnumerator : numerator ≠ 0)
    (hdenominator : denominator ≠ 0) (h : b.Holds (numerator / denominator)) :
    nearestBits numerator denominator = b.bits := by
  obtain ⟨hleast, hsmall, hnormal⟩ := lastPlace_spec hnumerator hdenominator
  have hbits := hvalid.finite
  have hbelowPos := Nat.pos_of_ne_zero hdenominator
  have hle := le_exponent_of_holds hvalid h hnormal
  unfold nearestBits
  dsimp only
  generalize lastPlace numerator denominator = place at hleast hsmall hle ⊢
  rcases Int.lt_or_eq_of_le hle with hlt | rfl
  · obtain ⟨rfl, hsignificand, hnarrow, hbelow⟩ := eq_of_lt_exponent hvalid hpos h hsmall hlt hleast
    rw [← hsignificand] at hbelow
    rw [roundEven_below hpos hbelowPos h hnarrow hbelow]
    -- twice the leading bit one place lower is the leading bit
    unfold Binary.bits at hbits ⊢
    rw [min_eq_left] <;> rw [leadingBit_eq] at * <;> unfold infinityBits at * <;> omega
  · rw [roundEven_exponent hvalid hpos hbelowPos h]
    exact min_eq_left hbits.le

/-! ### Floats -/

section Floats

variable {x : Float} {digits : ℕ} {exponent : ℤ}

/-- The bits of a float, put together from its sign and its magnitude. -/
theorem ofBits_magnitude (hfinite : x.isFinite = true) :
    Float.ofBits (UInt64.ofNat (if isNegative x then signBit + (Binary.ofFloat x).bits
      else (Binary.ofFloat x).bits)) = x := by
  have hbits : (if isNegative x then signBit + (Binary.ofFloat x).bits else (Binary.ofFloat x).bits)
      = x.toBits.toNat := by
    rw [toNat_toBits]
    split
    · rfl
    · exact (Nat.zero_add _).symm
  rw [hbits, UInt64.ofNat_toNat, ofBits_toBits hfinite]

/-- Zero is read with either sign. -/
theorem nearest_zero (hfinite : x.isFinite = true) (hzero : (Binary.ofFloat x).significand = 0) :
    nearest (isNegative x) 0 exponent = x := by
  have hvalid := valid_ofFloat hfinite
  have hexponent : (Binary.ofFloat x).exponent = leastExponent := by
    refine hvalid.normal.resolve_right fun hleading => ?_
    rw [hzero, leadingBit_eq] at hleading
    omega
  have hbits : (Binary.ofFloat x).bits = 0 := by
    unfold Binary.bits
    rw [hexponent, hzero, Int.sub_self]
    rfl
  have hx := ofBits_magnitude hfinite
  rw [hbits] at hx
  exact hx

/-- A decimal in the interval of a float is not taken for zero. -/
theorem least_of_holds {b : Binary} (hvalid : b.Valid) (hpos : 0 < b.significand)
    (h : b.Holds (digits * 10 ^ exponent)) :
    digits ≠ 0 ∧ -1200 ≤ (digits.log2 : ℤ) + 3 * exponent := by
  have hten : (0 : ℚ) < 10 ^ exponent := zpow_pos (by norm_num) exponent
  have hleast : (2 : ℚ) ^ (-1076 : ℤ) ≤ digits * 10 ^ exponent := by
    have hsignificand : (1 : ℚ) ≤ b.significand := by exact_mod_cast hpos
    have hlow : (1 : ℚ) ≤ b.low := by
      rw [Binary.cast_low hpos]
      split <;> linarith
    calc (2 : ℚ) ^ (-1076 : ℤ) ≤ 2 ^ (b.exponent - 2) := by
          refine two_zpow_le ?_
          have := hvalid.least
          unfold leastExponent at this
          omega
      _ ≤ b.low * 2 ^ (b.exponent - 2) := le_mul_of_one_le_left (two_zpow_pos _).le hlow
      _ ≤ digits * 10 ^ exponent := h.low
  have hne : digits ≠ 0 := by
    rintro rfl
    rw [Nat.cast_zero, zero_mul] at hleast
    exact absurd (two_zpow_pos _) (not_lt.mpr hleast)
  refine ⟨hne, ?_⟩
  by_contra hfar
  have hnegative : exponent < 0 := by omega
  have hpower : (10 : ℚ) ^ exponent ≤ 2 ^ (3 * exponent) := by
    have hnat := two_pow_le_ten_pow (le_refl (3 * (-exponent).toNat))
    have hcast : (2 : ℚ) ^ (3 * (-exponent).toNat) ≤ 10 ^ (-exponent).toNat := by exact_mod_cast hnat
    rw [zpow_eq_div, zpow_eq_div 2, Int.toNat_of_nonpos hnegative.le,
      Int.toNat_of_nonpos (by omega : 3 * exponent ≤ 0), pow_zero, pow_zero,
      show (-(3 * exponent)).toNat = 3 * (-exponent).toNat by omega]
    exact div_le_div₀ zero_le_one (le_refl 1) (by positivity) hcast
  have hdigits : (digits : ℚ) ≤ 2 ^ ((digits.log2 : ℤ) + 1) := by
    have hnat : digits < 2 ^ (digits.log2 + 1) := Nat.lt_log2_self
    exact_mod_cast hnat.le
  have hsmall : (digits : ℚ) * 10 ^ exponent ≤ 2 ^ ((digits.log2 : ℤ) + 1 + 3 * exponent) := by
    rw [zpow_add₀ (by norm_num)]
    exact mul_le_mul hdigits hpower hten.le (two_zpow_pos _).le
  have hbelow : (2 : ℚ) ^ ((digits.log2 : ℤ) + 1 + 3 * exponent) < 2 ^ (-1076 : ℤ) :=
    zpow_lt_zpow_right₀ (by norm_num) (by omega)
  linarith

/-- **A decimal in the interval of a float is read as the float.** -/
theorem nearest_eq (hfinite : x.isFinite = true) (hpos : 0 < (Binary.ofFloat x).significand)
    (hexponent : exponent ≤ 400) (h : (Binary.ofFloat x).Holds (digits * 10 ^ exponent)) :
    nearest (isNegative x) digits exponent = x := by
  have hvalid := valid_ofFloat hfinite
  obtain ⟨hne, hleast⟩ := least_of_holds hvalid hpos h
  have hten : ∀ n, Nat.pow 10 n ≠ 0 := fun n => (Nat.pow_pos (by decide)).ne'
  have hquotient : ((digits * Nat.pow 10 exponent.toNat : ℕ) : ℚ) / (Nat.pow 10 (-exponent).toNat : ℕ)
      = digits * 10 ^ exponent := by
    rw [zpow_eq_div, Nat.pow_eq, Nat.pow_eq]
    push_cast
    rw [mul_div_assoc]
  have hbits : nearestBits (digits * Nat.pow 10 exponent.toNat) (Nat.pow 10 (-exponent).toNat)
      = (Binary.ofFloat x).bits := by
    refine nearestBits_eq hvalid hpos (Nat.mul_ne_zero hne (hten _)) (hten _) ?_
    rw [hquotient]
    exact h
  unfold nearest
  dsimp only
  rw [if_neg (by omega : ¬(digits = 0 ∨ (digits.log2 : ℤ) + 3 * exponent < -1200)),
    if_neg (by omega : ¬400 < exponent), hbits]
  exact ofBits_magnitude hfinite

end Floats

end GraphSchema.Decimal
