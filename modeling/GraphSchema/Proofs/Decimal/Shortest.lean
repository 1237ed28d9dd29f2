/-
The shortest decimal lies in the interval of its float.

The search over the grids ends: the finest grid that is tried is finer than a quarter of the last
place of every float.  What it ends with is a decimal that is rounded to the float, since it lies
in the interval of what is (`holds_shortest`).

That no decimal with fewer digits lies there is not needed for reading back, and nothing is said
of it.
-/
import GraphSchema.Decimal.Shortest
import GraphSchema.Proofs.Decimal.Rounding

namespace GraphSchema.Decimal

namespace Binary

/-! ### The interval

The numbers that are rounded to a float.  Its ends are halves of the last place, and below a power
of two a quarter, so everything is counted in quarters.
-/

/-- The end of the interval below a float, in quarters of its last place. -/
def low (b : Binary) : ℕ := 4 * b.significand - if b.narrowBelow then 1 else 2

/-- The end of the interval above a float, in quarters of its last place. -/
def high (b : Binary) : ℕ := 4 * b.significand + 2

/-- A number belongs to the interval of a float: to its ends as well if the significand is even. -/
structure Holds (b : Binary) (v : ℚ) : Prop where
  low : b.low * 2 ^ (b.exponent - 2) ≤ v
  high : v ≤ b.high * 2 ^ (b.exponent - 2)
  odd : b.significand % 2 = 1 →
    b.low * 2 ^ (b.exponent - 2) ≠ v ∧ v ≠ b.high * 2 ^ (b.exponent - 2)

/-- The width of a grid, on a scale on which a quarter of the last place is whole as well. -/
def step (b : Binary) (k : ℤ) : ℕ := Nat.pow 10 k.toNat * Nat.pow 2 (2 - b.exponent).toNat

/-- A quarter of the last place on that scale. -/
def quarter (b : Binary) (k : ℤ) : ℕ := Nat.pow 2 (b.exponent - 2).toNat * Nat.pow 10 (-k).toNat

variable {b : Binary} {k : ℤ}

theorem step_pos (b : Binary) (k : ℤ) : 0 < b.step k :=
  Nat.mul_pos (Nat.pow_pos (by decide)) (Nat.pow_pos (by decide))

theorem quarter_pos (b : Binary) (k : ℤ) : 0 < b.quarter k :=
  Nat.mul_pos (Nat.pow_pos (by decide)) (Nat.pow_pos (by decide))

/-- On the common scale, powers of ten are steps and powers of two are quarters. -/
theorem step_mul_power (b : Binary) (k : ℤ) (c : ℕ) :
    ((c * b.step k : ℕ) : ℚ) * 2 ^ (b.exponent - 2) = c * 10 ^ k * b.quarter k := by
  have hquarter : (b.quarter k : ℚ) ≠ 0 := by exact_mod_cast (b.quarter_pos k).ne'
  have hscale : (b.step k : ℚ) / b.quarter k = 10 ^ k / 2 ^ (b.exponent - 2) := by
    rw [zpow_eq_div, zpow_eq_div 2, step, quarter]
    simp only [Nat.pow_eq, Nat.cast_mul, Nat.cast_pow, Nat.cast_ofNat, neg_sub]
    rw [div_div_div_eq, mul_comm ((2 : ℚ) ^ (b.exponent - 2).toNat)]
  rw [div_eq_div_iff hquarter (two_zpow_pos _).ne'] at hscale
  rw [Nat.cast_mul, mul_assoc, hscale, mul_assoc]

theorem quarter_mul_le_iff (n c : ℕ) :
    n * b.quarter k ≤ c * b.step k ↔ (n : ℚ) * 2 ^ (b.exponent - 2) ≤ c * 10 ^ k := by
  have hquarter : (0 : ℚ) < b.quarter k := by exact_mod_cast b.quarter_pos k
  rw [← Nat.cast_le (α := ℚ), ← mul_le_mul_iff_left₀ (two_zpow_pos (b.exponent - 2)), step_mul_power,
    Nat.cast_mul, mul_right_comm, mul_le_mul_iff_left₀ hquarter]

theorem step_mul_le_iff (n c : ℕ) :
    c * b.step k ≤ n * b.quarter k ↔ (c : ℚ) * 10 ^ k ≤ n * 2 ^ (b.exponent - 2) := by
  have hquarter : (0 : ℚ) < b.quarter k := by exact_mod_cast b.quarter_pos k
  rw [← Nat.cast_le (α := ℚ), ← mul_le_mul_iff_left₀ (two_zpow_pos (b.exponent - 2)), step_mul_power,
    Nat.cast_mul, mul_right_comm (n : ℚ), mul_le_mul_iff_left₀ hquarter]

/-! ### A grid -/

/-- Whether a point of a grid belongs to the interval. -/
def inside (b : Binary) (k : ℤ) (c : ℕ) : Bool :=
  let centre := 4 * b.significand * b.quarter k
  let low := centre - (if b.narrowBelow then 1 else 2) * b.quarter k
  let high := centre + 2 * b.quarter k
  if b.significand % 2 = 0 then low ≤ c * b.step k && c * b.step k ≤ high
  else low < c * b.step k && c * b.step k < high

/-- A point that is found inside belongs to the interval. -/
theorem holds_of_inside {c : ℕ} (h : b.inside k c = true) : b.Holds (c * 10 ^ k) := by
  have hlow : 4 * b.significand * b.quarter k - (if b.narrowBelow then 1 else 2) * b.quarter k
      = b.low * b.quarter k := (Nat.sub_mul _ _ _).symm
  have hhigh : 4 * b.significand * b.quarter k + 2 * b.quarter k = b.high * b.quarter k :=
    (Nat.add_mul _ _ _).symm
  unfold inside at h
  dsimp only at h
  rw [hlow, hhigh] at h
  split at h
  · next heven =>
    rw [Bool.and_eq_true, decide_eq_true_eq, decide_eq_true_eq, quarter_mul_le_iff, step_mul_le_iff] at h
    exact ⟨h.1, h.2, fun hodd => absurd hodd (by omega)⟩
  · rw [Bool.and_eq_true, decide_eq_true_eq, decide_eq_true_eq, ← not_le, ← not_le, quarter_mul_le_iff,
      step_mul_le_iff, not_le, not_le] at h
    exact ⟨h.1.le, h.2.le, fun _ => ⟨h.1.ne, h.2.ne⟩⟩

/-- A grid gives the point below or above the value. -/
theorem onGrid_eq (b : Binary) (k : ℤ) :
    b.onGrid k =
      let centre := 4 * b.significand * b.quarter k
      let below := centre / b.step k
      match b.inside k below, b.inside k (below + 1) with
      | true, true => some (if 2 * centre < (2 * below + 1) * b.step k then below else below + 1)
      | true, false => some below
      | false, true => some (below + 1)
      | false, false => none := rfl

/-- What a grid gives is inside. -/
theorem inside_of_onGrid {c : ℕ} (h : b.onGrid k = some c) : b.inside k c = true := by
  rw [onGrid_eq] at h
  dsimp only at h
  generalize 4 * b.significand * b.quarter k / b.step k = below at h
  split at h
  · next hbelow habove =>
    obtain rfl := Option.some.inj h
    split <;> assumption
  · next hbelow _ =>
    obtain rfl := Option.some.inj h
    exact hbelow
  · next _ habove =>
    obtain rfl := Option.some.inj h
    exact habove
  · cases h

/-- A grid that is finer than a quarter has a point inside. -/
theorem isSome_onGrid (h : b.step k ≤ b.quarter k) (hpos : 0 < b.significand) :
    (b.onGrid k).isSome = true := by
  have hbelow : b.inside k (4 * b.significand * b.quarter k / b.step k) = true := by
    have hdivision := Nat.div_add_mod (4 * b.significand * b.quarter k) (b.step k)
    have hrest := Nat.mod_lt (4 * b.significand * b.quarter k) (b.step_pos k)
    have hquarter := b.quarter_pos k
    have hcentre : 4 * b.quarter k ≤ 4 * b.significand * b.quarter k :=
      Nat.mul_le_mul_right _ (by omega)
    have hgap : b.quarter k ≤ (if b.narrowBelow then 1 else 2) * b.quarter k := by
      split <;> omega
    rw [Nat.mul_comm] at hdivision
    unfold inside
    dsimp only
    generalize 4 * b.significand * b.quarter k / b.step k * b.step k = point at hdivision ⊢
    generalize (if b.narrowBelow then 1 else 2) * b.quarter k = gap at hgap ⊢
    split <;> simp only [Bool.and_eq_true, decide_eq_true_eq] <;> omega
  rw [onGrid_eq]
  dsimp only
  rw [hbelow]
  cases b.inside k (4 * b.significand * b.quarter k / b.step k + 1) <;> rfl

end Binary

/-! ### The search

The grids get finer by a factor of ten, so a point of some grid lies in the interval after as many
steps as there are tried.
-/

theorem two_pow_le_ten_pow {n m : ℕ} (h : n ≤ 3 * m) : 2 ^ n ≤ 10 ^ m :=
  calc 2 ^ n ≤ 2 ^ (3 * m) := Nat.pow_le_pow_right (by decide) h
    _ = (2 ^ 3) ^ m := pow_mul 2 3 m
    _ ≤ 10 ^ m := Nat.pow_le_pow_left (by norm_num) m

/-- A fine grid is finer than a quarter of the last place. -/
theorem step_le_quarter {b : Binary} {n : ℕ} (h : (2 - b.exponent).toNat ≤ 3 * n) :
    b.step (-n) ≤ b.quarter (-n) := by
  have hstep : b.step (-n) = 2 ^ (2 - b.exponent).toNat := by
    unfold Binary.step
    rw [Int.toNat_of_nonpos (by omega), Nat.pow_eq, Nat.pow_eq, pow_zero, one_mul]
  have hquarter : 10 ^ n ≤ b.quarter (-n) := by
    unfold Binary.quarter
    rw [neg_neg, Int.toNat_natCast, Nat.pow_eq, Nat.pow_eq]
    exact Nat.le_mul_of_pos_left _ (Nat.pow_pos (by decide))
  rw [hstep]
  exact (two_pow_le_ten_pow h).trans hquarter

/-- **The search ends with a decimal that belongs to the interval**, on a grid that is not too coarse
to be read. -/
theorem holds_shortest {b : Binary} (h : leastExponent ≤ b.exponent) (hpos : 0 < b.significand) :
    b.Holds ((shortest b).1 * 10 ^ (shortest b).2) ∧ (shortest b).2 ≤ coarsestGrid := by
  unfold shortest
  cases hfound : (List.range 700).findSome? fun (i : Nat) =>
      (b.onGrid (coarsestGrid - (i : Int))).map fun c => (c, coarsestGrid - (i : Int)) with
  | none =>
    rw [List.findSome?_eq_none_iff] at hfound
    have hnone := hfound 699 (List.mem_range.mpr (by omega))
    have hfine : (2 - b.exponent).toNat ≤ 3 * 390 := by
      unfold leastExponent at h
      omega
    have hsome := b.isSome_onGrid (step_le_quarter hfine) hpos
    rw [Option.map_eq_none_iff, show (coarsestGrid - (699 : ℕ) : ℤ) = -(390 : ℕ) from rfl] at hnone
    rw [hnone] at hsome
    cases hsome
  | some found =>
    obtain ⟨i, -, hi⟩ := List.exists_of_findSome?_eq_some hfound
    obtain ⟨c, hc, rfl⟩ := Option.map_eq_some_iff.mp hi
    refine ⟨Binary.holds_of_inside (Binary.inside_of_onGrid hc), ?_⟩
    show coarsestGrid - (i : ℤ) ≤ coarsestGrid
    omega

end GraphSchema.Decimal
