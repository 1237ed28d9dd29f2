/-
The shortest decimal that reads back.

The decimals that round to a float form an interval around it, whose ends belong to it
exactly if the significand is even.  `shortest` looks for the coarsest grid of powers of
ten that has a point in the interval; a point of a coarser grid has fewer digits.  Of two
points of that grid it takes the nearer one, and of two equally near the larger.
-/
import GraphSchema.Decimal.Binary

namespace GraphSchema.Decimal

/-- The multiple of the `k`-th power of ten that stands for the value, if one rounds to it.
Lengths are counted in quarters of the value's last place, and both scales are made
whole. -/
def Binary.onGrid (b : Binary) (k : Int) : Option Nat :=
  let step := Nat.pow 10 k.toNat * Nat.pow 2 (2 - b.exponent).toNat
  let quarter := Nat.pow 2 (b.exponent - 2).toNat * Nat.pow 10 (-k).toNat
  let centre := 4 * b.significand * quarter
  let low := centre - (if b.narrowBelow then 1 else 2) * quarter
  let high := centre + 2 * quarter
  let inside (c : Nat) : Bool :=
    if b.significand % 2 = 0 then low ≤ c * step && c * step ≤ high
    else low < c * step && c * step < high
  let below := centre / step
  match inside below, inside (below + 1) with
  | true, true => some (if 2 * centre < (2 * below + 1) * step then below else below + 1)
  | true, false => some below
  | false, true => some (below + 1)
  | false, false => none

/-- The largest power of ten that is tried as a grid: it exceeds every float. -/
def coarsestGrid : Int := 309

/-- The digits and the exponent of the shortest decimal that reads back as a positive
value. -/
def shortest (b : Binary) : Nat × Int :=
  ((List.range 700).findSome? fun (i : Nat) =>
    let k := coarsestGrid - (i : Int)
    (b.onGrid k).map fun c => (c, k)).getD (0, 0)

end GraphSchema.Decimal
