/-
Binary floating-point numbers as exact values.

A finite `Float` is a whole significand times a power of two, and every decimal lies
between two such values.  `Binary.ofFloat` takes a float apart and `nearest` goes the
other way: it rounds a decimal to the closest float, a tie to the even significand, in
exact arithmetic on natural numbers.
-/
namespace GraphSchema.Decimal

/-- The number of fraction bits of a float. -/
def fractionBits : Nat := 52

/-- The least significand of a normal float: one bit in front of all fraction bits. -/
def leadingBit : Nat := Nat.pow 2 fractionBits

/-- The exponent of the last place of the smallest floats. -/
def leastExponent : Int := -1074

/-- The bits of positive infinity. -/
def infinityBits : Nat := 0x7FF0000000000000

/-- The bit of the sign. -/
def signBit : Nat := 0x8000000000000000

/-- A non-negative value: a significand times two to the power of an exponent.
`narrowBelow` says that the gap to the next smaller float is half as wide as the gap to
the next larger one. -/
structure Binary where
  significand : Nat
  exponent : Int
  narrowBelow : Bool

/-- The magnitude of a finite float. -/
def Binary.ofFloat (x : Float) : Binary :=
  let bits := x.toBits.toNat
  let fraction : Nat := bits % leadingBit
  let biased : Nat := bits / leadingBit % 0x800
  if biased = 0 then
    ⟨fraction, leastExponent, false⟩
  else
    ⟨leadingBit + fraction, leastExponent + (biased : Int) - 1, fraction == 0 && biased != 1⟩

/-- Whether the sign of a float is set. -/
def isNegative (x : Float) : Bool := signBit ≤ x.toBits.toNat

/-! ### Rounding -/

/-- Two numbers whose quotient is `numerator / denominator` over two to the power of `e`. -/
def scaled (numerator denominator : Nat) (e : Int) : Nat × Nat :=
  (numerator * Nat.pow 2 (-e).toNat, denominator * Nat.pow 2 e.toNat)

/-- The exponent of the last place that a float near `numerator / denominator` has. -/
def lastPlace (numerator denominator : Nat) : Int :=
  let high : Int := (numerator.log2 : Int) - denominator.log2 - fractionBits
  let (above, below) := scaled numerator denominator high
  max (if above / below < leadingBit then high - 1 else high) leastExponent

/-- The quotient rounded to a whole number, a tie to the even one. -/
def roundEven (above below : Nat) : Nat :=
  let quotient := above / below
  let twice := 2 * (above % below)
  if below < twice ∨ (twice = below ∧ quotient % 2 = 1) then quotient + 1 else quotient

/-- The bits of the float nearest to `numerator / denominator`, a tie going to the even
significand. -/
def nearestBits (numerator denominator : Nat) : Nat :=
  let exponent := lastPlace numerator denominator
  let (above, below) := scaled numerator denominator exponent
  min ((exponent - leastExponent).toNat * leadingBit + roundEven above below) infinityBits

/-- The float nearest to `digits` times ten to the power of `exponent`, with the given
sign.  Exponents far outside the range of floats are decided without computing the
power. -/
def nearest (negative : Bool) (digits : Nat) (exponent : Int) : Float :=
  let magnitude :=
    if digits = 0 ∨ (digits.log2 : Int) + 3 * exponent < -1200 then 0
    else if 400 < exponent then infinityBits
    else nearestBits (digits * Nat.pow 10 exponent.toNat) (Nat.pow 10 (-exponent).toNat)
  Float.ofBits (UInt64.ofNat (if negative then signBit + magnitude else magnitude))

/-- The float nearest to an integer. -/
def ofInteger (n : Int64) : Float := nearest (n.toInt < 0) n.toInt.natAbs 0

end GraphSchema.Decimal
