/-
The text of a floating-point number.

A float is written with the fewest digits that read back.  From 1e-4 up to below 1e16
the point is put in place, with at least one digit on either side of it; outside, one
digit stands in front of the point and the power of ten follows behind an `e`.
-/
import GraphSchema.Decimal.Shortest

namespace GraphSchema.Decimal

/-- The place of the point below which numbers are written with an exponent: the place
is the number of digits in front of the point, negative for leading zeros. -/
def leastPlace : Int := -3

/-- The place of the point above which numbers are written with an exponent. -/
def greatestPlace : Int := 16

/-- The digits of a number with its point in place. -/
def positional (digits : List Char) (place : Int) : List Char :=
  if place ≤ 0 then
    '0' :: '.' :: (List.replicate (-place).toNat '0' ++ digits)
  else if digits.length ≤ place.toNat then
    digits ++ List.replicate (place.toNat - digits.length) '0' ++ ['.', '0']
  else
    digits.take place.toNat ++ '.' :: digits.drop place.toNat

/-- The digits of a number with one digit in front of the point. -/
def scientific (digits : List Char) (place : Int) : List Char :=
  let fraction := digits.drop 1
  digits.take 1 ++ (if fraction.isEmpty then [] else '.' :: fraction)
    ++ 'e' :: (toString (place - 1)).toList

/-- The text of a positive finite number. -/
def magnitudeText (b : Binary) : List Char :=
  let (c, k) := shortest b
  let digits := Nat.toDigits 10 c
  let place := digits.length + k
  if leastPlace ≤ place ∧ place ≤ greatestPlace then positional digits place
  else scientific digits place

/-- The text of a float. -/
def floatText (x : Float) : String :=
  if x.isNaN then "NaN"
  else
    let magnitude :=
      if x.isInf then ['i', 'n', 'f']
      else if (Binary.ofFloat x).significand = 0 then ['0', '.', '0']
      else magnitudeText (Binary.ofFloat x)
    String.ofList (if isNegative x then '-' :: magnitude else magnitude)

end GraphSchema.Decimal
