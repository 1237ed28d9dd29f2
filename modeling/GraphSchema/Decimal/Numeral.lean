/-
Numerals.

A numeral without a point and without an exponent is an integer and has to fit 64 bits;
any other is a floating-point number.  The whole part has no needless zero in front, a
point has digits behind it, and an exponent has a sign or begins with one of 1 to 8.
-/
import GraphSchema.Decimal.Binary

namespace GraphSchema.Decimal

/-- What a numeral stands for, by the way it is written. -/
inductive Numeral where
  | integer (n : Int64)
  | float (x : Float)

namespace Numeral

/-- The number that a run of digits names. -/
def digitsValue (digits : List Char) : Nat :=
  digits.foldl (fun n c => 10 * n + (c.toNat - '0'.toNat)) 0

/-- Whether a run of digits is a whole part: not empty, and without a needless zero. -/
def isWhole : List Char → Bool
  | [] => false
  | '0' :: rest => rest.isEmpty
  | _ :: _ => true

/-- The number that a text names, if it is a run of digits and not empty. -/
def digits? (s : List Char) : Option Nat :=
  if !s.isEmpty && s.all Char.isDigit then some (digitsValue s) else none

/-- The exponent that a text behind `e` names. -/
def exponent? : List Char → Option Int
  | [] => none
  | '+' :: s => (digits? s).map fun n => (n : Int)
  | '-' :: s => (digits? s).map fun n => -(n : Int)
  | c :: s => if '1' ≤ c ∧ c ≤ '8' then (digits? (c :: s)).map fun n => (n : Int) else none

/-- The integer of the given sign and size, if it fits 64 bits. -/
def integer? (negative : Bool) (size : Nat) : Option Numeral :=
  let n : Int := if negative then -(size : Int) else size
  if Int64.minValue.toInt ≤ n ∧ n ≤ Int64.maxValue.toInt then some (integer (Int64.ofInt n))
  else none

/-- The number behind the whole part: its digits read as one number with the fraction's,
and the exponent lowered by the fraction's length. -/
def afterWhole (negative : Bool) (whole : List Char) : List Char → Option Numeral
  | [] => integer? negative (digitsValue whole)
  | '.' :: rest =>
    let fraction := rest.takeWhile Char.isDigit
    let float (e : Int) :=
      float (nearest negative (digitsValue (whole ++ fraction)) (e - fraction.length))
    if fraction.isEmpty then none
    else
      match rest.dropWhile Char.isDigit with
      | [] => some (float 0)
      | c :: exponent => if c = 'e' ∨ c = 'E' then (exponent? exponent).map float else none
  | c :: exponent =>
    if c = 'e' ∨ c = 'E' then
      (exponent? exponent).map fun e => float (nearest negative (digitsValue whole) e)
    else none

/-- Reads an unsigned numeral and gives it the sign. -/
def readUnsigned (negative : Bool) (s : List Char) : Option Numeral :=
  let whole := s.takeWhile Char.isDigit
  if isWhole whole then afterWhole negative whole (s.dropWhile Char.isDigit) else none

/-- Reads a numeral that makes up the whole text. -/
def read : List Char → Option Numeral
  | '-' :: s => readUnsigned true s
  | s => readUnsigned false s

end Numeral

end GraphSchema.Decimal
