/-
Numerals stand for numbers.

The nearest float to a decimal may be infinite, but it is never the float that is no number, and
so it is the same as itself.  Whatever they are, two floats are the same either way round.

Sameness of floats is not reflexive, so whatever compares what has been read with itself rests on
`isNaN_of_read`.
-/
import GraphSchema.Decimal.Numeral
import GraphSchema.Proofs.Decimal.Bits

namespace GraphSchema.Decimal

open Float.Model (Format UnpackedFloat)
open Float.Model.UnpackedFloat (Sign packComponents unpackSign unpackExponent unpackMantissa)

/-- Bits that are those of a number make up a number. -/
theorem isNaN_ofBits {b : UInt64} (h : (UnpackedFloat.unpack Format.binary64 b.toBitVec).isNaN = false) :
    (Float.ofBits b).isNaN = false := by
  show (UnpackedFloat.unpack Format.binary64
    (UnpackedFloat.pack Format.binary64 (UnpackedFloat.unpack Format.binary64 b.toBitVec))).isNaN = false
  cases hunpack : UnpackedFloat.unpack Format.binary64 b.toBitVec with
  | notANumber => rw [hunpack] at h; cases h
  | infinity sign => cases sign <;> decide
  | zero sign => cases sign <;> decide
  | finite sign m e hpos =>
    rw [← hunpack, pack_unpack (by rw [hunpack]; rfl), hunpack]
    rfl

/-- Below the bits of infinity, and with any sign, there are numbers only. -/
theorem isNaN_unpack_of_le {b : BitVec 64} (h : b.toNat % 2 ^ 63 ≤ infinityBits) :
    (UnpackedFloat.unpack Format.binary64 b).isNaN = false := by
  have hmantissa := toNat_mantissaOf b
  have hexponent := toNat_exponentOf b
  unfold UnpackedFloat.unpack
  dsimp only
  split
  · next hgreatest =>
    have hgreatest : (exponentOf b).toNat = 2047 := congrArg BitVec.toNat hgreatest
    have hzero : mantissaOf b = 0#52 := by
      refine BitVec.eq_of_toNat_eq ?_
      rw [hmantissa]
      rw [hexponent] at hgreatest
      simp only [infinityBits] at h
      show _ = 0
      omega
    rw [if_pos hzero]
    rfl
  · split
    · split <;> rfl
    · rfl

/-- The nearest float to a decimal is a number. -/
theorem isNaN_nearest (negative : Bool) (digits : Nat) (exponent : Int) :
    (nearest negative digits exponent).isNaN = false := by
  unfold nearest
  dsimp only
  refine isNaN_ofBits (isNaN_unpack_of_le ?_)
  have hle : ∀ numerator denominator, nearestBits numerator denominator ≤ infinityBits :=
    fun _ _ => Nat.min_le_right _ _
  generalize hmagnitude : (if digits = 0 ∨ (digits.log2 : Int) + 3 * exponent < -1200 then 0
    else if 400 < exponent then infinityBits
    else nearestBits (digits * Nat.pow 10 exponent.toNat) (Nat.pow 10 (-exponent).toNat)) = magnitude
  have hmagnitude : magnitude ≤ infinityBits := by
    rw [← hmagnitude]
    split
    · exact Nat.zero_le _
    · split
      · exact Nat.le_refl _
      · exact hle _ _
  show (UInt64.ofNat _).toNat % _ ≤ _
  rw [UInt64.toNat_ofNat']
  simp only [infinityBits, signBit] at hmagnitude ⊢
  split <;> omega

/-- A number is the same as itself. -/
theorem beq_self_of_not_isNaN {x : Float} (h : x.isNaN = false) : (x == x) = true := by
  have hmodel : x.toModel.unpack.isNaN = false := h
  show (x.toModel.unpack.compare x.toModel.unpack == some Ordering.eq) = true
  cases hunpack : x.toModel.unpack with
  | notANumber => rw [hunpack] at hmodel; cases hmodel
  | infinity sign => cases sign <;> rfl
  | zero sign => cases sign <;> rfl
  | finite sign m e hpos =>
    cases sign <;> simp [UnpackedFloat.compare]

/-- Two floats compare the other way round when they are exchanged. -/
theorem compare_swap (x y : UnpackedFloat) : y.compare x = (x.compare y).map Ordering.swap := by
  cases x with
  | notANumber => cases y <;> rfl
  | infinity s => cases y <;> cases s <;> first | rfl | (next t => cases t <;> rfl)
  | zero s =>
    cases y with
    | notANumber | zero => rfl
    | infinity t | finite t _ _ _ => cases t <;> rfl
  | finite s m e hpos =>
    cases y with
    | notANumber | zero => cases s <;> rfl
    | infinity t => cases t <;> rfl
    | finite t n f hpos' =>
      cases s <;> cases t <;>
        simp [UnpackedFloat.compare, Ordering.swap_then, Int.compare_swap, Nat.compare_swap]

theorem beq_comm (x y : Float) : (x == y) = (y == x) := by
  show (x.toModel.unpack.compare y.toModel.unpack == some Ordering.eq)
    = (y.toModel.unpack.compare x.toModel.unpack == some Ordering.eq)
  rw [compare_swap y.toModel.unpack]
  cases y.toModel.unpack.compare x.toModel.unpack with
  | none => rfl
  | some order => cases order <;> rfl

namespace Numeral

variable {negative : Bool} {x : Float}

theorem integer?_ne_float (size : Nat) : integer? negative size ≠ some (.float x) := by
  intro hinteger
  simp [integer?] at hinteger

/-- What an exponent follows is read as the float nearest to it. -/
theorem isNaN_of_exponent {digits : Nat} {scale : Int → Int} {exponent : Option Int}
    (h : (exponent.map fun e => Numeral.float (nearest negative digits (scale e))) = some (.float x)) :
    x.isNaN = false := by
  obtain ⟨_, -, heq⟩ := Option.map_eq_some_iff.mp h
  obtain rfl := Numeral.float.inj heq
  exact isNaN_nearest _ _ _

theorem isNaN_of_afterWhole {whole rest : List Char} (h : afterWhole negative whole rest = some (.float x)) :
    x.isNaN = false := by
  unfold afterWhole at h
  dsimp only at h
  split at h
  · exact absurd h (integer?_ne_float _)
  · split at h
    · cases h
    · split at h
      · obtain rfl := Numeral.float.inj (Option.some.inj h)
        exact isNaN_nearest _ _ _
      · split at h
        · exact isNaN_of_exponent h
        · cases h
  · split at h
    · exact isNaN_of_exponent h
    · cases h

theorem isNaN_of_readUnsigned {s : List Char} (h : readUnsigned negative s = some (.float x)) :
    x.isNaN = false := by
  unfold readUnsigned at h
  dsimp only at h
  split at h
  · exact isNaN_of_afterWhole h
  · cases h

/-- **A numeral that is read as a float is read as a number.** -/
theorem isNaN_of_read {s : List Char} (h : read s = some (.float x)) : x.isNaN = false := by
  unfold read at h
  split at h <;> exact isNaN_of_readUnsigned h

end Numeral

end GraphSchema.Decimal
