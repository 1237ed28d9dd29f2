/-
Floats as bits.

The bits of a finite float are its sign, its exponent and its fraction side by side, and they
make up the float again.  As a number, without the sign, they count the floats in order: the
next significand has the next number, across the exponents too.

The fields are those of `Format.binary64`, and unpacking a float reads them off.  What is
added is the way back (`pack_unpack`, `ofBits_toBits`) and the order of the floats as numbers
(`Binary.bits`).
-/
import Mathlib
import GraphSchema.Decimal.Binary

namespace GraphSchema.Decimal

open Float.Model (Format)
open Float.Model.UnpackedFloat (Sign packComponents unpackSign unpackExponent unpackMantissa)

/-! ### The fields -/

/-- The fields of 64 bits. -/
abbrev signOf (b : BitVec 64) : BitVec 1 := @unpackSign Format.binary64 b

/-- The bits of the exponent. -/
abbrev exponentOf (b : BitVec 64) : BitVec 11 := @unpackExponent Format.binary64 b

/-- The bits behind the point. -/
abbrev mantissaOf (b : BitVec 64) : BitVec 52 := @unpackMantissa Format.binary64 b

theorem toNat_mantissaOf (b : BitVec 64) : (mantissaOf b).toNat = b.toNat % 2 ^ 52 := by
  simp [unpackMantissa]

theorem toNat_exponentOf (b : BitVec 64) : (exponentOf b).toNat = b.toNat / 2 ^ 52 % 2 ^ 11 := by
  simp [unpackExponent, Nat.shiftRight_eq_div_pow]

/-- Bits are their fields side by side. -/
theorem packComponents_fields (b : BitVec 64) :
    packComponents Format.binary64 (Sign.ofBitVec (signOf b)) (exponentOf b) (mantissaOf b) = b := by
  have hsign : ∀ bit : BitVec 1, (Sign.ofBitVec bit).toBitVec = bit := by decide
  unfold packComponents
  rw [hsign]
  apply BitVec.eq_of_getLsbD_eq
  intro i hi
  simp [unpackSign, unpackExponent, unpackMantissa]
  grind

/-- The exponent of a finite float is not the greatest. -/
theorem exponentOf_lt {b : BitVec 64}
    (h : (Float.Model.UnpackedFloat.unpack Format.binary64 b).isFinite = true) :
    (exponentOf b).toNat < 2047 := by
  have hne : exponentOf b ≠ -1#_ := by
    intro heq
    unfold Float.Model.UnpackedFloat.unpack at h
    simp only [heq, if_true] at h
    split at h <;> cases h
  have hlt : (exponentOf b).toNat < 2 ^ 11 := BitVec.isLt _
  have hother : (exponentOf b).toNat ≠ 2047 := fun heq => hne (BitVec.eq_of_toNat_eq heq)
  omega

/-! ### Taking apart and putting together

A subnormal float has the least exponent and no leading bit, and any other has one that is not
stored.  Putting the fields together undoes that in both cases.
-/

section Pack

variable {sign : Sign} {m : Nat}

/-- A significand without the leading bit is packed under the least exponent. -/
theorem pack_subnormal {e : Int} (hpos : 0 < m) (hm : m < 2 ^ 52) (he : e = -1074) :
    Float.Model.UnpackedFloat.pack Format.binary64 (.finite sign m e hpos)
      = packComponents Format.binary64 sign (0#11) (BitVec.ofNat 52 m) := by
  have hlog : m.log2 < 52 := (Nat.log2_lt (Nat.ne_of_gt hpos)).mpr hm
  subst he
  unfold Float.Model.UnpackedFloat.pack
  dsimp only
  rw [if_neg, if_neg]
  · show ¬ m.log2 + 1 = 53
    omega
  · decide

/-- A significand with the leading bit is packed without it. -/
theorem pack_normal {e : Int} {biased : Nat} (hpos : 0 < m) (hleast : 2 ^ 52 ≤ m) (hm : m < 2 ^ 53)
    (he : e = (biased : Int) - 1075) (hbiased : biased < 2047) :
    Float.Model.UnpackedFloat.pack Format.binary64 (.finite sign m e hpos)
      = packComponents Format.binary64 sign (BitVec.ofNat 11 biased) (BitVec.ofNat 52 m) := by
  have hlog : m.log2 = 52 := (Nat.log2_eq_iff (Nat.ne_of_gt hpos)).mpr ⟨hleast, hm⟩
  have hexponent : (e + Format.binary64.exponentBias + Format.binary64.mantissaBitsWithoutImplicit).toNat
      = biased := by
    subst he
    show ((biased : Int) - 1075 + 1023 + 52).toNat = biased
    omega
  unfold Float.Model.UnpackedFloat.pack
  dsimp only
  rw [hexponent, if_neg, if_pos]
  · rw [hlog]
    rfl
  · show ¬ 2 ^ 11 ≤ biased + 1
    omega

end Pack

/-- Bits that have been taken apart are put together again. -/
theorem pack_unpack {b : BitVec 64}
    (h : (Float.Model.UnpackedFloat.unpack Format.binary64 b).isFinite = true) :
    Float.Model.UnpackedFloat.pack Format.binary64 (Float.Model.UnpackedFloat.unpack Format.binary64 b)
      = b := by
  have hbound := exponentOf_lt h
  have hfields := packComponents_fields b
  have hmantissa : (mantissaOf b).toNat < 2 ^ 52 := BitVec.isLt _
  have hgreatest : exponentOf b ≠ -1#11 := by
    intro heq
    rw [heq] at hbound
    exact absurd hbound (by decide)
  unfold Float.Model.UnpackedFloat.unpack
  dsimp only
  rw [if_neg hgreatest]
  split
  · next hleast =>
    have hzero : exponentOf b = 0#11 := hleast
    rw [hzero] at hfields
    split
    · next hnone =>
      rw [show mantissaOf b = 0#52 from hnone] at hfields
      exact hfields
    · next hsome =>
      refine (pack_subnormal _ hmantissa ?_).trans ?_
      · show ((exponentOf b).toNat : Int) - (1023 + 52) + 1 = -1074
        rw [hzero]
        rfl
      · rw [BitVec.ofNat_toNat, BitVec.setWidth_eq]
        exact hfields
  · next hnormal =>
    have hvalue : (1#1 ++ mantissaOf b).toNat = 2 ^ 52 + (mantissaOf b).toNat := by
      rw [BitVec.toNat_append, ← Nat.shiftLeft_add_eq_or_of_lt hmantissa]
      rfl
    have hlow : BitVec.ofNat 52 (1#1 ++ mantissaOf b).toNat = mantissaOf b := by
      refine BitVec.eq_of_toNat_eq ?_
      rw [hvalue, BitVec.toNat_ofNat, Nat.add_mod_left, Nat.mod_eq_of_lt hmantissa]
    refine (pack_normal (m := (1#1 ++ mantissaOf b).toNat) _ (by omega) (by omega) rfl hbound).trans ?_
    rw [hlow, BitVec.ofNat_toNat, BitVec.setWidth_eq]
    exact hfields

/-- **The bits of a finite float make up the float.** -/
theorem ofBits_toBits {x : Float} (h : x.isFinite = true) : Float.ofBits x.toBits = x := by
  obtain ⟨⟨bits, valid⟩⟩ := x
  have hpack : Float.Model.UnpackedFloat.pack Format.binary64
      (Float.Model.UnpackedFloat.unpack Format.binary64 bits.toBitVec) = bits.toBitVec := pack_unpack h
  show Float.ofModel ⟨UInt64.ofBitVec (Float.Model.UnpackedFloat.pack Format.binary64
    (Float.Model.UnpackedFloat.unpack Format.binary64 bits.toBitVec)), _⟩ = _
  congr

theorem isNaN_of_isFinite {x : Float} (h : x.isFinite = true) : x.isNaN = false := by
  have hmodel : (x.toModel.unpack).isFinite = true := h
  show (x.toModel.unpack).isNaN = false
  cases hunpack : x.toModel.unpack with
  | notANumber => rw [hunpack] at hmodel; cases hmodel
  | _ => rfl

theorem isInf_of_isFinite {x : Float} (h : x.isFinite = true) : x.isInf = false := by
  have hmodel : (x.toModel.unpack).isFinite = true := h
  show (x.toModel.unpack).isInf = false
  cases hunpack : x.toModel.unpack with
  | infinity => rw [hunpack] at hmodel; cases hmodel
  | _ => rfl

/-! ### Magnitudes

Without its sign a float is a number that counts the floats from zero on.  That is how rounding
finds the next float, even across a power of two.
-/

/-- The number of a magnitude among all of them. -/
def Binary.bits (b : Binary) : Nat :=
  (b.exponent - leastExponent).toNat * leadingBit + b.significand

/-- What the magnitude of a float is like. -/
structure Binary.Valid (b : Binary) : Prop where
  least : leastExponent ≤ b.exponent
  small : b.significand < 2 * leadingBit
  normal : b.exponent = leastExponent ∨ leadingBit ≤ b.significand
  narrow : b.narrowBelow = true ↔ b.significand = leadingBit ∧ leastExponent < b.exponent
  finite : b.bits < infinityBits

theorem leadingBit_eq : leadingBit = 4503599627370496 := rfl

theorem valid_ofFloat {x : Float} (h : x.isFinite = true) : (Binary.ofFloat x).Valid := by
  have hexponent := exponentOf_lt (b := x.toBits.toBitVec) h
  rw [toNat_exponentOf] at hexponent
  have hbiased : x.toBits.toNat / leadingBit % 0x800 < 2047 := hexponent
  have hfraction : x.toBits.toNat % leadingBit < leadingBit := Nat.mod_lt _ (by decide)
  clear hexponent
  unfold Binary.ofFloat
  dsimp only
  generalize x.toBits.toNat / leadingBit % 0x800 = biased at hbiased ⊢
  generalize x.toBits.toNat % leadingBit = fraction at hfraction ⊢
  rw [leadingBit_eq] at hfraction
  split
  · refine ⟨Int.le_refl _, ?_, Or.inl rfl, ⟨nofun, fun hn => absurd hn.2 (Int.lt_irrefl _)⟩, ?_⟩ <;>
      simp only [Binary.bits, leadingBit_eq, leastExponent, infinityBits] <;> omega
  · next hne =>
    refine ⟨?_, ?_, Or.inr ?_, ?_, ?_⟩ <;>
      simp only [Binary.bits, leadingBit_eq, leastExponent, infinityBits, Bool.and_eq_true,
        beq_iff_eq, bne_iff_ne] <;> omega

/-- The bits of a float are its sign and the number of its magnitude. -/
theorem toNat_toBits (x : Float) :
    x.toBits.toNat = (if isNegative x then signBit else 0) + (Binary.ofFloat x).bits := by
  have hlt : x.toBits.toNat < 2 ^ 64 := x.toBits.toNat_lt
  unfold isNegative Binary.ofFloat
  dsimp only
  generalize x.toBits.toNat = bits at hlt ⊢
  simp only [leadingBit_eq, signBit, leastExponent]
  by_cases hsign : 0x8000000000000000 ≤ bits <;>
    by_cases hbiased : bits / 4503599627370496 % 2048 = 0 <;>
      simp only [hsign, hbiased, decide_true, decide_false, if_true, if_false, Binary.bits, leadingBit_eq,
        leastExponent, Bool.false_eq_true] <;> omega

end GraphSchema.Decimal
