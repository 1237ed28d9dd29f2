/-
Integers as floats are written so that they are read back.

An integer of 64 bits is rounded to a float of at least one and at most two to the power of 63.
The decimal of such a float has at most 19 digits in front of its point, so the only exponents it
is written with are 16, 17 and 18, and a numeral may end with any of these.

An integer that is a default of type `Float` is written as the float that it is rounded to.  Such
a default always comes back (`legible_ofInteger`), which is not so of every float.
-/
import GraphSchema.Proofs.Decimal.ReadBack

namespace GraphSchema.Decimal

open Float.Model (Format UnpackedFloat)
open Numeral

/-! ### Rounding -/

/-- A quotient is rounded within the whole numbers around it. -/
theorem roundEven_between {above below least most : ℕ} (hbelow : 0 < below) (hleast : least * below ≤ above)
    (hmost : above < most * below) : least ≤ roundEven above below ∧ roundEven above below ≤ most := by
  have hleast : least ≤ above / below := (Nat.le_div_iff_mul_le hbelow).mpr hleast
  have hmost : above / below < most := (Nat.div_lt_iff_lt_mul hbelow).mpr hmost
  unfold roundEven
  dsimp only
  split <;> omega

/-- The bits of the float nearest to an integer lie between those of one and of two to the power
of 63. -/
theorem nearestBits_between {n : ℕ} (hpos : n ≠ 0) (hle : n ≤ 2 ^ 63) :
    1023 * leadingBit ≤ nearestBits n 1 ∧ nearestBits n 1 ≤ 1086 * leadingBit := by
  rcases Nat.lt_or_eq_of_le hle with hlt | rfl
  · obtain ⟨hleast, hbelow, habove⟩ := lastPlace_spec hpos Nat.one_ne_zero
    have hscaled := scaled_quotient n 1 (lastPlace n 1)
    have hden : 0 < (scaled n 1 (lastPlace n 1)).2 := scaled_pos Nat.one_pos _
    rw [Nat.cast_one, div_one] at hbelow habove hscaled
    have hone : (1 : ℚ) ≤ n := by exact_mod_cast Nat.pos_of_ne_zero hpos
    have hplace : -53 < lastPlace n 1 := by
      have hpower : (2 : ℚ) ^ (0 : ℤ) < 2 ^ (lastPlace n 1 + 53) := by
        rw [zpow_zero]
        exact hone.trans_lt hbelow
      have := (zpow_lt_zpow_iff_right₀ (by norm_num)).mp hpower
      omega
    have habove : (2 : ℚ) ^ (lastPlace n 1 + 52) ≤ n := by
      refine habove.resolve_left fun heq => ?_
      rw [heq, leastExponent] at hplace
      omega
    have hsmall : lastPlace n 1 < 11 := by
      have hnat : (n : ℚ) < 2 ^ (63 : ℤ) := by exact_mod_cast hlt
      have := (zpow_lt_zpow_iff_right₀ (by norm_num)).mp (habove.trans_lt hnat)
      omega
    have hquotient : ((scaled n 1 (lastPlace n 1)).1 : ℚ) / (scaled n 1 (lastPlace n 1)).2
        * 2 ^ lastPlace n 1 = n := by
      rw [hscaled, div_mul_cancel₀ _ (two_zpow_pos _).ne']
    have hround : leadingBit ≤ roundEven (scaled n 1 (lastPlace n 1)).1 (scaled n 1 (lastPlace n 1)).2 ∧
        roundEven (scaled n 1 (lastPlace n 1)).1 (scaled n 1 (lastPlace n 1)).2 ≤ 2 * leadingBit := by
      have hcast : (0 : ℚ) < (scaled n 1 (lastPlace n 1)).2 := by exact_mod_cast hden
      have hpower := two_zpow_pos (lastPlace n 1)
      have hleastPower : (2 : ℚ) ^ (lastPlace n 1 + 52) = 2 ^ 52 * 2 ^ lastPlace n 1 := two_zpow_add _ 52
      have hmostPower : (2 : ℚ) ^ (lastPlace n 1 + 53) = 2 ^ 53 * 2 ^ lastPlace n 1 := two_zpow_add _ 53
      rw [hleastPower, ← hquotient, mul_le_mul_iff_left₀ hpower, le_div_iff₀ hcast] at habove
      rw [hmostPower, ← hquotient, mul_lt_mul_iff_left₀ hpower, div_lt_iff₀ hcast] at hbelow
      exact roundEven_between hden (by exact_mod_cast habove) (by exact_mod_cast hbelow)
    unfold nearestBits
    dsimp only
    generalize roundEven (scaled n 1 (lastPlace n 1)).1 (scaled n 1 (lastPlace n 1)).2 = rounded at hround ⊢
    generalize lastPlace n 1 = place at hplace hsmall ⊢
    rw [leadingBit_eq] at hround ⊢
    simp only [leastExponent, infinityBits]
    omega
  · decide +kernel

/-! ### Bits -/

/-- Bits whose exponent is not the greatest are those of a finite float. -/
theorem isFinite_unpack {b : BitVec 64} (h : (exponentOf b).toNat < 2047) :
    (UnpackedFloat.unpack Format.binary64 b).isFinite = true := by
  have hgreatest : exponentOf b ≠ -1#11 := by
    intro heq
    rw [heq] at h
    exact absurd h (by decide)
  unfold UnpackedFloat.unpack
  dsimp only
  rw [if_neg hgreatest]
  split
  · split <;> rfl
  · rfl

/-- The bits of a finite float are those that it is made from. -/
theorem toBits_ofBits {b : UInt64} (h : (exponentOf b.toBitVec).toNat < 2047) :
    (Float.ofBits b).isFinite = true ∧ (Float.ofBits b).toBits = b := by
  have hpack := pack_unpack (isFinite_unpack h)
  constructor
  · show (UnpackedFloat.unpack Format.binary64
      (UnpackedFloat.pack Format.binary64 (UnpackedFloat.unpack Format.binary64 b.toBitVec))).isFinite = true
    rw [hpack]
    exact isFinite_unpack h
  · show UInt64.ofBitVec
      (UnpackedFloat.pack Format.binary64 (UnpackedFloat.unpack Format.binary64 b.toBitVec)) = b
    rw [hpack]

/-- The float of a sign and a magnitude is finite, and of that magnitude. -/
theorem ofBits_signed {negative : Bool} {magnitude : ℕ} (h : magnitude < infinityBits) :
    (Float.ofBits (UInt64.ofNat (if negative then signBit + magnitude else magnitude))).isFinite = true ∧
      (Binary.ofFloat (Float.ofBits (UInt64.ofNat (if negative then signBit + magnitude else magnitude)))).bits
        = magnitude := by
  generalize hb : UInt64.ofNat (if negative then signBit + magnitude else magnitude) = b
  have htoNat : b.toNat = if negative then signBit + magnitude else magnitude := by
    rw [← hb, UInt64.toNat_ofNat']
    simp only [infinityBits] at h
    simp only [signBit]
    split <;> omega
  have hexponent : (exponentOf b.toBitVec).toNat < 2047 := by
    rw [toNat_exponentOf, UInt64.toNat_toBitVec, htoNat]
    simp only [infinityBits] at h
    simp only [signBit]
    split <;> omega
  obtain ⟨hfinite, hbits⟩ := toBits_ofBits hexponent
  refine ⟨hfinite, ?_⟩
  have hsum := toNat_toBits (Float.ofBits b)
  have hvalid := (valid_ofFloat hfinite).finite
  have hsign : isNegative (Float.ofBits b) = negative := by
    unfold isNegative
    rw [hbits, htoNat]
    simp only [infinityBits] at h
    simp only [signBit]
    cases negative <;> simp only [Bool.false_eq_true, if_false, if_true, decide_eq_false_iff_not, decide_eq_true_eq] <;>
      omega
  rw [hbits, htoNat, hsign] at hsum
  cases negative <;> simp only [Bool.false_eq_true, if_false, if_true] at hsum <;> omega

/-! ### Decimals -/

/-- What belongs to the interval of a float from one to two to the power of 63. -/
theorem Binary.value_between {b : Binary} (hvalid : b.Valid) (hleast : 1023 * leadingBit ≤ b.bits)
    (hmost : b.bits ≤ 1086 * leadingBit) {v : ℚ} (h : b.Holds v) :
    (10 : ℚ) ^ (-1 : ℤ) < v ∧ v < 10 ^ (19 : ℤ) := by
  have hsmall := hvalid.small
  have hnormal : leadingBit ≤ b.significand := by
    refine hvalid.normal.resolve_left fun heq => ?_
    rw [bits, heq, leadingBit_eq] at hleast
    rw [leadingBit_eq] at hsmall
    omega
  have hexponent : -52 ≤ b.exponent ∧
      (b.exponent ≤ 10 ∨ b.exponent = 11 ∧ b.significand = leadingBit) := by
    have hleastExponent := hvalid.least
    rw [bits, leadingBit_eq, leastExponent] at hleast hmost
    rw [leadingBit_eq] at hsmall hnormal ⊢
    rw [leastExponent] at hleastExponent
    omega
  have hpos : 0 < b.significand := (Nat.pow_pos (by decide)).trans_le hnormal
  have hnormal : (2 ^ 52 : ℚ) ≤ b.significand := by
    rw [leadingBit_eq] at hnormal
    exact_mod_cast hnormal
  have hsmall : (b.significand : ℚ) + 1 ≤ 2 ^ 53 := by
    rw [leadingBit_eq] at hsmall
    exact_mod_cast hsmall
  constructor
  · have hlow : (2 ^ 53 : ℚ) ≤ b.low := by
      rw [cast_low hpos]
      split <;> linarith
    calc (10 : ℚ) ^ (-1 : ℤ) < 2 ^ 53 * 2 ^ (-54 : ℤ) := by norm_num
      _ ≤ b.low * 2 ^ (b.exponent - 2) :=
        mul_le_mul hlow (two_zpow_le (by omega)) (two_zpow_pos _).le (by positivity)
      _ ≤ v := h.low
  · rcases hexponent.2 with hexponent | ⟨hexponent, hsignificand⟩
    · calc v ≤ b.high * 2 ^ (b.exponent - 2) := h.high
        _ ≤ 2 ^ 55 * 2 ^ (8 : ℤ) := by
          refine mul_le_mul ?_ (two_zpow_le (by omega)) (two_zpow_pos _).le (by positivity)
          rw [cast_high]
          linarith
        _ < 10 ^ (19 : ℤ) := by norm_num
    · calc v ≤ b.high * 2 ^ (b.exponent - 2) := h.high
        _ = (4 * 2 ^ 52 + 2) * 2 ^ (9 : ℤ) := by
          rw [cast_high, hsignificand, hexponent, leadingBit_eq]
          norm_num
        _ < 10 ^ (19 : ℤ) := by norm_num

/-- The place of the point of such a decimal. -/
theorem place_between {c : ℕ} {k : ℤ} (hc : 0 < c) (hlow : (10 : ℚ) ^ (-1 : ℤ) < c * 10 ^ k)
    (hhigh : (c : ℚ) * 10 ^ k < 10 ^ (19 : ℤ)) :
    0 ≤ (Nat.toDigits 10 c).length + k ∧ (Nat.toDigits 10 c).length + k ≤ 19 := by
  have hlength : 0 < (Nat.toDigits 10 c).length := Nat.length_toDigits_pos
  have hten : (0 : ℚ) < 10 ^ k := zpow_pos (by norm_num) k
  have hadd : ∀ n : ℕ, (10 : ℚ) ^ ((n : ℤ) + k) = 10 ^ n * 10 ^ k := fun n => by
    rw [zpow_add₀ (by norm_num), zpow_natCast]
  constructor
  · have hmost : (c : ℚ) < 10 ^ (Nat.toDigits 10 c).length := by
      exact_mod_cast (Nat.length_toDigits_le_iff (by decide) hlength).mp (le_refl _)
    have hless : (10 : ℚ) ^ (-1 : ℤ) < 10 ^ ((Nat.toDigits 10 c).length + k) := by
      rw [hadd]
      exact hlow.trans (mul_lt_mul_of_pos_right hmost hten)
    have := (zpow_lt_zpow_iff_right₀ (by norm_num)).mp hless
    omega
  · obtain ⟨less, hless⟩ := Nat.exists_eq_succ_of_ne_zero hlength.ne'
    have hleast : (10 ^ less : ℚ) ≤ c := by
      rcases Nat.eq_zero_or_pos less with rfl | hpos
      · exact_mod_cast hc
      · have hmore := (Nat.length_toDigits_le_iff (b := 10) (n := c) (by decide) hpos).not.mp (by omega)
        exact_mod_cast not_lt.mp hmore
    have hbelow : (10 : ℚ) ^ ((less : ℤ) + k) < 10 ^ (19 : ℤ) := by
      rw [hadd]
      exact (mul_le_mul_of_nonneg_right hleast hten.le).trans_lt hhigh
    have := (zpow_lt_zpow_iff_right₀ (by norm_num)).mp hbelow
    omega

/-! ### Texts

The text is one that a numeral may have.  What could go wrong is an exponent that begins with a
nine, and no float that an integer is rounded to has one.
-/

/-- Behind the only `e` of a text stands what follows it. -/
theorem not_infix_of_not_mem {text rest : List Char} (htext : 'e' ∉ text) (hrest : 'e' ∉ rest)
    (hnine : rest.head? ≠ some '9') : ¬ ['e', '9'] <:+: text ++ 'e' :: rest := by
  rintro ⟨before, after, heq⟩
  rw [List.append_assoc] at heq
  rcases List.append_eq_append_iff.mp heq with ⟨middle, rfl, hmiddle⟩ | ⟨middle, rfl, hmiddle⟩
  · cases middle with
    | nil =>
      obtain ⟨-, rfl⟩ := List.cons.inj hmiddle
      exact hnine rfl
    | cons c middle =>
      obtain ⟨rfl, -⟩ := List.cons.inj hmiddle
      exact htext (List.mem_append_right _ List.mem_cons_self)
  · cases middle with
    | nil =>
      obtain ⟨-, rfl⟩ := List.cons.inj hmiddle
      exact hnine rfl
    | cons c middle =>
      obtain ⟨-, rfl⟩ := List.cons.inj hmiddle
      exact hrest (List.mem_append_right _ List.mem_cons_self)

theorem Numeral.AllDigits.not_mem {text : List Char} (h : AllDigits text) : 'e' ∉ text :=
  fun he => absurd (h 'e' he) (by decide)

/-- The text of a decimal that is neither small nor large has no exponent that begins with a
nine. -/
theorem not_infix_magnitudeText {b : Binary} (hc : 0 < (shortest b).1)
    (hlow : 0 ≤ (Nat.toDigits 10 (shortest b).1).length + (shortest b).2)
    (hhigh : (Nat.toDigits 10 (shortest b).1).length + (shortest b).2 ≤ 19) :
    ¬ ['e', '9'] <:+: magnitudeText b := by
  unfold magnitudeText
  generalize shortest b = decimal at hc hlow hhigh ⊢
  obtain ⟨c, k⟩ := decimal
  dsimp only at hc hlow hhigh ⊢
  generalize ((Nat.toDigits 10 c).length : ℤ) + k = place at hlow hhigh ⊢
  split
  · obtain ⟨whole, fraction, heq, hwhole, -, hfraction, -⟩ := exists_positional hc place
    rw [heq]
    intro hinfix
    have hmem : 'e' ∈ whole ++ '.' :: fraction := hinfix.subset List.mem_cons_self
    rcases List.mem_append.mp hmem with hmem | hmem
    · exact hwhole.not_mem hmem
    · exact hfraction.not_mem ((List.mem_cons.mp hmem).resolve_left (by decide))
  · next hfar =>
    unfold leastPlace greatestPlace at hfar
    have hdigits := allDigits_toDigits c
    refine not_infix_of_not_mem (fun hmem => ?_) ?_ ?_
    · rcases List.mem_append.mp hmem with hmem | hmem
      · exact hdigits.not_mem (List.mem_of_mem_take hmem)
      · split at hmem
        · cases hmem
        · exact hdigits.not_mem (List.mem_of_mem_drop ((List.mem_cons.mp hmem).resolve_left (by decide)))
    all_goals
      obtain rfl | rfl | rfl : place = 17 ∨ place = 18 ∨ place = 19 := by omega
      all_goals decide

theorem not_infix_unsignedText {x : Float} (hfinite : x.isFinite = true)
    (hleast : 1023 * leadingBit ≤ (Binary.ofFloat x).bits) (hmost : (Binary.ofFloat x).bits ≤ 1086 * leadingBit) :
    ¬ ['e', '9'] <:+: unsignedText x := by
  have hvalid := valid_ofFloat hfinite
  have hpos : 0 < (Binary.ofFloat x).significand := by
    by_contra hzero
    have hnormal := hvalid.normal
    rw [leadingBit_eq] at hnormal
    rw [Binary.bits, leadingBit_eq] at hleast
    omega
  obtain ⟨hholds, -⟩ := holds_shortest hvalid.least hpos
  have hc := Nat.pos_of_ne_zero (least_of_holds hvalid hpos hholds).1
  obtain ⟨hlow, hhigh⟩ := (Binary.value_between hvalid hleast hmost hholds)
  obtain ⟨hplaceLow, hplaceHigh⟩ := place_between hc hlow hhigh
  unfold unsignedText
  rw [if_neg hpos.ne']
  exact not_infix_magnitudeText hc hplaceLow hplaceHigh

/-- The float of an integer has no magnitude but zero and those from one to two to the power of 63. -/
theorem bits_ofInteger (n : Int64) : (ofInteger n).isFinite = true ∧ ((Binary.ofFloat (ofInteger n)).bits = 0 ∨
    1023 * leadingBit ≤ (Binary.ofFloat (ofInteger n)).bits ∧ (Binary.ofFloat (ofInteger n)).bits ≤ 1086 * leadingBit) := by
  have hn : n.toInt.natAbs ≤ 2 ^ 63 := by
    have := n.le_toInt
    have := n.toInt_lt
    omega
  unfold ofInteger nearest
  dsimp only
  by_cases hzero : n.toInt.natAbs = 0
  · rw [if_pos (Or.inl hzero)]
    obtain ⟨hfinite, hbits⟩ := ofBits_signed (by decide : 0 < infinityBits)
    exact ⟨hfinite, Or.inl hbits⟩
  · have hbetween := nearestBits_between hzero hn
    have hsame : nearestBits (n.toInt.natAbs * Nat.pow 10 (0 : ℤ).toNat) (Nat.pow 10 (-(0 : ℤ)).toNat)
        = nearestBits n.toInt.natAbs 1 := congrArg (nearestBits · 1) (Nat.mul_one _)
    rw [if_neg (by omega : ¬ (n.toInt.natAbs = 0 ∨ (n.toInt.natAbs.log2 : ℤ) + 3 * 0 < -1200)),
      if_neg (by decide : ¬ (400 : ℤ) < 0), hsame]
    have hinfinity : nearestBits n.toInt.natAbs 1 < infinityBits := by
      rw [leadingBit_eq] at hbetween
      unfold infinityBits
      omega
    obtain ⟨hfinite, hbits⟩ := ofBits_signed hinfinity
    exact ⟨hfinite, Or.inr (by rwa [hbits])⟩

/-- **An integer as a float is written so that it is read back.** -/
theorem legible_ofInteger (n : Int64) : Legible (ofInteger n) := by
  obtain ⟨hfinite, hbits⟩ := bits_ofInteger n
  have hunsigned : ¬ ['e', '9'] <:+: unsignedText (ofInteger n) := by
    rcases hbits with hzero | ⟨hleast, hmost⟩
    · have hsignificand : (Binary.ofFloat (ofInteger n)).significand = 0 := (Nat.add_eq_zero_iff.mp hzero).2
      unfold unsignedText
      rw [if_pos hsignificand]
      decide
    · exact not_infix_unsignedText hfinite hleast hmost
  refine ⟨hfinite, fun hinfix => ?_⟩
  rw [toList_floatText hfinite] at hinfix
  split at hinfix
  · rcases List.infix_cons_iff.mp hinfix with hprefix | hinfix
    · exact absurd (List.cons_prefix_cons.mp hprefix).1 (by decide)
    · exact hunsigned hinfix
  · exact hunsigned hinfix

end GraphSchema.Decimal
