/-
The text of a float reads back.

Wherever the point stands, and whether or not a power of ten follows, the text of a float names
the shortest decimal of the float, and a decimal in the interval of a float is read as the float.

An exponent that begins with a nine is none that the reader accepts, and a float that is not
finite is written as a name.  The floats that are left are `Legible`, and these come back
(`read_floatText`).
-/
import Mathlib.Tactic.Ring
import GraphSchema.Decimal.Notation
import GraphSchema.Proofs.Decimal.Digits
import GraphSchema.Proofs.Decimal.Nearest

namespace GraphSchema.Decimal

open Numeral

/-! ### Numerals -/

section Numerals

variable {negative : Bool} {whole fraction exponent : List Char}

/-- A whole part with a fraction behind the point. -/
theorem readUnsigned_point (hwhole : AllDigits whole) (hisWhole : isWhole whole = true)
    (hfraction : AllDigits fraction) (hne : fraction ≠ []) :
    readUnsigned negative (whole ++ '.' :: fraction)
      = some (.float (nearest negative (digitsValue (whole ++ fraction)) (-fraction.length))) := by
  have hpoint : ∀ c ∈ ('.' :: fraction).head?, c.isDigit = false := by
    intro c hc
    obtain rfl := Option.some.inj hc
    rfl
  have htake : fraction.takeWhile Char.isDigit = fraction := List.takeWhile_eq_self_iff.mpr hfraction
  have hdrop : fraction.dropWhile Char.isDigit = [] := List.dropWhile_eq_nil_iff.mpr hfraction
  unfold readUnsigned
  dsimp only
  rw [takeWhile_digits hwhole hpoint, dropWhile_digits hwhole hpoint, if_pos hisWhole]
  simp only [afterWhole, htake, hdrop, zero_sub]
  exact if_neg (by simpa using hne)

/-- A whole part, a fraction and a power of ten. -/
theorem readUnsigned_scientific (hwhole : AllDigits whole) (hisWhole : isWhole whole = true)
    (hfraction : AllDigits fraction) {n : ℤ} (hexponent : exponent? exponent = some n) :
    readUnsigned negative
        (whole ++ (if fraction.isEmpty then [] else '.' :: fraction) ++ 'e' :: exponent)
      = some (.float (nearest negative (digitsValue (whole ++ fraction)) (n - fraction.length))) := by
  have hmark : ∀ c ∈ ('e' :: exponent).head?, c.isDigit = false := by
    intro c hc
    obtain rfl := Option.some.inj hc
    rfl
  unfold readUnsigned
  dsimp only
  cases fraction with
  | nil =>
    rw [List.isEmpty_nil, if_pos rfl, List.append_nil, takeWhile_digits hwhole hmark,
      dropWhile_digits hwhole hmark, if_pos hisWhole]
    simp [afterWhole, hexponent]
  | cons first others =>
    have hpoint : ∀ c ∈ ('.' :: (first :: others ++ 'e' :: exponent)).head?, c.isDigit = false := by
      intro c hc
      obtain rfl := Option.some.inj hc
      rfl
    rw [List.isEmpty_cons, if_neg Bool.false_ne_true, List.append_assoc, List.cons_append,
      takeWhile_digits hwhole hpoint, dropWhile_digits hwhole hpoint, if_pos hisWhole]
    simp only [afterWhole, takeWhile_digits hfraction hmark, dropWhile_digits hfraction hmark,
      hexponent]
    rfl

theorem digits?_toDigits (m : ℕ) : digits? (Nat.toDigits 10 m) = some m := by
  unfold digits?
  rw [if_pos, digitsValue_toDigits]
  rw [Bool.and_eq_true, List.all_eq_true]
  exact ⟨by simp, allDigits_toDigits m⟩

theorem between_of_isDigit {c : Char} (hdigit : c.isDigit = true) (hzero : c ≠ '0') (hnine : c ≠ '9') :
    '1' ≤ c ∧ c ≤ '8' := by
  rw [Char.isDigit_iff_toNat] at hdigit
  change 48 ≤ c.toNat ∧ c.toNat ≤ 57 at hdigit
  rw [ne_eq, ← Char.toNat_inj] at hzero hnine
  change ¬c.toNat = 48 at hzero
  change ¬c.toNat = 57 at hnine
  rw [Char.le_def, Char.le_def, UInt32.le_iff_toNat_le, UInt32.le_iff_toNat_le]
  change 49 ≤ c.toNat ∧ c.toNat ≤ 56
  omega

/-- An exponent without a sign is the number that its digits name. -/
theorem exponent?_of_between {first : Char} (hfirst : '1' ≤ first ∧ first ≤ '8') (others : List Char) :
    exponent? (first :: others) = (digits? (first :: others)).map fun n => (n : ℤ) := by
  unfold exponent?
  split
  · next heq => cases heq
  · next heq =>
    obtain ⟨rfl, rfl⟩ := List.cons.inj heq
    exact absurd hfirst (by decide)
  · next heq =>
    obtain ⟨rfl, rfl⟩ := List.cons.inj heq
    exact absurd hfirst (by decide)
  · next heq =>
    obtain ⟨rfl, rfl⟩ := List.cons.inj heq
    rw [if_pos hfirst]

/-- An exponent that does not begin with a nine is read back. -/
theorem exponent?_toString {n : ℤ} (hne : n ≠ 0) (hnine : (toString n).toList.head? ≠ some '9') :
    exponent? (toString n).toList = some n := by
  rw [toList_toString] at hnine ⊢
  split
  · next h =>
    rw [if_pos h] at hnine
    have hzero := head?_toDigits (n := n.toNat) (by omega)
    have hall := allDigits_toDigits n.toNat
    have hread := digits?_toDigits n.toNat
    obtain ⟨first, others, heq⟩ := List.exists_cons_of_ne_nil (Nat.toDigits_ne_nil (n := n.toNat) (b := 10))
    rw [heq] at hnine hzero hall hread ⊢
    have hfirst := between_of_isDigit (hall first List.mem_cons_self) (fun h => hzero (congrArg some h))
      fun h => hnine (congrArg some h)
    rw [exponent?_of_between hfirst, hread]
    exact congrArg some (Int.toNat_of_nonneg h)
  · next h =>
    simp only [exponent?, digits?_toDigits]
    show some (-((-n).toNat : ℤ)) = some n
    rw [Int.toNat_of_nonneg (by omega), neg_neg]

end Numerals

/-! ### Digits with a point

Where the point stands is a matter of the number of digits.  In each case the text names the same
decimal, zeros filled in.
-/

/-- A number with its point in place: some digits in front of it and some behind, which name the
number. -/
theorem exists_positional {c : ℕ} (hc : 0 < c) (place : ℤ) :
    ∃ whole fraction, positional (Nat.toDigits 10 c) place = whole ++ '.' :: fraction ∧
      AllDigits whole ∧ isWhole whole = true ∧ AllDigits fraction ∧ fraction ≠ [] ∧
      (digitsValue (whole ++ fraction) : ℚ) * 10 ^ (-fraction.length : ℤ)
        = c * 10 ^ (place - (Nat.toDigits 10 c).length) := by
  have hvalue := digitsValue_toDigits c
  have hall := allDigits_toDigits c
  have hne : Nat.toDigits 10 c ≠ [] := Nat.toDigits_ne_nil
  have hhead := head?_toDigits hc
  unfold positional
  generalize Nat.toDigits 10 c = digits at hvalue hall hne hhead ⊢
  split
  · next hplace =>
    refine ⟨['0'], List.replicate (-place).toNat '0' ++ digits, rfl, allDigits_zeros 1, rfl,
      (allDigits_zeros _).append hall, by simp [hne], ?_⟩
    have hlength : (-(List.replicate (-place).toNat '0' ++ digits).length : ℤ) = place - digits.length := by
      rw [List.length_append, List.length_replicate]
      omega
    rw [hlength, digitsValue_append, digitsValue_append, digitsValue_zeros, hvalue]
    simp [digitsValue]
  · split
    · next hplace hfew =>
      refine ⟨digits ++ List.replicate (place.toNat - digits.length) '0', ['0'], rfl,
        hall.append (allDigits_zeros _), isWhole_of_head?_ne (by simp [hne]) ?_, allDigits_zeros 1,
        by simp, ?_⟩
      · obtain ⟨first, others, rfl⟩ := List.exists_cons_of_ne_nil hne
        exact hhead
      · have hlength : place - digits.length = (place.toNat - digits.length : ℕ) := by omega
        rw [hlength, digitsValue_append, digitsValue_append, digitsValue_zeros, hvalue,
          List.length_replicate, zpow_natCast]
        norm_num [digitsValue]
        ring
    · next hplace hmany =>
      refine ⟨digits.take place.toNat, digits.drop place.toNat, rfl,
        fun d hd => hall d (List.mem_of_mem_take hd), isWhole_of_head?_ne ?_ ?_,
        fun d hd => hall d (List.mem_of_mem_drop hd), ?_, ?_⟩
      · rw [ne_eq, List.take_eq_nil_iff, not_or]
        exact ⟨by omega, hne⟩
      · rw [List.head?_take, if_neg (by omega)]
        exact hhead
      · rw [ne_eq, List.drop_eq_nil_iff]
        omega
      · have hlength : (-(digits.drop place.toNat).length : ℤ) = place - digits.length := by
          rw [List.length_drop]
          omega
        rw [List.take_append_drop, hvalue, hlength]

/-! ### Floats -/

/-- The float is written as a numeral that a reader takes: it is finite, and its exponent
does not begin with a nine. -/
structure Legible (x : Float) : Prop where
  finite : x.isFinite = true
  exponent : ¬ ['e', '9'] <:+: (floatText x).toList

instance (x : Float) : Decidable (Legible x) :=
  decidable_of_iff (x.isFinite = true ∧ ¬ ['e', '9'] <:+: (floatText x).toList)
    ⟨fun h => ⟨h.1, h.2⟩, fun h => ⟨h.1, h.2⟩⟩

/-- The text of a float without its sign. -/
def unsignedText (x : Float) : List Char :=
  if (Binary.ofFloat x).significand = 0 then ['0', '.', '0'] else magnitudeText (Binary.ofFloat x)

variable {x : Float}

theorem toList_floatText (h : x.isFinite = true) :
    (floatText x).toList = if isNegative x then '-' :: unsignedText x else unsignedText x := by
  unfold floatText unsignedText
  rw [isNaN_of_isFinite h, isInf_of_isFinite h, if_neg Bool.false_ne_true]
  dsimp only
  rw [if_neg Bool.false_ne_true, String.toList_ofList]

/-- A decimal that a float is read from, in a notation that numerals have. -/
inductive Notated (x : Float) : List Char → Prop
  | point {whole fraction : List Char} (hwhole : AllDigits whole) (hisWhole : isWhole whole = true)
      (hfraction : AllDigits fraction) (hne : fraction ≠ [])
      (hx : nearest (isNegative x) (digitsValue (whole ++ fraction)) (-fraction.length) = x) :
      Notated x (whole ++ '.' :: fraction)
  | scientific {whole fraction : List Char} {n : ℤ} (hwhole : AllDigits whole)
      (hisWhole : isWhole whole = true) (hfraction : AllDigits fraction) (hn : n ≠ 0)
      (hx : nearest (isNegative x) (digitsValue (whole ++ fraction)) (n - fraction.length) = x) :
      Notated x (whole ++ (if fraction.isEmpty then [] else '.' :: fraction) ++ 'e' :: (toString n).toList)

/-- **A float is written as a decimal that is read as the float.** -/
theorem notated_unsignedText (h : x.isFinite = true) : Notated x (unsignedText x) := by
  unfold unsignedText
  split
  · next hzero =>
    have hdigits : AllDigits ['0'] := allDigits_zeros 1
    have hvalue : digitsValue (['0'] ++ ['0']) = 0 := rfl
    refine .point hdigits rfl hdigits (List.cons_ne_nil _ _) ?_
    rw [hvalue, nearest_zero h hzero]
  · next hne =>
    have hpos : 0 < (Binary.ofFloat x).significand := Nat.pos_of_ne_zero hne
    have hvalid := valid_ofFloat h
    obtain ⟨hholds, hgrid⟩ := holds_shortest hvalid.least hpos
    have hc := (least_of_holds hvalid hpos hholds).1
    unfold magnitudeText
    unfold coarsestGrid at hgrid
    generalize shortest (Binary.ofFloat x) = decimal at hholds hgrid hc ⊢
    obtain ⟨c, k⟩ := decimal
    dsimp only at hholds hgrid hc
    have hvalue := digitsValue_toDigits c
    have hlength : 0 < (Nat.toDigits 10 c).length := List.length_pos_of_ne_nil Nat.toDigits_ne_nil
    dsimp only
    split
    · obtain ⟨whole, fraction, heq, hwhole, hisWhole, hfraction, hne, hsame⟩ :=
        exists_positional (Nat.pos_of_ne_zero hc) ((Nat.toDigits 10 c).length + k)
      rw [heq]
      refine .point hwhole hisWhole hfraction hne (nearest_eq h hpos (by omega) ?_)
      rw [hsame, add_sub_cancel_left]
      exact hholds
    · next hfar =>
      unfold leastPlace greatestPlace at hfar
      refine .scientific (fun d hd => allDigits_toDigits c d (List.mem_of_mem_take hd)) ?_
        (fun d hd => allDigits_toDigits c d (List.mem_of_mem_drop hd)) (by omega) ?_
      · refine isWhole_of_head?_ne ?_ ?_
        · rw [ne_eq, List.take_eq_nil_iff, not_or]
          exact ⟨by decide, Nat.toDigits_ne_nil⟩
        · rw [List.head?_take, if_neg (by decide)]
          exact head?_toDigits (Nat.pos_of_ne_zero hc)
      · have hexponent : (Nat.toDigits 10 c).length + k - 1 - ((Nat.toDigits 10 c).drop 1).length = k := by
          rw [List.length_drop]
          omega
        rw [List.take_append_drop, hvalue, hexponent]
        exact nearest_eq h hpos (by omega) hholds

/-- The character occurs in numerals. -/
def isNumeralChar (c : Char) : Bool := c.isDigit || c == '.' || c == '-' || c == 'e'

theorem isNumeralChar_of_isDigit {c : Char} (h : c.isDigit = true) : isNumeralChar c = true := by
  unfold isNumeralChar
  rw [h]
  rfl

/-- An integer is written with such characters. -/
theorem isNumeralChar_of_mem_toString {n : ℤ} {c : Char} (hc : c ∈ (toString n).toList) :
    isNumeralChar c = true := by
  obtain ⟨first, digits, heq, hfirst, hdigits⟩ := exists_toString_eq n
  rw [heq] at hc
  rcases List.mem_cons.mp hc with rfl | hc
  · rw [Bool.or_eq_true] at hfirst
    unfold isNumeralChar
    rcases hfirst with h | h <;> rw [h] <;> simp
  · exact isNumeralChar_of_isDigit (hdigits c hc)

/-- A number is written with a digit first, and only such characters. -/
theorem Notated.characters {text : List Char} (h : Notated x text) :
    (∃ c rest, text = c :: rest ∧ c.isDigit = true) ∧ ∀ c ∈ text, isNumeralChar c = true := by
  have hfirst : ∀ {whole : List Char} (more : List Char), AllDigits whole → isWhole whole = true →
      ∃ c rest, whole ++ more = c :: rest ∧ c.isDigit = true := by
    intro whole more hwhole hisWhole
    cases whole with
    | nil => cases hisWhole
    | cons c rest => exact ⟨c, rest ++ more, rfl, hwhole c List.mem_cons_self⟩
  cases h with
  | point hwhole hisWhole hfraction =>
    refine ⟨hfirst _ hwhole hisWhole, ?_⟩
    simp only [List.forall_mem_append, List.forall_mem_cons]
    exact ⟨fun c hc => isNumeralChar_of_isDigit (hwhole c hc), rfl,
      fun c hc => isNumeralChar_of_isDigit (hfraction c hc)⟩
  | @scientific whole fraction n hwhole hisWhole hfraction =>
    refine ⟨?_, ?_⟩
    · rw [List.append_assoc]
      exact hfirst _ hwhole hisWhole
    · simp only [List.forall_mem_append, List.forall_mem_cons]
      refine ⟨⟨fun c hc => isNumeralChar_of_isDigit (hwhole c hc), ?_⟩, rfl,
        fun c hc => isNumeralChar_of_mem_toString hc⟩
      split
      · nofun
      · rw [List.forall_mem_cons]
        exact ⟨rfl, fun c hc => isNumeralChar_of_isDigit (hfraction c hc)⟩

theorem isNumeralChar_of_mem_floatText (h : x.isFinite = true) {c : Char}
    (hc : c ∈ (floatText x).toList) : isNumeralChar c = true := by
  obtain ⟨-, hall⟩ := (notated_unsignedText h).characters
  rw [toList_floatText h] at hc
  split at hc
  · rcases List.mem_cons.mp hc with rfl | hc
    · rfl
    · exact hall c hc
  · exact hall c hc

/-- A float is written with a digit or a sign first. -/
theorem exists_floatText_eq (h : x.isFinite = true) :
    ∃ c rest, (floatText x).toList = c :: rest ∧ (c.isDigit = true ∨ c = '-') := by
  obtain ⟨⟨c, rest, heq, hc⟩, -⟩ := (notated_unsignedText h).characters
  rw [toList_floatText h]
  split
  · exact ⟨'-', _, rfl, Or.inr rfl⟩
  · exact ⟨c, rest, heq, Or.inl hc⟩

/-- A number without its sign is read as the float, whose sign it is given. -/
theorem Notated.readUnsigned {text : List Char} (h : Notated x text)
    (hnine : ¬ ['e', '9'] <:+: text) : readUnsigned (isNegative x) text = some (.float x) := by
  cases h with
  | point hwhole hisWhole hfraction hne hx => rw [readUnsigned_point hwhole hisWhole hfraction hne, hx]
  | @scientific whole fraction n hwhole hisWhole hfraction hn hx =>
    rw [readUnsigned_scientific hwhole hisWhole hfraction (exponent?_toString hn ?_), hx]
    intro hhead
    obtain ⟨rest, hrest⟩ := List.head?_eq_some_iff.mp hhead
    refine hnine ⟨whole ++ if fraction.isEmpty then [] else '.' :: fraction, rest, ?_⟩
    rw [hrest, List.append_assoc]
    rfl

/-- **The text of a float reads back.** -/
theorem read_floatText (h : Legible x) : Numeral.read (floatText x).toList = some (.float x) := by
  have hnotated := notated_unsignedText h.finite
  obtain ⟨⟨c, rest, heq, hc⟩, -⟩ := hnotated.characters
  have hnine : ¬ ['e', '9'] <:+: unsignedText x := by
    intro hinfix
    refine h.exponent ?_
    rw [toList_floatText h.finite]
    split
    · exact List.infix_cons hinfix
    · exact hinfix
  have hread := hnotated.readUnsigned hnine
  rw [toList_floatText h.finite]
  split
  · next hnegative =>
    rw [hnegative] at hread
    exact hread
  · next hnegative =>
    rw [Bool.not_eq_true] at hnegative
    rw [hnegative] at hread
    rw [heq] at hread ⊢
    unfold Numeral.read
    split
    · next hminus =>
      obtain ⟨rfl, -⟩ := List.cons.inj hminus
      exact absurd hc (by decide)
    · exact hread

end GraphSchema.Decimal
