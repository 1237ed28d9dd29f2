/-
Whole numbers read back.

The digits of a number are written without a needless zero in front, and reading them adds
them up to the number again.  A 64-bit integer is written as the digits of its size, behind a
sign if it is negative.

A float is written as runs of digits too, with a point and an exponent between them.  What is
said of `AllDigits` is used for both.
-/
import Mathlib.Data.List.TakeWhile
import GraphSchema.Decimal.Numeral

namespace GraphSchema.Decimal.Numeral

/-! ### Digits -/

theorem digitsValue_eq (digits : List Char) :
    digitsValue digits = Nat.ofDigitChars 10 digits 0 := rfl

theorem digitsValue_toDigits (n : Nat) : digitsValue (Nat.toDigits 10 n) = n := by
  rw [digitsValue_eq, Nat.ofDigitChars_ten_toDigits]

theorem isDigit_of_mem_toDigits {n : Nat} {c : Char} (h : c ∈ Nat.toDigits 10 n) :
    c.isDigit = true :=
  Nat.isDigit_of_mem_toDigits (by decide) (by decide) h

/-- The first digit of a positive number is not zero. -/
theorem head?_toDigits {n : Nat} (h : 0 < n) : (Nat.toDigits 10 n).head? ≠ some '0' := by
  induction n using Nat.base_induction 10 (by decide) with
  | single m hm =>
    rw [Nat.toDigits_of_lt_base hm]
    have hdigit : ∀ k < 10, 0 < k → [Nat.digitChar k].head? ≠ some '0' := by decide
    exact hdigit m hm h
  | digit m k hk hm ih =>
    obtain ⟨first, others, heq⟩ := List.exists_cons_of_ne_nil
      (Nat.toDigits_ne_nil (n := m) (b := 10))
    have hfirst := ih hm
    rw [heq] at hfirst
    rw [← Nat.toDigits_append_toDigits (by decide) hm hk, heq]
    exact hfirst

theorem isWhole_of_head?_ne {text : List Char} (hne : text ≠ []) (h : text.head? ≠ some '0') :
    isWhole text = true := by
  unfold isWhole
  split
  · exact absurd rfl hne
  · exact absurd rfl h
  · rfl

theorem isWhole_toDigits (n : Nat) : isWhole (Nat.toDigits 10 n) = true := by
  by_cases h : 0 < n
  · exact isWhole_of_head?_ne Nat.toDigits_ne_nil (head?_toDigits h)
  · obtain rfl : n = 0 := by omega
    rfl

/-! ### Runs of digits -/

/-- The text consists of digits. -/
def AllDigits (text : List Char) : Prop := ∀ c ∈ text, c.isDigit = true

theorem allDigits_toDigits (n : Nat) : AllDigits (Nat.toDigits 10 n) :=
  fun _ hc => isDigit_of_mem_toDigits hc

theorem allDigits_zeros (n : Nat) : AllDigits (List.replicate n '0') := by
  intro c hc
  rw [List.eq_of_mem_replicate hc]
  rfl

theorem AllDigits.append {text more : List Char} (h : AllDigits text) (hmore : AllDigits more) :
    AllDigits (text ++ more) := List.forall_mem_append.mpr ⟨h, hmore⟩

theorem takeWhile_digits {text rest : List Char} (h : AllDigits text)
    (hrest : ∀ c ∈ rest.head?, c.isDigit = false) :
    (text ++ rest).takeWhile Char.isDigit = text := by
  rw [List.takeWhile_append_of_pos h]
  cases rest with
  | nil => simp
  | cons c rest => rw [List.takeWhile_cons_of_neg (by simp [hrest c rfl]), List.append_nil]

theorem dropWhile_digits {text rest : List Char} (h : AllDigits text)
    (hrest : ∀ c ∈ rest.head?, c.isDigit = false) :
    (text ++ rest).dropWhile Char.isDigit = rest := by
  rw [List.dropWhile_append_of_pos h]
  cases rest with
  | nil => rfl
  | cons c rest => rw [List.dropWhile_cons_of_neg (by simp [hrest c rfl])]

/-- Digits behind others: those in front count for more. -/
theorem digitsValue_append (text more : List Char) :
    digitsValue (text ++ more) = Nat.pow 10 more.length * digitsValue text + digitsValue more := by
  rw [digitsValue_eq, Nat.ofDigitChars_append, Nat.ofDigitChars_eq_ofDigitChars_zero]
  rfl

theorem digitsValue_zeros (n : Nat) : digitsValue (List.replicate n '0') = 0 := by
  induction n with
  | zero => rfl
  | succ n ih =>
    rw [List.replicate_succ, ← List.singleton_append, digitsValue_append, ih]
    exact Nat.mul_zero (Nat.pow 10 (List.replicate n '0').length)

/-! ### Integers -/

/-- The digits of a number are read as the number with the given sign. -/
theorem readUnsigned_toDigits (negative : Bool) (n : Nat) :
    readUnsigned negative (Nat.toDigits 10 n) = integer? negative n := by
  have htake : (Nat.toDigits 10 n).takeWhile Char.isDigit = Nat.toDigits 10 n :=
    List.takeWhile_eq_self_iff.mpr (allDigits_toDigits n)
  have hdrop : (Nat.toDigits 10 n).dropWhile Char.isDigit = [] :=
    List.dropWhile_eq_nil_iff.mpr (allDigits_toDigits n)
  simp only [readUnsigned, htake, hdrop, isWhole_toDigits, if_true, afterWhole,
    digitsValue_toDigits]

/-- The digits of a number begin with no sign. -/
theorem read_toDigits (n : Nat) : read (Nat.toDigits 10 n) = integer? false n := by
  rw [← readUnsigned_toDigits]
  unfold read
  split
  · next heq =>
    have hminus : '-'.isDigit = true := isDigit_of_mem_toDigits (n := n) (heq ▸ List.mem_cons_self)
    exact absurd hminus (by decide)
  · rfl

theorem integer?_toInt (negative : Bool) {size : Nat} {n : Int64}
    (h : (if negative then -(size : Int) else size) = n.toInt) :
    integer? negative size = some (.integer n) := by
  have hleast := n.minValue_le_toInt
  have hgreatest := n.toInt_le
  unfold integer?
  simp only [h]
  rw [if_pos ⟨hleast, hgreatest⟩, Int64.ofInt_toInt]

/-- The text of an integer: its digits, behind a sign if it is negative. -/
theorem toList_toString (n : Int) :
    (toString n).toList = if 0 ≤ n then Nat.toDigits 10 n.toNat
      else '-' :: Nat.toDigits 10 (-n).toNat := by
  rw [Int.toString_eq_repr, Int.repr_eq_if]
  split
  · rw [Nat.toList_repr]
  · rw [String.toList_append, Nat.toList_repr]
    rfl

/-- An integer is written with a digit or a sign first, and digits behind it. -/
theorem exists_toString_eq (n : Int) :
    ∃ c digits, (toString n).toList = c :: digits ∧ (c.isDigit || c == '-') = true ∧
      ∀ d ∈ digits, d.isDigit = true := by
  rw [toList_toString]
  split
  · obtain ⟨c, digits, heq⟩ := List.exists_cons_of_ne_nil
      (Nat.toDigits_ne_nil (n := n.toNat) (b := 10))
    have hall : ∀ d ∈ c :: digits, d.isDigit = true := fun d hd =>
      isDigit_of_mem_toDigits (heq ▸ hd)
    refine ⟨c, digits, heq, ?_, fun d hd => hall d (List.mem_cons_of_mem _ hd)⟩
    rw [hall c List.mem_cons_self]
    rfl
  · exact ⟨'-', _, rfl, by decide, fun d hd => isDigit_of_mem_toDigits hd⟩

/-- **The text of a 64-bit integer reads back.** -/
theorem read_toString (n : Int64) : read (toString n.toInt).toList = some (.integer n) := by
  rw [toList_toString]
  split
  · next h =>
    rw [read_toDigits]
    refine integer?_toInt false ?_
    rw [if_neg Bool.false_ne_true, Int.toNat_of_nonneg h]
  · next h =>
    show readUnsigned true _ = _
    rw [readUnsigned_toDigits]
    refine integer?_toInt true ?_
    rw [if_pos rfl]
    omega

end GraphSchema.Decimal.Numeral
