/-
Reading back what is written as a string literal.

Writing and reading go through different tables of escapes, which agree in all places but
one: `\b` is written for U+0008 and read as U+0010.  So a literal is always cut where it
was written to end, and it is read back as the text it was written for, with that one
character changed.

A character is written in one of three ways (`Escaped`), and everything about whole
literals is an induction over the text with these three cases.
-/
import GraphSchema.Text.Quoted

namespace GraphSchema.Text.Quoted

/-- What a character is read back as. -/
def readBack (c : Char) : Char := if c = '\x08' then '\x10' else c

theorem readBack_of_ne {c : Char} (h : c ≠ '\x08') : readBack c = c := if_neg h

/-- The character stands for itself inside a literal. -/
def IsPlain (c : Char) : Prop := c ≠ '"' ∧ c ≠ '\\' ∧ c ≠ '\n' ∧ c ≠ '\r'

instance (c : Char) : Decidable (IsPlain c) := inferInstanceAs (Decidable (_ ∧ _))

/-- The ways in which a character is written. -/
inductive Escaped (c : Char) : List Char → Prop
  | plain (h : IsPlain c) (hread : readBack c = c) : Escaped c [c]
  | letter {e : Char} (hnewline : e ≠ '\n') (hreturn : e ≠ '\r') (hunicode : e ≠ 'u')
      (hmeaning : meaning e = some (readBack c)) : Escaped c ['\\', e]
  | unicode {x y : Char} (hx : IsPlain x) (hy : IsPlain y)
      (hpoint : codePoint '0' '0' x y = some (readBack c)) :
      Escaped c ['\\', 'u', '0', '0', x, y]

/-! ### How characters are written

The writer has a table of letters, a rule for the other control characters, and writes all else as
it is.  Only the table has exceptions, and it is short enough to be gone through.
-/

/-- The characters that have a letter of their own. -/
def lettered : List Char := ['"', '\\', '\n', '\r', '\t', '\x08', '\x0C']

/-- Whether a text writes a character by its code point. -/
def isCodeOf (c : Char) : List Char → Bool
  | ['\\', 'u', '0', '0', x, y] => decide (IsPlain x ∧ IsPlain y) && codePoint '0' '0' x y == some c
  | _ => false

/-- Every other control character is written by its code point. -/
theorem isCodeOf_escape_control :
    ∀ n < 0x20, Char.ofNat n ∉ lettered →
      isCodeOf (Char.ofNat n) (escape (Char.ofNat n)) = true := by
  decide

theorem escaped_of_isCodeOf {c : Char} {text : List Char} (hread : readBack c = c)
    (h : isCodeOf c text = true) : Escaped c text := by
  unfold isCodeOf at h
  split at h
  · next x y =>
    rw [Bool.and_eq_true, decide_eq_true_eq, beq_iff_eq] at h
    obtain ⟨⟨hx, hy⟩, hpoint⟩ := h
    refine .unicode hx hy ?_
    rw [hread]
    exact hpoint
  · cases h

theorem escape_of_not_mem {c : Char} (h : c ∉ lettered) (hcontrol : ¬ c.toNat < 0x20) :
    escape c = [c] := by
  simp only [lettered, List.mem_cons, List.not_mem_nil, or_false, not_or] at h
  unfold escape
  split <;> simp_all

theorem escaped_escape (c : Char) : Escaped c (escape c) := by
  by_cases hletter : c ∈ lettered
  · simp only [lettered, List.mem_cons, List.not_mem_nil, or_false] at hletter
    rcases hletter with rfl | rfl | rfl | rfl | rfl | rfl | rfl <;>
      exact .letter (by decide) (by decide) (by decide) (by decide)
  · have hread : readBack c = c := readBack_of_ne fun heq => hletter (by rw [heq]; decide)
    by_cases hcontrol : c.toNat < 0x20
    · have hcode := isCodeOf_escape_control c.toNat hcontrol
      rw [Char.ofNat_toNat] at hcode
      exact escaped_of_isCodeOf hread (hcode hletter)
    · rw [escape_of_not_mem hletter hcontrol]
      simp only [lettered, List.mem_cons, List.not_mem_nil, or_false, not_or] at hletter
      obtain ⟨hquote, hbackslash, hnewline, hreturn, -⟩ := hletter
      exact .plain ⟨hquote, hbackslash, hnewline, hreturn⟩ hread

/-! ### Whole literals -/

theorem cut_cons_of_isPlain {c : Char} (h : IsPlain c) (rest : List Char) :
    cut (c :: rest) = (cut rest).map fun (content, rest) => (c :: content, rest) := by
  obtain ⟨hquote, hbackslash, hnewline, -⟩ := h
  rw [cut.eq_def]
  split <;> simp_all

theorem cut_escaped {c : Char} {text : List Char} (h : Escaped c text) (rest : List Char) :
    cut (text ++ rest) = (cut rest).map fun (content, rest) => (text ++ content, rest) := by
  cases h with
  | plain hplain _ => exact cut_cons_of_isPlain hplain rest
  | letter hnewline _ _ _ =>
    show cut ('\\' :: _ :: rest) = _
    rw [cut, if_neg hnewline]
    rfl
  | unicode hx hy _ =>
    show cut ('\\' :: 'u' :: '0' :: '0' :: _ :: _ :: rest) = _
    rw [cut, if_neg (by decide), cut_cons_of_isPlain (by decide), cut_cons_of_isPlain (by decide),
      cut_cons_of_isPlain hx, cut_cons_of_isPlain hy]
    simp only [Option.map_map]
    rfl

/-- A literal is cut where it was written to end. -/
theorem cut_encode (s rest : List Char) :
    cut (s.flatMap escape ++ '"' :: rest) = some (s.flatMap escape, rest) := by
  induction s with
  | nil => rfl
  | cons c s ih =>
    rw [List.flatMap_cons, List.append_assoc, cut_escaped (escaped_escape c), ih]
    rfl

theorem decode_escaped {c : Char} {text : List Char} (h : Escaped c text) (rest : List Char) :
    decode (text ++ rest) = (decode rest).map (readBack c :: ·) := by
  cases h with
  | plain hplain hread =>
    obtain ⟨-, hbackslash, -⟩ := hplain
    show decode (c :: rest) = _
    rw [decode.eq_def, hread]
    split <;> simp_all
  | @letter e _ _ hunicode hmeaning =>
    show decode ('\\' :: e :: rest) = _
    rw [decode, hmeaning]
    · rfl
    · intro _ _ _ _ _ hu
      exact absurd hu hunicode
  | unicode _ _ hpoint =>
    show decode ('\\' :: 'u' :: '0' :: '0' :: _ :: _ :: rest) = _
    rw [decode, hpoint]
    rfl

/-- A literal is read back character by character. -/
theorem decode_encode (s : List Char) : decode (s.flatMap escape) = some (s.map readBack) := by
  induction s with
  | nil => rfl
  | cons c s ih =>
    rw [List.flatMap_cons, decode_escaped (escaped_escape c), ih]
    rfl

/-- A text without U+0008 is read back as it is. -/
theorem map_readBack {s : List Char} (h : '\x08' ∉ s) : s.map readBack = s := by
  have hsame : ∀ c ∈ s, readBack c = c := by
    intro c hc
    refine readBack_of_ne fun heq => h ?_
    rwa [← heq]
  rw [List.map_congr_left hsame, List.map_id']

theorem readBack_ne (c : Char) : readBack c ≠ '\x08' := by
  unfold readBack
  split
  · decide
  · next h => exact h

/-- It is that character alone that does not come back. -/
theorem map_readBack_eq_iff {s : List Char} : s.map readBack = s ↔ '\x08' ∉ s := by
  refine ⟨fun heq hmem => ?_, map_readBack⟩
  rw [← heq] at hmem
  obtain ⟨c, -, hc⟩ := List.mem_map.mp hmem
  exact readBack_ne c hc

/-- No control character stands in a literal, so it stays on one line. -/
theorem le_of_mem_escape {c d : Char} (h : d ∈ escape c) : 0x20 ≤ d.toNat := by
  by_cases hcontrol : c.toNat < 0x20
  · have hall : ∀ n < 0x20, ((escape (Char.ofNat n)).all fun d => decide (0x20 ≤ d.toNat)) = true := by decide
    have hc := hall c.toNat hcontrol
    rw [Char.ofNat_toNat] at hc
    exact of_decide_eq_true (List.all_eq_true.mp hc d h)
  · by_cases hletter : c ∈ lettered
    · have hall : (lettered.all fun c => (escape c).all fun d => decide (0x20 ≤ d.toNat)) = true := by decide
      exact of_decide_eq_true (List.all_eq_true.mp (List.all_eq_true.mp hall c hletter) d h)
    · rw [escape_of_not_mem hletter hcontrol, List.mem_singleton] at h
      rw [h]
      exact Nat.le_of_not_lt hcontrol

theorem le_of_mem_encode {d : Char} {s : List Char} (h : d ∈ encode s) : 0x20 ≤ d.toNat := by
  simp only [encode, List.mem_cons, List.mem_append, List.not_mem_nil, or_false, List.mem_flatMap] at h
  rcases h with rfl | ⟨c, _, hmem⟩ | rfl
  · decide
  · exact le_of_mem_escape hmem
  · decide

end GraphSchema.Text.Quoted
