/-
What is written as JSON, from the side of whoever reads it.

`compact` is a recursion over a value.  A reader of its text goes by the grammar instead: a string
stands between quotes, each of its characters is there as itself or behind a backslash, and an
object is its members in their order, with nothing between them but punctuation.  `IsString` and
`IsObject` say that without a mention of the writer, and the writer is shown to keep to them.

Only objects of strings are described, since nothing else is shown to users in compact form.
-/
import Mathlib.Data.List.Forall2
import GraphSchema.Json

namespace GraphSchema.JsonValue

/-! ### Strings

JSON leaves a choice: any character may be written by its number.  The writer uses the shortest
form there is, so that text without quotes, backslashes and control characters is shown as it is.
-/

/-- The characters that have an escape of two characters, with the second one of it. -/
def shortEscapes : List (Char × Char) :=
  [('"', '"'), ('\\', '\\'), ('\x08', 'b'), ('\x0C', 'f'), ('\n', 'n'), ('\r', 'r'), ('\t', 't')]

/-- The digits of numbers to the base 16. -/
def hexDigits : List Char := "0123456789abcdef".toList

/-- What stands for a character inside of a string. -/
inductive Written (c : Char) : List Char → Prop where
  | plain (hprintable : 0x20 ≤ c.toNat) (hescape : ∀ e, (c, e) ∉ shortEscapes) : Written c [c]
  | short {e : Char} (hescape : (c, e) ∈ shortEscapes) : Written c ['\\', e]
  | number {high low : Char} (hcontrol : c.toNat < 0x20) (hescape : ∀ e, (c, e) ∉ shortEscapes)
      (hhigh : hexDigits[c.toNat / 16]? = some high) (hlow : hexDigits[c.toNat % 16]? = some low) :
      Written c ['\\', 'u', '0', '0', high, low]

/-- The text is that of the string. -/
def IsString (s text : String) : Prop :=
  ∃ parts, List.Forall₂ Written s.toList parts ∧ text.toList = '"' :: (parts.flatten ++ ['"'])

theorem digitChar_eq_hexDigits : ∀ n < 16, hexDigits[n]? = some (Nat.digitChar n) := by decide

theorem written_escape (c : Char) : Written c (escape c) := by
  by_cases hescape : ∃ e, (c, e) ∈ shortEscapes
  · obtain ⟨e, he⟩ := hescape
    have hwritten := Written.short he
    simp only [shortEscapes, List.mem_cons, Prod.mk.injEq, List.not_mem_nil, or_false] at he
    rcases he with ⟨rfl, rfl⟩ | ⟨rfl, rfl⟩ | ⟨rfl, rfl⟩ | ⟨rfl, rfl⟩ | ⟨rfl, rfl⟩ | ⟨rfl, rfl⟩
      | ⟨rfl, rfl⟩ <;> exact hwritten
  · have hnone : ∀ e, (c, e) ∉ shortEscapes := not_exists.mp hescape
    have hplain : escape c = if c.toNat < 0x20 then
        ['\\', 'u', '0', '0', Nat.digitChar (c.toNat / 16), Nat.digitChar (c.toNat % 16)]
        else [c] := by
      unfold escape
      split <;> first | rfl | simp [shortEscapes] at hnone
    rw [hplain]
    split
    · next hcontrol =>
      exact .number hcontrol hnone (digitChar_eq_hexDigits _ (by omega))
        (digitChar_eq_hexDigits _ (by omega))
    · next hcontrol => exact .plain (Nat.le_of_not_lt hcontrol) hnone

theorem isString_stringText (s : String) : IsString s (stringText s) := by
  refine ⟨s.toList.map escape, ?_, ?_⟩
  · exact List.forall₂_map_right_iff.mpr (List.forall₂_same.mpr fun c _ => written_escape c)
  · rw [stringText, String.toList_ofList, List.flatMap_def]

/-! ### Objects -/

/-- The text is that of a key with its value. -/
def IsMember (member : String × String) (text : String) : Prop :=
  ∃ key value, IsString member.1 key ∧ IsString member.2 value ∧ text = key ++ ":" ++ value

/-- The text is that of an object with the members, in this order. -/
def IsObject (members : List (String × String)) (text : String) : Prop :=
  ∃ parts, List.Forall₂ IsMember members parts ∧ text = "\x7b" ++ ",".intercalate parts ++ "\x7d"

/-- An object of strings is written with its members in order. -/
theorem isObject_compact (members : List (String × String)) :
    IsObject members (object (members.map fun m => (m.1, .string m.2))).compact := by
  refine ⟨compactMembers (members.map fun m => (m.1, .string m.2)), ?_, rfl⟩
  induction members with
  | nil => exact .nil
  | cons m rest ih =>
    refine .cons ⟨_, _, isString_stringText m.1, isString_stringText m.2, ?_⟩ ih
    rw [compact]

end GraphSchema.JsonValue
