/-
Decoding UTF-8.

A sequence of bytes is a text if it is cut into characters without rest.  Where it is
not, the fault is described by its place and by how many bytes of a character were still
in order there; a text that just ends too early has no such number.
-/
namespace GraphSchema.Text.Utf8

/-- Where decoding fails: `index` bytes are in order, and the next `length` bytes begin no
character; without a length, the text ends inside of a character. -/
structure Fault where
  index : Nat
  length : Option Nat
  deriving DecidableEq, Repr

/-- A closed range of bytes. -/
abbrev ByteRange := UInt8 × UInt8

/-- Any byte that continues a character. -/
def continuation : ByteRange := (0x80, 0xBF)

/-- What a byte above 0x7F has to be followed by to begin a character. -/
def followers (lead : UInt8) : Option (List ByteRange) :=
  if 0xC2 ≤ lead ∧ lead ≤ 0xDF then some [continuation]
  else if lead = 0xE0 then some [(0xA0, 0xBF), continuation]
  else if lead = 0xED then some [(0x80, 0x9F), continuation]
  else if 0xE1 ≤ lead ∧ lead ≤ 0xEF then some [continuation, continuation]
  else if lead = 0xF0 then some [(0x90, 0xBF), continuation, continuation]
  else if 0xF1 ≤ lead ∧ lead ≤ 0xF3 then some [continuation, continuation, continuation]
  else if lead = 0xF4 then some [(0x80, 0x8F), continuation, continuation]
  else none

/-- The bits of the code point that a lead byte gives, if `n` bytes follow it. -/
def leadBits (lead : UInt8) (n : Nat) : Nat := lead.toNat % Nat.pow 2 (6 - n)

/-- A character of which some bytes have been read. -/
structure Partial where
  start : Nat
  seen : Nat
  code : Nat
  expected : List ByteRange

/-- Decodes from the byte of the given index on. -/
def decodeFrom (index : Nat) : Option Partial → List UInt8 → Except Fault (List Char)
  | none, [] => .ok []
  | some begun, [] => .error ⟨begun.start, none⟩
  | none, byte :: rest =>
    if byte < 0x80 then
      (Char.ofNat byte.toNat :: ·) <$> decodeFrom (index + 1) none rest
    else
      match followers byte with
      | none => .error ⟨index, some 1⟩
      | some ranges =>
        decodeFrom (index + 1) (some ⟨index, 1, leadBits byte ranges.length, ranges⟩) rest
  | some begun, byte :: rest =>
    match begun.expected with
    | [] => .error ⟨begun.start, some begun.seen⟩
    | (low, high) :: more =>
      if low ≤ byte ∧ byte ≤ high then
        let code := 64 * begun.code + byte.toNat % 64
        if more.isEmpty then
          (Char.ofNat code :: ·) <$> decodeFrom (index + 1) none rest
        else
          decodeFrom (index + 1) (some ⟨begun.start, begun.seen + 1, code, more⟩) rest
      else
        .error ⟨begun.start, some begun.seen⟩

/-- The text that a sequence of bytes encodes. -/
def decode (bytes : List UInt8) : Except Fault (List Char) := decodeFrom 0 none bytes

/-- What is wrong, in words. -/
def Fault.message (fault : Fault) : String :=
  match fault.length with
  | some n =>
    "invalid utf-8 sequence of " ++ toString n ++ " bytes from index " ++ toString fault.index
  | none => "incomplete utf-8 byte sequence from index " ++ toString fault.index

end GraphSchema.Text.Utf8
