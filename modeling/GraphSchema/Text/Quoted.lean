/-
Quoted strings.

`encode` writes a text as a string literal on one line.  Reading one takes two steps:
`cut` finds where the literal ends and `decode` gives the value of what is inside.  The
two directions do not share one table of escapes: writing gives U+0008 the escape `\b`,
while reading takes `\b` for U+0010.
-/
namespace GraphSchema.Text.Quoted

/-! ### Writing -/

/-- A digit of an escape. -/
private def hexDigit (n : Nat) : Char := (Nat.digitChar n).toUpper

/-- How one character is written inside a string literal. -/
def escape (c : Char) : List Char :=
  match c with
  | '"' => ['\\', '"']
  | '\\' => ['\\', '\\']
  | '\n' => ['\\', 'n']
  | '\r' => ['\\', 'r']
  | '\t' => ['\\', 't']
  | '\x08' => ['\\', 'b']
  | '\x0C' => ['\\', 'f']
  | c =>
    if c.toNat < 0x20 then
      ['\\', 'u', '0', '0', hexDigit (c.toNat / 16), hexDigit (c.toNat % 16)]
    else
      [c]

/-- A text as a string literal. -/
def encode (s : List Char) : List Char := '"' :: (s.flatMap escape ++ ['"'])

/-! ### Reading -/

/-- The value of a hexadecimal digit. -/
def hexValue (c : Char) : Option Nat :=
  if '0' ≤ c ∧ c ≤ '9' then some (c.toNat - '0'.toNat)
  else if 'a' ≤ c ∧ c ≤ 'f' then some (c.toNat - 'a'.toNat + 10)
  else if 'A' ≤ c ∧ c ≤ 'F' then some (c.toNat - 'A'.toNat + 10)
  else none

/-- The value of a run of hexadecimal digits, read on from `n`. -/
def hexNumber (n : Nat) : List Char → Option Nat
  | [] => some n
  | c :: rest => (hexValue c).bind fun digit => hexNumber (16 * n + digit) rest

/-- The character that four characters behind `\u` name.  A plus sign may take the place
of the first digit; a surrogate is no character. -/
def codePoint (a b c d : Char) : Option Char :=
  let digits := if a = '+' then [b, c, d] else [a, b, c, d]
  (hexNumber 0 digits).bind fun n => if n.isValidChar then some (Char.ofNat n) else none

/-- The character that a one-letter escape stands for. -/
def meaning : Char → Option Char
  | '"' => some '"'
  | '\\' => some '\\'
  | '/' => some '/'
  | 'b' => some '\x10'
  | 'f' => some '\x0C'
  | 'n' => some '\n'
  | 'r' => some '\r'
  | 't' => some '\t'
  | _ => none

/-- Cuts a text, read from behind an opening quote, at the closing one: the content, with
its escapes, and what follows.  A newline or the end of the text refuses it. -/
def cut : List Char → Option (List Char × List Char)
  | [] => none
  | '"' :: rest => some ([], rest)
  | '\n' :: _ => none
  | '\\' :: e :: rest =>
    if e = '\n' then none
    else (cut rest).map fun (content, rest) => ('\\' :: e :: content, rest)
  | c :: rest => (cut rest).map fun (content, rest) => (c :: content, rest)

/-- Nothing is lost but the closing quote. -/
theorem eq_append_of_cut {s content rest : List Char} (h : cut s = some (content, rest)) :
    s = content ++ '"' :: rest := by
  fun_induction cut s generalizing content rest with
  | case1 | case3 | case4 => simp at h
  | case2 r =>
    obtain ⟨rfl, rfl⟩ := Prod.mk.inj (Option.some.inj h)
    rfl
  | case5 e r _ ih =>
    obtain ⟨⟨v, r'⟩, hcut, heq⟩ := Option.map_eq_some_iff.mp h
    obtain ⟨rfl, rfl⟩ := Prod.mk.inj heq
    rw [ih hcut]
    rfl
  | case6 c r _ _ _ ih =>
    obtain ⟨⟨v, r'⟩, hcut, heq⟩ := Option.map_eq_some_iff.mp h
    obtain ⟨rfl, rfl⟩ := Prod.mk.inj heq
    rw [ih hcut]
    rfl

/-- The value of the content of a string literal, if every backslash in it begins an
escape. -/
def decode : List Char → Option (List Char)
  | [] => some []
  | '\\' :: 'u' :: a :: b :: c :: d :: rest =>
    (codePoint a b c d).bind fun point => (decode rest).map (point :: ·)
  | '\\' :: e :: rest => (meaning e).bind fun c => (decode rest).map (c :: ·)
  | ['\\'] => none
  | c :: rest => (decode rest).map (c :: ·)

end GraphSchema.Text.Quoted
