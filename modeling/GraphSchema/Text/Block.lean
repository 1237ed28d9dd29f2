/-
Block strings.

A block string runs from `"""` to the next `"""` that no backslash precedes.  Its value
is its content with the common indent and the blank lines at either end taken away.
The indent is counted in bytes of UTF-8, since a blank may take up to three of them.
-/
import GraphSchema.Text.Classes
import GraphSchema.Text.Lines

namespace GraphSchema.Text.Block

/-- Cuts a text, read from behind an opening `"""`, at the closing one: the content and
what follows.  `escaped` says that a backslash stands directly in front. -/
def cut (escaped : Bool) : List Char → Option (List Char × List Char)
  | [] => none
  | '"' :: '"' :: '"' :: rest =>
    if escaped then
      (cut false rest).map fun (content, rest) => ('"' :: '"' :: '"' :: content, rest)
    else
      some ([], rest)
  | c :: rest => (cut (c == '\\') rest).map fun (content, rest) => (c :: content, rest)

/-- Nothing is lost but the closing quotes. -/
theorem eq_append_of_cut {escaped : Bool} {s content rest : List Char}
    (h : cut escaped s = some (content, rest)) :
    s = content ++ '"' :: '"' :: '"' :: rest := by
  fun_induction cut escaped s generalizing content rest with
  | case1 => simp at h
  | case2 r ih | case4 _ c r _ ih =>
    obtain ⟨⟨v, r'⟩, hcut, heq⟩ := Option.map_eq_some_iff.mp h
    obtain ⟨rfl, rfl⟩ := Prod.mk.inj heq
    rw [ih hcut]
    rfl
  | case3 r =>
    obtain ⟨rfl, rfl⟩ := Prod.mk.inj (Option.some.inj h)
    rfl

/-- The number of bytes that a text takes in UTF-8. -/
def width : List Char → Nat
  | [] => 0
  | c :: rest => c.utf8Size + width rest

/-- The number of bytes of the blanks that a line begins with. -/
def indent (line : List Char) : Nat := width (line.takeWhile isBlank)

/-- A line without its first `n` bytes. -/
def dropBytes : Nat → List Char → List Char
  | 0, line => line
  | _, [] => []
  | n + 1, c :: rest => dropBytes (n + 1 - c.utf8Size) rest

/-- A line without `n` bytes of indent, if it has so many bytes at all. -/
def unindent (n : Nat) (line : List Char) : List Char :=
  if n ≤ width line then dropBytes n line else line

/-- The least indent of the lines that are not blank. -/
def commonIndent (block : List (List Char)) : Option Nat :=
  ((block.filter fun line => !line.all isBlank).map indent).min?

/-- The text with every `\"""` replaced by `"""`. -/
def unescape : List Char → List Char
  | [] => []
  | '\\' :: '"' :: '"' :: '"' :: rest => '"' :: '"' :: '"' :: unescape rest
  | c :: rest => c :: unescape rest

/-- The lines without the blank ones at either end. -/
def trimLines (block : List (List Char)) : List (List Char) :=
  let isBlankLine := fun line : List Char => line.all isBlank
  ((block.dropWhile isBlankLine).reverse.dropWhile isBlankLine).reverse

/-- The value of a block string with the given content. -/
def value (content : List Char) : List Char :=
  match lines content with
  | [] => []
  | first :: others =>
    let unindented := match commonIndent others with
      | some n => others.map (unindent n)
      | none => others
    ['\n'].intercalate ((trimLines (first :: unindented)).map unescape)

end GraphSchema.Text.Block
