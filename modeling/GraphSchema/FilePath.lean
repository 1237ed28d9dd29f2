/-
Paths of files, as far as their text goes.

Two spellings name the same path when they have the same segments: repeated slashes, a
slash at the end and `.` in the middle make no difference, while a leading `.` does.

In messages a path stands between double quotes.  There every character that a reader could
not make out is written as an escape: but for the plain space, a character stands for itself
only if it has a place of its own in the line and is not one that shows nothing there.
-/
import GraphSchema.Text.Classes
import GraphSchema.Text.Lines

namespace GraphSchema

/-- A path as it was given, before anything about it is made canonical. -/
structure FilePath where
  text : String
  deriving DecidableEq, Inhabited, Repr

namespace FilePath

/-- Whether the path starts at the root. -/
def isAbsolute (path : FilePath) : Bool := path.text.toList.head? == some '/'

/-- The segments of a path: its parts between slashes, without those that lead nowhere. -/
def segments (path : FilePath) : List String :=
  let parts := (Text.cutAt '/' path.text.toList).map String.ofList
  let inner := parts.filter fun part => part != "" && part != "."
  if parts.head? == some "." then "." :: inner else inner

/-- The two texts spell the same path. -/
def samePlace (p q : FilePath) : Bool :=
  p.isAbsolute == q.isAbsolute && p.segments == q.segments

/-- Whether a character can be made out where it stands in a line of print. -/
def isPlain (c : Char) : Bool := c == ' ' || (Text.isStandalone c && !Text.isIgnorable c)

/-- How a character of a path is written between double quotes. -/
def escape (c : Char) : List Char :=
  match c with
  | '"' => ['\\', '"']
  | '\\' => ['\\', '\\']
  | '\n' => ['\\', 'n']
  | '\r' => ['\\', 'r']
  | '\t' => ['\\', 't']
  | '\x00' => ['\\', '0']
  | c =>
    if isPlain c then [c]
    else ['\\', 'u', '\x7b'] ++ Nat.toDigits 16 c.toNat ++ ['\x7d']

/-- The path in double quotes. -/
def quoted (path : FilePath) : String :=
  String.ofList ('"' :: (path.text.toList.flatMap escape ++ ['"']))

end FilePath

end GraphSchema
