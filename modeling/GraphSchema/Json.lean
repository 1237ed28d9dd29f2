/-
JSON as output: values with their compact and their indented text.

The members of an object keep their order.  Only quotes, backslashes and control
characters are escaped, so that all other characters stand for themselves.
-/
namespace GraphSchema

/-- A value of the report: the numbers are those of lines and columns, so they are whole. -/
inductive JsonValue where
  | bool (value : Bool)
  | number (value : Nat)
  | string (value : String)
  | array (items : List JsonValue)
  | object (members : List (String × JsonValue))

namespace JsonValue

/-- How a character is written inside a string. -/
def escape (c : Char) : List Char :=
  match c with
  | '"' => ['\\', '"']
  | '\\' => ['\\', '\\']
  | '\x08' => ['\\', 'b']
  | '\x0C' => ['\\', 'f']
  | '\n' => ['\\', 'n']
  | '\r' => ['\\', 'r']
  | '\t' => ['\\', 't']
  | c =>
    if c.toNat < 0x20 then
      ['\\', 'u', '0', '0', Nat.digitChar (c.toNat / 16), Nat.digitChar (c.toNat % 16)]
    else
      [c]

/-- The text of a string. -/
def stringText (s : String) : String :=
  String.ofList ('"' :: (s.toList.flatMap escape ++ ['"']))

mutual

/-- The text of a value without any blanks. -/
def compact : JsonValue → String
  | .bool b => if b then "true" else "false"
  | .number n => toString n
  | .string s => stringText s
  | .array items => "[" ++ ",".intercalate (compactItems items) ++ "]"
  | .object members => "\x7b" ++ ",".intercalate (compactMembers members) ++ "\x7d"

/-- The items of an array, each without a blank. -/
def compactItems : List JsonValue → List String
  | [] => []
  | item :: rest => compact item :: compactItems rest

/-- The members of an object, each without a blank. -/
def compactMembers : List (String × JsonValue) → List String
  | [] => []
  | (key, value) :: rest => (stringText key ++ ":" ++ compact value) :: compactMembers rest

end

/-- Lines between an opening and a closing bracket: each on a line of its own, two spaces
deeper, or nothing between the brackets if there are none. -/
def bracketed (opening closing indent : String) (lines : List String) : String :=
  if lines.isEmpty then
    opening ++ closing
  else
    let separator := "\n" ++ indent ++ "  "
    opening ++ separator ++ ("," ++ separator).intercalate lines ++ "\n" ++ indent ++ closing

mutual

/-- The text of a value with each item and member on a line of its own, at some
indentation. -/
def indented (indent : String) : JsonValue → String
  | .bool b => if b then "true" else "false"
  | .number n => toString n
  | .string s => stringText s
  | .array items => bracketed "[" "]" indent (indentedItems (indent ++ "  ") items)
  | .object members => bracketed "\x7b" "\x7d" indent (indentedMembers (indent ++ "  ") members)

/-- The items of an array, each at the indentation of the array. -/
def indentedItems (indent : String) : List JsonValue → List String
  | [] => []
  | item :: rest => indented indent item :: indentedItems indent rest

/-- The members of an object, each at the indentation of the object. -/
def indentedMembers (indent : String) : List (String × JsonValue) → List String
  | [] => []
  | (key, value) :: rest =>
    (stringText key ++ ": " ++ indented indent value) :: indentedMembers indent rest

end

/-- The text of a value in indented form. -/
def pretty (value : JsonValue) : String := value.indented ""

end JsonValue

end GraphSchema
