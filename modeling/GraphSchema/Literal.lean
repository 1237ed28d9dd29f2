/-
Literals: the values that a schema gives as defaults and a query passes as arguments.

The entries of an object literal are kept in the order of their keys, the last of
several entries with one key winning.  Two literals are the same (`==`) when they agree
up to the order of object entries; `-0.0` and `0.0` are the same, as for floats.
-/
import GraphSchema.Decimal.Notation
import GraphSchema.Text.Quoted

namespace GraphSchema

/-- A value as a document writes it. -/
inductive Literal where
  | boolean (value : Bool)
  | enum (name : String)
  | float (value : Float)
  | int (value : Int64)
  | list (items : List Literal)
  | null
  | object (entries : List (String × Literal))
  | string (value : String)
  | varRef (name : String)
  deriving Inhabited

/-- A text as a string literal. -/
def quoted (s : String) : String := String.ofList (Text.Quoted.encode s.toList)

namespace Literal

/-- The literal that a name stands for. -/
def ofName : String → Literal
  | "true" => .boolean true
  | "false" => .boolean false
  | "null" => .null
  | name => .enum name

/-! ### Sorted entries -/

/-- Puts an entry into a list sorted by key, replacing the entry of its key. -/
def insertEntry (key : String) (value : Literal) :
    List (String × Literal) → List (String × Literal)
  | [] => [(key, value)]
  | (k, v) :: rest =>
    if key < k then (key, value) :: (k, v) :: rest
    else if key = k then (key, value) :: rest
    else (k, v) :: insertEntry key value rest

/-- The object literal of the entries as they are written. -/
def ofEntries (entries : List (String × Literal)) : Literal :=
  .object (entries.foldl (fun sorted (key, value) => insertEntry key value sorted) [])

/-! ### Sameness -/

mutual

/-- The two literals agree up to the order of object entries. -/
def same : Literal → Literal → Bool
  | .boolean a, .boolean b => a == b
  | .enum a, .enum b => a == b
  | .float a, .float b => a == b
  | .int a, .int b => a == b
  | .list a, .list b => sameItems a b
  | .null, .null => true
  | .object a, .object b => a.length == b.length && entriesAmong a b
  | .string a, .string b => a == b
  | .varRef a, .varRef b => a == b
  | _, _ => false

/-- The two lists agree item by item. -/
def sameItems : List Literal → List Literal → Bool
  | [], [] => true
  | a :: as, b :: bs => same a b && sameItems as bs
  | _, _ => false

/-- Every entry of the first list has the same value in the second. -/
def entriesAmong : List (String × Literal) → List (String × Literal) → Bool
  | [], _ => true
  | (key, a) :: rest, others =>
    (match others.lookup key with
      | some b => same a b
      | none => false) && entriesAmong rest others

end

instance : BEq Literal := ⟨same⟩

/-! ### Text -/

mutual

/-- A literal as it is written in a document. -/
def text : Literal → String
  | .boolean true => "true"
  | .boolean false => "false"
  | .enum name => name
  | .float x => Decimal.floatText x
  | .int n => toString n.toInt
  | .list items => "[" ++ ", ".intercalate (itemTexts items) ++ "]"
  | .null => "null"
  | .object [] => "\x7b\x7d"
  | .object entries => "\x7b " ++ ", ".intercalate (entryTexts entries) ++ " \x7d"
  | .string s => quoted s
  | .varRef name => "$" ++ name

/-- The texts of the items of a list. -/
def itemTexts : List Literal → List String
  | [] => []
  | item :: rest => text item :: itemTexts rest

/-- The entries of an object, each with its key. -/
def entryTexts : List (String × Literal) → List String
  | [] => []
  | (key, value) :: rest => (key ++ ": " ++ text value) :: entryTexts rest

end

/-- The text of a string literal; no other literal has one. -/
def string? : Literal → Option String
  | .string s => some s
  | _ => none

end Literal

end GraphSchema
