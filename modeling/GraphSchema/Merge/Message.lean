/-
What is reported of a conflict.

All texts come from the two fields that clash, and the places are where these stand.
-/
import GraphSchema.Json
import GraphSchema.Merge.Conflict

namespace GraphSchema.Merge

open Syntax (Position)

/-- Arguments as they are shown: an object of texts, in which a string stands for itself and
any other value is written as in a document. -/
def argumentsText (arguments : NameTable Argument) : String :=
  (JsonValue.object (arguments.toList.map fun a =>
    (a.name, .string (a.value.string?.getD a.value.text)))).compact

namespace Conflict

/-- The response names that lead to the conflict, its own included. -/
def path (c : Conflict) : List String := c.outer ++ [c.key]

/-- Whether the fields differ, and not only their arguments. -/
def isOfFields (c : Conflict) : Bool := c.first.name != c.second.name

/-- The code of the kind of conflict in the report. -/
def code (c : Conflict) : String := if c.isOfFields then "fieldConflict" else "argumentConflict"

/-- The message of a conflict: it names the two fields, or shows both argument tables. -/
def message (c : Conflict) : String :=
  if c.isOfFields then
    "Field '" ++ c.key ++ "' has a field conflict: " ++ c.first.name ++ " or " ++ c.second.name
      ++ "?"
  else
    "Field '" ++ c.key ++ "' has an argument conflict: " ++ argumentsText c.first.argumentTable
      ++ " or " ++ argumentsText c.second.argumentTable ++ "?"

/-- The places of the two fields. -/
def locations (c : Conflict) : List Position := [c.first.position, c.second.position]

/-- The message with the places that it is about. -/
def text (c : Conflict) : String :=
  c.message ++ " at " ++ ", ".intercalate (c.locations.map fun p =>
    toString p.line ++ ":" ++ toString p.column)

end Conflict

/-- What is told of a conflict. -/
structure Message where
  code : String
  message : String
  path : List String
  locations : List Position
  deriving DecidableEq, Repr

/-- The message about a conflict. -/
def Conflict.toMessage (c : Conflict) : Message := ⟨c.code, c.message, c.path, c.locations⟩

/-- The messages about a document, in order. -/
def messages (schema : Schema) (document : Syntax.QueryDocument) : List Message :=
  (conflicts schema document).map Conflict.toMessage

end GraphSchema.Merge
