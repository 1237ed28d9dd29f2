/-
Where a part of a schema comes from: a place in a source, or the part of the language
that every schema has.

The two are told apart where a source defines what the language has already.
-/
import GraphSchema.FilePath
import GraphSchema.Syntax.Token

namespace GraphSchema

/-- Where a part of a schema is defined. -/
inductive Location where
  | builtin
  | source (file : FilePath) (position : Syntax.Position)
  deriving Inhabited, Repr

namespace Location

/-- Whether the part is in every schema. -/
def isBuiltin : Location → Bool
  | .builtin => true
  | .source _ _ => false

/-- The same place, whichever way the path of its file is spelt. -/
def samePlace : Location → Location → Bool
  | .builtin, .builtin => true
  | .source f p, .source g q => f.samePlace g && p == q
  | _, _ => false

instance : BEq Location := ⟨samePlace⟩

/-- A place as `file:line:column`. -/
def text : Location → String
  | .builtin => "builtin"
  | .source file position =>
    file.text ++ ":" ++ toString position.line ++ ":" ++ toString position.column

end Location

end GraphSchema
