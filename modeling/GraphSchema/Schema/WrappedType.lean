/-
The types of fields and arguments: a named type, wrapped in any number of lists.

Whether null is allowed is a mark on each layer and not a layer of its own, so that no
layer is marked twice.
-/
import GraphSchema.Syntax.Parts

namespace GraphSchema

open Syntax (TypeExpr)

/-- A type as a field has it: a named one, or a list, and null or not at every level. -/
inductive WrappedType where
  | named (name : String) (nullable : Bool)
  | list (inner : WrappedType) (nullable : Bool)
  deriving DecidableEq, Inhabited, Repr

namespace WrappedType

/-- The type that an expression stands for, if marks around the expression have decided
whether null is allowed. -/
def ofExprWith (nullable : Bool) : TypeExpr → WrappedType
  | .named name => .named name nullable
  | .list inner => .list (ofExprWith true inner) nullable
  | .nonNull inner => ofExprWith false inner

/-- The type that an expression stands for. -/
def ofExpr (expr : TypeExpr) : WrappedType := ofExprWith true expr

/-- Whether null is a value of the type. -/
def isNullable : WrappedType → Bool
  | .named _ nullable => nullable
  | .list _ nullable => nullable

/-- Whether null is refused. -/
def isRequired (type : WrappedType) : Bool := !type.isNullable

/-- The name inside of all lists. -/
def innermostName : WrappedType → String
  | .named name _ => name
  | .list inner _ => inner.innermostName

/-- The type as it is written in a document. -/
def text : WrappedType → String
  | .named name nullable => name ++ if nullable then "" else "!"
  | .list inner nullable => "[" ++ inner.text ++ "]" ++ if nullable then "" else "!"

end WrappedType

end GraphSchema
