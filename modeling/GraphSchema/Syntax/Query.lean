/-
Query documents: operations and fragments.

Only what decides which fields are selected is kept.  Directives and variable
definitions are read and dropped.
-/
import GraphSchema.OperationKind
import GraphSchema.Syntax.Parts

namespace GraphSchema.Syntax

/-- What a query asks for at one level. -/
inductive Selection where
  /-- A field, with the name that its value goes by in the response if it is not its own. -/
  | field (position : Position) (responseName : Option String) (name : String)
      (arguments : List (String × Literal)) (selections : List Selection)
  /-- Selections under a type condition, or under none. -/
  | inline (condition : Option String) (selections : List Selection)
  /-- The selections of a fragment. -/
  | spread (fragment : String)
  deriving Inhabited

/-- An operation of a document.  Its name and variables play no part here. -/
structure Operation where
  kind : OperationKind
  selections : List Selection

/-- A named set of selections on one type. -/
structure Fragment where
  name : String
  condition : String
  selections : List Selection

/-- A definition in a document of queries. -/
inductive Executable where
  | operation (operation : Operation)
  | fragment (fragment : Fragment)

/-- A query document: its definitions in order. -/
structure QueryDocument where
  definitions : List Executable

namespace QueryDocument

/-- The operations of a document, in the order of the text. -/
def operations (document : QueryDocument) : List Operation :=
  document.definitions.filterMap fun
    | .operation operation => some operation
    | .fragment _ => none

/-- The fragments of a document, in the order of the text. -/
def fragments (document : QueryDocument) : List Fragment :=
  document.definitions.filterMap fun
    | .operation _ => none
    | .fragment fragment => some fragment

/-- The fragment of a name: the last one, if several have it. -/
def fragment? (document : QueryDocument) (name : String) : Option Fragment :=
  document.fragments.reverse.find? fun fragment => fragment.name == name

end QueryDocument

end GraphSchema.Syntax
