/-
What documents of both kinds are made of: types, values, arguments and directives, as they
are written.
-/
import GraphSchema.Literal
import GraphSchema.Syntax.Reader

namespace GraphSchema.Syntax

/-! ### Types -/

/-- A type as the text writes it. -/
inductive TypeExpr where
  | named (name : String)
  | list (inner : TypeExpr)
  | nonNull (inner : TypeExpr)
  deriving DecidableEq, Inhabited, Repr

/-- Reads a type expression: at most one `!` stands behind each name and each list. -/
def TypeExpr.read (room : Nat) : Reader TypeExpr := do
  let bare ← match ← Reader.next with
    | .name name => pure (.named name)
    | .punctuator .bracketOpen =>
      match room with
      | 0 => failure
      | room + 1 => do
        let inner ← TypeExpr.read room
        Reader.punctuator .bracketClose
        pure (.list inner)
    | _ => failure
  if ← Reader.accept (Lexeme.isPunctuator .bang) then return .nonNull bare else return bare

/-! ### Values, arguments and directives -/

/-- Reads the name behind a dollar sign, where a variable is allowed. -/
def readVarRef (constant : Bool) : Reader Literal :=
  if constant then failure else return .varRef (← Reader.name)

/-- Reads a literal.  A constant is a literal in which no variable is allowed. -/
def readLiteral (constant : Bool) (room : Nat) : Reader Literal := do
  match ← Reader.next with
  | .int n => return .int n
  | .float x => return .float x
  | .string s => return .string s
  | .name name => return .ofName name
  | .punctuator .dollar => readVarRef constant
  | .punctuator .bracketOpen =>
    match room with
    | 0 => failure
    | room + 1 => return .list (← Reader.manyUntil .bracketClose (readLiteral constant room))
  | .punctuator .braceOpen =>
    match room with
    | 0 => failure
    | room + 1 =>
      let entries ← Reader.manyUntil .braceClose do
        let key ← Reader.name
        Reader.punctuator .colon
        return (key, ← readLiteral constant room)
      return Literal.ofEntries entries
  | _ => failure

/-- Reads arguments in parentheses, if there are any: at least one name with a literal. -/
def readArguments (room : Nat) : Reader (List (String × Literal)) :=
  Reader.ifOpened .parenOpen (fun room => Reader.someUntil .parenClose do
    let name ← Reader.name
    Reader.punctuator .colon
    return (name, ← readLiteral false room)) room

/-- A directive applied to something. -/
structure DirectiveUse where
  name : String
  arguments : List (String × Literal)

/-- Reads the directives that come next. -/
def readDirectives (room : Nat) : Reader (List DirectiveUse) :=
  Reader.many (Lexeme.isPunctuator .at) do
    Reader.punctuator .at
    let name ← Reader.name
    return ⟨name, ← readArguments room⟩

end GraphSchema.Syntax
