/-
Reading query documents.

After `...` the name `on` always begins a type condition, any other name is the fragment
that is spread, and everything else begins a fragment without a condition.
-/
import GraphSchema.Syntax.Query

namespace GraphSchema.Syntax

open Reader

/-- Reads the name of a field, behind the name that its value goes by if another is given. -/
def readFieldName (first : String) : Reader (Option String × String) := do
  if ← accept (Lexeme.isPunctuator .colon) then
    return (some first, ← Reader.name)
  else
    return (none, first)

/-- Reads a field behind its first name; `inner` reads what stands in its braces. -/
def Selection.readField (room : Nat) (inner : Reader (List Selection)) (position : Position)
    (first : String) : Reader Selection := do
  let (responseName, name) ← readFieldName first
  let arguments ← readArguments room
  let _ ← readDirectives room
  if ← accept (Lexeme.isPunctuator .braceOpen) then
    return .field position responseName name arguments (← inner)
  else
    return .field position responseName name arguments []

/-- Reads the type condition of a fragment without a name, if there is one. -/
def readCondition : Reader (Option String) := do
  if ← accept (Lexeme.isKeyword "on") then some <$> Reader.name else pure none

/-- Reads a fragment behind `...`; `inner` reads what stands in its braces. -/
def Selection.readFragment (room : Nat) (inner : Reader (List Selection)) : Reader Selection := do
  if ← nextIs (fun lexeme => lexeme.isName && !lexeme.isKeyword "on") then
    let fragment ← Reader.name
    let _ ← readDirectives room
    return .spread fragment
  else
    let condition ← readCondition
    let _ ← readDirectives room
    punctuator .braceOpen
    return .inline condition (← inner)

/-- Reads a selection of either kind. -/
def Selection.readEither (room : Nat) (inner : Reader (List Selection)) : Reader Selection := do
  let position ← here
  match ← next with
  | .name first => readField room inner position first
  | .punctuator .spread => readFragment room inner
  | _ => failure

/-- Reads a selection; its sub-selections stand one bracket deeper. -/
def Selection.read : Nat → Reader Selection
  | 0 => readEither 0 failure
  | room + 1 => readEither (room + 1) (someUntil .braceClose (Selection.read room))

/-- Reads selections in braces. -/
def readSelections (room : Nat) : Reader (List Selection) := do
  punctuator .braceOpen
  match room with
  | 0 => failure
  | room + 1 => someUntil .braceClose (Selection.read room)

/-- Reads the definition of a variable. -/
def readVariable (room : Nat) : Reader Unit := do
  punctuator .dollar
  let _ ← Reader.name
  punctuator .colon
  let _ ← TypeExpr.read room
  if ← accept (Lexeme.isPunctuator .equals) then
    let _ ← readLiteral true room

/-- Reads an operation behind its keyword. -/
def Operation.read (kind : OperationKind) (room : Nat) : Reader Operation := do
  if ← nextIs Lexeme.isName then
    let _ ← Reader.name
  let _ ← ifOpened .parenOpen (fun room => someUntil .parenClose (readVariable room)) room
  let _ ← readDirectives room
  return ⟨kind, ← readSelections room⟩

/-- Reads a fragment behind its keyword. -/
def Fragment.read (room : Nat) : Reader Fragment := do
  let name ← Reader.name
  keyword "on"
  let condition ← Reader.name
  let _ ← readDirectives room
  return ⟨name, condition, ← readSelections room⟩

/-- Reads a definition of a query document. -/
def Executable.read (room : Nat) : Reader Executable := do
  if ← nextIs (Lexeme.isPunctuator .braceOpen) then
    return .operation ⟨.query, ← readSelections room⟩
  else
    match ← next with
    | .name "query" => return .operation (← Operation.read .query room)
    | .name "mutation" => return .operation (← Operation.read .mutation room)
    | .name "subscription" => return .operation (← Operation.read .subscription room)
    | .name "fragment" => return .fragment (← Fragment.read room)
    | _ => failure

/-- A query document; there has to be one definition at least. -/
def readQueryDocument (s : String) : Option QueryDocument :=
  Reader.readAll (do
    let definitions ← many (fun _ => true) (Executable.read nestingLimit)
    if definitions.isEmpty then failure else return ⟨definitions⟩) s

end GraphSchema.Syntax
