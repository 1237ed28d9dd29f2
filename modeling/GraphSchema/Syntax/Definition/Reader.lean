/-
Reading schema documents.

A position belongs to the keyword of a type or a directive, behind its description, but
to the description of a field, an argument or an enum value that has one.  An extension
has to say something about its type; which parts count differs from kind to kind.
-/
import GraphSchema.Syntax.Definition

namespace GraphSchema.Syntax

open Reader

/-! ### Arguments, fields and values -/

/-- Reads an argument or an input field. -/
def InputValueSyntax.read (room : Nat) : Reader InputValueSyntax := do
  let position ← here
  let description ← string?
  let name ← Reader.name
  punctuator .colon
  let type ← TypeExpr.read room
  let default ←
    if ← accept (Lexeme.isPunctuator .equals) then
      some <$> readLiteral true room
    else
      pure none
  let directives ← readDirectives room
  return { position, description, name, type, default, directives }

/-- Reads the definitions of arguments, if there are any. -/
def readArgumentDefinitions (room : Nat) : Reader (List InputValueSyntax) :=
  ifOpened .parenOpen (fun room => someUntil .parenClose (InputValueSyntax.read room)) room

/-- A field, placed at its description if it has one. -/
def FieldSyntax.read (room : Nat) : Reader FieldSyntax := do
  let position ← here
  let description ← string?
  let name ← Reader.name
  let arguments ← readArgumentDefinitions room
  punctuator .colon
  let type ← TypeExpr.read room
  let directives ← readDirectives room
  return { position, description, name, arguments, type, directives }

/-- A value of an enum, placed at its description if it has one. -/
def EnumValueSyntax.read (room : Nat) : Reader EnumValueSyntax := do
  let position ← here
  let description ← string?
  let name ← Reader.name
  let directives ← readDirectives room
  return { position, description, name, directives }

/-- Reads items in braces, if there are any. -/
def inBraces {α : Type} (item : Nat → Reader α) (room : Nat) : Reader (List α) :=
  ifOpened .braceOpen (fun room => someUntil .braceClose (item room)) room

/-- Reads names that a punctuator separates, and that it may also precede. -/
def readNames (separator : Punctuator) : Reader (List String) := do
  let _ ← accept (Lexeme.isPunctuator separator)
  separated separator Reader.name

/-! ### Types -/

/-- Reads the interfaces of a type, if it names any. -/
def readInterfaces : Reader (List String) := do
  if ← accept (Lexeme.isKeyword "implements") then readNames .ampersand else return []

/-- Reads the members of a union, if it names any. -/
def readMembers : Reader (List String) := do
  if ← accept (Lexeme.isPunctuator .equals) then readNames .pipe else return []

/-- Reads a type from its keyword on. -/
def TypeSyntax.read (room : Nat) : Reader TypeSyntax := do
  let position ← here
  match ← next with
  | .name "scalar" =>
    let name ← Reader.name
    let directives ← readDirectives room
    return { position, name, directives, contents := .scalar }
  | .name "type" =>
    let name ← Reader.name
    let interfaces ← readInterfaces
    let directives ← readDirectives room
    let fields ← inBraces FieldSyntax.read room
    return { position, name, directives, contents := .object interfaces fields }
  | .name "interface" =>
    let name ← Reader.name
    let interfaces ← readInterfaces
    let directives ← readDirectives room
    let fields ← inBraces FieldSyntax.read room
    return { position, name, directives, contents := .interface interfaces fields }
  | .name "union" =>
    let name ← Reader.name
    let directives ← readDirectives room
    let members ← readMembers
    return { position, name, directives, contents := .union members }
  | .name "enum" =>
    let name ← Reader.name
    let directives ← readDirectives room
    let values ← inBraces EnumValueSyntax.read room
    return { position, name, directives, contents := .enum values }
  | .name "input" =>
    let name ← Reader.name
    let directives ← readDirectives room
    let fields ← inBraces InputValueSyntax.read room
    return { position, name, directives, contents := .inputObject fields }
  | _ => failure

/-- Whether a type says enough to be an extension.  Interfaces alone are enough for an
object type, but not for an interface. -/
def TypeSyntax.isExtension (type : TypeSyntax) : Bool :=
  !type.directives.isEmpty || match type.contents with
    | .scalar => false
    | .object interfaces fields => !interfaces.isEmpty || !fields.isEmpty
    | .interface _ fields => !fields.isEmpty
    | .union members => !members.isEmpty
    | .enum values => !values.isEmpty
    | .inputObject fields => !fields.isEmpty

/-! ### Directives -/

/-- Reads the name of a place that a directive may be applied to. -/
def DirectiveLocation.read : Reader DirectiveLocation := do
  match DirectiveLocation.ofText? (← Reader.name) with
  | some location => return location
  | none => failure

/-- Reads the places of a directive.  There may be none, unless a separator announces
them. -/
def readLocations : Reader (List DirectiveLocation) := do
  let announced ← accept (Lexeme.isPunctuator .pipe)
  if announced || (← nextIs Lexeme.isName) then separated .pipe DirectiveLocation.read
  else return []

/-- Reads a directive definition behind its description. -/
def DirectiveSyntax.read (description : Option String) (room : Nat) : Reader DirectiveSyntax := do
  let position ← here
  keyword "directive"
  punctuator .at
  let name ← Reader.name
  let arguments ← readArgumentDefinitions room
  let repeatable ← accept (Lexeme.isKeyword "repeatable")
  keyword "on"
  let locations ← readLocations
  return { position, description, name, arguments, repeatable, locations }

/-! ### Schema blocks -/

/-- Adds an entry to a schema block, if it names an operation that has none yet. -/
def SchemaBlock.add? (block : SchemaBlock) : String × String → Option SchemaBlock
  | ("query", type) => if block.query.isSome then none else some { block with query := type }
  | ("mutation", type) =>
    if block.mutation.isSome then none else some { block with mutation := type }
  | ("subscription", type) =>
    if block.subscription.isSome then none else some { block with subscription := type }
  | _ => none

/-- A block of roots.  It fails on a name that is no operation, and on an operation named twice. -/
def SchemaBlock.read (room : Nat) : Reader SchemaBlock := do
  let position ← here
  keyword "schema"
  let _ ← readDirectives room
  punctuator .braceOpen
  let entries ← manyUntil .braceClose do
    let operation ← Reader.name
    punctuator .colon
    return (operation, ← Reader.name)
  (entries.foldlM SchemaBlock.add? ⟨position, none, none, none⟩ : Option SchemaBlock)

/-! ### Documents -/

/-- Reads an item of a schema document. -/
def Item.read (room : Nat) : Reader Item := do
  match ← string? with
  | some description => described description
  | none =>
    if ← nextIs (Lexeme.isKeyword "schema") then
      return .schemaBlock (← SchemaBlock.read room)
    else if ← accept (Lexeme.isKeyword "extend") then
      let type ← TypeSyntax.read room
      if type.isExtension then return .typeExtension type else failure
    else
      described none
where
  described (description : Option String) : Reader Item := do
    if ← nextIs (Lexeme.isKeyword "directive") then
      return .directiveDefinition (← DirectiveSyntax.read description room)
    else
      return .typeDefinition description (← TypeSyntax.read room)

/-- The items of a schema document; there has to be one at least. -/
def readSchemaDocument (s : String) : Option (List Item) :=
  Reader.readAll (do
    let items ← many (fun _ => true) (Item.read nestingLimit)
    if items.isEmpty then failure else return items) s

end GraphSchema.Syntax
