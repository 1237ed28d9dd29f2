/-
Schemas as documents.

A schema is written as its roots, its directives and its types, with blank lines between
them.  What every schema has is left out, and the types are sorted by name; or else only
what every schema has is written, in its own order.
-/
import GraphSchema.Sdl.Description
import GraphSchema.Sdl.Value

namespace GraphSchema.Sdl

/-! ### Parts of types -/

/-- Lines in braces, or nothing if there are none. -/
def block (items : List String) : String :=
  if items.isEmpty then "" else " \x7b\n" ++ "\n".intercalate items ++ "\n\x7d"

/-- The items of a block, each told whether it is the first. -/
def blockItems {α : Type} (item : Bool → α → String) : List α → List String
  | [] => []
  | first :: others => item true first :: others.map (item false)

/-- The directive that deprecates, with its reason if there is one. -/
def deprecationText : Option String → String
  | none => ""
  | some reason =>
    if reason.isEmpty then " @deprecated" else " @deprecated(reason: " ++ quoted reason ++ ")"

/-- A parameter with its type, and its default as a value of that type. -/
def parameterText (schema : Schema) (p : Parameter) : String :=
  p.name ++ ": " ++ p.type.text
    ++ match p.default with
      | some value => " = " ++ valueText schema value p.type
      | none => ""

/-- Parameters in parentheses: on one line, unless one of them has a description. -/
def parametersText (schema : Schema) (parameters : List Parameter) (indent : String) : String :=
  if parameters.isEmpty then ""
  else if parameters.all fun p => p.description.isNone then
    "(" ++ ", ".intercalate (parameters.map (parameterText schema)) ++ ")"
  else
    let deeper := "  " ++ indent
    let item (first : Bool) (p : Parameter) : String :=
      descriptionText p.description deeper first ++ deeper ++ parameterText schema p
    "(\n" ++ "\n".intercalate (blockItems item parameters) ++ "\n" ++ indent ++ ")"

/-- A field below its description.  The first of a block has no blank line above it. -/
def fieldText (schema : Schema) (first : Bool) (f : Field) : String :=
  descriptionText f.description "  " first ++ "  " ++ f.name
    ++ parametersText schema f.parameters.toList "  " ++ ": " ++ f.type.text
    ++ deprecationText f.deprecation

/-- A value of an enum below its description. -/
def enumValueText (first : Bool) (v : EnumValue) : String :=
  descriptionText v.description "  " first ++ "  " ++ v.name ++ deprecationText v.deprecation

/-- A field of an input type below its description. -/
def inputFieldText (schema : Schema) (first : Bool) (p : Parameter) : String :=
  descriptionText p.description "  " first ++ "  " ++ parameterText schema p

/-- The interfaces a type declares, in the order in which it does. -/
def implementsText (interfaces : List String) : String :=
  if interfaces.isEmpty then "" else " implements " ++ " & ".intercalate interfaces

/-! ### Definitions -/

/-- The fields of a type in their block, in the order of their names. -/
def fieldsText (schema : Schema) (fields : NameTable Field) : String :=
  block (blockItems (fieldText schema) fields.toList)

/-- The definition of a type below its description. -/
def typeText (schema : Schema) (t : TypeDef) : String :=
  descriptionText t.description "" true ++ match t.body with
    | .enum values => "enum " ++ t.name ++ block (blockItems enumValueText values.toList)
    | .inputObject fields =>
      "input " ++ t.name ++ block (blockItems (inputFieldText schema) fields.toList)
    | .interface interfaces fields =>
      "interface " ++ t.name ++ implementsText interfaces ++ fieldsText schema fields
    | .object interfaces fields =>
      "type " ++ t.name ++ implementsText interfaces ++ fieldsText schema fields
    | .scalar => "scalar " ++ t.name
    | .union members =>
      "union " ++ t.name
        ++ if members.isEmpty then "" else " = " ++ " | ".intercalate members.names

/-- The definition of a directive below its description. -/
def directiveText (schema : Schema) (d : Directive) : String :=
  descriptionText d.description "" true ++ "directive @" ++ d.name
    ++ parametersText schema d.parameters.toList ""
    ++ (if d.repeatable then " repeatable" else "")
    ++ " on " ++ " | ".intercalate (d.locations.map (·.text))

/-- The block of the types that operations start from, written out even where these have the names
that go without saying. -/
def rootsText (schema : Schema) : String :=
  let line (operation : OperationKind) : String :=
    match schema.root operation with
    | some type => "  " ++ operation.keyword ++ ": " ++ type ++ "\n"
    | none => ""
  "schema \x7b\n" ++ String.join (OperationKind.all.map line) ++ "\x7d"

/-- The roots with some directives and types. -/
def documentText (schema : Schema) (directives : List Directive) (types : List TypeDef) : String :=
  "\n\n".intercalate
    (rootsText schema :: directives.map (directiveText schema) ++ types.map (typeText schema))

/-- The types that a schema is written with, sorted by name. -/
def ownTypes (schema : Schema) : List TypeDef :=
  (schema.types.toList.filter fun t =>
    !Builtin.isReserved t.name && !Builtin.scalarNames.contains t.name).mergeSort
    fun a b => a.name ≤ b.name

end GraphSchema.Sdl

namespace GraphSchema

/-- A schema as a document, without what every schema has. -/
def Schema.sdl (schema : Schema) : String :=
  Sdl.documentText schema (schema.directives.toList.filter fun d => !d.isBuiltin)
    (Sdl.ownTypes schema)

/-- The directives and introspection types of a schema as a document. -/
def Schema.introspectionSdl (schema : Schema) : String :=
  Sdl.documentText schema (schema.directives.toList.filter Directive.isBuiltin)
    (schema.types.toList.filter fun t => Builtin.isReserved t.name)

end GraphSchema
