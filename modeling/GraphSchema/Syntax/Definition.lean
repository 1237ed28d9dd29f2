/-
Schema documents as they are written.

A document is a list of items: type definitions, extensions of types, directive
definitions and schema blocks.  A definition and an extension of a type have the same
contents; the definition may also have a description.
-/
import GraphSchema.Syntax.Parts

namespace GraphSchema.Syntax

/-- An argument of a field or a directive, or a field of an input object. -/
structure InputValueSyntax where
  position : Position
  description : Option String
  name : String
  type : TypeExpr
  default : Option Literal
  directives : List DirectiveUse

/-- A field as the text defines it. -/
structure FieldSyntax where
  position : Position
  description : Option String
  name : String
  arguments : List InputValueSyntax
  type : TypeExpr
  directives : List DirectiveUse

/-- A value of an enum as the text defines it. -/
structure EnumValueSyntax where
  position : Position
  description : Option String
  name : String
  directives : List DirectiveUse

/-- What the six kinds of types are made of. -/
inductive TypeContents where
  | scalar
  | object (interfaces : List String) (fields : List FieldSyntax)
  | interface (interfaces : List String) (fields : List FieldSyntax)
  | union (members : List String)
  | enum (values : List EnumValueSyntax)
  | inputObject (fields : List InputValueSyntax)

/-- A type with its contents; the position is the one of the keyword. -/
structure TypeSyntax where
  position : Position
  name : String
  directives : List DirectiveUse
  contents : TypeContents

/-- The places that a directive may be applied to. -/
inductive DirectiveLocation where
  | argumentDefinition | enum | enumValue | field | fieldDefinition | fragmentDefinition
  | fragmentSpread | inlineFragment | inputFieldDefinition | inputObject | interface | mutation
  | object | query | scalar | schema | subscription | union | variableDefinition
  deriving DecidableEq, Repr

/-- A directive as the text defines it. -/
structure DirectiveSyntax where
  position : Position
  description : Option String
  name : String
  arguments : List InputValueSyntax
  repeatable : Bool
  locations : List DirectiveLocation

/-- A schema block: the types that it names as the roots of the operations. -/
structure SchemaBlock where
  position : Position
  query : Option String
  mutation : Option String
  subscription : Option String

/-- An item of a schema document. -/
inductive Item where
  | schemaBlock (block : SchemaBlock)
  | typeDefinition (description : Option String) (type : TypeSyntax)
  | typeExtension (type : TypeSyntax)
  | directiveDefinition (directive : DirectiveSyntax)

namespace DirectiveLocation

/-- Every place, in the order of the names. -/
def all : List DirectiveLocation :=
  [argumentDefinition, enum, enumValue, field, fieldDefinition, fragmentDefinition,
   fragmentSpread, inlineFragment, inputFieldDefinition, inputObject, interface, mutation,
   object, query, scalar, schema, subscription, union, variableDefinition]

/-- The words that the place's name is made of. -/
def words : DirectiveLocation → List String
  | argumentDefinition => ["ARGUMENT", "DEFINITION"]
  | enum => ["ENUM"]
  | enumValue => ["ENUM", "VALUE"]
  | field => ["FIELD"]
  | fieldDefinition => ["FIELD", "DEFINITION"]
  | fragmentDefinition => ["FRAGMENT", "DEFINITION"]
  | fragmentSpread => ["FRAGMENT", "SPREAD"]
  | inlineFragment => ["INLINE", "FRAGMENT"]
  | inputFieldDefinition => ["INPUT", "FIELD", "DEFINITION"]
  | inputObject => ["INPUT", "OBJECT"]
  | interface => ["INTERFACE"]
  | mutation => ["MUTATION"]
  | object => ["OBJECT"]
  | query => ["QUERY"]
  | scalar => ["SCALAR"]
  | schema => ["SCHEMA"]
  | subscription => ["SUBSCRIPTION"]
  | union => ["UNION"]
  | variableDefinition => ["VARIABLE", "DEFINITION"]

/-- The place as it is written in a document, such as `FIELD_DEFINITION`. -/
def text (location : DirectiveLocation) : String := "_".intercalate location.words

/-- The place as it is named in prose, such as `FieldDefinition`. -/
def camelName (location : DirectiveLocation) : String :=
  String.join (location.words.map fun word => word.toLower.capitalize)

/-- The place that is written in the given way. -/
def ofText? (s : String) : Option DirectiveLocation := all.find? fun location => location.text == s

end DirectiveLocation

end GraphSchema.Syntax
