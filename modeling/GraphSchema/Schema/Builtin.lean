/-
What every schema has: the scalar types, the directives and the introspection types of
the language.

They are given as data.  How they come into a schema is said where drafts are built.
-/
import GraphSchema.Schema.TypeDef

namespace GraphSchema.Builtin

/-! ### Scalars -/

/-- The names of the scalar types of the language. -/
def scalarNames : List String := ["String", "Boolean", "Int", "Float", "ID"]

/-- The built-in scalars, each defined at no place. -/
def scalars : List TypeDef := scalarNames.map fun name => ⟨name, none, .builtin, .scalar⟩

/-! ### Types of fields -/

/-- A type that allows null. -/
private def optional (name : String) : WrappedType := .named name true

/-- A type that does not allow null. -/
private def required (name : String) : WrappedType := .named name false

/-- A list that may be null, of items that may not. -/
private def listOf (name : String) : WrappedType := .list (required name) true

/-- A list that may not be null, nor may its items. -/
private def requiredListOf (name : String) : WrappedType := .list (required name) false

/-! ### Directives -/

/-- The parameter of the directives that leave a selection out. -/
private def condition (description : String) : Parameter :=
  ⟨"if", some description, .builtin, required "Boolean", none⟩

/-- The directives of the language. -/
def directives : List Directive :=
  [⟨"skip", some "Ignore this part of the query if `if` is true", .builtin,
      .ofList [condition "Skipped when true."], false,
      [.field, .fragmentSpread, .inlineFragment]⟩,
   ⟨"include", some "Include this part of the query if `if` is true", .builtin,
      .ofList [condition "Included when true."], false,
      [.field, .fragmentSpread, .inlineFragment]⟩,
   ⟨"deprecated", some "Marks an element of a GraphQL schema as no longer supported.", .builtin,
      .ofList
        [⟨"reason",
          some ("Explains why this element was deprecated, usually also including a suggestion "
            ++ "for how to access supported similar data. Formatted in "
            ++ "[Markdown](https://daringfireball.net/projects/markdown/)."),
          .builtin, required "String", some (.string "No longer supported")⟩],
      false, [.fieldDefinition, .enumValue]⟩]

/-! ### Introspection types -/

/-- A field of a type of the introspection. -/
private def field (parent name : String) (type : WrappedType) (parameters : List Parameter)
    (deprecation : Option String) : Field :=
  ⟨name, none, .builtin, parent, .ofList parameters, type, deprecation⟩

/-- A field without arguments. -/
private def plain (name : String) (type : WrappedType) (parent : String) : Field :=
  field parent name type [] none

/-- A field whose content is now in the list of locations. -/
private def moved (name : String) (parent : String) : Field :=
  field parent name (required "Boolean") [] (some "Moved to 'locations' field")

/-- A field that lists deprecated parts only on demand. -/
private def withDeprecated (name : String) (type : WrappedType) (parent : String) : Field :=
  field parent name type
    [⟨"includeDeprecated", none, .builtin, optional "Boolean", some (.boolean false)⟩] none

/-- An object type of the introspection. -/
private def object (name description : String) (fields : List (String → Field)) : TypeDef :=
  ⟨name, some description, .builtin, .object [] (.ofList (fields.map fun field => field name))⟩

/-- An enum of the introspection. -/
private def enum (name description : String) (values : List String) : TypeDef :=
  ⟨name, some description, .builtin,
    .enum (.ofList (values.map fun value => ⟨value, none, .builtin, name, none⟩))⟩

/-- The types by which a schema can be asked about itself. -/
def introspection : List TypeDef :=
  [object "__Directive" "A query directive in this schema"
    [plain "name" (required "String"),
     plain "description" (optional "String"),
     plain "args" (requiredListOf "__InputValue"),
     plain "locations" (requiredListOf "__DirectiveLocation"),
     moved "onOperation",
     moved "onFragment",
     moved "onField"],
   enum "__DirectiveLocation" "Parts of the query where a directive may be located"
    ["QUERY", "MUTATION", "SUBSCRIPTION", "FIELD", "FIELD_DEFINITION", "FRAGMENT_DEFINITION",
     "FRAGMENT_SPREAD", "INLINE_FRAGMENT", "ENUM_VALUE"],
   object "__EnumValue" "A possible value for an Enum"
    [plain "name" (required "String"),
     plain "description" (optional "String"),
     plain "deprecationReason" (optional "String"),
     plain "isDeprecated" (required "Boolean")],
   object "__Field" "Field on a GraphQL type"
    [plain "name" (required "String"),
     plain "description" (optional "String"),
     plain "type" (required "__Type"),
     plain "isDeprecated" (required "Boolean"),
     plain "args" (requiredListOf "__InputValue"),
     plain "deprecationReason" (optional "String")],
   object "__InputValue" "An input for a field or InputObject"
    [plain "name" (required "String"),
     plain "description" (optional "String"),
     plain "type" (required "__Type"),
     plain "defaultValue" (optional "String")],
   object "__Schema" "A GraphQL schema"
    [plain "types" (requiredListOf "__Type"),
     plain "directives" (requiredListOf "__Directive"),
     plain "queryType" (required "__Type"),
     plain "mutationType" (optional "__Type"),
     plain "subscriptionType" (optional "__Type")],
   object "__Type" "A type in the GraphQL schema"
    [plain "name" (optional "String"),
     plain "description" (optional "String"),
     plain "kind" (required "__TypeKind"),
     withDeprecated "fields" (listOf "__Field"),
     plain "ofType" (optional "__Type"),
     plain "inputFields" (listOf "__InputValue"),
     plain "possibleTypes" (listOf "__Type"),
     withDeprecated "enumValues" (listOf "__EnumValue"),
     plain "interfaces" (listOf "__Type")],
   enum "__TypeKind" "The kinds of types in this GraphQL system"
    ["SCALAR", "OBJECT", "INTERFACE", "UNION", "ENUM", "INPUT_OBJECT", "LIST", "NON_NULL"]]

/-- Whether a name is reserved for the language: it begins with two underscores. -/
def isReserved (name : String) : Bool := "__".toList.isPrefixOf name.toList

end GraphSchema.Builtin
