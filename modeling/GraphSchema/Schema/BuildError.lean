/-
Why a schema cannot be built.

An error keeps all places that are involved, and its message tells which of the rules has
been broken.
-/
import GraphSchema.OperationKind
import GraphSchema.ReadError
import GraphSchema.Schema.References

namespace GraphSchema

/-- A type that a schema block names as the root of an operation, and where it does so. -/
structure RootDeclaration where
  location : Location
  type : String

/-- Why no schema is built, with the places that the report shows. -/
inductive BuildError where
  | duplicateDirective (name : String) (first second : Location)
  | duplicateEnumValue (enum : String) (enumLocation first second : Location)
  | duplicateField (type field : String) (first second : Location)
  | duplicateInterface (location : Location) (interface type : String)
  | duplicateRoot (operation : OperationKind) (first second : RootDeclaration)
  | duplicateType (name : String) (first second : Location)
  | duplicateMember (union member : String) (location : Location)
  | extensionOfUndefined (type : String) (location : Location)
  | reservedDirective (location : Location) (name : String)
  | reservedField (location : Location) (field type : String)
  | reservedParameter (location : Location) (field parameter type : String)
  | reservedType (location : Location) (name : String)
  | extensionOfOtherKind (type : String) (kind extension : TypeKind) (location : Location)
  | rootNotObject (operation : OperationKind) (location : Location) (type : String)
  | selfImplementing (location : Location) (interface : String)
  | noQuery
  | sharedRoot (type : String) (operation : OperationKind) (location : Location)
      (operation' : OperationKind) (location' : Location)
  | unparsable (file : FilePath)
  | unreadable (error : ReadError)
  | badReferences (errors : List ReferenceError)

namespace BuildError

/-- The message of an error. -/
def message : BuildError → String
  | duplicateDirective name _ _ =>
    "Multiple directives were defined with the same name: `@" ++ name ++ "`"
  | duplicateEnumValue enum _ _ _ =>
    "Multiple enum values with the same name were defined on the `" ++ enum ++ "` enum type"
  | duplicateField type field _ _ =>
    "Multiple fields named `" ++ type ++ "." ++ field ++ "` were defined on a single type"
  | duplicateInterface _ interface type =>
    "The `" ++ type ++ "` type declares that it implements the `" ++ interface
      ++ "` interface more than once"
  | duplicateRoot operation _ _ =>
    "Multiple definitions of the " ++ operation.name ++ " root operation type were defined"
  | duplicateType name _ _ => "Multiple GraphQL types named `" ++ name ++ "` were defined"
  | duplicateMember union member _ =>
    "The `" ++ union ++ "` union specifies `" ++ member ++ "` as a member multiple times"
  | extensionOfUndefined type _ =>
    "Attempted to extend the `" ++ type ++ "` type, which is not defined elsewhere"
  | reservedDirective _ _ => "Custom directive names must not start with `__`"
  | reservedField _ _ _ => "Field names must not start with `__`"
  | reservedParameter _ _ _ _ => "Parameter names must not start with `__`"
  | reservedType _ _ => "Type names must not start with `__`"
  | extensionOfOtherKind type kind extension _ =>
    "Attempted to extend the `" ++ type ++ "` " ++ kind.name ++ " type with a " ++ extension.name
      ++ " type extension"
  | rootNotObject operation _ type =>
    "The " ++ operation.name ++ " root operation type is declared as `" ++ type
      ++ "`, which is not an object type defined in the schema"
  | selfImplementing _ interface =>
    "Interface types may not declare that they implement themselves: The `" ++ interface
      ++ "` interface does just that"
  | noQuery => "Attempted to build a schema that has no Query operation type defined"
  | sharedRoot _ operation _ operation' _ =>
    "The " ++ operation.name ++ " and " ++ operation'.name
      ++ " root operation are defined with the same GraphQL type, but this is not allowed in "
      ++ "GraphQL. All root operations must be defined with different types."
  | unparsable file => "Error parsing schema from " ++ file.quoted ++ ": schema parse error: "
  | unreadable error => "Failure while trying to read a schema file from disk: " ++ error.message
  | badReferences errors =>
    "Encountered the following type-validation errors while building the schema:\n\n"
      ++ "\n".intercalate (errors.map fun error => "  * " ++ error.message)

end BuildError

end GraphSchema
