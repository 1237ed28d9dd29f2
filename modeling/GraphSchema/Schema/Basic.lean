/-
Schemas, and the object types that a value of some type can have.

All references inside of a schema are by name, and are looked up in its table of types.
-/
import GraphSchema.OperationKind
import GraphSchema.Schema.TypeDef

namespace GraphSchema

/-- A schema that has been built, with the name of the type that each operation starts from. -/
structure Schema where
  types : NameTable TypeDef
  directives : NameTable Directive
  query : String
  mutation : Option String
  subscription : Option String
  deriving BEq

namespace Schema

/-- The name of the root type of an operation, if the schema has one. -/
def root (schema : Schema) : OperationKind → Option String
  | .query => some schema.query
  | .mutation => schema.mutation
  | .subscription => schema.subscription

/-- The type with a name. -/
def type? (schema : Schema) (name : String) : Option TypeDef := schema.types.find? name

/-- The directive with a name. -/
def directive? (schema : Schema) (name : String) : Option Directive :=
  schema.directives.find? name

/-- The interfaces among the types that a type says it implements. -/
def interfacesOf (schema : Schema) (type : TypeDef) : List TypeDef :=
  (type.interfaceNames.filterMap schema.type?).filter fun t => t.kind == .interface

/-- The types among the names of a union's members. -/
def membersOf (schema : Schema) (type : TypeDef) : List TypeDef :=
  type.memberNames.filterMap schema.type?

/-! ### Possible types -/

/-- Whether an interface is among the names `todo` or among those that can be reached from
them by implementing.  A name is followed only once, while it is among `unvisited`. -/
def reaches (schema : Schema) (target : String) (unvisited todo : List String) : Bool :=
  match todo with
  | [] => false
  | name :: rest =>
    if name = target then true
    else if _visit : name ∈ unvisited then
      let further := (schema.type? name).elim [] TypeDef.interfaceNames
      reaches schema target (unvisited.erase name) (further ++ rest)
    else
      reaches schema target unvisited rest
termination_by (unvisited.length, todo.length)
decreasing_by
  · have := List.length_erase_of_mem _visit
    have := List.length_pos_of_mem _visit
    exact Prod.Lex.left _ _ (by omega)
  · exact Prod.Lex.right _ (by simp)

/-- Whether a type implements an interface, directly or through other interfaces. -/
def implements (schema : Schema) (type : TypeDef) (interface : String) : Bool :=
  schema.reaches interface schema.types.names type.interfaceNames

/-- The names of the object types that a value of the named type can have: an object type
is only itself, an interface is whatever implements it, a union is any of its members. -/
def possibleTypes (schema : Schema) (name : String) : List String :=
  match schema.type? name with
  | none => []
  | some type =>
    match type.body with
    | .object _ _ => [type.name]
    | .interface _ _ =>
      (schema.types.toList.filter fun t => t.isObject && schema.implements t name).map TypeDef.name
    | .union members => members.names
    | .enum _ | .inputObject _ | .scalar => []

end Schema

/-- Why looking up a name fails. -/
inductive LookupError where
  | dangling (name : String)

/-- The message of a failed lookup. -/
def LookupError.message : LookupError → String
  | .dangling name => "No resource named `" ++ name ++ "` is defined"

/-- The type of a name, which has to be defined. -/
def Schema.lookup (schema : Schema) (name : String) : Except LookupError TypeDef :=
  match schema.type? name with
  | some type => .ok type
  | none => .error (.dangling name)

end GraphSchema
