/-
Types and directives, and what they are made of.

A schema holds both by name, and a type is referred to by name only.  Two
parts of a schema are the same (`==`) if they agree in everything, the places of their
definitions included; tables are compared regardless of order, and a reference is the
same as another one of the same name, wherever the two are written.
-/
import GraphSchema.Literal
import GraphSchema.NameTable
import GraphSchema.Schema.Location
import GraphSchema.Schema.WrappedType
import GraphSchema.Syntax.Definition

namespace GraphSchema

/-! ### Kinds -/

/-- The kind of a type. -/
inductive TypeKind where
  | enum | inputObject | interface | object | scalar | union
  deriving DecidableEq, Repr

namespace TypeKind

/-- The name of a kind as messages write it. -/
def name : TypeKind → String
  | enum => "Enum"
  | inputObject => "InputObject"
  | interface => "Interface"
  | object => "Object"
  | scalar => "Scalar"
  | union => "Union"

/-- Whether arguments and input fields may have a type of this kind. -/
def isInput : TypeKind → Bool
  | enum | inputObject | scalar => true
  | interface | object | union => false

/-- Whether fields of objects and interfaces may have a type of this kind. -/
def isOutput : TypeKind → Bool
  | inputObject => false
  | _ => true

end TypeKind

/-! ### Parts of types -/

/-- A reference to a type by name. -/
structure TypeRef where
  name : String
  location : Location

instance : Named TypeRef := ⟨TypeRef.name⟩

instance : BEq TypeRef := ⟨fun a b => a.name == b.name⟩

/-- An argument of a field or a directive, or a field of an input object. -/
structure Parameter where
  name : String
  description : Option String
  location : Location
  type : WrappedType
  default : Option Literal
  deriving BEq

instance : Named Parameter := ⟨Parameter.name⟩

/-- Whether a value has to be given: null is refused and there is no default. -/
def Parameter.isRequired (p : Parameter) : Bool := p.type.isRequired && p.default.isNone

/-- A field of an object type or an interface, whose name is `parent`.  The deprecation
is the reason for it, which may be empty. -/
structure Field where
  name : String
  description : Option String
  location : Location
  parent : String
  parameters : NameTable Parameter
  type : WrappedType
  deprecation : Option String
  deriving BEq

instance : Named Field := ⟨Field.name⟩

/-- A value of the enum type whose name is `owner`. -/
structure EnumValue where
  name : String
  description : Option String
  location : Location
  owner : String
  deprecation : Option String
  deriving BEq

instance : Named EnumValue := ⟨EnumValue.name⟩

/-! ### Types -/

/-- What a type of each kind is made of. -/
inductive TypeBody where
  | enum (values : NameTable EnumValue)
  | inputObject (fields : NameTable Parameter)
  | interface (interfaces : List String) (fields : NameTable Field)
  | object (interfaces : List String) (fields : NameTable Field)
  | scalar
  | union (members : NameTable TypeRef)
  deriving BEq

/-- A type of a schema. -/
structure TypeDef where
  name : String
  description : Option String
  location : Location
  body : TypeBody
  deriving BEq

instance : Named TypeDef := ⟨TypeDef.name⟩

namespace TypeBody

/-- The kind of a type that has these parts. -/
def kind : TypeBody → TypeKind
  | enum _ => .enum
  | inputObject _ => .inputObject
  | interface _ _ => .interface
  | object _ _ => .object
  | scalar => .scalar
  | union _ => .union

/-- A type of the given kind that is made of nothing. -/
def empty : TypeKind → TypeBody
  | .enum => .enum ∅
  | .inputObject => .inputObject ∅
  | .interface => .interface [] ∅
  | .object => .object [] ∅
  | .scalar => .scalar
  | .union => .union ∅

@[simp] theorem kind_empty (k : TypeKind) : (empty k).kind = k := by cases k <;> rfl

end TypeBody

namespace TypeDef

/-- The kind of the type. -/
def kind (t : TypeDef) : TypeKind := t.body.kind

/-- Whether the type is an object type. -/
def isObject (t : TypeDef) : Bool := t.kind == .object

/-- Whether the type belongs to the language itself. -/
def isBuiltin (t : TypeDef) : Bool := t.location.isBuiltin

/-- The names of the interfaces that an object type or an interface implements. -/
def interfaceNames (t : TypeDef) : List String :=
  match t.body with
  | .interface interfaces _ | .object interfaces _ => interfaces
  | _ => []

/-- The fields of an object type or an interface. -/
def fields? (t : TypeDef) : Option (NameTable Field) :=
  match t.body with
  | .interface _ fields | .object _ fields => some fields
  | _ => none

/-- The fields of an input object. -/
def inputFields? (t : TypeDef) : Option (NameTable Parameter) :=
  match t.body with
  | .inputObject fields => some fields
  | _ => none

/-- The values of an enum, and none of any other type. -/
def enumValues? (t : TypeDef) : Option (NameTable EnumValue) :=
  match t.body with
  | .enum values => some values
  | _ => none

/-- The names of the members of a union. -/
def memberNames (t : TypeDef) : List String :=
  match t.body with
  | .union members => members.names
  | _ => []

end TypeDef

/-! ### Directives -/

/-- A directive of a schema, with the places where documents may use it. -/
structure Directive where
  name : String
  description : Option String
  location : Location
  parameters : NameTable Parameter
  repeatable : Bool
  locations : List Syntax.DirectiveLocation
  deriving BEq

instance : Named Directive := ⟨Directive.name⟩

/-- The names of the directives that every schema has, its own of that name or not. -/
def Directive.builtinNames : List String := ["skip", "include", "deprecated"]

/-- Whether the directive has the name of one that every schema has. -/
def Directive.isBuiltin (d : Directive) : Bool := builtinNames.contains d.name

end GraphSchema
