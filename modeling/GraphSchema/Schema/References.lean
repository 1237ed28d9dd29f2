/-
References between types.

Every type that a schema mentions has to be defined, and to be of a kind that fits the
place where it is mentioned: fields give output types, arguments and input fields take
input types, the members of unions are objects, and only interfaces are implemented.
Each reference that does not fit gives one error, in the order of the schema.
-/
import GraphSchema.Schema.TypeDef

namespace GraphSchema

/-- A reference that does not fit. -/
inductive ReferenceError where
  | implementsOther (type other : String) (location : Location)
  | implementsUndefined (type interface : String) (location : Location)
  | inputFieldOfOutputType (location : Location) (field type parent : String)
  | fieldOfInputType (location : Location) (field type parent : String)
  | parameterOfOutputType (location : Location) (parameter type : String)
  | memberOfOtherKind (location : Location) (union member : String) (kind : TypeKind)
  | undefined (location : Location) (name : String)

namespace ReferenceError

/-- The message of the error. -/
def message : ReferenceError → String
  | implementsOther _ _ _ => "Attempted to implement a type that is not defined as an interface"
  | implementsUndefined _ _ _ =>
    "Attempted to implement an interface that is not defined in the schema"
  | inputFieldOfOutputType _ field type parent =>
    "Input fields can not be declared with a non-input object type: The `" ++ parent ++ "."
      ++ field ++ "` field is an input field, but the `" ++ type ++ "` type is a non-input type."
  | fieldOfInputType _ field type parent =>
    "Output fields can not be declared with an input type: The `" ++ parent ++ "." ++ field
      ++ "` field is an output field, but the `" ++ type ++ "` type is an input-type"
  | parameterOfOutputType _ parameter type =>
    "Parameters can only be declared with input-compatible types: The `" ++ parameter
      ++ "` parameter was declared with the `" ++ type
      ++ "` type, which is not an input-compatible type."
  | memberOfOtherKind _ union member kind =>
    "Invalid union member type: The `" ++ union ++ "` type defines one of its members as `"
      ++ member ++ "`, but this type is a " ++ kind.name
      ++ " type and union members can only be object types."
  | undefined _ name => "There is no type defined with the name `" ++ name ++ "`"

end ReferenceError

namespace NameTable

/-- The kind of the type of a name. -/
def kindOf? (types : NameTable TypeDef) (name : String) : Option TypeKind :=
  (types.find? name).map TypeDef.kind

/-- What is wrong with the type of a parameter. -/
def parameterErrors (types : NameTable TypeDef) (p : Parameter) : List ReferenceError :=
  match types.kindOf? p.type.innermostName with
  | none => [.undefined p.location p.type.innermostName]
  | some kind =>
    if kind.isInput then [] else [.parameterOfOutputType p.location p.name p.type.innermostName]

/-- What is wrong with the type of an input field. -/
def inputFieldErrors (types : NameTable TypeDef) (parent : String) (p : Parameter) :
    List ReferenceError :=
  match types.kindOf? p.type.innermostName with
  | none => [.undefined p.location p.type.innermostName]
  | some kind =>
    if kind.isInput then []
    else [.inputFieldOfOutputType p.location p.name p.type.innermostName parent]

/-- What is wrong with the types of a field and of its arguments. -/
def fieldErrors (types : NameTable TypeDef) (parent : String) (f : Field) :
    List ReferenceError :=
  let own : List ReferenceError :=
    match types.kindOf? f.type.innermostName with
    | none => [.undefined f.location f.type.innermostName]
    | some kind =>
      if kind.isOutput then []
      else [.fieldOfInputType f.location f.name f.type.innermostName parent]
  own ++ f.parameters.toList.flatMap types.parameterErrors

/-- What is wrong with an interface that a type implements. -/
def interfaceErrors (types : NameTable TypeDef) (type : TypeDef) (interface : String) :
    List ReferenceError :=
  match types.kindOf? interface with
  | none => [.implementsUndefined type.name interface type.location]
  | some .interface => []
  | some _ => [.implementsOther type.name interface type.location]

/-- What is wrong with a member of a union. -/
def memberErrors (types : NameTable TypeDef) (union : String) (member : TypeRef) :
    List ReferenceError :=
  match types.kindOf? member.name with
  | none => [.undefined member.location member.name]
  | some .object => []
  | some kind => [.memberOfOtherKind member.location union member.name kind]

/-- What is wrong with the references of a type. -/
def typeErrors (types : NameTable TypeDef) (type : TypeDef) : List ReferenceError :=
  match type.body with
  | .enum _ | .scalar => []
  | .inputObject fields => fields.toList.flatMap (types.inputFieldErrors type.name)
  | .interface interfaces fields | .object interfaces fields =>
    interfaces.flatMap (types.interfaceErrors type)
      ++ fields.toList.flatMap (types.fieldErrors type.name)
  | .union members => members.toList.flatMap (types.memberErrors type.name)

/-- What is wrong with the references of types and of directives: the types come first. -/
def referenceErrors (types : NameTable TypeDef) (directives : NameTable Directive) :
    List ReferenceError :=
  types.toList.flatMap types.typeErrors
    ++ directives.toList.flatMap fun d => d.parameters.toList.flatMap types.parameterErrors

end NameTable

end GraphSchema
