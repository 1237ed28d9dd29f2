/-
Schemas without their places.

Where something is defined is kept for messages.  Two schemas that are the same but for that are
equal once all places in sources have been made one (`Schema.unplaced`).

Leaving out places is done to schemas that are finished.  Before that it would not be harmless,
since the comments that describe an element are found by its place.
-/
import GraphSchema.Proofs.Tables
import GraphSchema.Schema.Basic
import GraphSchema.Schema.References

namespace GraphSchema

/-- The position of everything once positions do not matter. -/
def Syntax.nowhere : Syntax.Position := ⟨0, 0⟩

/-- The source of everything once sources do not matter. -/
def noFile : FilePath := ⟨""⟩

/-- Any place in a source is one; what belongs to the language does so still. -/
def Location.unplaced : Location → Location
  | .builtin => .builtin
  | .source _ _ => .source noFile Syntax.nowhere

/-- The parameter without the place where it is defined. -/
def Parameter.unplaced (p : Parameter) : Parameter := { p with location := p.location.unplaced }

theorem Parameter.name_unplaced (p : Parameter) : Named.name p.unplaced = Named.name p := rfl

/-- The field without the places of itself and its arguments. -/
def Field.unplaced (f : Field) : Field :=
  { f with
    location := f.location.unplaced
    parameters := f.parameters.map Parameter.unplaced Parameter.name_unplaced }

theorem Field.name_unplaced (f : Field) : Named.name f.unplaced = Named.name f := rfl

/-- The value without the place where it is defined. -/
def EnumValue.unplaced (v : EnumValue) : EnumValue := { v with location := v.location.unplaced }

theorem EnumValue.name_unplaced (v : EnumValue) : Named.name v.unplaced = Named.name v := rfl

/-- The reference without the place where it stands. -/
def TypeRef.unplaced (r : TypeRef) : TypeRef := { r with location := r.location.unplaced }

theorem TypeRef.name_unplaced (r : TypeRef) : Named.name r.unplaced = Named.name r := rfl

/-- What a type has, each part without its place. -/
def TypeBody.unplaced : TypeBody → TypeBody
  | .enum values => .enum (values.map EnumValue.unplaced EnumValue.name_unplaced)
  | .inputObject fields => .inputObject (fields.map Parameter.unplaced Parameter.name_unplaced)
  | .interface interfaces fields => .interface interfaces (fields.map Field.unplaced Field.name_unplaced)
  | .object interfaces fields => .object interfaces (fields.map Field.unplaced Field.name_unplaced)
  | .scalar => .scalar
  | .union members => .union (members.map TypeRef.unplaced TypeRef.name_unplaced)

/-- The type without the places of itself and its parts. -/
def TypeDef.unplaced (t : TypeDef) : TypeDef :=
  { t with location := t.location.unplaced, body := t.body.unplaced }

theorem TypeDef.name_unplaced (t : TypeDef) : Named.name t.unplaced = Named.name t := rfl

/-- The directive without the places of itself and its parameters. -/
def Directive.unplaced (d : Directive) : Directive :=
  { d with
    location := d.location.unplaced
    parameters := d.parameters.map Parameter.unplaced Parameter.name_unplaced }

theorem Directive.name_unplaced (d : Directive) : Named.name d.unplaced = Named.name d := rfl

/-- The types without their places. -/
def NameTable.unplaced (types : NameTable TypeDef) : NameTable TypeDef :=
  types.map TypeDef.unplaced TypeDef.name_unplaced

/-- The schema without any place. -/
def Schema.unplaced (schema : Schema) : Schema :=
  { schema with
    types := schema.types.unplaced
    directives := schema.directives.map Directive.unplaced Directive.name_unplaced }

@[simp] theorem TypeBody.kind_unplaced (body : TypeBody) : body.unplaced.kind = body.kind := by
  cases body <;> rfl

/-- Kinds have no place. -/
theorem NameTable.kindOf?_unplaced (types : NameTable TypeDef) (name : String) :
    types.unplaced.kindOf? name = types.kindOf? name := by
  unfold kindOf? unplaced
  rw [find?_map, Option.map_map]
  refine congrArg (Option.map · _) (funext fun t => ?_)
  exact t.body.kind_unplaced

end GraphSchema
