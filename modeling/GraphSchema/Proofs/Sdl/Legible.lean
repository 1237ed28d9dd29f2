/-
What can be read back when it is written.

A built schema may hold what its document cannot say: a description whose lines end at a
carriage return, a string that is no name where an enum value is due, a default that nests
deeper once it has been put into lists.  `Schema.Legible` leaves these out.  It is decidable, so
that for a given schema one can tell.

The conditions are enough for a document to come back.  Each of them is also there for a reason:
beside the theorem stands a document for each that does not come back without it.  But a schema may
fail them and be written the same again.  A string such as `1` or `[A]` at an enum type, and a float
that is positively infinite, are written bare and come back as another literal, a number, a list or
a name, of the same text.
-/
import GraphSchema.Proofs.Schema.Linked
import GraphSchema.Proofs.Schema.Sound
import GraphSchema.Proofs.Sdl.Value
import GraphSchema.Sdl.Document

namespace GraphSchema

namespace Sdl

/-- The description can be written as a comment: no line of it ends too early. -/
def Commentable (description : Option String) : Prop := ∀ d ∈ description, '\r' ∉ d.toList

/-- The reason for a deprecation can be written as a string. -/
def ReasonLegible (deprecation : Option String) : Prop :=
  ∀ reason ∈ deprecation, '\x08' ∉ reason.toList

end Sdl

open Sdl Syntax

instance (form : Form) : Decidable form.Legible := inferInstanceAs (Decidable (∀ lexeme ∈ form.lexemes, lexeme.Legible))

/-- The argument can be read back where brackets may nest as deeply as there is room. -/
structure Parameter.Legible (schema : Schema) (room : Nat) (p : Parameter) : Prop where
  description : Commentable p.description
  default : ∀ v ∈ p.default,
    (valueForm schema v p.type).Legible ∧ (valueForm schema v p.type).depth ≤ room

/-- A field can be written down if its description, its arguments and its deprecation can be. -/
structure Field.Legible (schema : Schema) (room : Nat) (f : Field) : Prop where
  description : Commentable f.description
  parameters : ∀ p ∈ f.parameters.toList, p.Legible schema (room - 1)
  deprecation : ReasonLegible f.deprecation

/-- A value of an enum can be written down if its description and its deprecation can be. -/
structure EnumValue.Legible (v : EnumValue) : Prop where
  description : Commentable v.description
  deprecation : ReasonLegible v.deprecation

/-- What a type is made of can be read back. -/
def TypeBody.Legible (schema : Schema) (room : Nat) : TypeBody → Prop
  | .enum values => ∀ v ∈ values.toList, v.Legible
  | .inputObject fields => ∀ p ∈ fields.toList, p.Legible schema (room - 1)
  | .interface _ fields | .object _ fields => ∀ f ∈ fields.toList, f.Legible schema (room - 1)
  | .scalar | .union _ => True

/-- A type can be written down if its description and what it has can be. -/
structure TypeDef.Legible (schema : Schema) (t : TypeDef) : Prop where
  description : Commentable t.description
  body : t.body.Legible schema nestingLimit

/-- A directive has to have a place, since the blank in front of the first one is written even
if there is none. -/
structure Directive.Legible (schema : Schema) (d : Directive) : Prop where
  description : Commentable d.description
  parameters : ∀ p ∈ d.parameters.toList, p.Legible schema (nestingLimit - 1)
  locations : d.locations ≠ []

/-- The schema can be read back when it is written.  A type of the language is not written even
if the schema has its own of that name, so it is a scalar type again afterwards: it can be no
root, no member of a union and no interface. -/
structure Schema.Legible (schema : Schema) : Prop where
  roots : ∀ first second name, schema.root first = some name → schema.root second = some name →
    first = second
  rootNames : ∀ operation, ∀ name ∈ schema.root operation, name ∉ Builtin.scalarNames
  named : ∀ t ∈ ownTypes schema, ∀ name ∈ t.body.named, name ∉ Builtin.scalarNames
  types : ∀ t ∈ ownTypes schema, t.Legible schema
  directives : ∀ d ∈ schema.directives.toList, d.isBuiltin = false → d.Legible schema

/-! ### Deciding what can be read back

The conditions are decided part by part.  Below that, what is known of every schema that has been
built is put beside what is asked for here, since whoever reads a document back needs both.
-/

section

variable (schema : Schema) (room : Nat)

instance (description : Option String) : Decidable (Commentable description) :=
  inferInstanceAs (Decidable (∀ d ∈ description, _))

instance (deprecation : Option String) : Decidable (ReasonLegible deprecation) :=
  inferInstanceAs (Decidable (∀ reason ∈ deprecation, _))

instance (p : Parameter) : Decidable (p.Legible schema room) :=
  decidable_of_iff (Commentable p.description ∧ ∀ v ∈ p.default,
      (valueForm schema v p.type).Legible ∧ (valueForm schema v p.type).depth ≤ room)
    ⟨fun h => ⟨h.1, h.2⟩, fun h => ⟨h.1, h.2⟩⟩

instance (f : Field) : Decidable (f.Legible schema room) :=
  decidable_of_iff (Commentable f.description ∧ (∀ p ∈ f.parameters.toList, p.Legible schema (room - 1))
      ∧ ReasonLegible f.deprecation)
    ⟨fun h => ⟨h.1, h.2.1, h.2.2⟩, fun h => ⟨h.1, h.2, h.3⟩⟩

instance (v : EnumValue) : Decidable v.Legible :=
  decidable_of_iff (Commentable v.description ∧ ReasonLegible v.deprecation)
    ⟨fun h => ⟨h.1, h.2⟩, fun h => ⟨h.1, h.2⟩⟩

instance : (body : TypeBody) → Decidable (body.Legible schema room)
  | .enum values => inferInstanceAs (Decidable (∀ v ∈ values.toList, v.Legible))
  | .inputObject fields => inferInstanceAs (Decidable (∀ p ∈ fields.toList, p.Legible schema (room - 1)))
  | .interface _ fields => inferInstanceAs (Decidable (∀ f ∈ fields.toList, f.Legible schema (room - 1)))
  | .object _ fields => inferInstanceAs (Decidable (∀ f ∈ fields.toList, f.Legible schema (room - 1)))
  | .scalar => inferInstanceAs (Decidable True)
  | .union _ => inferInstanceAs (Decidable True)

instance (t : TypeDef) : Decidable (t.Legible schema) :=
  decidable_of_iff (Commentable t.description ∧ t.body.Legible schema nestingLimit)
    ⟨fun h => ⟨h.1, h.2⟩, fun h => ⟨h.1, h.2⟩⟩

instance (d : Directive) : Decidable (d.Legible schema) :=
  decidable_of_iff (Commentable d.description
      ∧ (∀ p ∈ d.parameters.toList, p.Legible schema (nestingLimit - 1)) ∧ d.locations ≠ [])
    ⟨fun h => ⟨h.1, h.2.1, h.2.2⟩, fun h => ⟨h.1, h.2, h.3⟩⟩

theorem roots_distinct_iff :
    (∀ first ∈ OperationKind.all, ∀ second ∈ OperationKind.all, ∀ name ∈ schema.root first,
        schema.root second = some name → first = second)
      ↔ ∀ first second name, schema.root first = some name → schema.root second = some name → first = second :=
  ⟨fun h first second => h first first.mem_all second second.mem_all, fun h first _ second _ => h first second⟩

instance : Decidable schema.Legible :=
  decidable_of_iff
    ((∀ first ∈ OperationKind.all, ∀ second ∈ OperationKind.all, ∀ name ∈ schema.root first,
        schema.root second = some name → first = second)
      ∧ (∀ operation ∈ OperationKind.all, ∀ name ∈ schema.root operation, name ∉ Builtin.scalarNames)
      ∧ (∀ t ∈ ownTypes schema, ∀ name ∈ t.body.named, name ∉ Builtin.scalarNames)
      ∧ (∀ t ∈ ownTypes schema, t.Legible schema)
      ∧ ∀ d ∈ schema.directives.toList, d.isBuiltin = false → d.Legible schema)
    ⟨fun h => ⟨(roots_distinct_iff schema).mp h.1, fun operation => h.2.1 operation operation.mem_all,
        h.2.2.1, h.2.2.2.1, h.2.2.2.2⟩,
      fun h => ⟨(roots_distinct_iff schema).mpr h.roots, fun operation _ => h.rootNames operation, h.named, h.types,
        h.directives⟩⟩

end

namespace Sdl

/-- The argument can be written so that it is read back. -/
structure ParameterFits (schema : Schema) (room : Nat) (p : Parameter) : Prop where
  sound : p.Sound room
  legible : p.Legible schema room

/-- A field can be written down and is one that the parser could have built. -/
structure FieldFits (schema : Schema) (room : Nat) (f : Field) : Prop where
  sound : f.Sound room
  legible : f.Legible schema room

/-- The same of a value of an enum. -/
structure EnumValueFits (v : EnumValue) : Prop where
  name : isName v.name.toList = true
  legible : v.Legible

/-- The same of a type. -/
structure TypeFits (schema : Schema) (t : TypeDef) : Prop where
  sound : t.Sound
  legible : t.Legible schema

/-- The same of a directive. -/
structure DirectiveFits (schema : Schema) (d : Directive) : Prop where
  sound : d.Sound
  legible : d.Legible schema

variable {schema : Schema} {room : Nat}

theorem FieldFits.parameters {f : Field} (h : FieldFits schema room f) :
    ∀ p ∈ f.parameters.toList, ParameterFits schema (room - 1) p :=
  fun p hp => ⟨h.sound.parameters p hp, h.legible.parameters p hp⟩

theorem DirectiveFits.parameters {d : Directive} (h : DirectiveFits schema d) :
    ∀ p ∈ d.parameters.toList, ParameterFits schema (nestingLimit - 1) p :=
  fun p hp => ⟨h.sound.parameters p hp, h.legible.parameters p hp⟩

/-- What a type is made of can be written so that it is read back. -/
inductive BodyFits (schema : Schema) (room : Nat) : TypeBody → Prop
  | enum {values : NameTable EnumValue} (h : ∀ v ∈ values.toList, EnumValueFits v) :
      BodyFits schema room (.enum values)
  | inputObject {fields : NameTable Parameter}
      (h : ∀ p ∈ fields.toList, ParameterFits schema (room - 1) p) :
      BodyFits schema room (.inputObject fields)
  | interface {interfaces : List String} {fields : NameTable Field}
      (hinterfaces : ∀ name ∈ interfaces, isName name.toList = true)
      (hfields : ∀ f ∈ fields.toList, FieldFits schema (room - 1) f) :
      BodyFits schema room (.interface interfaces fields)
  | object {interfaces : List String} {fields : NameTable Field}
      (hinterfaces : ∀ name ∈ interfaces, isName name.toList = true)
      (hfields : ∀ f ∈ fields.toList, FieldFits schema (room - 1) f) :
      BodyFits schema room (.object interfaces fields)
  | scalar : BodyFits schema room .scalar
  | union {members : NameTable TypeRef} (h : ∀ name ∈ members.names, isName name.toList = true) :
      BodyFits schema room (.union members)

theorem bodyFits {owner : String} {body : TypeBody} (hsound : body.Sound room owner)
    (hlegible : body.Legible schema room) : BodyFits schema room body := by
  cases body with
  | enum values => exact .enum fun v hv => ⟨hsound v hv, hlegible v hv⟩
  | inputObject fields => exact .inputObject fun p hp => ⟨hsound p hp, hlegible p hp⟩
  | interface interfaces fields =>
    exact .interface hsound.1 fun f hf => ⟨hsound.2.2.2 f hf, hlegible f hf⟩
  | object interfaces fields =>
    exact .object hsound.1 fun f hf => ⟨hsound.2.2 f hf, hlegible f hf⟩
  | scalar => exact .scalar
  | union members => exact .union hsound

theorem TypeFits.body {t : TypeDef} (h : TypeFits schema t) : BodyFits schema nestingLimit t.body :=
  bodyFits h.sound.body h.legible.body

end Sdl

end GraphSchema
