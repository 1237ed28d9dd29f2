/-
When no reference is wrong.

A schema has no reference errors exactly if every reference leads to a type of a kind that fits
its place.  Stated so, it is easily kept: what serves for the references of a schema may be
exchanged for something that serves as well (`TypeBody.Linked.mono`).

A name with no definition and one with a definition of a wrong kind lead to different errors.
That makes no difference here.
-/
import Mathlib.Data.List.Basic
import GraphSchema.Schema.References

namespace GraphSchema

namespace NameTable

/-- The name is that of a type that arguments may have. -/
def IsInput (types : NameTable TypeDef) (name : String) : Prop :=
  ∃ kind, types.kindOf? name = some kind ∧ kind.isInput = true

/-- The name is that of a type that fields may have. -/
def IsOutput (types : NameTable TypeDef) (name : String) : Prop :=
  ∃ kind, types.kindOf? name = some kind ∧ kind.isOutput = true

variable {types : NameTable TypeDef}

theorem parameterErrors_eq_nil_iff {p : Parameter} :
    types.parameterErrors p = [] ↔ types.IsInput p.type.innermostName := by
  unfold parameterErrors IsInput
  cases types.kindOf? p.type.innermostName with
  | none => simp
  | some kind => cases hinput : kind.isInput <;> simp [hinput]

theorem inputFieldErrors_eq_nil_iff {parent : String} {p : Parameter} :
    types.inputFieldErrors parent p = [] ↔ types.IsInput p.type.innermostName := by
  unfold inputFieldErrors IsInput
  cases types.kindOf? p.type.innermostName with
  | none => simp
  | some kind => cases hinput : kind.isInput <;> simp [hinput]

theorem fieldErrors_eq_nil_iff {parent : String} {f : Field} :
    types.fieldErrors parent f = [] ↔ types.IsOutput f.type.innermostName ∧
      ∀ p ∈ f.parameters.toList, types.IsInput p.type.innermostName := by
  unfold fieldErrors IsOutput
  rw [List.append_eq_nil_iff, List.flatMap_eq_nil_iff]
  simp only [parameterErrors_eq_nil_iff]
  refine and_congr_left fun _ => ?_
  cases types.kindOf? f.type.innermostName with
  | none => simp
  | some kind => cases houtput : kind.isOutput <;> simp [houtput]

theorem interfaceErrors_eq_nil_iff {type : TypeDef} {name : String} :
    types.interfaceErrors type name = [] ↔ types.kindOf? name = some .interface := by
  unfold interfaceErrors
  cases types.kindOf? name with
  | none => simp
  | some kind => cases kind <;> simp

theorem memberErrors_eq_nil_iff {union : String} {member : TypeRef} :
    types.memberErrors union member = [] ↔ types.kindOf? member.name = some .object := by
  unfold memberErrors
  cases types.kindOf? member.name with
  | none => simp
  | some kind => cases kind <;> simp

end NameTable

/-- Every reference of a field leads to a type that fits. -/
def Field.Linked (types : NameTable TypeDef) (f : Field) : Prop :=
  types.IsOutput f.type.innermostName ∧
    ∀ p ∈ f.parameters.toList, types.IsInput p.type.innermostName

/-- Every reference of what a type is made of leads to a type that fits. -/
def TypeBody.Linked (types : NameTable TypeDef) : TypeBody → Prop
  | .enum _ | .scalar => True
  | .inputObject fields => ∀ p ∈ fields.toList, types.IsInput p.type.innermostName
  | .interface interfaces fields | .object interfaces fields =>
    (∀ name ∈ interfaces, types.kindOf? name = some .interface) ∧
      ∀ f ∈ fields.toList, f.Linked types
  | .union members => ∀ name ∈ members.names, types.kindOf? name = some .object

theorem NameTable.typeErrors_eq_nil_iff {types : NameTable TypeDef} {type : TypeDef} :
    types.typeErrors type = [] ↔ type.body.Linked types := by
  unfold typeErrors TypeBody.Linked
  cases type.body with
  | enum | scalar => simp
  | inputObject fields => simp only [List.flatMap_eq_nil_iff, inputFieldErrors_eq_nil_iff]
  | interface interfaces fields | object interfaces fields =>
    simp only [List.append_eq_nil_iff, List.flatMap_eq_nil_iff, interfaceErrors_eq_nil_iff,
      fieldErrors_eq_nil_iff, Field.Linked]
  | union members =>
    simp only [List.flatMap_eq_nil_iff, memberErrors_eq_nil_iff, names, List.forall_mem_map]
    rfl

/-- **No reference is wrong exactly if all of them lead to types that fit.** -/
theorem NameTable.referenceErrors_eq_nil_iff {types : NameTable TypeDef}
    {directives : NameTable Directive} :
    types.referenceErrors directives = [] ↔ (∀ t ∈ types.toList, t.body.Linked types) ∧
      ∀ d ∈ directives.toList, ∀ p ∈ d.parameters.toList, types.IsInput p.type.innermostName := by
  unfold referenceErrors
  simp only [List.append_eq_nil_iff, List.flatMap_eq_nil_iff, typeErrors_eq_nil_iff,
    parameterErrors_eq_nil_iff]

/-! ### Other types -/

/-- Whatever the types serve for, the others serve for as well. -/
structure Serves (types others : NameTable TypeDef) : Prop where
  input : ∀ name, types.IsInput name → others.IsInput name
  output : ∀ name, types.IsOutput name → others.IsOutput name

theorem Field.Linked.mono {types others : NameTable TypeDef} {f : Field} (h : f.Linked types)
    (hserves : Serves types others) : f.Linked others :=
  ⟨hserves.output _ h.1, fun p hp => hserves.input _ (h.2 p hp)⟩

/-- The types that have to be of one kind: those that are implemented, and the members of a
union. -/
def TypeBody.named : TypeBody → List String
  | .interface interfaces _ | .object interfaces _ => interfaces
  | .union members => members.names
  | _ => []

theorem TypeBody.Linked.mono {types others : NameTable TypeDef} {body : TypeBody}
    (h : body.Linked types) (hserves : Serves types others)
    (hnamed : ∀ name ∈ body.named, ∀ kind, types.kindOf? name = some kind →
      others.kindOf? name = some kind) : body.Linked others := by
  cases body with
  | enum | scalar => trivial
  | inputObject fields => exact fun p hp => hserves.input _ (h p hp)
  | interface interfaces fields | object interfaces fields =>
    exact ⟨fun name hname => hnamed name hname _ (h.1 name hname),
      fun f hf => (h.2 f hf).mono hserves⟩
  | union members => exact fun name hname => hnamed name hname _ (h name hname)

end GraphSchema
