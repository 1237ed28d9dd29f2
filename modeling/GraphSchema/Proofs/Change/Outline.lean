/-
What a comparison does not look at.

The outline of a type or a directive is what its definition says, but for the values of defaults:
where it stands is left out, and of a default it is only said that there is one.  A comparison
looks at nothing more, so between schemas of one outline it finds no changes.

This is shown along the comparison, from its innermost functions to
`Schema.SameOutline.changes_eq_nil`.  The converse does not hold: of two interfaces only the
fields are compared, so they may implement different interfaces and show no change.
-/
import GraphSchema.Proofs.Change.Reported

namespace GraphSchema

/-! ### Outlines -/

/-- Whether a parameter has a default is compared, and what it is is not. -/
def Parameter.outline (p : Parameter) : Parameter :=
  { p with location := .builtin, default := p.default.map fun _ => .null }

theorem Parameter.name_outline (p : Parameter) : Named.name p.outline = Named.name p := rfl

/-- A field apart from its place and the type that has it. -/
def Field.outline (f : Field) : Field :=
  { f with
    location := .builtin
    parent := ""
    parameters := f.parameters.map Parameter.outline Parameter.name_outline }

theorem Field.name_outline (f : Field) : Named.name f.outline = Named.name f := rfl

/-- A value of an enum apart from its place and the enum that has it. -/
def EnumValue.outline (v : EnumValue) : EnumValue := { v with location := .builtin, owner := "" }

theorem EnumValue.name_outline (v : EnumValue) : Named.name v.outline = Named.name v := rfl

/-- A member of a union apart from its place. -/
def TypeRef.outline (r : TypeRef) : TypeRef := { r with location := .builtin }

theorem TypeRef.name_outline (r : TypeRef) : Named.name r.outline = Named.name r := rfl

/-- What a type has, each part apart from its place. -/
def TypeBody.outline : TypeBody → TypeBody
  | .enum values => .enum (values.map EnumValue.outline EnumValue.name_outline)
  | .inputObject fields => .inputObject (fields.map Parameter.outline Parameter.name_outline)
  | .interface interfaces fields => .interface interfaces (fields.map Field.outline Field.name_outline)
  | .object interfaces fields => .object interfaces (fields.map Field.outline Field.name_outline)
  | .scalar => .scalar
  | .union members => .union (members.map TypeRef.outline TypeRef.name_outline)

/-- A type apart from its place and the places of its parts. -/
def TypeDef.outline (t : TypeDef) : TypeDef := { t with location := .builtin, body := t.body.outline }

theorem TypeDef.name_outline (t : TypeDef) : Named.name t.outline = Named.name t := rfl

/-- A directive apart from its place and the places of its parameters. -/
def Directive.outline (d : Directive) : Directive :=
  { d with
    location := .builtin
    parameters := d.parameters.map Parameter.outline Parameter.name_outline }

theorem Directive.name_outline (d : Directive) : Named.name d.outline = Named.name d := rfl

/-- Two schemas have the same roots, and under every name a type and a directive of the same
outline. -/
structure Schema.SameOutline (old new : Schema) : Prop where
  roots : new.root = old.root
  types : ∀ name, (new.type? name).map TypeDef.outline = (old.type? name).map TypeDef.outline
  directives : ∀ name, (new.directive? name).map Directive.outline = (old.directive? name).map Directive.outline

theorem Schema.SameOutline.symm {old new : Schema} (h : old.SameOutline new) : new.SameOutline old :=
  ⟨h.roots.symm, fun name => (h.types name).symm, fun name => (h.directives name).symm⟩

/-! ### Tables of one outline

Two tables in which every name finds entries of one outline.  Neither has an entry alone, so a
comparison of them comes down to pairs, and a pair of one outline shows no difference.
-/

namespace NameTable

variable {α β : Type} [Named α] {f : α → β} {old new : NameTable α}

/-- Under every name the two tables have entries of the same outline. -/
def SameBy (f : α → β) (old new : NameTable α) : Prop :=
  ∀ name, (new.find? name).map f = (old.find? name).map f

theorem SameBy.symm (h : SameBy f old new) : SameBy f new old := fun name => (h name).symm

theorem sameBy_of_map_eq [Named β] {hname : ∀ a, Named.name (f a) = Named.name a}
    (h : new.map f hname = old.map f hname) : SameBy f old new := by
  intro name
  rw [← find?_map _ hname, ← find?_map _ hname, h]

/-- Tables in which each entry has one of its outline in the other. -/
theorem sameBy_of_exists (hname : ∀ a b, f b = f a → Named.name b = Named.name a)
    (hold : ∀ a ∈ old.toList, ∃ b ∈ new.toList, f b = f a)
    (hnew : ∀ b ∈ new.toList, ∃ a ∈ old.toList, f b = f a) : SameBy f old new := by
  intro name
  cases hfound : old.find? name with
  | some a =>
    obtain ⟨hmem, rfl⟩ := find?_eq_some_iff.mp hfound
    obtain ⟨b, hb, hsame⟩ := hold a hmem
    rw [← hname a b hsame, find?_name hb, Option.map_some, Option.map_some, hsame]
  | none =>
    refine Option.map_eq_none_iff.mpr (Option.eq_none_iff_forall_ne_some.mpr fun b hb => ?_)
    obtain ⟨hmem, rfl⟩ := find?_eq_some_iff.mp hb
    obtain ⟨a, ha, hsame⟩ := hnew b hmem
    rw [hname a b hsame, find?_name ha] at hfound
    cases hfound

/-- No table has an entry alone. -/
theorem SameBy.without_eq_nil (h : SameBy f old new) : old.without new = [] := by
  refine List.eq_nil_iff_forall_not_mem.mpr fun a ha => ?_
  have honly := mem_without.mp ha
  have hsame := h (Named.name a)
  rw [honly.found, honly.missing] at hsame
  cases hsame

/-- What is in both tables has the same outline. -/
theorem SameBy.flatMap_common_eq_nil (h : SameBy f old new) {reports : α × α → List Change}
    (hreports : ∀ a b, f b = f a → reports (a, b) = []) : (old.common new).flatMap reports = [] := by
  refine List.flatMap_eq_nil_iff.mpr fun ⟨a, b⟩ hmem => hreports a b ?_
  have hboth := mem_common.mp hmem
  have hsame := h (Named.name a)
  rw [hboth.before, hboth.after] at hsame
  exact Option.some.inj hsame

end NameTable

theorem changeIf_self {α : Type} [DecidableEq α] (a : α) (change : Change) : changeIf a a change = [] :=
  if_pos rfl

theorem missingFrom_self {α : Type} [BEq α] [LawfulBEq α] (list : List α) : missingFrom list list = [] := by
  simp [missingFrom]

/-! ### No changes -/

open NameTable (SameBy)

theorem enumChanges_eq_nil {enum : String} {old new : NameTable EnumValue}
    (h : SameBy EnumValue.outline old new) : enumChanges enum old new = [] := by
  unfold enumChanges
  rw [h.without_eq_nil, h.symm.without_eq_nil, h.flatMap_common_eq_nil]
  · rfl
  · intro v w hsame
    have hdescription : w.description = v.description := (congrArg EnumValue.description hsame :)
    have hdeprecation : w.deprecation = v.deprecation := (congrArg EnumValue.deprecation hsame :)
    dsimp only
    rw [hdescription, hdeprecation, changeIf_self, changeIf_self]
    rfl

theorem fieldChanges_eq_nil {type : String} {old new : NameTable Field} (h : SameBy Field.outline old new) :
    fieldChanges type old new = [] := by
  unfold fieldChanges
  rw [h.without_eq_nil, h.symm.without_eq_nil]
  rfl

theorem interfaceChanges_self (type : String) (interfaces : List String) :
    interfaceChanges type interfaces interfaces = [] := by
  unfold interfaceChanges
  rw [missingFrom_self]
  rfl

theorem parameterChanges_eq_nil {removed described : String → Change} {added : String → Bool → Change}
    {old new : NameTable Parameter} (h : SameBy Parameter.outline old new) :
    parameterChanges removed added described old new = [] := by
  unfold parameterChanges
  rw [h.without_eq_nil, h.symm.without_eq_nil, h.flatMap_common_eq_nil]
  · rfl
  · intro p q hsame
    have hdescription : q.description = p.description := (congrArg Parameter.description hsame :)
    dsimp only
    rw [hdescription, changeIf_self]

theorem memberChanges_eq_nil {union : String} {old new : NameTable TypeRef}
    (h : SameBy TypeRef.outline old new) : memberChanges union old new = [] := by
  unfold memberChanges
  rw [h.without_eq_nil, h.symm.without_eq_nil]
  rfl

theorem bodyChanges_eq_nil {type : String} {old new : TypeBody} (h : new.outline = old.outline) :
    bodyChanges type old new = some [] := by
  cases old <;> cases new <;> simp only [TypeBody.outline, reduceCtorEq] at h
  case enum => exact congrArg some (enumChanges_eq_nil (NameTable.sameBy_of_map_eq (TypeBody.enum.inj h)))
  case inputObject =>
    exact congrArg some (parameterChanges_eq_nil (NameTable.sameBy_of_map_eq (TypeBody.inputObject.inj h)))
  case interface =>
    exact congrArg some (fieldChanges_eq_nil (NameTable.sameBy_of_map_eq (TypeBody.interface.inj h).2))
  case object =>
    obtain ⟨rfl, hfields⟩ := TypeBody.object.inj h
    rw [bodyChanges, interfaceChanges_self, fieldChanges_eq_nil (NameTable.sameBy_of_map_eq hfields)]
    rfl
  case scalar => rfl
  case union => exact congrArg some (memberChanges_eq_nil (NameTable.sameBy_of_map_eq (TypeBody.union.inj h)))

theorem typeChanges_eq_nil {old new : TypeDef} (h : new.outline = old.outline) : typeChanges old new = [] := by
  have hdescription : new.description = old.description := (congrArg TypeDef.description h :)
  unfold typeChanges
  rw [bodyChanges_eq_nil (congrArg TypeDef.body h), hdescription, changeIf_self]
  rfl

theorem directiveChanges_eq_nil {old new : Directive} (h : new.outline = old.outline) :
    directiveChanges old new = [] := by
  have hdescription : new.description = old.description := (congrArg Directive.description h :)
  have hlocations : new.locations = old.locations := (congrArg Directive.locations h :)
  have hmap : new.parameters.map Parameter.outline Parameter.name_outline
      = old.parameters.map Parameter.outline Parameter.name_outline := (congrArg Directive.parameters h :)
  have hparameters : SameBy Parameter.outline old.parameters new.parameters := NameTable.sameBy_of_map_eq hmap
  unfold directiveChanges argumentChanges
  rw [hdescription, changeIf_self, hlocations, missingFrom_self, parameterChanges_eq_nil hparameters]
  rfl

/-- **Schemas of the same outline have no changes.** -/
theorem Schema.SameOutline.changes_eq_nil {old new : Schema} (h : old.SameOutline new) : old.changes new = [] := by
  have htypes : SameBy TypeDef.outline old.types new.types := h.types
  have hdirectives : SameBy Directive.outline old.directives new.directives := h.directives
  unfold Schema.changes
  rw [htypes.without_eq_nil, htypes.symm.without_eq_nil, hdirectives.without_eq_nil,
    hdirectives.symm.without_eq_nil, htypes.flatMap_common_eq_nil fun _ _ => typeChanges_eq_nil,
    hdirectives.flatMap_common_eq_nil fun _ _ => directiveChanges_eq_nil]
  rfl

end GraphSchema
