/-
Schemas that have been built are closed.

Once sources have been loaded and their extensions applied, what decides is the references: each
place that mentions a type wants one that is defined and of a kind that fits there.  Building
fails with one error for each reference that does not fit, and otherwise succeeds if the roots are
object types.  Every name that can be looked up in a schema is then found: fields know the type
that they stand in, since that is kept by each step that adds them (`TypeBody.Owned`).
-/
import GraphSchema.Proofs.Schema.Built
import GraphSchema.Proofs.Schema.Extending
import GraphSchema.Proofs.Schema.Linked
import GraphSchema.Proofs.Schema.Loaded

namespace GraphSchema

open Syntax

/-! ### References

All places of a schema that mention a type, with the kinds that fit.  The checks of the program run
over tables and give errors; they are brought into this form one after the other.
-/

/-- A place that mentions a type. -/
inductive Reference where
  /-- An interface that a type implements. -/
  | interface (type : TypeDef) (name : String)
  /-- The type of a field of an object type or an interface. -/
  | field (parent : String) (f : Field)
  /-- The type of an argument of a field or a directive. -/
  | argument (p : Parameter)
  /-- The type of a field of an input object. -/
  | inputField (parent : String) (p : Parameter)
  /-- A member of a union. -/
  | member (union : String) (m : TypeRef)

namespace Reference

/-- The type that is mentioned. -/
def target : Reference → String
  | interface _ name => name
  | field _ f => f.type.innermostName
  | argument p | inputField _ p => p.type.innermostName
  | member _ m => m.name

/-- The kinds of types that may be mentioned. -/
def admits : Reference → TypeKind → Bool
  | interface _ _, kind => kind == .interface
  | field _ _, kind => kind.isOutput
  | argument _, kind | inputField _ _, kind => kind.isInput
  | member _ _, kind => kind == .object

/-- The type that is mentioned is defined, and of a kind that may be. -/
def fits (types : NameTable TypeDef) (r : Reference) : Bool :=
  (types.kindOf? r.target).any r.admits

/-- The error for a reference that does not fit. -/
def error (types : NameTable TypeDef) (r : Reference) : ReferenceError :=
  match r, types.kindOf? r.target with
  | interface t name, none => .implementsUndefined t.name name t.location
  | interface t name, some _ => .implementsOther t.name name t.location
  | field _ f, none => .undefined f.location f.type.innermostName
  | field parent f, some _ => .fieldOfInputType f.location f.name f.type.innermostName parent
  | argument p, none => .undefined p.location p.type.innermostName
  | argument p, some _ => .parameterOfOutputType p.location p.name p.type.innermostName
  | inputField _ p, none => .undefined p.location p.type.innermostName
  | inputField parent p, some _ => .inputFieldOfOutputType p.location p.name p.type.innermostName parent
  | member _ m, none => .undefined m.location m.name
  | member union m, some kind => .memberOfOtherKind m.location union m.name kind

end Reference

/-- The references of a field: its own type, and those of its arguments. -/
def Field.references (parent : String) (f : Field) : List Reference :=
  .field parent f :: f.parameters.toList.map .argument

/-- The references of a type. -/
def TypeDef.references (t : TypeDef) : List Reference :=
  match t.body with
  | .enum _ | .scalar => []
  | .inputObject fields => fields.toList.map (.inputField t.name)
  | .interface interfaces fields | .object interfaces fields =>
    interfaces.map (.interface t) ++ fields.toList.flatMap (Field.references t.name)
  | .union members => members.toList.map (.member t.name)

/-- The references of types and of directives. -/
def NameTable.references (types : NameTable TypeDef) (directives : NameTable Directive) :
    List Reference :=
  types.toList.flatMap TypeDef.references
    ++ directives.toList.flatMap fun d => d.parameters.toList.map .argument

/-- Those that do not fit. -/
def NameTable.offending (types : NameTable TypeDef) (directives : NameTable Directive) :
    List Reference :=
  (types.references directives).filter fun r => !r.fits types

section Errors

variable (types : NameTable TypeDef)

/-- What is reported of a reference. -/
def Reference.errors (r : Reference) : List ReferenceError :=
  if r.fits types then [] else [r.error types]

theorem parameterErrors_eq :
    types.parameterErrors = fun p => (Reference.argument p).errors types := by
  funext p
  unfold NameTable.parameterErrors Reference.errors Reference.fits Reference.error Reference.target
  cases types.kindOf? p.type.innermostName <;> rfl

theorem inputFieldErrors_eq (parent : String) :
    types.inputFieldErrors parent = fun p => (Reference.inputField parent p).errors types := by
  funext p
  unfold NameTable.inputFieldErrors Reference.errors Reference.fits Reference.error Reference.target
  cases types.kindOf? p.type.innermostName <;> rfl

theorem interfaceErrors_eq (t : TypeDef) :
    types.interfaceErrors t = fun name => (Reference.interface t name).errors types := by
  funext name
  unfold NameTable.interfaceErrors Reference.errors Reference.fits Reference.error Reference.target
  cases types.kindOf? name with
  | none => rfl
  | some kind => cases kind <;> rfl

theorem memberErrors_eq (union : String) :
    types.memberErrors union = fun m => (Reference.member union m).errors types := by
  funext m
  unfold NameTable.memberErrors Reference.errors Reference.fits Reference.error Reference.target
  cases types.kindOf? m.name with
  | none => rfl
  | some kind => cases kind <;> rfl

theorem fieldErrors_eq (parent : String) :
    types.fieldErrors parent = fun f => (f.references parent).flatMap (Reference.errors types) := by
  funext f
  unfold NameTable.fieldErrors Field.references
  rw [List.flatMap_cons, List.flatMap_map, parameterErrors_eq]
  unfold Reference.errors Reference.fits Reference.error Reference.target
  cases types.kindOf? f.type.innermostName <;> rfl

theorem typeErrors_eq :
    types.typeErrors = fun t => t.references.flatMap (Reference.errors types) := by
  funext t
  unfold NameTable.typeErrors TypeDef.references
  cases t.body <;> simp only [List.flatMap_nil, List.flatMap_append, List.flatMap_map, List.flatMap_assoc,
    fieldErrors_eq, inputFieldErrors_eq, interfaceErrors_eq, memberErrors_eq]

/-- **There is one error for each reference that does not fit**, and no other. -/
theorem referenceErrors_eq (directives : NameTable Directive) :
    types.referenceErrors directives = (types.offending directives).map (Reference.error types) := by
  have hall : types.referenceErrors directives
      = (types.references directives).flatMap (Reference.errors types) := by
    unfold NameTable.referenceErrors NameTable.references
    simp only [List.flatMap_append, List.flatMap_assoc, List.flatMap_map, typeErrors_eq, parameterErrors_eq]
  rw [hall, NameTable.offending]
  induction types.references directives with
  | nil => rfl
  | cons r rest ih =>
    rw [List.flatMap_cons, ih, Reference.errors, List.filter_cons]
    cases r.fits types <;> rfl

theorem offending_eq_nil_iff {directives : NameTable Directive} :
    types.offending directives = [] ↔ ∀ r ∈ types.references directives, r.fits types = true := by
  rw [NameTable.offending, List.filter_eq_nil_iff]
  simp

end Errors

/-! ### Parts know their types

A field keeps the name of the type that it was added to.  So does a value of an enum, and
extensions add under the same name.
-/

/-- The fields and values of a type name it as the one that they stand in. -/
def TypeBody.Owned (owner : String) : TypeBody → Prop
  | .enum values => ∀ v ∈ values.toList, v.owner = owner
  | .interface _ fields | .object _ fields => ∀ f ∈ fields.toList, f.parent = owner
  | .inputObject _ | .scalar | .union _ => True

instance (owner : String) (body : TypeBody) : Decidable (body.Owned owner) :=
  match body with
  | .enum values => inferInstanceAs (Decidable (∀ v ∈ values.toList, v.owner = owner))
  | .interface _ fields | .object _ fields =>
    inferInstanceAs (Decidable (∀ f ∈ fields.toList, f.parent = owner))
  | .inputObject _ | .scalar | .union _ => .isTrue trivial

theorem TypeBody.owned_empty (owner : String) (kind : TypeKind) : (TypeBody.empty kind).Owned owner := by
  cases kind with
  | enum | interface | object => exact nofun
  | inputObject | scalar | union => trivial

theorem TypeBody.Adds.owned {owner : Owner} {contents : TypeContents} {body body' : TypeBody}
    (h : Adds owner contents body body') (hbody : body.Owned owner.name) : body'.Owned owner.name := by
  cases h with
  | scalar | union | inputObject => trivial
  | object _ hfields | interface _ hfields => exact hfields.forall_mem hbody fun _ _ _ => rfl
  | enum hvalues => exact hvalues.forall_mem hbody fun _ _ _ => rfl

theorem introspection_owned : ∀ t ∈ Builtin.introspection, t.body.Owned t.name := by
  decide

/-- **The parts of loaded types know their types.** -/
theorem Draft.owned_of_loadAll {texts : List SourceText} {draft : Draft}
    (h : Draft.empty.loadAll texts = .ok draft) : ∀ t ∈ draft.types.toList, t.body.Owned t.name := by
  obtain ⟨-, stated, -, hloaded⟩ := Draft.loadAll_eq_ok_iff.mp h
  refine Draft.Loaded.forall_body (fun _ _ _ _ h => h.owned) hloaded TypeBody.owned_empty fun t ht => ?_
  obtain ⟨name, -, rfl⟩ := List.mem_map.mp (NameTable.mem_of_mem_ofList ht)
  trivial

/-- Extending keeps that. -/
theorem Draft.owned_of_extendsTo {draft : Draft} {types : NameTable TypeDef} (hextend : draft.ExtendsTo types)
    (h : ∀ t ∈ draft.types.toList, t.body.Owned t.name) : ∀ t ∈ types.toList, t.body.Owned t.name :=
  Draft.ExtendsTo.forall_body (fun _ _ _ _ _ h => h.owned) hextend introspection_owned h

/-! ### Closed schemas -/

/-- What is found under a name has that name, and everything is found under its own. -/
def NameTable.Keyed {α : Type} [Named α] (t : NameTable α) : Prop :=
  ∀ name a, t.find? name = some a ↔ a ∈ t.toList ∧ Named.name a = name

/-- Whatever a field mentions is found: the type that it stands in, its own type, and those of its
arguments. -/
structure Field.Closed (types : NameTable TypeDef) (parent : TypeDef) (f : Field) : Prop where
  parent : types.find? f.parent = some parent
  parameters : f.parameters.Keyed
  linked : f.Linked types

/-- Whatever a type mentions is found. -/
def TypeDef.Closed (types : NameTable TypeDef) (t : TypeDef) : Prop :=
  match t.body with
  | .enum values => values.Keyed ∧ ∀ v ∈ values.toList, types.find? v.owner = some t
  | .inputObject fields => fields.Keyed ∧ ∀ p ∈ fields.toList, types.IsInput p.type.innermostName
  | .interface interfaces fields | .object interfaces fields =>
    (∀ name ∈ interfaces, types.kindOf? name = some .interface) ∧ fields.Keyed ∧
      ∀ f ∈ fields.toList, f.Closed types t
  | .scalar => True
  | .union members => members.Keyed ∧ ∀ name ∈ members.names, types.kindOf? name = some .object

/-- Whatever a schema mentions is found. -/
structure Schema.Closed (schema : Schema) : Prop where
  types : schema.types.Keyed ∧ ∀ t ∈ schema.types.toList, t.Closed schema.types
  directives : schema.directives.Keyed ∧ ∀ d ∈ schema.directives.toList, d.parameters.Keyed ∧
    ∀ p ∈ d.parameters.toList, schema.types.IsInput p.type.innermostName
  roots : ∀ operation name, schema.root operation = some name →
    schema.types.kindOf? name = some .object

theorem NameTable.keyed {α : Type} [Named α] (t : NameTable α) : t.Keyed :=
  fun _ _ => find?_eq_some_iff

theorem TypeDef.closed_of_linked {types : NameTable TypeDef} {t : TypeDef} (ht : t ∈ types.toList)
    (howned : t.body.Owned t.name) (hlinked : t.body.Linked types) : t.Closed types := by
  have hfound : types.find? t.name = some t := NameTable.find?_name ht
  unfold Closed
  cases hbody : t.body <;> rw [hbody] at howned hlinked
  case enum values => exact ⟨values.keyed, fun v hv => (howned v hv).symm ▸ hfound⟩
  case inputObject fields => exact ⟨fields.keyed, hlinked⟩
  case interface interfaces fields | object interfaces fields =>
    exact ⟨hlinked.1, fields.keyed, fun f hf =>
      ⟨(howned f hf).symm ▸ hfound, f.parameters.keyed, hlinked.2 f hf⟩⟩
  case scalar => trivial
  case union members => exact ⟨members.keyed, hlinked⟩

/--
**Schemas that have been built are closed.**

Let sources be loaded and their extensions applied.  Building succeeds exactly if every reference
fits and the roots are object types.  If a reference does not fit, it fails with one error for each
that does not.  What it comes to has the types and directives that were put together, and whatever
it mentions is found.
-/
theorem Draft.build_closed {texts : List SourceText} {draft : Draft} {types : NameTable TypeDef}
    (hload : Draft.empty.loadAll texts = .ok draft) (hextend : draft.ExtendsTo types) :
    ((∃ schema, draft.build = .ok schema) ↔
        (∀ r ∈ types.references draft.withBuiltins.directives, r.fits types = true) ∧
          draft.Rooted types) ∧
      ((∃ r ∈ types.references draft.withBuiltins.directives, r.fits types = false) →
        draft.build = .error (.badReferences
          ((types.offending draft.withBuiltins.directives).map (Reference.error types)))) ∧
      ∀ schema, draft.build = .ok schema → schema.types = types ∧
        schema.directives = draft.withBuiltins.directives ∧ schema.Closed := by
  have hnone : types.referenceErrors draft.withBuiltins.directives = [] ↔
      ∀ r ∈ types.references draft.withBuiltins.directives, r.fits types = true := by
    rw [referenceErrors_eq, List.map_eq_nil_iff, offending_eq_nil_iff]
  have hsame : ∀ {types'}, draft.ExtendsTo types' → types' = types := fun hextend' =>
    Except.ok.inj (hextend'.symm.trans hextend)
  refine ⟨⟨?_, ?_⟩, ?_, ?_⟩
  · rintro ⟨schema, hbuild⟩
    obtain ⟨types', hextend', herrors, hrooted, -⟩ := build_eq_ok_iff.mp hbuild
    obtain rfl := hsame hextend'
    exact ⟨hnone.mp herrors, hrooted⟩
  · rintro ⟨hfits, hrooted⟩
    exact ⟨_, build_eq_ok_iff.mpr ⟨types, hextend, hnone.mpr hfits, hrooted, rfl⟩⟩
  · rintro ⟨r, hr, hfits⟩
    rw [← referenceErrors_eq]
    refine build_of_referenceErrors hextend fun herrors => ?_
    rw [hnone.mp herrors r hr] at hfits
    cases hfits
  · intro schema hbuild
    obtain ⟨types', hextend', herrors, hrooted, rfl⟩ := build_eq_ok_iff.mp hbuild
    obtain rfl := hsame hextend'
    obtain ⟨hlinked, hinputs⟩ := NameTable.referenceErrors_eq_nil_iff.mp herrors
    have howned := owned_of_extendsTo hextend (owned_of_loadAll hload)
    refine ⟨rfl, rfl, ⟨NameTable.keyed _, fun t ht => ?_⟩, ⟨NameTable.keyed _, fun d hd => ?_⟩,
      fun operation name hroot => kindOf?_of_root_schemaOf hrooted hroot⟩
    · exact TypeDef.closed_of_linked ht (howned t ht) (hlinked t ht)
    · exact ⟨NameTable.keyed _, hinputs d hd⟩

/-- Two sources, the first of which extends what the second defines. -/
def referringTexts : List SourceText :=
  [(some ⟨"a.graphql"⟩, "extend type Query { g(of: [E!] = A, in: In): U } union U = Query"),
   (none, "interface I { i: Int } type Query implements I { i: Int } enum E { A } input In { e: E }")]

theorem exists_closed : ∃ draft types schema, Draft.empty.loadAll referringTexts = .ok draft ∧
    draft.ExtendsTo types ∧ draft.build = .ok schema ∧ schema.types = types ∧ schema.Closed := by
  obtain ⟨schema, hschema⟩ := exists_ok
    (x := Draft.empty.loadAll referringTexts >>= Draft.build) (by decide +kernel)
  obtain ⟨draft, hload, hbuild⟩ := bind_eq_ok.mp hschema
  obtain ⟨types, hextend, -⟩ := Draft.build_eq_ok_iff.mp hbuild
  obtain ⟨htypes, -, hclosed⟩ := (Draft.build_closed hload hextend).2.2 schema hbuild
  exact ⟨draft, types, schema, hload, hextend, hbuild, htypes, hclosed⟩

/-! ### What names resolve to

The accessors of a type leave out the names that do not resolve.  In a closed schema there are none.
-/

section

variable {schema : Schema}

/-- Names that are all of one kind resolve one by one, to types of that kind. -/
theorem Schema.resolved_of_kindOf? {kind : TypeKind} :
    ∀ {names : List String}, (∀ name ∈ names, schema.types.kindOf? name = some kind) →
      (names.filterMap schema.type?).map TypeDef.name = names ∧
        ∀ t ∈ names.filterMap schema.type?, t.kind = kind
  | [], _ => ⟨rfl, nofun⟩
  | name :: names, h => by
    obtain ⟨t, hfound, hkind⟩ := Option.map_eq_some_iff.mp (h name (.head _))
    obtain ⟨hnames, hkinds⟩ := Schema.resolved_of_kindOf? fun n hn => h n (.tail _ hn)
    have htype : schema.type? name = some t := hfound
    have hname : t.name = name := NameTable.name_of_find?_eq_some hfound
    rw [List.filterMap_cons_some htype, List.map_cons, hnames, hname]
    exact ⟨rfl, List.forall_mem_cons.mpr ⟨hkind, hkinds⟩⟩

/-- No interface that a type names is left out. -/
theorem Schema.Closed.names_interfacesOf (h : schema.Closed) {t : TypeDef} (ht : t ∈ schema.types.toList) :
    (schema.interfacesOf t).map TypeDef.name = t.interfaceNames := by
  have hnamed : ∀ name ∈ t.interfaceNames, schema.types.kindOf? name = some .interface := by
    have hclosed := h.types.2 t ht
    unfold TypeDef.Closed at hclosed
    unfold TypeDef.interfaceNames
    split <;> simp_all
  obtain ⟨hnames, hkinds⟩ := Schema.resolved_of_kindOf? hnamed
  rw [interfacesOf, List.filter_eq_self.mpr fun i hi => beq_iff_eq.mpr (hkinds i hi), hnames]

/-- No member that a union names is left out. -/
theorem Schema.Closed.names_membersOf (h : schema.Closed) {t : TypeDef} (ht : t ∈ schema.types.toList) :
    (schema.membersOf t).map TypeDef.name = t.memberNames := by
  have hnamed : ∀ name ∈ t.memberNames, schema.types.kindOf? name = some .object := by
    have hclosed := h.types.2 t ht
    unfold TypeDef.Closed at hclosed
    unfold TypeDef.memberNames
    split <;> simp_all
  exact (Schema.resolved_of_kindOf? hnamed).1

end

end GraphSchema
