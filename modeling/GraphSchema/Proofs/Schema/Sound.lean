/-
What schemas are made of.

What a document is made of is sound, and loading it into a draft keeps that: names are names,
none of a definition's own begins with two underscores, no interface implements itself, and no
interface is implemented twice.  Extending and building keep it too, except that the
introspection types may have been extended, which keep only their kinds.
-/
import GraphSchema.Proofs.Schema.Built
import GraphSchema.Proofs.Schema.Extending
import GraphSchema.Proofs.Schema.Loaded
import GraphSchema.Proofs.Syntax.Sound

namespace GraphSchema

open Syntax

/-! ### Parts -/

/-- The names are names, the default is one that a text can state, and the type is no deeper than
the parser has room for. -/
structure Parameter.Sound (room : Nat) (p : Parameter) : Prop where
  name : isName p.name.toList = true
  type : isName p.type.innermostName.toList = true
  depth : p.type.depth ≤ room
  default : ∀ v ∈ p.default, v.Proper

/-- The same of a field and its arguments, and none of their names is one of the introspection. -/
structure Field.Sound (room : Nat) (f : Field) : Prop where
  name : isName f.name.toList = true
  unreserved : Builtin.isReserved f.name = false
  parameters : ∀ p ∈ f.parameters.toList, p.Sound (room - 1)
  arguments : ∀ p ∈ f.parameters.toList, Builtin.isReserved p.name = false
  type : isName f.type.innermostName.toList = true
  depth : f.type.depth ≤ room

/-- What the type of a name is made of is sound. -/
def TypeBody.Sound (room : Nat) (owner : String) : TypeBody → Prop
  | .enum values => ∀ v ∈ values.toList, isName v.name.toList = true
  | .inputObject fields => ∀ p ∈ fields.toList, p.Sound (room - 1)
  | .interface interfaces fields =>
    (∀ name ∈ interfaces, isName name.toList = true) ∧ interfaces.Nodup ∧ owner ∉ interfaces ∧
      ∀ f ∈ fields.toList, f.Sound (room - 1)
  | .object interfaces fields =>
    (∀ name ∈ interfaces, isName name.toList = true) ∧ interfaces.Nodup ∧
      ∀ f ∈ fields.toList, f.Sound (room - 1)
  | .scalar => True
  | .union members => ∀ name ∈ members.names, isName name.toList = true

/-- The same of a whole type, with all the room that the parser has. -/
structure TypeDef.Sound (t : TypeDef) : Prop where
  name : isName t.name.toList = true
  unreserved : Builtin.isReserved t.name = false
  body : t.body.Sound nestingLimit t.name

/-- The same of a directive.  Its parameters may have any name. -/
structure Directive.Sound (d : Directive) : Prop where
  name : isName d.name.toList = true
  unreserved : Builtin.isReserved d.name = false
  parameters : ∀ p ∈ d.parameters.toList, p.Sound (nestingLimit - 1)

/-- The values of the defaults that a field's arguments have are constants. -/
def ProperArguments (f : Field) : Prop := ∀ p ∈ f.parameters.toList, ∀ v ∈ p.default, v.Proper

/-- Every default in the body is a constant. -/
def ProperBody : TypeBody → Prop
  | .inputObject fields => ∀ p ∈ fields.toList, ∀ v ∈ p.default, v.Proper
  | .interface _ fields | .object _ fields => ∀ f ∈ fields.toList, ProperArguments f
  | _ => True

theorem properBody {room : Nat} {owner : String} {body : TypeBody} (h : body.Sound room owner) :
    ProperBody body := by
  cases body with
  | inputObject fields => exact fun p hp => (h p hp).default
  | interface interfaces fields => exact fun f hf p hp => ((h.2.2.2 f hf).parameters p hp).default
  | object interfaces fields => exact fun f hf p hp => ((h.2.2 f hf).parameters p hp).default
  | _ => trivial

theorem sound_parameter {source : Source} {room : Nat} {p : InputValueSyntax} (h : p.Sound room) :
    (source.parameter p).Sound room :=
  ⟨h.name, (h.type true).1, (h.type true).2, h.default⟩

theorem sound_parameters {source : Source} {room : Nat} {ps : List InputValueSyntax}
    (h : ∀ p ∈ ps, p.Sound room) : ∀ p ∈ (source.parameters ps).toList, p.Sound room := by
  intro p hp
  obtain ⟨stated, hmem, rfl⟩ := List.mem_map.mp (NameTable.mem_of_mem_ofList hp)
  exact sound_parameter (h stated hmem)

theorem sound_empty (room : Nat) (owner : String) (kind : TypeKind) :
    (TypeBody.empty kind).Sound room owner := by
  cases kind with
  | enum | inputObject | union => exact nofun
  | interface => exact ⟨nofun, .nil, nofun, nofun⟩
  | object => exact ⟨nofun, .nil, nofun⟩
  | scalar => trivial

/-! ### Adding

One step adds sound parts to a sound type.  Reserved names are excluded by the step itself, the
rest by what the syntax is.
-/

section Adding

variable {owner : Owner} {room : Nat}

theorem sound_addFields {fields fields' : NameTable Field} {stated : List FieldSyntax}
    (h : owner.AddsFields stated fields fields') (hstated : ∀ f ∈ stated, f.Sound room)
    (hfields : ∀ f ∈ fields.toList, f.Sound room) : ∀ f ∈ fields'.toList, f.Sound room := by
  refine h.forall_mem hfields fun f hf hadmitted => ?_
  have hsound := hstated f hf
  refine ⟨hsound.name, hadmitted.1, sound_parameters hsound.arguments, ?_, (hsound.type true).1,
    (hsound.type true).2⟩
  intro p hp
  obtain ⟨argument, hmem, rfl⟩ := List.mem_map.mp (NameTable.mem_of_mem_ofList hp)
  exact hadmitted.2 argument hmem

/-- The interfaces of a type that has been added to. -/
theorem sound_addInterfaces {kind : TypeKind} {stated interfaces interfaces' : List String}
    (h : AddsInterfaces owner.name kind stated interfaces interfaces')
    (hstated : ∀ name ∈ stated, isName name.toList = true)
    (hnames : ∀ name ∈ interfaces, isName name.toList = true) (hnodup : interfaces.Nodup) :
    (∀ name ∈ interfaces', isName name.toList = true) ∧ interfaces'.Nodup := by
  refine ⟨?_, h.distinct hnodup⟩
  rw [h.eq]
  exact List.forall_mem_append.mpr ⟨hnames, hstated⟩

/-- **What is added to a type keeps it sound.** -/
theorem sound_add {body body' : TypeBody} {contents : TypeContents}
    (h : TypeBody.Adds owner contents body body') (hbody : body.Sound room owner.name)
    (hcontents : contents.Sound room) : body'.Sound room owner.name := by
  cases h with
  | scalar => trivial
  | object hinterfaces hfields =>
    obtain ⟨hnames, hnodup, hsound⟩ := hbody
    obtain ⟨hnames', hnodup'⟩ := sound_addInterfaces hinterfaces hcontents.1 hnames hnodup
    exact ⟨hnames', hnodup', sound_addFields hfields hcontents.2 hsound⟩
  | interface hinterfaces hfields =>
    obtain ⟨hnames, hnodup, hself, hsound⟩ := hbody
    obtain ⟨hnames', hnodup'⟩ := sound_addInterfaces hinterfaces hcontents.1 hnames hnodup
    refine ⟨hnames', hnodup', ?_, sound_addFields hfields hcontents.2 hsound⟩
    rw [hinterfaces.eq, List.mem_append, not_or]
    exact ⟨hself, fun hmem => hinterfaces.other _ hmem ⟨rfl, rfl⟩⟩
  | union hmembers =>
    refine List.forall_mem_map.mpr (hmembers.forall_mem ?_ fun name hname _ => hcontents name hname)
    exact List.forall_mem_map.mp hbody
  | enum hvalues => exact hvalues.forall_mem hbody fun v hv _ => hcontents v hv
  | inputObject hfields => exact hfields.forall_mem hbody fun p hp _ => sound_parameter (hcontents p hp)

/-- What is added to a type has constants for its defaults. -/
theorem properBody_add {body body' : TypeBody} {contents : TypeContents}
    (h : TypeBody.Adds owner contents body body') (hbody : ProperBody body)
    (hcontents : contents.Sound room) : ProperBody body' := by
  have hfield : ∀ f : FieldSyntax, f.Sound (room - 1) → ProperArguments (owner.field f) :=
    fun f hf p hp => (sound_parameters hf.arguments p hp).default
  cases h with
  | scalar | union | enum => trivial
  | object _ hfields | interface _ hfields =>
    exact hfields.forall_mem hbody fun f hf _ => hfield f (hcontents.2 f hf)
  | inputObject hfields =>
    exact hfields.forall_mem hbody fun p hp _ => (sound_parameter (hcontents p hp)).default

end Adding

/-! ### Drafts -/

/-- The invariant of loading: everything in the draft is sound, the extensions that wait included,
and the built-in scalars are there. -/
structure Draft.Sound (draft : Draft) : Prop where
  types : ∀ t ∈ draft.types.toList, t.Sound
  scalars : ∀ name ∈ Builtin.scalarNames, name ∈ draft.types.names
  directives : ∀ d ∈ draft.directives.toList, d.Sound
  extensions : ∀ extension ∈ draft.extensions, extension.type.Sound nestingLimit

namespace Draft

variable {draft draft' : Draft}

theorem sound_of_empty : empty.Sound where
  types := by
    intro t ht
    have hmem := NameTable.mem_of_mem_ofList ht
    obtain ⟨name, hname, rfl⟩ := List.mem_map.mp hmem
    have hall : ∀ name ∈ Builtin.scalarNames,
        isName name.toList = true ∧ Builtin.isReserved name = false := by decide
    exact ⟨(hall name hname).1, (hall name hname).2, trivial⟩
  scalars := by decide
  directives := nofun
  extensions := nofun

theorem sound_of_define (h : draft.Sound) {source : Source} {description : Option String}
    {type : TypeSyntax} (htype : type.Sound nestingLimit)
    (hdefine : draft.define source description type = .ok draft') : draft'.Sound := by
  obtain ⟨t, ht, -, rfl⟩ := define_eq_ok_iff.mp hdefine
  have hsound : t.Sound := by
    refine ⟨ht.name ▸ htype.name, ht.name ▸ ht.unreserved, ?_⟩
    rw [ht.name]
    exact sound_add ht.body (sound_empty nestingLimit _ _) htype.contents
  refine ⟨fun u hu => ?_, fun name hname => ?_, h.directives, h.extensions⟩
  · rcases NameTable.mem_of_mem_insert hu with rfl | hu
    · exact hsound
    · exact h.types u hu
  · show name ∈ (draft.types.insert t).names
    rw [NameTable.names_insert]
    split
    · exact h.scalars name hname
    · exact List.mem_append_left _ (h.scalars name hname)

theorem sound_of_defineDirective (h : draft.Sound) {source : Source} {d : DirectiveSyntax}
    (hd : d.Sound nestingLimit) (hdefine : draft.defineDirective source d = .ok draft') :
    draft'.Sound := by
  obtain ⟨hreserved, -, rfl⟩ := defineDirective_eq_ok_iff.mp hdefine
  refine ⟨h.types, h.scalars, fun e he => ?_, h.extensions⟩
  rcases NameTable.mem_of_mem_insert he with rfl | he
  · exact ⟨hd.name, hreserved, sound_parameters hd.arguments⟩
  · exact h.directives e he

/-- Declaring roots changes nothing else. -/
theorem sound_of_declareRoots (h : draft.Sound) {source : Source} {block : SchemaBlock}
    (hdeclare : draft.declareRoots source block = .ok draft') : draft'.Sound := by
  obtain ⟨hrest, -, -⟩ := declareRoots_eq_ok_iff.mp hdeclare
  exact ⟨hrest.types ▸ h.types, hrest.types ▸ h.scalars, hrest.directives ▸ h.directives,
    hrest.extensions ▸ h.extensions⟩

theorem sound_of_loadItem (h : draft.Sound) {source : Source} {item : Item}
    (hitem : item.Sound nestingLimit) (hload : loadItem source draft item = .ok draft') :
    draft'.Sound := by
  cases item with
  | schemaBlock block => exact sound_of_declareRoots h hload
  | typeDefinition description type => exact sound_of_define h hitem hload
  | typeExtension type =>
    obtain rfl := Except.ok.inj hload
    refine ⟨h.types, h.scalars, h.directives, fun extension hmem => ?_⟩
    rcases List.mem_append.mp hmem with hmem | hmem
    · exact h.extensions extension hmem
    · obtain rfl := List.mem_singleton.mp hmem
      exact hitem
  | directiveDefinition d => exact sound_of_defineDirective h hitem hload

/-- **Loading a source keeps a draft sound.** -/
theorem sound_of_load (h : draft.Sound) {path? : Option FilePath} {content : String}
    (hload : draft.load path? content = .ok draft') : draft'.Sound := by
  have htext : ∀ {draft : Draft} {path : FilePath}, draft.Sound →
      draft.loadText path content = .ok draft' → draft'.Sound := by
    intro draft path h hload
    unfold loadText at hload
    split at hload
    · cases hload
    · next items hitems =>
      refine of_foldlM_eq_ok hload h fun item hitem draft draft' h hstep => ?_
      exact sound_of_loadItem h (sound_of_readSchemaDocument hitems item hitem) hstep
  cases path? with
  | some path => exact htext h hload
  | none =>
    have hnext : ({ draft with unnamed := draft.unnamed + 1 } : Draft).Sound :=
      ⟨h.types, h.scalars, h.directives, h.extensions⟩
    exact htext hnext hload

/-- **What sources are loaded into is sound.** -/
theorem sound_of_loadAll {texts : List SourceText} (hload : empty.loadAll texts = .ok draft) : draft.Sound :=
  of_foldlM_eq_ok hload sound_of_empty fun _ _ _ _ h hstep => sound_of_load h hstep

end Draft

/-! ### Schemas

Building puts in the types that every schema has.  They have reserved names, so they are sound only
in part: what can be said of them is kept apart.
-/

/-- The kinds of the introspection types. -/
def Builtin.kindOf? (name : String) : Option TypeKind :=
  (introspection.find? fun t => t.name == name).map TypeDef.kind

/-- The types of a schema are sound, apart from the introspection types, of which only the kinds
are known, and that their defaults are constants. -/
structure TypesSound (types : NameTable TypeDef) : Prop where
  defaults : ∀ t ∈ types.toList, ProperBody t.body
  sound : ∀ t ∈ types.toList, Builtin.isReserved t.name = false → t.Sound
  named : ∀ t ∈ types.toList, isName t.name.toList = true
  scalars : ∀ name ∈ Builtin.scalarNames, name ∈ types.names
  reserved : ∀ name, Builtin.isReserved name = true → types.kindOf? name = Builtin.kindOf? name

/-- What a schema that has been built is made of.  An operation that has no root could not take
the type of its name for it either. -/
structure Schema.Sound (schema : Schema) : Prop where
  types : TypesSound schema.types
  directives : ∀ d ∈ schema.directives.toList, d.isBuiltin = false → d.Sound
  defaults : ∀ d ∈ schema.directives.toList, ∀ p ∈ d.parameters.toList, ∀ v ∈ p.default, v.Proper
  references : schema.types.referenceErrors schema.directives = []
  roots : ∀ operation, ∀ name ∈ schema.root operation, schema.types.kindOf? name = some .object
  rootless : ∀ operation : OperationKind, schema.root operation = none →
    schema.types.kindOf? operation.name ≠ some .object

theorem introspection_reserved : ∀ t ∈ Builtin.introspection,
    Builtin.isReserved t.name = true ∧ isName t.name.toList = true := by decide

/-- The defaults of the language are constants. -/
def Builtin.HasConstant (p : Parameter) : Bool :=
  match p.default with
  | none | some (.boolean _) | some (.string _) => true
  | _ => false

theorem Builtin.proper_of_hasConstant {p : Parameter} (h : HasConstant p = true) : ∀ v ∈ p.default, v.Proper := by
  intro v hv
  unfold HasConstant at h
  rw [Option.mem_def.mp hv] at h
  cases v with
  | boolean value => exact .boolean value
  | string value => exact .string value
  | _ => cases h

theorem introspection_proper : ∀ t ∈ Builtin.introspection, ProperBody t.body := by
  have hall : ∀ t ∈ Builtin.introspection, ∀ fields ∈ t.fields?, ∀ f ∈ fields.toList,
      ∀ p ∈ f.parameters.toList, Builtin.HasConstant p = true := by decide
  have hkinds : ∀ t ∈ Builtin.introspection, t.kind ≠ .inputObject := by decide
  intro t ht
  cases hbody : t.body with
  | inputObject => exact absurd (congrArg TypeBody.kind hbody) (hkinds t ht)
  | interface interfaces fields | object interfaces fields =>
    have hfields : t.fields? = some fields := by rw [TypeDef.fields?, hbody]
    exact fun f hf p hp => Builtin.proper_of_hasConstant (hall t ht fields hfields f hf p hp)
  | _ => trivial

theorem directives_proper : ∀ d ∈ Builtin.directives, ∀ p ∈ d.parameters.toList, ∀ v ∈ p.default, v.Proper := by
  have hall : ∀ d ∈ Builtin.directives, ∀ p ∈ d.parameters.toList, Builtin.HasConstant p = true := by
    decide
  exact fun d hd p hp => Builtin.proper_of_hasConstant (hall d hd p hp)

theorem introspection_nodup : (Builtin.introspection.map Named.name).Nodup := by decide

theorem toList_withBuiltins {draft : Draft} (h : ∀ t ∈ draft.types.toList, Builtin.isReserved t.name = false) :
    draft.withBuiltins.types.toList = draft.types.toList ++ Builtin.introspection := by
  refine NameTable.toList_foldl_insert (List.nodup_append.mpr
    ⟨draft.types.names_nodup, introspection_nodup, fun name hname other hother heq => ?_⟩)
  obtain ⟨t, ht, rfl⟩ := List.mem_map.mp hname
  obtain ⟨u, hu, rfl⟩ := List.mem_map.mp hother
  have hreserved : Builtin.isReserved t.name = true := by
    rw [show t.name = u.name from heq]
    exact (introspection_reserved u hu).1
  rw [h t ht] at hreserved
  cases hreserved

/-- The directives come behind those of the language that the draft does not have itself. -/
theorem Draft.toList_directives_withBuiltins (draft : Draft) :
    draft.withBuiltins.directives.toList
      = (Builtin.directives.filter fun d => !draft.directives.contains d.name) ++ draft.directives.toList := by
  rw [directives_withBuiltins]
  refine NameTable.toList_ofList ?_
  rw [List.map_append]
  refine List.nodup_append.mpr ⟨?_, draft.directives.names_nodup, ?_⟩
  · have hnodup : (Builtin.directives.map Directive.name).Nodup := by decide
    exact hnodup.sublist (List.filter_sublist.map Directive.name)
  · rintro _ hname _ hdraft rfl
    obtain ⟨d, hd, rfl⟩ := List.mem_map.mp hname
    have hmissing := (List.mem_filter.mp hd).2
    rw [Bool.not_eq_true', ← Bool.not_eq_true, NameTable.contains_iff] at hmissing
    exact hmissing hdraft

theorem Draft.Sound.withBuiltins {draft : Draft} (h : draft.Sound) :
    TypesSound draft.withBuiltins.types := by
  have hlist := toList_withBuiltins fun t ht => (h.types t ht).unreserved
  refine ⟨fun t ht => ?_, fun t ht hreserved => ?_, fun t ht => ?_, fun name hname => ?_,
    fun name hreserved => ?_⟩
  · rw [hlist] at ht
    rcases List.mem_append.mp ht with ht | ht
    · exact properBody (h.types t ht).body
    · exact introspection_proper t ht
  · rw [hlist] at ht
    rcases List.mem_append.mp ht with ht | ht
    · exact h.types t ht
    · rw [(introspection_reserved t ht).1] at hreserved
      cases hreserved
  · rw [hlist] at ht
    rcases List.mem_append.mp ht with ht | ht
    · exact (h.types t ht).name
    · exact (introspection_reserved t ht).2
  · rw [NameTable.names, hlist, List.map_append]
    exact List.mem_append_left _ (h.scalars name hname)
  · rw [NameTable.kindOf?, NameTable.find?, hlist, List.find?_append]
    have hnone : draft.types.toList.find? (fun t => Named.name t == name) = none := by
      refine List.find?_eq_none.mpr fun t ht heq => ?_
      have hunreserved := (h.types t ht).unreserved
      rw [show t.name = name from eq_of_beq heq, hreserved] at hunreserved
      cases hunreserved
    rw [hnone]
    rfl

theorem TypesSound.applyExtension {types types' : NameTable TypeDef} {extension : PendingExtension}
    (h : TypesSound types) (hextension : extension.type.Sound nestingLimit)
    (happly : Draft.applyExtension types extension = .ok types') : TypesSound types' := by
  obtain ⟨type, htype, body, hbody, rfl⟩ := Draft.applyExtension_eq_ok_iff.mp happly
  obtain ⟨hmem, hname⟩ := NameTable.find?_eq_some_iff.mp htype
  have hname : type.name = extension.type.name := hname
  refine ⟨fun t ht => ?_, fun t ht hreserved => ?_, fun t ht => ?_, fun name hscalar => ?_,
    fun name hreserved => ?_⟩
  · rcases NameTable.mem_of_mem_insert ht with rfl | ht
    · exact properBody_add hbody (h.defaults type hmem) hextension.contents
    · exact h.defaults t ht
  · rcases NameTable.mem_of_mem_insert ht with rfl | ht
    · have hsound := h.sound type hmem hreserved
      have hbodySound := hsound.body
      rw [hname] at hbodySound
      refine ⟨hsound.name, hreserved, ?_⟩
      show body.Sound nestingLimit type.name
      rw [hname]
      exact sound_add hbody hbodySound hextension.contents
    · exact h.sound t ht hreserved
  · rcases NameTable.mem_of_mem_insert ht with rfl | ht
    · exact h.named type hmem
    · exact h.named t ht
  · rw [Draft.names_insert_body htype]
    exact h.scalars name hscalar
  · rw [← h.reserved name hreserved, NameTable.kindOf?, NameTable.kindOf?, NameTable.find?_insert]
    split
    · next heq =>
      have hsame : extension.type.name = name := hname.symm.trans heq
      rw [hsame] at htype
      rw [htype]
      exact congrArg some (hbody.kind_eq.2.trans hbody.kind_eq.1.symm)
    · rfl

/-- An operation without a root has no type of its name to take. -/
theorem Draft.rootless {draft : Draft} {types : NameTable TypeDef} (h : draft.Rooted types)
    {operation : OperationKind} (hnone : (draft.schemaOf types).root operation = none) :
    types.kindOf? operation.name ≠ some .object := by
  have hamong : ∀ operation, draft.rootAmong types operation = none →
      types.kindOf? operation.name ≠ some .object := by
    intro operation hnone hobject
    unfold rootAmong rootName at hnone
    split at hnone
    · cases hnone
    next hother =>
    cases hroot : draft.root? operation with
    | none =>
      rw [hroot] at hother
      exact hother hobject
    | some declaration =>
      rw [hroot] at hother
      exact hother (h.declared operation declaration hroot)
  cases operation with
  | query => cases hnone
  | mutation => exact hamong .mutation hnone
  | subscription => exact hamong .subscription hnone

/-- **A schema that has been built is sound.** -/
theorem Draft.Sound.build {draft : Draft} (h : draft.Sound) {schema : Schema}
    (hbuild : draft.build = .ok schema) : schema.Sound := by
  obtain ⟨types, hextend, hreferences, hrooted, rfl⟩ := Draft.build_eq_ok_iff.mp hbuild
  refine ⟨?_, fun d hd hbuiltin => ?_, fun d hd => ?_, hreferences,
    fun operation name hname => Draft.kindOf?_of_root_schemaOf hrooted hname,
    fun operation hnone => Draft.rootless hrooted hnone⟩
  · refine of_foldlM_eq_ok hextend h.withBuiltins fun extension hmem types types' ht hstep => ?_
    exact ht.applyExtension (h.extensions extension hmem) hstep
  · rcases List.mem_append.mp (NameTable.mem_of_mem_ofList hd) with hd | hd
    · have hall : ∀ d ∈ Builtin.directives, d.isBuiltin = true := by decide
      rw [hall d (List.mem_of_mem_filter hd)] at hbuiltin
      cases hbuiltin
    · exact h.directives d hd
  · rcases List.mem_append.mp (NameTable.mem_of_mem_ofList hd) with hd | hd
    · exact directives_proper d (List.mem_of_mem_filter hd)
    · exact fun p hp => ((h.directives d hd).parameters p hp).default

end GraphSchema
