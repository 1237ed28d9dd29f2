/-
What becomes of the introspection types.

Every schema has the types by which it can be asked about itself.  No source can define one of them,
but the extensions of a schema are applied when these types are there already, and an extension may
name any type.  So an introspection type is what it is in every schema, with what extensions state
behind it, and it stays as it is exactly if no extension of its name states anything
(`buildTexts_introspection`).  How it is written does not depend on the other types of the schema.
-/
import GraphSchema.Proofs.Schema.Kept
import GraphSchema.Proofs.Sdl.Again

namespace GraphSchema

open Syntax

variable {stated : List StatedItem} {draft : Draft} {types : NameTable TypeDef} {schema : Schema}

/-! ### Extensions that state nothing

An extension may name a type and add no part to it.  Such an extension leaves the type as it is,
and no other does.
-/

/-- No part of a type is stated. -/
structure Syntax.TypeContents.StatesNothing (contents : TypeContents) : Prop where
  interfaces : contents.interfaces = []
  fields : contents.fields = []
  members : contents.members = []
  values : contents.values = []
  inputFields : contents.inputFields = []

theorem partsOf_eq_nil_iff {σ : Type} {part : TypeContents → List σ} {written : List Written} :
    partsOf part written = [] ↔ ∀ w ∈ written, part w.2 = [] := by
  simp only [partsOf, List.flatMap_eq_nil_iff, List.map_eq_nil_iff]

/-- Parts stay as they are if no others are written. -/
theorem ShowsParts.eq_iff {σ α : Type} [Named α] {States : Source → σ → α → Prop} {before after : List α}
    {written : List (Source × σ)} (h : ShowsParts States before written after) :
    after = before ↔ written = [] := by
  obtain ⟨news, rfl, hnews⟩ := h.added
  rw [List.append_right_eq_self]
  constructor
  · rintro rfl
    exact List.forall₂_nil_right_iff.mp hnews
  · rintro rfl
    exact List.forall₂_nil_left_iff.mp hnews

namespace TypeBody

variable {before after : TypeBody}

/-- What a type is made of is its kind and its parts. -/
theorem ext_parts (hkind : after.kind = before.kind) (hinterfaces : after.interfaces = before.interfaces)
    (hfields : after.fields = before.fields) (hmembers : after.members = before.members)
    (hvalues : after.values = before.values) (hinputFields : after.inputFields = before.inputFields) :
    after = before := by
  -- two bodies of different kinds are out, which leaves one case for each kind
  cases after <;> cases before <;> cases hkind
  case enum => rw [NameTable.ext hvalues]
  case inputObject => rw [NameTable.ext hinputFields]
  case interface interfaces _ interfaces' _ | object interfaces _ interfaces' _ =>
    have hinterfaces : interfaces = interfaces' := hinterfaces
    rw [hinterfaces, NameTable.ext hfields]
  case scalar => rfl
  case union => rw [NameTable.ext hmembers]

/-- **A type stays as it is exactly if nothing is stated of it.** -/
theorem Shows.eq_iff {written : List Written} (h : before.Shows written after) :
    after = before ↔ ∀ w ∈ written, w.2.StatesNothing := by
  have hinterfaces : after.interfaces = before.interfaces ↔ ∀ w ∈ written, w.2.interfaces = [] := by
    rw [h.interfaces, List.append_right_eq_self, List.flatMap_eq_nil_iff]
  have hfields := h.fields.eq_iff.trans partsOf_eq_nil_iff
  have hmembers := h.members.eq_iff.trans partsOf_eq_nil_iff
  have hvalues := h.values.eq_iff.trans partsOf_eq_nil_iff
  have hinputFields := h.inputFields.eq_iff.trans partsOf_eq_nil_iff
  constructor
  · rintro rfl w hw
    exact ⟨hinterfaces.mp rfl w hw, hfields.mp rfl w hw, hmembers.mp rfl w hw, hvalues.mp rfl w hw,
      hinputFields.mp rfl w hw⟩
  · intro hnothing
    exact ext_parts h.kind (hinterfaces.mpr fun w hw => (hnothing w hw).interfaces)
      (hfields.mpr fun w hw => (hnothing w hw).fields) (hmembers.mpr fun w hw => (hnothing w hw).members)
      (hvalues.mpr fun w hw => (hnothing w hw).values)
      (hinputFields.mpr fun w hw => (hnothing w hw).inputFields)

end TypeBody

/-! ### Introspection types -/

/-- A type is one that every schema has, with what extensions state. -/
structure ExtendedBy (stated : List StatedItem) (b t : TypeDef) : Prop where
  name : t.name = b.name
  description : t.description = b.description
  location : t.location = b.location
  body : b.body.Shows (writtenExtensions stated b.name) t.body

theorem ExtendedBy.eq_iff {b t : TypeDef} (h : ExtendedBy stated b t) :
    t = b ↔ ∀ w ∈ writtenExtensions stated b.name, w.2.StatesNothing := by
  rw [← h.body.eq_iff]
  constructor
  · rintro rfl
    rfl
  · obtain ⟨hname, hdescription, hlocation, -⟩ := h
    obtain ⟨name, description, location, body⟩ := t
    intro hbody
    cases hname
    cases hdescription
    cases hlocation
    cases hbody
    rfl

/-- The types of reserved names. -/
def Schema.reservedTypes (schema : Schema) : List TypeDef :=
  schema.types.toList.filter fun t => Builtin.isReserved t.name

/-- **The types of reserved names are the introspection types**, in their order, with what extensions
state. -/
theorem Draft.Loaded.reservedTypes (h : Draft.empty.Loaded stated draft) (hbuild : draft.build = .ok schema) :
    List.Forall₂ (ExtendedBy stated) Builtin.introspection schema.reservedTypes := by
  obtain ⟨types, hextend, -, -, rfl⟩ := Draft.build_eq_ok_iff.mp hbuild
  -- extending keeps names, so the reserved types stand for the reserved ones among those extended
  let isReserved (t : TypeDef) : Bool := Builtin.isReserved t.name
  have hsame : ∀ {b t : TypeDef}, t.name = b.name → isReserved t = isReserved b := fun hname =>
    congrArg Builtin.isReserved hname
  have hfilter : (draft.types.toList ++ Builtin.introspection).filter isReserved = Builtin.introspection := by
    rw [List.filter_append, List.filter_eq_self.mpr fun b hb => (introspection_reserved b hb).1,
      List.filter_eq_nil_iff.mpr, List.nil_append]
    exact fun t ht => Bool.eq_false_iff.mp (h.unreserved t ht)
  have hreserved := List.rel_filter (p := isReserved) (q := isReserved)
    (fun b t hextended => Bool.eq_iff_iff.mp (hsame hextended.rest.1).symm) (h.extended hextend)
  rw [hfilter] at hreserved
  have hdistinct : ∀ b ∈ Builtin.introspection, b.body.interfaces.Nodup := by decide
  refine ((List.forall₂_and_left _ _).mpr ⟨hdistinct, hreserved⟩).imp fun b t hb => ?_
  obtain ⟨hname, hdescription, hlocation⟩ := hb.2.rest
  exact ⟨hname, hdescription, hlocation, hb.2.shows hb.1⟩

/-- No extension states anything of an introspection type. -/
def SparesIntrospection (stated : List StatedItem) : Prop :=
  ∀ b ∈ Builtin.introspection, ∀ w ∈ writtenExtensions stated b.name, w.2.StatesNothing

/-- The types of reserved names are as they are in every schema exactly if no extension states
anything of them. -/
theorem Draft.Loaded.reservedTypes_eq_iff (h : Draft.empty.Loaded stated draft) (hbuild : draft.build = .ok schema) :
    schema.reservedTypes = Builtin.introspection ↔ SparesIntrospection stated := by
  have hall := h.reservedTypes hbuild
  constructor
  · intro heq b hb
    rw [heq, List.forall₂_same] at hall
    exact (hall b hb).eq_iff.mp rfl
  · intro hspares
    have heq := map_eq_of_forall₂ (f := id) (g := id) hall fun b hb t hextended =>
      hextended.eq_iff.mpr (hspares b hb)
    rwa [List.map_id, List.map_id] at heq

/-! ### The text of a type

The text depends on other types only through the values of defaults.  In the introspection types
these are truth values, which are written the same at any schema.
-/

namespace Sdl

variable {other : Schema}

/-- The default of a parameter is written alike in two schemas. -/
def DefaultAlike (schema other : Schema) (p : Parameter) : Prop :=
  ∀ v ∈ p.default, valueText other v p.type = valueText schema v p.type

theorem blockItems_congr {α : Type} {item item' : Bool → α → String} {xs : List α}
    (h : ∀ x ∈ xs, ∀ first, item' first x = item first x) : blockItems item' xs = blockItems item xs :=
  blockItems_eq_of_forall₂ (R := Eq) (List.forall₂_same.mpr fun _ _ => rfl) fun x hx _ heq first =>
    heq ▸ h x hx first

theorem parameterText_congr {p : Parameter} (h : DefaultAlike schema other p) :
    parameterText other p = parameterText schema p := by
  unfold parameterText
  cases hdefault : p.default with
  | none => rfl
  | some v =>
    show _ ++ (" = " ++ valueText other v p.type) = _ ++ (" = " ++ valueText schema v p.type)
    rw [h v hdefault]

theorem parametersText_congr {ps : List Parameter} (h : ∀ p ∈ ps, DefaultAlike schema other p) (indent : String) :
    parametersText other ps indent = parametersText schema ps indent := by
  unfold parametersText
  rw [List.map_congr_left fun p hp => parameterText_congr (h p hp)]
  dsimp only
  rw [blockItems_congr fun p hp _ => by rw [parameterText_congr (h p hp)]]

theorem fieldText_congr {f : Field} (h : ∀ p ∈ f.parameters.toList, DefaultAlike schema other p) (first : Bool) :
    fieldText other first f = fieldText schema first f := by
  unfold fieldText
  rw [parametersText_congr h]

theorem inputFieldText_congr {p : Parameter} (h : DefaultAlike schema other p) (first : Bool) :
    inputFieldText other first p = inputFieldText schema first p := by
  unfold inputFieldText
  rw [parameterText_congr h]

/-- **What is written of a type depends on the other types by defaults alone.** -/
theorem typeText_congr {t : TypeDef}
    (harguments : ∀ f ∈ t.body.fields, ∀ p ∈ f.parameters.toList, DefaultAlike schema other p)
    (hinputFields : ∀ p ∈ t.body.inputFields, DefaultAlike schema other p) :
    typeText other t = typeText schema t := by
  obtain ⟨name, description, location, body⟩ := t
  rw [typeText_eq, typeText_eq]
  refine congrArg _ ?_
  cases body with
  | inputObject fields =>
    exact congrArg block (blockItems_congr fun p hp => inputFieldText_congr (hinputFields p hp))
  | interface interfaces fields | object interfaces fields =>
    refine congrArg (implementsText interfaces ++ block ·) (blockItems_congr fun f hf => ?_)
    exact fieldText_congr (harguments f hf)
  | _ => rfl

/-- A parameter has no default, or a truth value at the type of truth values. -/
def isBooleanDefault (p : Parameter) : Bool :=
  match p.default, p.type with
  | none, _ => true
  | some (.boolean _), .named "Boolean" _ => true
  | _, _ => false

/-- Truth values are written alike in all schemas. -/
theorem defaultAlike_of_isBooleanDefault {p : Parameter} (h : isBooleanDefault p = true) :
    DefaultAlike schema other p := by
  intro v hv
  unfold isBooleanDefault at h
  rw [hv] at h
  split at h
  · next hnone => cases hnone
  · next hsome htype =>
    cases hsome
    rw [htype]
    rfl
  · cases h

/-- **An introspection type is written alike in all schemas.** -/
theorem typeText_introspection {b : TypeDef} (hb : b ∈ Builtin.introspection) (schema other : Schema) :
    typeText other b = typeText schema b := by
  have harguments : ∀ b ∈ Builtin.introspection, ∀ f ∈ b.body.fields, ∀ p ∈ f.parameters.toList,
      isBooleanDefault p = true := by decide
  have hinputFields : ∀ b ∈ Builtin.introspection, ∀ p ∈ b.body.inputFields, isBooleanDefault p = true := by
    decide
  exact typeText_congr (fun f hf p hp => defaultAlike_of_isBooleanDefault (harguments b hb f hf p hp))
    fun p hp => defaultAlike_of_isBooleanDefault (hinputFields b hb p hp)

end Sdl

/-- The types that stand in the introspection document of a schema, as they are written there. -/
def Schema.introspectionTypeTexts (schema : Schema) : List String :=
  schema.reservedTypes.map (Sdl.typeText schema)

/-- They are what stands behind the roots and the directives. -/
theorem Schema.introspectionSdl_eq (schema : Schema) : schema.introspectionSdl
    = "\n\n".intercalate (Sdl.rootsText schema
        :: (schema.directives.toList.filter Directive.isBuiltin).map (Sdl.directiveText schema)
          ++ schema.introspectionTypeTexts) := rfl

/-! ### The least schema -/

/-- A type of queries and nothing else. -/
def bareTexts : List SourceText := [(none, "type Query")]

/-- A schema that is built from it has the introspection types as they are. -/
theorem exists_bare : ∃ bare, buildTexts bareTexts = .ok bare ∧ bare.reservedTypes = Builtin.introspection := by
  have hitems : readSchemaDocument "type Query" = some [.typeDefinition none ⟨⟨1, 1⟩, "Query", [], .object [] []⟩] := by
    cbv
  have hread := @ReadAs.cons 0 (none, _) _ _ _ hitems (.nil _)
  obtain ⟨bare, hbare⟩ := exists_ok (x := buildTexts bareTexts) (by decide +kernel)
  obtain ⟨draft, hloaded, hbuild⟩ := (buildTexts_eq_ok_iff hread).mp hbare
  refine ⟨bare, hbare, (hloaded.reservedTypes_eq_iff hbuild).mpr fun b _ => ?_⟩
  exact List.forall_mem_nil _

/--
**What becomes of the introspection types.**  An introspection type of a schema that has been built has
the description and the kind that it has in the least schema, and its parts with what extensions of its
name state behind them; so it is as it is there exactly if none of them states anything.  If that is so
of all introspection types, the introspection document has them as that of the least schema has.
-/
theorem buildTexts_introspection {texts : List SourceText} (h : buildTexts texts = .ok schema) :
    ∃ bare stated, buildTexts bareTexts = .ok bare ∧ ReadAs 0 texts stated ∧
      (∀ b ∈ Builtin.introspection, bare.type? b.name = some b ∧
        ∃ t, schema.type? b.name = some t ∧ t.description = b.description ∧ t.location = b.location ∧
          b.body.Shows (writtenExtensions stated b.name) t.body ∧
          (t = b ↔ ∀ w ∈ writtenExtensions stated b.name, w.2.StatesNothing)) ∧
      (SparesIntrospection stated → schema.introspectionTypeTexts = bare.introspectionTypeTexts) := by
  obtain ⟨bare, hbare, hsame⟩ := exists_bare
  obtain ⟨stated, draft, hread, hloaded, hbuild⟩ := exists_loaded_of_buildTexts h
  have hall := hloaded.reservedTypes hbuild
  refine ⟨bare, stated, hbare, hread, fun b hb => ⟨?_, ?_⟩, fun hspares => ?_⟩
  · rw [← hsame] at hb
    exact NameTable.find?_name (List.mem_filter.mp hb).1
  · obtain ⟨t, ht, hextended⟩ := exists_related_of_mem hall hb
    exact ⟨t, NameTable.find?_eq_some_iff.mpr ⟨(List.mem_filter.mp ht).1, hextended.name⟩,
      hextended.description, hextended.location, hextended.body, hextended.eq_iff⟩
  · unfold Schema.introspectionTypeTexts
    rw [hsame, (hloaded.reservedTypes_eq_iff hbuild).mpr hspares]
    exact List.map_congr_left fun b hb => Sdl.typeText_introspection hb bare schema

/-- Extensions of introspection types, before and behind other things. -/
def extendedIntrospection : List SourceText :=
  [(none, "extend type __Schema \x7b version(of: ID): Int \x7d extend type Query \x7b g: ID \x7d"),
   (none, "type Query \x7b f: Int \x7d extend enum __TypeKind \x7b UNKNOWN \x7d")]

theorem buildTexts_introspection_extended : ∃ schema bare stated, buildTexts extendedIntrospection = .ok schema ∧
    buildTexts bareTexts = .ok bare ∧ ReadAs 0 extendedIntrospection stated ∧
    ∀ b ∈ Builtin.introspection, bare.type? b.name = some b ∧
      ∃ t, schema.type? b.name = some t ∧ t.description = b.description ∧ t.location = b.location ∧
        b.body.Shows (writtenExtensions stated b.name) t.body ∧
        (t = b ↔ ∀ w ∈ writtenExtensions stated b.name, w.2.StatesNothing) := by
  obtain ⟨schema, h⟩ := exists_ok (x := buildTexts extendedIntrospection) (by decide +kernel)
  obtain ⟨bare, stated, hbare, hread, htypes, -⟩ := buildTexts_introspection h
  exact ⟨schema, bare, stated, h, hbare, hread, htypes⟩

/-- One more kind of types. -/
def anotherKind : List SourceText :=
  [(none, "type Query \x7b f: Int \x7d extend enum __TypeKind \x7b UNKNOWN \x7d")]

/-- It is taken, and so the kinds are not those of the least schema. -/
theorem exists_altered_introspection : ∃ schema bare, buildTexts anotherKind = .ok schema ∧
    buildTexts bareTexts = .ok bare ∧
    (schema.type? "__TypeKind").map (fun t => t.body.values.map EnumValue.name)
      = some ["SCALAR", "OBJECT", "INTERFACE", "UNION", "ENUM", "INPUT_OBJECT", "LIST", "NON_NULL", "UNKNOWN"] ∧
    (bare.type? "__TypeKind").map (fun t => t.body.values.map EnumValue.name)
      = some ["SCALAR", "OBJECT", "INTERFACE", "UNION", "ENUM", "INPUT_OBJECT", "LIST", "NON_NULL"] ∧
    schema.introspectionTypeTexts ≠ bare.introspectionTypeTexts := by
  let kinds (schema : Schema) : Option (List String) :=
    (schema.type? "__TypeKind").map fun t => t.body.values.map EnumValue.name
  obtain ⟨schema, h, hkinds⟩ := exists_buildTexts anotherKind (p := fun schema => kinds schema
      == some ["SCALAR", "OBJECT", "INTERFACE", "UNION", "ENUM", "INPUT_OBJECT", "LIST", "NON_NULL", "UNKNOWN"])
    (by decide +kernel)
  obtain ⟨bare, hbare, hbareKinds⟩ := exists_buildTexts bareTexts (p := fun bare => kinds bare
      == some ["SCALAR", "OBJECT", "INTERFACE", "UNION", "ENUM", "INPUT_OBJECT", "LIST", "NON_NULL"])
    (by decide +kernel)
  have htexts : (buildTexts anotherKind).toOption.map Schema.introspectionTypeTexts
      ≠ (buildTexts bareTexts).toOption.map Schema.introspectionTypeTexts := by decide +kernel
  rw [h, hbare] at htexts
  exact ⟨schema, bare, h, hbare, beq_iff_eq.mp hkinds, beq_iff_eq.mp hbareKinds,
    fun heq => htexts (congrArg some heq)⟩

end GraphSchema
