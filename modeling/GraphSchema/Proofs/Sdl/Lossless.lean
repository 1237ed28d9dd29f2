/-
Nothing is lost in a document.

A schema is written without what every schema has, without places, and with defaults in the forms
of their types.  The rest of it is there again when its document is built: under each name a type
or directive of the same outline, so that a comparison finds no changes.  That what every schema
has is there again depends on the sources, which may define it anew or extend it (`OwnNames`).
-/
import GraphSchema.Proofs.Change.Outline
import GraphSchema.Proofs.Sdl.Expressible

namespace GraphSchema

open Sdl Syntax

/-! ### Outlines of what is read back -/

namespace Sdl

variable {schema : Schema}

theorem again_of_unwrapped {indent : Nat} {description : Option String} (h : Unwrapped indent description) :
    again indent description = description := by
  cases description with
  | none => rfl
  | some d =>
    obtain ⟨-, hlines⟩ := h d rfl
    have hpieces : ∀ line ∈ Text.cutAt '\n' d.toList, linePieces indent line = [line] := by
      intro line hline
      unfold linePieces
      split
      · next hempty => rw [List.isEmpty_iff.mp hempty]
      · exact hlines line hline
    have hsame : rewrapped indent d.toList = d.toList := by
      rw [rewrapped, descriptionPieces, List.flatMap_def, List.map_congr_left hpieces, ← List.flatMap_def,
        List.flatMap_singleton', Text.intercalate_cutAt]
    rw [again, Option.map_some, hsame, String.ofList_toList]

theorem ParameterAgain.outline {indent : Nat} {p q : Parameter} (h : ParameterAgain schema indent p q)
    (hdescription : Unwrapped indent p.description) : q.outline = p.outline := by
  show Parameter.mk q.name q.description .builtin q.type (q.default.map fun _ => .null)
    = Parameter.mk p.name p.description .builtin p.type (p.default.map fun _ => .null)
  rw [h.name, h.description, h.type, h.default, again_of_unwrapped hdescription, Option.map_map]
  rfl

theorem map_outline_parameters {indent : Nat} {ps qs : NameTable Parameter}
    (h : List.Forall₂ (ParameterAgain schema indent) ps.toList qs.toList)
    (hdescription : ∀ p ∈ ps.toList, Unwrapped indent p.description) :
    qs.map Parameter.outline Parameter.name_outline = ps.map Parameter.outline Parameter.name_outline :=
  NameTable.ext (map_eq_of_forall₂ h fun p hp _ hagain => hagain.outline (hdescription p hp))

theorem FieldAgain.outline {f g : Field} (h : FieldAgain schema f g) (hdescription : Unwrapped 2 f.description)
    (hparameters : ∀ p ∈ f.parameters.toList, Unwrapped 4 p.description) : g.outline = f.outline := by
  show Field.mk g.name g.description .builtin "" (g.parameters.map Parameter.outline Parameter.name_outline)
      g.type g.deprecation
    = Field.mk f.name f.description .builtin "" (f.parameters.map Parameter.outline Parameter.name_outline)
      f.type f.deprecation
  rw [h.name, h.description, h.type, h.deprecation, again_of_unwrapped hdescription,
    map_outline_parameters h.parameters hparameters]

theorem EnumValueAgain.outline {v w : EnumValue} (h : EnumValueAgain v w)
    (hdescription : Unwrapped 2 v.description) : w.outline = v.outline := by
  show EnumValue.mk w.name w.description .builtin "" w.deprecation
    = EnumValue.mk v.name v.description .builtin "" v.deprecation
  rw [h.name, h.description, h.deprecation, again_of_unwrapped hdescription]

theorem map_outline_members {members members' : NameTable TypeRef} (h : members'.names = members.names) :
    members'.map TypeRef.outline TypeRef.name_outline = members.map TypeRef.outline TypeRef.name_outline := by
  have hnames : ∀ table : NameTable TypeRef, (table.map TypeRef.outline TypeRef.name_outline).toList
      = table.names.map fun name => ⟨name, .builtin⟩ := by
    intro table
    rw [NameTable.names, List.map_map]
    rfl
  refine NameTable.ext ?_
  rw [hnames, hnames, h]

/-- A type that is written without wrapping keeps its outline when it is read back. -/
theorem TypeAgain.outline {t u : TypeDef} (h : TypeAgain schema t u) (hexpressible : schema.Expressible)
    (ht : t ∈ ownTypes schema) : u.outline = t.outline := by
  have hfields : ∀ {fields fields' : NameTable Field}, (∀ f ∈ fields.toList, f ∈ t.body.fields) →
      List.Forall₂ (FieldAgain schema) fields.toList fields'.toList →
      fields'.map Field.outline Field.name_outline = fields.map Field.outline Field.name_outline := by
    intro fields fields' hmem hagain
    refine NameTable.ext (map_eq_of_forall₂ hagain fun f hf g hfield => ?_)
    refine hfield.outline (hexpressible.fields t ht f (hmem f hf)).1 fun p hp => ?_
    exact (hexpressible.parameters _ (mem_ownParameters_of_field ht (hmem f hf) hp)).1
  have hbody : u.body.outline = t.body.outline := by
    have hagain := h.body
    generalize hshape : t.body = body at hagain hfields
    generalize u.body = body' at hagain
    cases hagain with
    | enum hvalues =>
      refine congrArg TypeBody.enum (NameTable.ext (map_eq_of_forall₂ hvalues fun v hv w hvalue => ?_))
      exact hvalue.outline (hexpressible.values t ht v (hshape ▸ hv)).1
    | inputObject hinputs =>
      refine congrArg TypeBody.inputObject (map_outline_parameters hinputs fun p hp => ?_)
      exact (hexpressible.parameters _ (mem_ownParameters_of_inputField ht (hshape ▸ hp))).1
    | interface hagain => exact congrArg (TypeBody.interface _) (hfields (fun _ hf => hf) hagain)
    | object hagain => exact congrArg (TypeBody.object _) (hfields (fun _ hf => hf) hagain)
    | scalar => rfl
    | union hnames => exact congrArg TypeBody.union (map_outline_members hnames)
  show TypeDef.mk u.name u.description .builtin u.body.outline
    = TypeDef.mk t.name t.description .builtin t.body.outline
  rw [h.name, h.description, hbody, again_of_unwrapped (hexpressible.types t ht)]

theorem DirectiveAgain.outline {d e : Directive} (h : DirectiveAgain schema d e) (hexpressible : schema.Expressible)
    (hd : d ∈ ownDirectives schema) : e.outline = d.outline := by
  show Directive.mk e.name e.description .builtin (e.parameters.map Parameter.outline Parameter.name_outline)
      e.repeatable e.locations
    = Directive.mk d.name d.description .builtin (d.parameters.map Parameter.outline Parameter.name_outline)
      d.repeatable d.locations
  rw [h.name, h.description, h.repeatable, h.locations, again_of_unwrapped (hexpressible.directives d hd),
    map_outline_parameters h.parameters fun p hp =>
      (hexpressible.parameters _ (mem_ownParameters_of_directive hd hp)).1]

end Sdl

/-! ### What every schema has -/

/-- The sources neither define anew nor extend what every schema has. -/
structure OwnNames (stated : List StatedItem) : Prop where
  types : ∀ name ∈ definedNames stated, name ∉ Builtin.scalarNames
  directives : ∀ name ∈ definedDirectiveNames stated, name ∉ Directive.builtinNames
  extensions : ∀ e ∈ stated.filterMap StatedItem.extension?, Builtin.isReserved e.type.name = false

instance (stated : List StatedItem) : Decidable (OwnNames stated) :=
  decidable_of_iff
    ((∀ name ∈ definedNames stated, name ∉ Builtin.scalarNames)
      ∧ (∀ name ∈ definedDirectiveNames stated, name ∉ Directive.builtinNames)
      ∧ ∀ e ∈ stated.filterMap StatedItem.extension?, Builtin.isReserved e.type.name = false)
    ⟨fun h => ⟨h.1, h.2.1, h.2.2⟩, fun h => ⟨h.types, h.directives, h.extensions⟩⟩

/-- The names in a single text can be looked at by reading it. -/
theorem exists_ownNames (text : SourceText)
    (h : ((readSchemaDocument text.2).map fun items =>
      decide (OwnNames (items.map (Prod.mk (text.toSource 0))))) = some true) :
    ∃ stated, ReadAs 0 [text] stated ∧ OwnNames stated := by
  obtain ⟨items, hread, hown⟩ := Option.map_eq_some_iff.mp h
  refine ⟨_, .cons hread (.nil _), ?_⟩
  rw [List.append_nil]
  exact of_decide_eq_true hown

/-- What every schema has is in the schema as it is. -/
structure Schema.KeepsLanguage (schema : Schema) : Prop where
  types : ∀ b ∈ Builtin.scalars ++ Builtin.introspection, schema.type? b.name = some b
  directives : ∀ b ∈ Builtin.directives, schema.directive? b.name = some b

/-- Extending a scalar type changes nothing. -/
theorem TypeDef.Extended.eq_of_scalar {extensions : List PendingExtension} {t t' : TypeDef}
    (h : t.Extended extensions t') (hscalar : t.body = .scalar) : t' = t := by
  obtain ⟨hname, hdescription, hlocation⟩ := h.rest
  have hkind : t'.body.kind = .scalar := by
    rw [show t'.body.kind = t.body.kind from h.kind_eq, hscalar]
    rfl
  have hbody : t'.body = .scalar := by
    cases hshape : t'.body with
    | scalar => rfl
    | _ =>
      rw [hshape] at hkind
      cases hkind
  obtain ⟨name, description, location, body⟩ := t
  obtain ⟨name', description', location', body'⟩ := t'
  cases hname
  cases hdescription
  cases hlocation
  exact congrArg (TypeDef.mk _ _ _) (hbody.trans hscalar.symm)

theorem Builtin.map_name_scalars : scalars.map TypeDef.name = scalarNames := by decide

theorem Draft.Loaded.find?_language {stated : List StatedItem} {draft : Draft} {types : NameTable TypeDef}
    (h : Draft.empty.Loaded stated draft) (hextend : draft.ExtendsTo types) (hown : OwnNames stated) {b : TypeDef}
    (hb : b ∈ Builtin.scalars ++ Builtin.introspection) : types.find? b.name = some b := by
  rcases List.mem_append.mp hb with hscalar | hintrospection
  · have hname := List.mem_map_of_mem (f := TypeDef.name) hscalar
    rw [Builtin.map_name_scalars] at hname
    have hmem := h.mem_of_builtin hb fun hmem => hown.types b.name hmem hname
    obtain ⟨t, hfound, hextended⟩ := h.exists_extended hextend hmem
    have hbody : b.body = .scalar := by
      obtain ⟨name, -, rfl⟩ := List.mem_map.mp hscalar
      rfl
    rwa [hextended.eq_of_scalar hbody] at hfound
  · obtain ⟨t, hfound, hextended⟩ := h.exists_extended hextend (List.mem_append_right _ hintrospection)
    have hnone : ((stated.filterMap StatedItem.extension?).filter fun e => e.type.name == b.name) = [] := by
      refine List.filter_eq_nil_iff.mpr fun e he heq => ?_
      have hreserved := hown.extensions e he
      rw [eq_of_beq heq, (introspection_reserved b hintrospection).1] at hreserved
      cases hreserved
    rw [hnone, TypeDef.Extended.nil_iff] at hextended
    rwa [hextended] at hfound

/-- **What every schema has is kept** by sources with names of their own. -/
theorem OwnNames.keepsLanguage {stated : List StatedItem} (hown : OwnNames stated) {texts : List SourceText}
    (hread : ReadAs 0 texts stated) {schema : Schema} (h : buildTexts texts = .ok schema) :
    schema.KeepsLanguage := by
  obtain ⟨draft, hloaded, hbuild⟩ := (buildTexts_eq_ok_iff hread).mp h
  have hshows := hloaded.shows hbuild
  obtain ⟨types, hextend, -, -, rfl⟩ := Draft.build_eq_ok_iff.mp hbuild
  refine ⟨fun b hb => hloaded.find?_language hextend hown hb, fun b hb => ?_⟩
  refine hshows.builtinDirectives b hb fun hmem => hown.directives b.name hmem ?_
  rw [← Builtin.map_name_directives]
  exact List.mem_map_of_mem hb

namespace Schema.KeepsLanguage

variable {schema other : Schema}

theorem kindOf?_scalar (h : schema.KeepsLanguage) {name : String} (hname : name ∈ Builtin.scalarNames) :
    schema.types.kindOf? name = some .scalar := by
  have hfound := h.types ⟨name, none, .builtin, .scalar⟩ (List.mem_append_left _ (List.mem_map_of_mem hname))
  exact congrArg (Option.map TypeDef.kind) hfound

/-- A type is one that every schema has, or one that the schema is written with. -/
theorem language_or_own (h : schema.KeepsLanguage) (hsound : schema.Sound) {t : TypeDef}
    (ht : t ∈ schema.types.toList) : t ∈ Builtin.scalars ++ Builtin.introspection ∨ t ∈ ownTypes schema := by
  have hlanguage : ∀ b ∈ Builtin.scalars ++ Builtin.introspection, b.name = t.name →
      t ∈ Builtin.scalars ++ Builtin.introspection := by
    intro b hb hname
    have hfound := h.types b hb
    rw [hname, Schema.type?, show schema.types.find? t.name = some t from NameTable.find?_name ht] at hfound
    exact Option.some.inj hfound ▸ hb
  by_cases hscalar : t.name ∈ Builtin.scalarNames
  · exact Or.inl (hlanguage _ (List.mem_append_left _ (List.mem_map_of_mem hscalar)) rfl)
  cases hreserved : Builtin.isReserved t.name with
  | false => exact Or.inr (mem_ownTypes_iff.mpr ⟨ht, hreserved, hscalar⟩)
  | true =>
    have hkind := hsound.types.reserved t.name hreserved
    rw [NameTable.kindOf?, show schema.types.find? t.name = some t from NameTable.find?_name ht] at hkind
    obtain ⟨b, hb, -⟩ := Option.map_eq_some_iff.mp hkind.symm
    have hmem := List.mem_append_right Builtin.scalars (List.mem_of_find?_eq_some hb)
    exact Or.inl (hlanguage b hmem (eq_of_beq (List.find?_some hb :)))

theorem language_or_own_directive (h : schema.KeepsLanguage) {d : Directive} (hd : d ∈ schema.directives.toList) :
    d ∈ Builtin.directives ∨ d ∈ ownDirectives schema := by
  cases hbuiltin : d.isBuiltin with
  | false => exact Or.inr (mem_ownDirectives_iff.mpr ⟨hd, hbuiltin⟩)
  | true =>
    have hname : d.name ∈ Directive.builtinNames := List.contains_iff_mem.mp hbuiltin
    rw [← Builtin.map_name_directives] at hname
    obtain ⟨b, hb, hname⟩ := List.mem_map.mp hname
    have hfound := h.directives b hb
    rw [hname, Schema.directive?, show schema.directives.find? d.name = some d from NameTable.find?_name hd] at hfound
    exact Or.inl (Option.some.inj hfound ▸ hb)

/-- **What has been restored has the outline that it had.** -/
theorem sameOutline (h : schema.KeepsLanguage) (hsound : schema.Sound) (hexpressible : schema.Expressible)
    (hrestored : Restored schema other.types other.directives) (hroots : other.root = schema.root) :
    schema.SameOutline other := by
  obtain ⟨newTypes, htypes, htypesAgain⟩ := hrestored.types
  obtain ⟨newDirectives, hdirectives, hdirectivesAgain⟩ := hrestored.directives
  refine ⟨hroots, NameTable.sameBy_of_exists (fun t u hsame => (congrArg TypeDef.name hsame :)) ?_ ?_,
    NameTable.sameBy_of_exists (fun d e hsame => (congrArg Directive.name hsame :)) ?_ ?_⟩
  · intro t ht
    rw [htypes]
    rcases h.language_or_own hsound ht with hlanguage | hown
    · exact ⟨t, by simp only [List.mem_append] at hlanguage ⊢; tauto, rfl⟩
    · obtain ⟨u, hu, hagain⟩ := exists_related_of_mem htypesAgain hown
      exact ⟨u, List.mem_append_left _ (List.mem_append_right _ hu), hagain.outline hexpressible hown⟩
  · rw [htypes]
    intro u hu
    have hlanguage : ∀ b ∈ Builtin.scalars ++ Builtin.introspection, ∃ t ∈ schema.types.toList,
        b.outline = t.outline := fun b hb => ⟨b, NameTable.mem_of_find?_eq_some (h.types b hb), rfl⟩
    rw [List.forall_mem_append] at hlanguage
    rcases List.mem_append.mp hu with hu | hu
    · rcases List.mem_append.mp hu with hu | hu
      · exact hlanguage.1 u hu
      · obtain ⟨t, ht, hagain⟩ := exists_related_of_mem_right htypesAgain hu
        exact ⟨t, (mem_ownTypes_iff.mp ht).1, hagain.outline hexpressible ht⟩
    · exact hlanguage.2 u hu
  · intro d hd
    rw [hdirectives]
    rcases h.language_or_own_directive hd with hlanguage | hown
    · exact ⟨d, List.mem_append_left _ hlanguage, rfl⟩
    · obtain ⟨e, he, hagain⟩ := exists_related_of_mem hdirectivesAgain hown
      exact ⟨e, List.mem_append_right _ he, hagain.outline hexpressible hown⟩
  · rw [hdirectives]
    intro e he
    rcases List.mem_append.mp he with he | he
    · exact ⟨e, NameTable.mem_of_find?_eq_some (h.directives e he), rfl⟩
    · obtain ⟨d, hd, hagain⟩ := exists_related_of_mem_right hdirectivesAgain he
      exact ⟨d, (mem_ownDirectives_iff.mp hd).1, hagain.outline hexpressible hd⟩

end Schema.KeepsLanguage

/--
**A document says all that a schema says.**

A schema whose sources have names of their own, and that can be written, is built again from its
document: with the same roots, and under each name a type or directive that has the same
description, the same parts in the same order, and the same types, places and reasons for
deprecation.  Comparing the two finds no changes.
-/
theorem exists_sameOutline {texts : List SourceText} {stated : List StatedItem} (hread : ReadAs 0 texts stated)
    (hown : OwnNames stated) {schema : Schema} (h : buildTexts texts = .ok schema)
    (hexpressible : schema.Expressible) (hshallow : schema.Shallow) :
    ∃ other, buildTexts [(none, schema.sdl)] = .ok other ∧ schema.SameOutline other ∧
      schema.changes other = [] ∧ other.changes schema = [] := by
  have hsound := sound_of_buildTexts h
  have hlanguage := hown.keepsLanguage hread h
  have hlegible := hexpressible.legible hshallow hsound fun name => hlanguage.kindOf?_scalar
  obtain ⟨other, hbuild, hrestored, hroots⟩ := hsound.exists_restored hlegible
  have hsame := hlanguage.sameOutline hsound hexpressible hrestored hroots
  exact ⟨other, hbuild, hsame, hsame.changes_eq_nil, hsame.symm.changes_eq_nil⟩

theorem exists_sameOutline_describedArgument : ∃ stated schema, ReadAs 0 [describedArgument] stated ∧ OwnNames stated ∧
    buildTexts [describedArgument] = .ok schema ∧ schema.Expressible ∧ schema.Shallow ∧
    ∃ other, buildTexts [(none, schema.sdl)] = .ok other ∧ schema.SameOutline other ∧
      schema.changes other = [] ∧ other.changes schema = [] := by
  obtain ⟨stated, hread, hown⟩ := exists_ownNames describedArgument (by decide +kernel)
  obtain ⟨schema, h, hcheck⟩ := exists_buildTexts [describedArgument]
    (p := fun schema => decide (schema.Expressible ∧ schema.Shallow)) (by decide +kernel)
  obtain ⟨hexpressible, hshallow⟩ : schema.Expressible ∧ schema.Shallow := of_decide_eq_true hcheck
  exact ⟨stated, schema, hread, hown, h, hexpressible, hshallow,
    exists_sameOutline hread hown h hexpressible hshallow⟩

/-! ### Schemas that are not shallow -/

/-- The text builds a schema that can be written, and whose document builds none nevertheless. -/
def ExpressibleUnreadable (text : SourceText) : Prop :=
  ∃ stated schema, ReadAs 0 [text] stated ∧ OwnNames stated ∧ buildTexts [text] = .ok schema ∧ schema.Expressible ∧
    ∀ other, buildTexts [(none, schema.sdl)] ≠ .ok other

theorem expressibleUnreadable_of_check {text : SourceText}
    (hnames : ((readSchemaDocument text.2).map fun items =>
      decide (OwnNames (items.map (Prod.mk (text.toSource 0))))) = some true)
    (h : (buildTexts [text]).toOption.any (fun schema =>
      decide schema.Expressible && !(buildTexts [(none, schema.sdl)]).isOk) = true) :
    ExpressibleUnreadable text := by
  obtain ⟨stated, hread, hown⟩ := exists_ownNames text hnames
  obtain ⟨schema, hbuild, hcheck⟩ := exists_buildTexts [text] h
  rw [Bool.and_eq_true, decide_eq_true_eq] at hcheck
  refine ⟨stated, schema, hread, hown, hbuild, hcheck.1, fun other hother => ?_⟩
  rw [hother] at hcheck
  cases hcheck.2

/-- A directive without a place. -/
def unplacedDirective : SourceText := (none, "type Query \x7b f: Int \x7d directive @d on")

/-- An object at as many lists as can be read, in which it is one too many. -/
def deepDefault : SourceText :=
  (none, "type Query \x7b f(x: " ++ String.ofList (List.replicate 48 '[') ++ "Int"
    ++ String.ofList (List.replicate 48 ']') ++ " = \x7b a: 1 \x7d): Int \x7d")

/-- What can be written need not be read back, if it is not shallow. -/
theorem expressibleUnreadable_unshallow : ExpressibleUnreadable unplacedDirective ∧ ExpressibleUnreadable deepDefault :=
  ⟨expressibleUnreadable_of_check (by decide +kernel) (by decide +kernel),
    expressibleUnreadable_of_check (by decide +kernel) (by decide +kernel)⟩

end GraphSchema
