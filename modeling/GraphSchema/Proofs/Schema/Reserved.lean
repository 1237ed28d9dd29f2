/-
Which names are reserved.

Names that begin with two underscores belong to the language.  No source may define a type, a field,
an argument of a field or a directive of such a name, and each is looked at where it is added,
whether a definition or an extension adds it.  So none of them is in a schema that has been built,
but for the introspection types.

Input fields and arguments of directives are added without a look at their names.  In a schema that
has been built they are unreserved exactly if they are so in what is written
(`buildTexts_unreserved`).
-/
import GraphSchema.Proofs.Schema.Kept

namespace GraphSchema

open Syntax

variable {stated : List StatedItem} {draft : Draft} {types : NameTable TypeDef} {schema : Schema}

/-! ### Fields and their arguments

The check stands in the function that adds a field, so it covers definitions and extensions.  Of
arguments that repeat a name only one is kept, but all are checked.
-/

/-- The arguments of a table have the names of those that are stated. -/
theorem Source.StatesArguments.forall_name_iff {source : Source} {stated : List InputValueSyntax}
    {parameters : NameTable Parameter} (h : source.StatesArguments stated parameters) (Q : String → Prop) :
    (∀ p ∈ parameters.toList, Q p.name) ↔ ∀ p ∈ stated, Q p.name := by
  have hnames : ∀ name, name ∈ parameters.names ↔ name ∈ stated.map InputValueSyntax.name := by
    intro name
    rw [h.names, List.mem_eraseDups]
  rw [← List.forall_mem_map (f := InputValueSyntax.name) (P := Q)]
  simp only [← hnames, NameTable.names, List.forall_mem_map]
  exact Iff.rfl

theorem Source.unreserved_parameters_iff {source : Source} {stated : List InputValueSyntax} :
    (∀ p ∈ (source.parameters stated).toList, Builtin.isReserved p.name = false) ↔
      ∀ p ∈ stated, Builtin.isReserved p.name = false :=
  (statesArguments stated).forall_name_iff fun name => Builtin.isReserved name = false

/-- Neither the fields of a type nor their arguments have reserved names. -/
def TypeBody.FieldsUnreserved (body : TypeBody) : Prop :=
  ∀ f ∈ body.fields, Builtin.isReserved f.name = false ∧
    ∀ p ∈ f.parameters.toList, Builtin.isReserved p.name = false

theorem TypeBody.fieldsUnreserved_empty (kind : TypeKind) : (TypeBody.empty kind).FieldsUnreserved := by
  cases kind <;> exact nofun

theorem TypeBody.Adds.fieldsUnreserved {owner : Owner} {contents : TypeContents} {body body' : TypeBody}
    (h : Adds owner contents body body') (hbody : body.FieldsUnreserved) : body'.FieldsUnreserved := by
  cases h with
  | object _ hfields | interface _ hfields =>
    exact hfields.forall_mem hbody fun f _ hadmitted =>
      ⟨hadmitted.1, Source.unreserved_parameters_iff.mpr hadmitted.2⟩
  | _ => exact nofun

theorem introspection_fieldsUnreserved : ∀ t ∈ Builtin.introspection, t.body.FieldsUnreserved := by
  show ∀ t ∈ Builtin.introspection, ∀ f ∈ t.body.fields, Builtin.isReserved f.name = false ∧
    ∀ p ∈ f.parameters.toList, Builtin.isReserved p.name = false
  decide

namespace Draft.Loaded

/-- **No field and no argument of a field has a reserved name.** -/
theorem fieldsUnreserved (h : Draft.empty.Loaded stated draft) (hextend : draft.ExtendsTo types) :
    ∀ t ∈ types.toList, t.body.FieldsUnreserved := by
  refine ExtendsTo.forall_body (P := fun _ body => body.FieldsUnreserved)
    (fun _ _ _ _ _ h => h.fieldsUnreserved) hextend introspection_fieldsUnreserved ?_
  refine forall_body (P := fun _ body => body.FieldsUnreserved) (fun _ _ _ _ h => h.fieldsUnreserved) h
    (fun _ => TypeBody.fieldsUnreserved_empty) fun t ht => ?_
  obtain ⟨name, -, rfl⟩ := List.mem_map.mp (NameTable.mem_of_mem_ofList ht)
  exact nofun

/-! ### Types and directives -/

/-- **Only types of the language have reserved names.** -/
theorem typesUnreserved (h : Draft.empty.Loaded stated draft) (hextend : draft.ExtendsTo types) :
    ∀ t ∈ types.toList, t.isBuiltin = false → Builtin.isReserved t.name = false := by
  intro t ht hbuiltin
  obtain ⟨u, hu, hextended⟩ := exists_related_of_mem_right (h.extended hextend) ht
  obtain ⟨hname, -, hlocation⟩ := hextended.rest
  rw [hname]
  rcases List.mem_append.mp hu with hu | hu
  · exact h.unreserved u hu
  · have hlanguage : ∀ b ∈ Builtin.introspection, b.isBuiltin = true := by decide
    rw [TypeDef.isBuiltin, hlocation] at hbuiltin
    exact absurd (hlanguage u hu) (Bool.eq_false_iff.mp hbuiltin)

/-- The directives of a schema are those of the language that are not defined anew, and those that
are defined. -/
theorem toList_directives (h : Draft.empty.Loaded stated draft) : draft.withBuiltins.directives.toList
    = (Builtin.directives.filter fun d => !draft.directives.contains d.name)
      ++ (stated.filterMap StatedItem.directive?).map fun d => d.1.directive d.2 := by
  rw [draft.toList_directives_withBuiltins]
  exact congrArg _ h.directives.toList

theorem directivesUnreserved (h : Draft.empty.Loaded stated draft) :
    ∀ d ∈ draft.withBuiltins.directives.toList, Builtin.isReserved d.name = false := by
  have hlanguage : ∀ d ∈ Builtin.directives, Builtin.isReserved d.name = false := by decide
  rw [h.toList_directives, List.forall_mem_append, List.forall_mem_map]
  exact ⟨fun d hd => hlanguage d (List.mem_filter.mp hd).1, fun d hd => h.directives.admits d hd⟩

/-- The arguments of directives have the names that are written. -/
theorem argumentsUnreserved_iff (h : Draft.empty.Loaded stated draft) :
    (∀ d ∈ draft.withBuiltins.directives.toList, ∀ p ∈ d.parameters.toList, Builtin.isReserved p.name = false) ↔
      ∀ d ∈ stated.filterMap StatedItem.directive?, ∀ p ∈ d.2.arguments, Builtin.isReserved p.name = false := by
  have hlanguage : ∀ d ∈ Builtin.directives, ∀ p ∈ d.parameters.toList, Builtin.isReserved p.name = false := by
    decide
  have hwritten : ∀ d : Source × DirectiveSyntax,
      (∀ p ∈ (d.1.directive d.2).parameters.toList, Builtin.isReserved p.name = false) ↔
        ∀ p ∈ d.2.arguments, Builtin.isReserved p.name = false :=
    fun _ => Source.unreserved_parameters_iff
  rw [h.toList_directives, List.forall_mem_append, List.forall_mem_map]
  simp only [hwritten]
  exact and_iff_right fun d hd => hlanguage d (List.mem_filter.mp hd).1

end Draft.Loaded

/-! ### Input fields

Nothing is checked here.  So what can be said is an equivalence: the schema has such a name exactly
if some source writes it.
-/

/-- Contents that are written of the type of a name, in its definition or in an extension. -/
def WrittenOf (stated : List StatedItem) (name : String) (w : Written) : Prop :=
  (∃ d ∈ stated.filterMap StatedItem.definition?, d.2.2.name = name ∧ (d.1, d.2.2.contents) = w) ∨
    ∃ e ∈ stated.filterMap StatedItem.extension?, e.type.name = name ∧ e.written = w

theorem mem_writtenExtensions_iff {name : String} {w : Written} : w ∈ writtenExtensions stated name ↔
    ∃ e ∈ stated.filterMap StatedItem.extension?, e.type.name = name ∧ e.written = w := by
  simp only [writtenExtensions, List.mem_map, List.mem_filter, beq_iff_eq, and_assoc]

namespace Schema.Shows

/-- A type has the input fields that are written of it: no type of the language has any. -/
theorem exists_written (h : schema.Shows stated) {t : TypeDef} (ht : t ∈ schema.types.toList) :
    ∃ (before : TypeBody) (written : List Written), before.inputFields = [] ∧ before.Shows written t.body ∧
      ∀ w, w ∈ written ↔ WrittenOf stated t.name w := by
  have hfound : schema.type? t.name = some t := NameTable.find?_name ht
  by_cases hdefined : t.name ∈ definedNames stated
  · obtain ⟨d, hd, hname⟩ := List.mem_map.mp hdefined
    obtain ⟨t', hfound', -, -, hshows⟩ := h.types d hd
    rw [hname, hfound] at hfound'
    obtain rfl := Option.some.inj hfound'
    refine ⟨_, _, ?_, hshows, fun w => ?_⟩
    · cases d.2.2.contents.kind <;> rfl
    · rw [List.mem_cons, hname, mem_writtenExtensions_iff]
      refine or_congr_left ⟨fun heq => ⟨d, hd, hname, heq.symm⟩, ?_⟩
      rintro ⟨other, hother, hsame, rfl⟩
      rw [List.inj_on_of_nodup_map h.types_distinct hother hd (hsame.trans hname.symm)]
  · -- a type that is not defined is one that every schema has, and nothing but extensions add to it
    have hnames : t.name ∈ schema.types.names := NameTable.find?_isSome_iff.mp ⟨t, hfound⟩
    obtain ⟨b, hb, hname⟩ : ∃ b ∈ Builtin.scalars ++ Builtin.introspection, b.name = t.name := by
      rw [h.typeNames, List.mem_append, List.mem_append] at hnames
      rcases hnames with (hscalar | hdefinition) | hintrospection
      · exact ⟨_, List.mem_append_left _ (List.mem_map.mpr ⟨t.name, hscalar, rfl⟩), rfl⟩
      · exact absurd (List.mem_filter.mp hdefinition).1 hdefined
      · obtain ⟨b, hb, hname⟩ := List.mem_map.mp hintrospection
        exact ⟨b, List.mem_append_right _ hb, hname⟩
    obtain ⟨t', hfound', -, -, hshows⟩ := h.builtins b hb (hname ▸ hdefined)
    rw [hname, hfound] at hfound'
    obtain rfl := Option.some.inj hfound'
    have hlanguage : ∀ b ∈ Builtin.scalars ++ Builtin.introspection, b.body.inputFields.isEmpty = true := by
      decide
    refine ⟨_, _, List.isEmpty_iff.mp (hlanguage b hb), hshows, fun w => ?_⟩
    rw [hname, mem_writtenExtensions_iff]
    refine (or_iff_right ?_).symm
    rintro ⟨d, hd, hsame, -⟩
    exact hdefined (List.mem_map.mpr ⟨d, hd, hsame⟩)

/-- What holds of the names of input fields that are written holds of all input fields. -/
theorem forall_inputFields_iff (h : schema.Shows stated) (Q : String → Prop) :
    (∀ t ∈ schema.types.toList, ∀ p ∈ t.body.inputFields, Q p.name) ↔
      (∀ d ∈ stated.filterMap StatedItem.definition?, ∀ p ∈ d.2.2.contents.inputFields, Q p.name) ∧
        ∀ e ∈ stated.filterMap StatedItem.extension?, ∀ p ∈ e.type.contents.inputFields, Q p.name := by
  have hwritten : ∀ t ∈ schema.types.toList, (∀ p ∈ t.body.inputFields, Q p.name) ↔
      ∀ w, WrittenOf stated t.name w → ∀ p ∈ w.2.inputFields, Q p.name := by
    intro t ht
    obtain ⟨before, written, hbefore, hshows, hmem⟩ := h.exists_written ht
    obtain ⟨news, hafter, hnews⟩ := hshows.inputFields.added
    rw [hbefore, List.nil_append] at hafter
    have hnames : news.map Parameter.name = (partsOf TypeContents.inputFields written).map fun w => w.2.name :=
      map_eq_of_forall₂ hnews fun _ _ _ h => h.name
    rw [hafter, ← List.forall_mem_map (f := Parameter.name) (P := Q), hnames]
    simp only [List.forall_mem_map, partsOf, List.forall_mem_flatMap, hmem]
  constructor
  · intro hall
    refine ⟨fun d hd => ?_, fun e he => ?_⟩
    · obtain ⟨t, hfound, -⟩ := h.types d hd
      obtain ⟨ht, hname⟩ := NameTable.find?_eq_some_iff.mp hfound
      exact (hwritten t ht).mp (hall t ht) _ (Or.inl ⟨d, hd, hname.symm, rfl⟩)
    · obtain ⟨t, ht, hname⟩ := List.mem_map.mp (h.extended e he)
      exact (hwritten t ht).mp (hall t ht) _ (Or.inr ⟨e, he, hname.symm, rfl⟩)
  · rintro ⟨hdefinitions, hextensions⟩ t ht
    refine (hwritten t ht).mpr fun w hw => ?_
    rcases hw with ⟨d, hd, -, rfl⟩ | ⟨e, he, -, rfl⟩
    · exact hdefinitions d hd
    · exact hextensions e he

end Schema.Shows

/--
**Which names are reserved.**  In a schema that has been built, only types of the language have
reserved names, and no field, no argument of a field and no directive has one.  Input fields have
reserved names exactly if those that are written in definitions and extensions do, and so do the
arguments of directives.
-/
theorem buildTexts_unreserved {texts : List SourceText} (h : buildTexts texts = .ok schema) :
    ∃ stated, ReadAs 0 texts stated ∧
      (∀ t ∈ schema.types.toList, t.isBuiltin = false → Builtin.isReserved t.name = false) ∧
      (∀ t ∈ schema.types.toList, ∀ f ∈ t.body.fields, Builtin.isReserved f.name = false ∧
        ∀ p ∈ f.parameters.toList, Builtin.isReserved p.name = false) ∧
      (∀ d ∈ schema.directives.toList, Builtin.isReserved d.name = false) ∧
      ((∀ t ∈ schema.types.toList, ∀ p ∈ t.body.inputFields, Builtin.isReserved p.name = false) ↔
        (∀ d ∈ stated.filterMap StatedItem.definition?, ∀ p ∈ d.2.2.contents.inputFields,
          Builtin.isReserved p.name = false) ∧
        ∀ e ∈ stated.filterMap StatedItem.extension?, ∀ p ∈ e.type.contents.inputFields,
          Builtin.isReserved p.name = false) ∧
      ((∀ d ∈ schema.directives.toList, ∀ p ∈ d.parameters.toList, Builtin.isReserved p.name = false) ↔
        ∀ d ∈ stated.filterMap StatedItem.directive?, ∀ p ∈ d.2.arguments,
          Builtin.isReserved p.name = false) := by
  obtain ⟨stated, draft, hread, hloaded, hbuild⟩ := exists_loaded_of_buildTexts h
  have hshows := hloaded.shows hbuild
  obtain ⟨types, hextend, -, -, rfl⟩ := Draft.build_eq_ok_iff.mp hbuild
  exact ⟨stated, hread, hloaded.typesUnreserved hextend, hloaded.fieldsUnreserved hextend,
    hloaded.directivesUnreserved, hshows.forall_inputFields_iff fun name => Builtin.isReserved name = false,
    hloaded.argumentsUnreserved_iff⟩

/-- Something of each sort, in definitions and in extensions. -/
def namedTexts : List SourceText :=
  [(none, "extend input I \x7b b: Int \x7d extend type Query \x7b g(of: I): Int \x7d"),
   (none, "type Query \x7b f: Int \x7d input I \x7b a: Int \x7d directive @d(of: I) on FIELD")]

theorem buildTexts_unreserved_named : ∃ schema stated, buildTexts namedTexts = .ok schema ∧
    ReadAs 0 namedTexts stated ∧
    (∀ t ∈ schema.types.toList, t.isBuiltin = false → Builtin.isReserved t.name = false) ∧
    ∀ t ∈ schema.types.toList, ∀ f ∈ t.body.fields, Builtin.isReserved f.name = false ∧
      ∀ p ∈ f.parameters.toList, Builtin.isReserved p.name = false := by
  obtain ⟨schema, h⟩ := exists_ok (x := buildTexts namedTexts) (by decide +kernel)
  obtain ⟨stated, hread, htypes, hfields, -⟩ := buildTexts_unreserved h
  exact ⟨schema, stated, h, hread, htypes, hfields⟩

/-- An input field and an argument of a directive with reserved names. -/
def reservedTexts : List SourceText :=
  [(none, "type Query \x7b f: Int \x7d input I \x7b __a: Int \x7d directive @d(__b: Int) on FIELD")]

/-- They are taken. -/
theorem exists_reserved : ∃ schema, buildTexts reservedTexts = .ok schema ∧
    (∃ t ∈ schema.types.toList, ∃ p ∈ t.body.inputFields,
      p.location.isBuiltin = false ∧ Builtin.isReserved p.name = true) ∧
    ∃ d ∈ schema.directives.toList, ∃ p ∈ d.parameters.toList,
      p.location.isBuiltin = false ∧ Builtin.isReserved p.name = true := by
  let reserved (p : Parameter) : Bool := !p.location.isBuiltin && Builtin.isReserved p.name
  obtain ⟨schema, h, hreserved⟩ := exists_buildTexts reservedTexts
    (p := fun schema => (schema.types.toList.any fun t => t.body.inputFields.any reserved) &&
      schema.directives.toList.any fun d => d.parameters.toList.any reserved)
    (by decide +kernel)
  simp only [reserved, Bool.and_eq_true, List.any_eq_true, Bool.not_eq_true'] at hreserved
  exact ⟨schema, h, hreserved⟩

end GraphSchema
