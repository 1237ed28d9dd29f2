/-
Building a document that has been loaded back.

The types that are written are there again, with the kinds that they had, and so are the types
of the language.  What referred to a type therefore refers to one that serves as well, and each
operation finds the root that it had: the schema builds, and its document is the same.

Types of the language are not written, and building puts them in anew.  `Restored` says of the
tables that come of it what the lookups of references, values and roots ask for.
-/
import GraphSchema.Proofs.Sdl.Rebuild

namespace GraphSchema.Sdl

open Syntax

variable {schema : Schema}

/-! ### What is written -/

/-- The directives that a schema is written with. -/
def ownDirectives (schema : Schema) : List Directive :=
  schema.directives.toList.filter fun d => !d.isBuiltin

theorem mem_ownDirectives_iff {d : Directive} :
    d ∈ ownDirectives schema ↔ d ∈ schema.directives.toList ∧ d.isBuiltin = false := by
  rw [ownDirectives, List.mem_filter, Bool.not_eq_true']

theorem ownDirectives_nodup (schema : Schema) : ((ownDirectives schema).map Directive.name).Nodup :=
  schema.directives.names_nodup.sublist (List.filter_sublist.map Directive.name)

theorem mem_ownTypes_iff {t : TypeDef} :
    t ∈ ownTypes schema ↔ t ∈ schema.types.toList ∧ Builtin.isReserved t.name = false ∧
      t.name ∉ Builtin.scalarNames := by
  unfold ownTypes
  rw [List.mem_mergeSort, List.mem_filter, Bool.and_eq_true, Bool.not_eq_true', Bool.not_eq_true',
    List.contains_eq_mem, decide_eq_false_iff_not]

theorem ownTypes_nodup (schema : Schema) : ((ownTypes schema).map TypeDef.name).Nodup := by
  unfold ownTypes
  rw [((List.mergeSort_perm _ _).map TypeDef.name).nodup_iff]
  exact schema.types.names_nodup.sublist (List.filter_sublist.map TypeDef.name)

theorem ownTypes_sorted (schema : Schema) :
    (ownTypes schema).Pairwise fun a b => decide (a.name ≤ b.name) = true := by
  refine List.pairwise_mergeSort (fun a b c hab hbc => ?_) (fun a b => ?_) _
  · exact decide_eq_true (String.le_trans (of_decide_eq_true hab) (of_decide_eq_true hbc))
  · rw [← Bool.decide_or]
    exact decide_eq_true (String.le_total _ _)

/-- What is found among the types that are written. -/
theorem find?_ownTypes {name : String} (hreserved : Builtin.isReserved name = false)
    (hscalar : name ∉ Builtin.scalarNames) :
    ((ownTypes schema).find? fun t => t.name == name) = schema.types.find? name := by
  let own : NameTable TypeDef := ⟨ownTypes schema, List.pairwise_map.mp (ownTypes_nodup schema)⟩
  show own.find? name = schema.types.find? name
  ext t
  rw [NameTable.find?_eq_some_iff, NameTable.find?_eq_some_iff]
  refine and_congr_left fun hname => ?_
  obtain rfl : t.name = name := hname
  exact mem_ownTypes_iff.trans (and_iff_left ⟨hreserved, hscalar⟩)

/-! ### What is there again -/

/-- The types and directives are those that a schema is written with, read back, and those of the
language. -/
structure Restored (schema : Schema) (types : NameTable TypeDef) (directives : NameTable Directive) :
    Prop where
  types : ∃ news, types.toList = Builtin.scalars ++ news ++ Builtin.introspection ∧
    List.Forall₂ (TypeAgain schema) (ownTypes schema) news
  directives : ∃ news, directives.toList = Builtin.directives ++ news ∧
    List.Forall₂ (DirectiveAgain schema) (ownDirectives schema) news

/-- A type that is read back belongs to the schema itself. -/
theorem unreserved_of_again {news : List TypeDef}
    (h : List.Forall₂ (TypeAgain schema) (ownTypes schema) news) :
    ∀ u ∈ news, Builtin.isReserved u.name = false := by
  refine forall_of_forall₂ h fun t ht u hagain => ?_
  rw [hagain.name]
  exact (mem_ownTypes_iff.mp ht).2.1

/-- Building adds what belongs to the language. -/
theorem Reloaded.restored {draft : Draft}
    (h : Reloaded schema (ownDirectives schema) (ownTypes schema) draft) :
    Restored schema draft.withBuiltins.types draft.withBuiltins.directives := by
  obtain ⟨news, hlist, hnews⟩ := h.types
  have hdirectiveNames : draft.directives.names = (ownDirectives schema).map Directive.name :=
    map_eq_of_forall₂ h.directives fun _ _ _ hagain => hagain.name
  refine ⟨⟨news, ?_, hnews⟩, ⟨draft.directives.toList, ?_, h.directives⟩⟩
  · rw [toList_withBuiltins, hlist]
    intro t ht
    rw [hlist] at ht
    rcases List.mem_append.mp ht with ht | ht
    · have hscalars : ∀ t ∈ Builtin.scalars, Builtin.isReserved t.name = false := by decide
      exact hscalars t ht
    · exact unreserved_of_again hnews t ht
  · have hother : ∀ d ∈ Builtin.directives, d.name ∉ draft.directives.names := by
      intro d hd hmem
      rw [hdirectiveNames] at hmem
      obtain ⟨own, hown, hname⟩ := List.mem_map.mp hmem
      have hbuiltin : ∀ d ∈ Builtin.directives, d.isBuiltin = true := by decide
      have hisBuiltin := hbuiltin d hd
      rw [Directive.isBuiltin, ← hname] at hisBuiltin
      exact Bool.eq_false_iff.mp (mem_ownDirectives_iff.mp hown).2 hisBuiltin
    have hmissing : (Builtin.directives.filter fun d => !draft.directives.contains d.name)
        = Builtin.directives := by
      refine List.filter_eq_self.mpr fun d hd => ?_
      rw [Bool.not_eq_true', ← Bool.not_eq_true, NameTable.contains_iff]
      exact hother d hd
    rw [Draft.toList_directives_withBuiltins, hmissing]

/-! ### What is found again -/

theorem find?_of_forall₂ {γ : Type} {g : TypeDef → γ} {types news : List TypeDef}
    (h : List.Forall₂ (TypeAgain schema) types news)
    (hg : ∀ t u, TypeAgain schema t u → g u = g t) (name : String) :
    (news.find? fun u => u.name == name).map g = (types.find? fun t => t.name == name).map g := by
  induction h with
  | nil => rfl
  | @cons t u types news hagain _ ih =>
    rw [List.find?_cons, List.find?_cons, hagain.name]
    cases t.name == name with
    | true => exact congrArg some (hg t u hagain)
    | false => exact ih

theorem find?_eq_none_of_forall {p : String → Prop} {types : List TypeDef} (h : ∀ t ∈ types, p t.name)
    {name : String} (hname : ¬p name) : (types.find? fun t => t.name == name) = none := by
  refine List.find?_eq_none.mpr fun t ht heq => hname ?_
  rw [← eq_of_beq heq]
  exact h t ht

/-! ### References

References are by name, and names lead to types of the old kinds.
-/

theorem isInput_again {table : NameTable TypeDef} {indent : Nat} {ps qs : List Parameter}
    (h : List.Forall₂ (ParameterAgain schema indent) ps qs)
    (hinput : ∀ p ∈ ps, table.IsInput p.type.innermostName) :
    ∀ q ∈ qs, table.IsInput q.type.innermostName := by
  refine forall_of_forall₂ h fun p hp q hagain => ?_
  rw [hagain.type]
  exact hinput p hp

/-- What is read back refers to the same types. -/
theorem BodyAgain.linked {table : NameTable TypeDef} {body body' : TypeBody}
    (h : BodyAgain schema body body') (hlinked : body.Linked table) : body'.Linked table := by
  have hfields : ∀ {fields fields' : NameTable Field},
      List.Forall₂ (FieldAgain schema) fields.toList fields'.toList →
      (∀ f ∈ fields.toList, f.Linked table) → ∀ g ∈ fields'.toList, g.Linked table := by
    intro fields fields' h hlinked
    refine forall_of_forall₂ h fun f hf g hagain => ⟨?_, isInput_again hagain.parameters (hlinked f hf).2⟩
    rw [hagain.type]
    exact (hlinked f hf).1
  cases h with
  | enum | scalar => trivial
  | inputObject h => exact isInput_again h hlinked
  | interface h | object h => exact ⟨hlinked.1, hfields h hlinked.2⟩
  | union h =>
    show ∀ name ∈ NameTable.names _, _
    rw [h]
    exact hlinked

theorem BodyAgain.named {body body' : TypeBody} (h : BodyAgain schema body body') :
    body'.named = body.named := by
  cases h with
  | union h => exact h
  | _ => rfl

/-- The types of the language, for themselves. -/
def languageTypes : NameTable TypeDef := .ofList (Builtin.scalars ++ Builtin.introspection)

theorem language_references : languageTypes.referenceErrors (.ofList Builtin.directives) = [] := by
  decide

theorem toList_languageTypes :
    languageTypes.toList = Builtin.scalars ++ Builtin.introspection := by
  refine NameTable.toList_ofList ?_
  decide

theorem toList_languageDirectives :
    (NameTable.ofList Builtin.directives).toList = Builtin.directives :=
  NameTable.toList_ofList (by decide)

/-! ### Fields of input objects

Values are arranged by the fields of input objects, so these have to be there with their types for
the values to be written as before.
-/

/-- The names and types of the fields, if the type is an input object. -/
def fieldTypes (body : TypeBody) : Option (List (String × WrappedType)) :=
  match body with
  | .inputObject fields => some (fields.toList.map fun f => (f.name, f.type))
  | _ => none

theorem BodyAgain.fieldTypes {body body' : TypeBody} (h : BodyAgain schema body body') :
    fieldTypes body' = fieldTypes body := by
  cases h with
  | inputObject h =>
    refine congrArg some (map_eq_of_forall₂ h fun p _ q hagain => ?_)
    rw [hagain.name, hagain.type]
  | _ => rfl

theorem signature?_of_scalar {name : String} (h : name ∈ Builtin.scalarNames) :
    signature? schema name = none := by
  rw [signature?, inputFields?, if_pos (List.contains_iff_mem.mpr h)]
  rfl

theorem signature?_of_not_scalar {name : String} (h : name ∉ Builtin.scalarNames) :
    signature? schema name
      = ((schema.types.find? name).map fun t => fieldTypes t.body).join := by
  rw [signature?, inputFields?, if_neg fun hmem => h (List.contains_iff_mem.mp hmem), Schema.type?]
  cases schema.types.find? name with
  | none => rfl
  | some t =>
    show t.inputFields?.map _ = Sdl.fieldTypes t.body
    unfold TypeDef.inputFields? Sdl.fieldTypes
    cases t.body <;> rfl

/-- No type of the language is an input object. -/
theorem kindOf?_language_ne (name : String) : Builtin.kindOf? name ≠ some .inputObject := by
  intro heq
  obtain ⟨t, ht, hkind⟩ := Option.map_eq_some_iff.mp heq
  have hall : ∀ t ∈ Builtin.introspection, t.kind ≠ .inputObject := by decide
  exact hall t (List.mem_of_find?_eq_some ht) hkind

namespace Restored

variable {types : NameTable TypeDef} {directives : NameTable Directive}

/-- Whatever is the same about a type that is read back is found under its name. -/
theorem find?_map (h : Restored schema types directives) {γ : Type} {g : TypeDef → γ}
    (hg : ∀ t u, TypeAgain schema t u → g u = g t) {name : String}
    (hreserved : Builtin.isReserved name = false) (hscalar : name ∉ Builtin.scalarNames) :
    (types.find? name).map g = (schema.types.find? name).map g := by
  obtain ⟨news, hlist, hnews⟩ := h.types
  have hscalars : (Builtin.scalars.find? fun t => t.name == name) = none :=
    find?_eq_none_of_forall (p := (· ∈ Builtin.scalarNames)) (by decide) hscalar
  have hintrospection : (Builtin.introspection.find? fun t => t.name == name) = none :=
    find?_eq_none_of_forall (p := (Builtin.isReserved · = true))
      (fun t ht => (introspection_reserved t ht).1) (by rw [hreserved]; exact Bool.false_ne_true)
  rw [NameTable.find?, hlist]
  show ((Builtin.scalars ++ news ++ Builtin.introspection).find? fun t => t.name == name).map g = _
  rw [List.find?_append, List.find?_append, hscalars, hintrospection, Option.none_or, Option.or_none,
    find?_of_forall₂ hnews hg, find?_ownTypes hreserved hscalar]

/-- The types of the language are there with their kinds. -/
theorem kindOf?_of_language (h : Restored schema types directives) {t : TypeDef}
    (ht : t ∈ Builtin.scalars ++ Builtin.introspection) : types.kindOf? t.name = some t.kind := by
  obtain ⟨news, hlist, -⟩ := h.types
  have hmem : t ∈ types.toList := by
    rw [hlist, List.append_assoc]
    rcases List.mem_append.mp ht with ht | ht
    · exact List.mem_append_left _ ht
    · exact List.mem_append_right _ (List.mem_append_right _ ht)
  exact congrArg (Option.map TypeDef.kind) (NameTable.find?_name hmem)

theorem kindOf?_eq_some (h : Restored schema types directives) {name : String} {kind : TypeKind}
    (hkind : languageTypes.kindOf? name = some kind) : types.kindOf? name = some kind := by
  obtain ⟨t, ht, rfl⟩ := Option.map_eq_some_iff.mp hkind
  obtain ⟨hmem, rfl⟩ := NameTable.find?_eq_some_iff.mp ht
  rw [toList_languageTypes] at hmem
  exact h.kindOf?_of_language hmem

/-- What the types of the language serve for, these types serve for as well. -/
theorem serves_language (h : Restored schema types directives) : Serves languageTypes types where
  input := by
    intro name ⟨kind, hkind, hinput⟩
    exact ⟨kind, h.kindOf?_eq_some hkind, hinput⟩
  output := by
    intro name ⟨kind, hkind, houtput⟩
    exact ⟨kind, h.kindOf?_eq_some hkind, houtput⟩

theorem kindOf?_scalar (h : Restored schema types directives) {name : String}
    (hname : name ∈ Builtin.scalarNames) : types.kindOf? name = some .scalar :=
  h.kindOf?_of_language (t := ⟨name, none, .builtin, .scalar⟩)
    (List.mem_append_left _ (List.mem_map_of_mem hname))

/-- The types have the kinds that they had, apart from those that are scalar types again. -/
theorem kindOf?_eq (h : Restored schema types directives) (hsound : schema.Sound) {name : String}
    (hscalar : name ∉ Builtin.scalarNames) : types.kindOf? name = schema.types.kindOf? name := by
  cases hreserved : Builtin.isReserved name with
  | false => exact h.find?_map (fun _ _ hagain => hagain.body.kind) hreserved hscalar
  | true =>
    obtain ⟨news, hlist, hnews⟩ := h.types
    have hnone : ((Builtin.scalars ++ news).find? fun t => t.name == name) = none := by
      refine find?_eq_none_of_forall (p := (Builtin.isReserved · = false)) ?_ (by rw [hreserved]; nofun)
      rw [List.forall_mem_append]
      exact ⟨by decide, unreserved_of_again hnews⟩
    rw [hsound.types.reserved name hreserved, NameTable.kindOf?, NameTable.find?, hlist]
    show ((Builtin.scalars ++ news ++ Builtin.introspection).find? fun t => t.name == name).map _ = _
    rw [List.find?_append, hnone, Option.none_or]
    rfl

/-- What served for references serves for them again. -/
theorem serves (h : Restored schema types directives) (hsound : schema.Sound) :
    Serves schema.types types where
  input := by
    intro name ⟨kind, hkind, hinput⟩
    by_cases hscalar : name ∈ Builtin.scalarNames
    · exact ⟨.scalar, h.kindOf?_scalar hscalar, rfl⟩
    · exact ⟨kind, (h.kindOf?_eq hsound hscalar).trans hkind, hinput⟩
  output := by
    intro name ⟨kind, hkind, houtput⟩
    by_cases hscalar : name ∈ Builtin.scalarNames
    · exact ⟨.scalar, h.kindOf?_scalar hscalar, rfl⟩
    · exact ⟨kind, (h.kindOf?_eq hsound hscalar).trans hkind, houtput⟩

/-- **Every reference leads to a type that fits.** -/
theorem referenceErrors_eq_nil (h : Restored schema types directives) (hsound : schema.Sound)
    (hlegible : schema.Legible) : types.referenceErrors directives = [] := by
  obtain ⟨hlinked, hinputs⟩ := NameTable.referenceErrors_eq_nil_iff.mp hsound.references
  obtain ⟨hlanguage, hlanguageInputs⟩ := NameTable.referenceErrors_eq_nil_iff.mp language_references
  obtain ⟨newTypes, htypes, htypesAgain⟩ := h.types
  obtain ⟨newDirectives, hdirectives, hdirectivesAgain⟩ := h.directives
  refine NameTable.referenceErrors_eq_nil_iff.mpr ⟨?_, ?_⟩
  · have hwritten : ∀ u ∈ newTypes, u.body.Linked types := by
      refine forall_of_forall₂ htypesAgain fun t ht u hagain => ?_
      refine (hagain.body.linked (hlinked t (mem_ownTypes_iff.mp ht).1)).mono (h.serves hsound) ?_
      intro name hname kind hkind
      rw [hagain.body.named] at hname
      rw [h.kindOf?_eq hsound (hlegible.named t ht name hname)]
      exact hkind
    have hothers : ∀ t ∈ Builtin.scalars ++ Builtin.introspection, t.body.Linked types := by
      intro t ht
      rw [← toList_languageTypes] at ht
      exact (hlanguage t ht).mono h.serves_language fun name _ kind hkind => h.kindOf?_eq_some hkind
    rw [htypes]
    simp only [List.forall_mem_append] at hothers ⊢
    exact ⟨⟨hothers.1, hwritten⟩, hothers.2⟩
  · rw [hdirectives, List.forall_mem_append]
    refine ⟨fun d hd p hp => ?_, ?_⟩
    · rw [← toList_languageDirectives] at hd
      exact h.serves_language.input _ (hlanguageInputs d hd p hp)
    · refine forall_of_forall₂ hdirectivesAgain fun d hd e hagain => ?_
      refine isInput_again hagain.parameters fun p hp => (h.serves hsound).input _ ?_
      exact hinputs d (mem_ownDirectives_iff.mp hd).1 p hp

/-! ### Values -/

/-- Values are written the same. -/
theorem agree (h : Restored schema types directives) (hsound : schema.Sound) {other : Schema}
    (hother : other.types = types) : Agree schema other where
  kind := by
    intro name hscalar
    rw [hother]
    exact (h.kindOf?_eq hsound hscalar).symm
  signature := by
    intro name
    by_cases hscalar : name ∈ Builtin.scalarNames
    · rw [signature?_of_scalar hscalar, signature?_of_scalar hscalar]
    cases hreserved : Builtin.isReserved name with
    | false =>
      have hfields := h.find?_map (fun _ _ hagain => hagain.body.fieldTypes) hreserved hscalar
      rw [signature?_of_not_scalar hscalar, signature?_of_not_scalar hscalar, hother, hfields]
    | true =>
      have hkind : schema.types.kindOf? name ≠ some .inputObject := by
        rw [hsound.types.reserved name hreserved]
        exact kindOf?_language_ne name
      have hnone : ∀ s : Schema, s.types.kindOf? name = schema.types.kindOf? name →
          signature? s name = none := by
        intro s hs
        refine Option.eq_none_iff_forall_ne_some.mpr fun signature hsignature => hkind ?_
        rw [← hs]
        exact (kindOf?_of_signature? hsignature).2
      rw [hnone schema rfl, hnone other]
      rw [hother]
      exact h.kindOf?_eq hsound hscalar

/-! ### Building -/

/-- The roots of a draft that states them are those of the schema. -/
theorem rootAmong_eq (h : Restored schema types directives) (hsound : schema.Sound)
    (hlegible : schema.Legible) {draft : Draft} {operation : OperationKind}
    (hroot : (draft.root? operation).map RootDeclaration.type = schema.root operation) :
    draft.rootAmong types operation = schema.root operation := by
  unfold Draft.rootAmong Draft.rootName
  cases hdeclared : draft.root? operation with
  | none =>
    rw [hdeclared] at hroot
    have hroot : schema.root operation = none := hroot.symm
    have hname : operation.name ∉ Builtin.scalarNames := by cases operation <;> decide
    have hnone : types.kindOf? operation.name ≠ some .object := by
      rw [h.kindOf?_eq hsound hname]
      exact hsound.rootless operation hroot
    rw [hroot]
    exact if_neg hnone
  | some declared =>
    rw [hdeclared] at hroot
    have hroot : schema.root operation = some declared.type := hroot.symm
    have hobject : types.kindOf? declared.type = some .object := by
      rw [h.kindOf?_eq hsound (hlegible.rootNames operation _ hroot)]
      exact hsound.roots operation _ hroot
    rw [hroot]
    exact if_pos hobject

end Restored

/-- **A document that has been loaded builds**, and the roots are those that it states. -/
theorem Reloaded.exists_build {draft : Draft}
    (h : Reloaded schema (ownDirectives schema) (ownTypes schema) draft) (hsound : schema.Sound)
    (hlegible : schema.Legible) :
    ∃ other, draft.build = .ok other ∧ Restored schema other.types other.directives ∧
      other.root = schema.root := by
  have hrestored := h.restored
  have herrors := hrestored.referenceErrors_eq_nil hsound hlegible
  have hextend := Draft.extendsTo_of_nil h.extensions
  generalize draft.withBuiltins.types = types at hrestored herrors hextend
  have hroots : ∀ operation, draft.rootAmong types operation = schema.root operation :=
    fun operation => hrestored.rootAmong_eq hsound hlegible (h.roots operation)
  have hquery : types.kindOf? (draft.rootName .query) = some .object ∧
      draft.rootName .query = schema.query := by
    obtain ⟨hobject, heq⟩ := (Option.ite_none_right_eq_some).mp (hroots .query)
    exact ⟨hobject, Option.some.inj heq⟩
  have hrooted : draft.Rooted types := by
    refine ⟨fun operation declared hdeclared => ?_, hquery.1⟩
    have hroot := h.roots operation
    rw [Option.mem_def.mp hdeclared] at hroot
    rw [hrestored.kindOf?_eq hsound (hlegible.rootNames operation _ hroot.symm)]
    exact hsound.roots operation _ hroot.symm
  refine ⟨draft.schemaOf types, Draft.build_eq_ok_iff.mpr ⟨types, hextend, herrors, hrooted, rfl⟩,
    hrestored, ?_⟩
  funext operation
  cases operation with
  | query => exact congrArg some hquery.2
  | mutation => exact hroots .mutation
  | subscription => exact hroots .subscription

/-! ### Writing -/

/-- The directives that are written are those that have been read back. -/
theorem ownDirectives_restored {news : List Directive} {other : Schema}
    (hlist : other.directives.toList = Builtin.directives ++ news)
    (h : List.Forall₂ (DirectiveAgain schema) (ownDirectives schema) news) :
    ownDirectives other = news := by
  have hbuiltin : Builtin.directives.filter (fun d => !d.isBuiltin) = [] := by decide
  rw [ownDirectives, hlist, List.filter_append, hbuiltin, List.nil_append, List.filter_eq_self]
  refine forall_of_forall₂ h fun d hd e hagain => ?_
  have hother : d.isBuiltin = false := (mem_ownDirectives_iff.mp hd).2
  rw [Directive.isBuiltin, hagain.name, ← Directive.isBuiltin, hother]
  rfl

/-- The types that are written are those that have been read back. -/
theorem ownTypes_restored {news : List TypeDef} {other : Schema}
    (hlist : other.types.toList = Builtin.scalars ++ news ++ Builtin.introspection)
    (h : List.Forall₂ (TypeAgain schema) (ownTypes schema) news) : ownTypes other = news := by
  have hscalars : (Builtin.scalars.filter fun t =>
      !Builtin.isReserved t.name && !Builtin.scalarNames.contains t.name) = [] := by decide
  have hintrospection : (Builtin.introspection.filter fun t =>
      !Builtin.isReserved t.name && !Builtin.scalarNames.contains t.name) = [] := by
    refine List.filter_eq_nil_iff.mpr fun t ht => ?_
    rw [(introspection_reserved t ht).1]
    exact Bool.false_ne_true
  have hnews : (news.filter fun t =>
      !Builtin.isReserved t.name && !Builtin.scalarNames.contains t.name) = news := by
    refine List.filter_eq_self.mpr (forall_of_forall₂ h fun t ht u hagain => ?_)
    obtain ⟨-, hreserved, hscalar⟩ := mem_ownTypes_iff.mp ht
    rw [hagain.name, hreserved, List.contains_eq_mem, decide_eq_false hscalar]
    rfl
  have hnames : news.map TypeDef.name = (ownTypes schema).map TypeDef.name :=
    map_eq_of_forall₂ h fun _ _ _ hagain => hagain.name
  have hsorted : (news.map TypeDef.name).Pairwise fun a b => decide (a ≤ b) = true := by
    rw [hnames]
    exact List.pairwise_map.mpr (ownTypes_sorted schema)
  rw [ownTypes, hlist, List.filter_append, List.filter_append, hscalars, hintrospection, hnews,
    List.nil_append, List.append_nil]
  exact List.mergeSort_of_pairwise (List.pairwise_map.mp hsorted)

/-- **What has been restored is written the same.** -/
theorem Restored.sdl_eq {other : Schema} (h : Restored schema other.types other.directives)
    (hsound : schema.Sound) (hroots : other.root = schema.root) : other.sdl = schema.sdl := by
  have hagree := h.agree hsound rfl
  obtain ⟨newTypes, htypes, htypesAgain⟩ := h.types
  obtain ⟨newDirectives, hdirectives, hdirectivesAgain⟩ := h.directives
  show documentText other (ownDirectives other) (ownTypes other)
    = documentText schema (ownDirectives schema) (ownTypes schema)
  have hrootsText : rootsText other = rootsText schema := by
    unfold rootsText
    rw [hroots]
  rw [ownDirectives_restored hdirectives hdirectivesAgain, ownTypes_restored htypes htypesAgain]
  unfold documentText
  rw [hrootsText, map_eq_of_forall₂ hdirectivesAgain, map_eq_of_forall₂ htypesAgain]
  · intro t ht u hagain
    obtain ⟨hmem, hreserved, -⟩ := mem_ownTypes_iff.mp ht
    exact typeText_again hagain (properBody (hsound.types.sound t hmem hreserved).body) hagree
  · intro d hd e hagain
    obtain ⟨hmem, hother⟩ := mem_ownDirectives_iff.mp hd
    exact directiveText_again hagain (fun p hp => ((hsound.directives d hmem hother).parameters p hp).default) hagree

end GraphSchema.Sdl
