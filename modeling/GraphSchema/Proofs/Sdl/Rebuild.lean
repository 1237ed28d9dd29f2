/-
Loading a document that is read back.

The items of a schema's document are loaded one after the other: the roots are declared, then
each directive and each type is defined anew.  No step can fail, since the names of a schema are
different and none of them is reserved, and each definition comes out as what it states.

What the draft holds in the end is `Reloaded`: the roots, the directives and the types of the
document, the same as before but for rewrapped descriptions and defaults in the form of their
types.
-/
import GraphSchema.Proofs.Schema.Loading
import GraphSchema.Proofs.Schema.Sound
import GraphSchema.Proofs.Sdl.Again

namespace GraphSchema.Sdl

open Syntax

variable {source : Source} {schema : Schema}

/-! ### Types

The parts of a type are added one after the other.  Their names are distinct because they come from
a table.
-/

/-- The interfaces of a type are stated anew. -/
theorem foldlM_addInterface {owner : Owner} {kind : TypeKind} {before interfaces : List String}
    (hself : kind = .interface → owner.name ∉ interfaces) (hnodup : (before ++ interfaces).Nodup) :
    interfaces.foldlM (owner.addInterface kind) before = .ok (before ++ interfaces) := by
  induction interfaces generalizing before with
  | nil => rw [List.append_nil]; rfl
  | cons name interfaces ih =>
    have hstep : owner.addInterface kind before name = .ok (before ++ [name]) := by
      refine Owner.addInterface_eq_ok_iff.mpr ⟨?_, ?_, rfl⟩
      · rintro ⟨hkind, rfl⟩
        exact hself hkind List.mem_cons_self
      · exact fun hmem => (List.nodup_append.mp hnodup).2.2 _ hmem _ List.mem_cons_self rfl
    rw [List.append_cons] at hnodup ⊢
    rw [List.foldlM_cons, hstep]
    exact ih (fun hkind hmem => hself hkind (List.mem_cons_of_mem _ hmem)) hnodup

/-- Parts of a type that are stated anew make a table. -/
theorem exists_table {ε σ α : Type} [Named α] {add : NameTable α → σ → Except ε (NameTable α)}
    {S : α → σ → Prop} {R : α → α → Prop} {t : NameTable α} {stated : List σ}
    (h : List.Forall₂ S t.toList stated)
    (hadd : ∀ a ∈ t.toList, ∀ s, S a s → ∀ t : NameTable α, Named.name a ∉ t.names →
      ∃ b, add t s = .ok (t.insert b) ∧ Named.name b = Named.name a ∧ R a b) :
    ∃ t', stated.foldlM add ∅ = .ok t' ∧ List.Forall₂ R t.toList t'.toList := by
  obtain ⟨t', news, ht', hlist, hnews⟩ : ∃ t' news, stated.foldlM add ∅ = .ok t' ∧
      t'.toList = (∅ : NameTable α).toList ++ news ∧ List.Forall₂ R t.toList news :=
    exists_insertAll h hadd t.names_nodup
  refine ⟨t', ht', ?_⟩
  rw [show t'.toList = news from hlist]
  exact hnews

/-- The fields of a type are stated anew. -/
theorem exists_addFields {owner : Owner} (howner : owner.source = source) {fields : NameTable Field}
    {stated : List FieldSyntax} (h : List.Forall₂ (StatesField source schema) fields.toList stated)
    {room : Nat} (hsound : ∀ f ∈ fields.toList, f.Sound room) :
    ∃ fields', stated.foldlM owner.addField ∅ = .ok fields' ∧
      List.Forall₂ (FieldAgain schema) fields.toList fields'.toList := by
  refine exists_table h fun f hf s hs t hnew => ?_
  have hagain := hs.field owner howner
  have hname : s.name = f.name := hagain.name
  refine ⟨owner.field s, Owner.addField_eq_ok_iff.mpr ⟨?_, ?_, fun p hp => ?_, rfl⟩, hname, hagain⟩
  · rw [hname]
    exact (hsound f hf).unreserved
  · rw [hname]
    exact hnew
  · have hmem : p.name ∈ f.parameters.names := by
      rw [← hs.arguments]
      exact List.mem_map_of_mem hp
    obtain ⟨q, hq, hsame⟩ := List.mem_map.mp hmem
    rw [← hsame]
    exact (hsound f hf).arguments q hq

/-- The values of an enum are stated anew. -/
theorem exists_addEnumValues {owner : Owner} (howner : owner.source = source) {values : NameTable EnumValue}
    {stated : List EnumValueSyntax} (h : List.Forall₂ (StatesEnumValue source) values.toList stated) :
    ∃ values', stated.foldlM owner.addEnumValue ∅ = .ok values' ∧
      List.Forall₂ EnumValueAgain values.toList values'.toList := by
  refine exists_table h fun v _ s hs t hnew => ?_
  have hname : s.name = v.name := (hs owner howner).name
  refine ⟨owner.enumValue s, Owner.addEnumValue_eq_ok_iff.mpr ⟨?_, rfl⟩, hname, hs owner howner⟩
  rw [hname]
  exact hnew

/-- The fields of an input object are stated anew. -/
theorem exists_addInputFields {owner : Owner} (howner : owner.source = source) {room : Nat}
    {fields : NameTable Parameter} {stated : List InputValueSyntax}
    (h : List.Forall₂ (ParameterAgain schema room) fields.toList (stated.map source.parameter)) :
    ∃ fields', stated.foldlM owner.addInputField ∅ = .ok fields' ∧
      List.Forall₂ (ParameterAgain schema room) fields.toList fields'.toList := by
  subst howner
  rw [List.forall₂_map_right_iff] at h
  refine exists_table h fun p _ s hs t hnew => ?_
  have hname : s.name = p.name := hs.name
  refine ⟨owner.source.parameter s, Owner.addInputField_eq_ok_iff.mpr ⟨?_, rfl⟩, hname, hs⟩
  rw [hname]
  exact hnew

/-- The members of a union are stated anew. -/
theorem exists_addMembers (owner : Owner) (members : NameTable TypeRef) :
    ∃ members', members.names.foldlM owner.addMember ∅ = .ok members' ∧ members'.names = members.names := by
  have hsame : List.Forall₂ (fun m name => name = TypeRef.name m) members.toList members.names := by
    rw [NameTable.names, List.forall₂_map_right_iff, List.forall₂_same]
    exact fun m _ => rfl
  obtain ⟨members', hadd, hagain⟩ : ∃ members', members.names.foldlM owner.addMember ∅ = .ok members' ∧
      List.Forall₂ (fun m n => TypeRef.name n = TypeRef.name m) members.toList members'.toList := by
    refine exists_table hsame fun m _ name hname t hnew => ?_
    refine ⟨⟨name, owner.statedAt⟩, Owner.addMember_eq_ok_iff.mpr ⟨?_, rfl⟩, hname, hname⟩
    rw [hname]
    exact hnew
  exact ⟨members', hadd, map_eq_of_forall₂ hagain fun _ _ _ h => h⟩

/-- **What a type is made of is stated anew.** -/
theorem exists_add {owner : Owner} (howner : owner.source = source) {body : TypeBody}
    {contents : TypeContents} (h : StatesBody source schema body contents) {room : Nat}
    (hsound : body.Sound room owner.name) :
    ∃ body', (TypeBody.empty contents.kind).add owner contents = .ok body' ∧
      BodyAgain schema body body' := by
  cases h with
  | enum h =>
    obtain ⟨values', hadd, hagain⟩ := exists_addEnumValues howner h
    exact ⟨.enum values', congrArg (Functor.map TypeBody.enum) hadd, .enum hagain⟩
  | inputObject h =>
    obtain ⟨fields', hadd, hagain⟩ := exists_addInputFields howner h
    exact ⟨.inputObject fields', congrArg (Functor.map TypeBody.inputObject) hadd, .inputObject hagain⟩
  | @interface interfaces fields stated h =>
    obtain ⟨-, hnodup, hself, hsound⟩ := hsound
    obtain ⟨fields', hfields, hagain⟩ := exists_addFields howner h hsound
    have hinterfaces : interfaces.foldlM (owner.addInterface .interface) [] = .ok interfaces :=
      foldlM_addInterface (fun _ => hself) hnodup
    refine ⟨.interface interfaces fields', ?_, .interface hagain⟩
    show (do
      let interfaces ← interfaces.foldlM (owner.addInterface .interface) []
      return TypeBody.interface interfaces (← stated.foldlM owner.addField ∅)) = _
    rw [hinterfaces, hfields]
    rfl
  | @object interfaces fields stated h =>
    obtain ⟨-, hnodup, hsound⟩ := hsound
    obtain ⟨fields', hfields, hagain⟩ := exists_addFields howner h hsound
    have hinterfaces : interfaces.foldlM (owner.addInterface .object) [] = .ok interfaces :=
      foldlM_addInterface nofun hnodup
    refine ⟨.object interfaces fields', ?_, .object hagain⟩
    show (do
      let interfaces ← interfaces.foldlM (owner.addInterface .object) []
      return TypeBody.object interfaces (← stated.foldlM owner.addField ∅)) = _
    rw [hinterfaces, hfields]
    rfl
  | scalar => exact ⟨.scalar, rfl, .scalar⟩
  | @union members =>
    obtain ⟨members', hadd, hagain⟩ := exists_addMembers owner members
    exact ⟨.union members', congrArg (Functor.map TypeBody.union) hadd, .union hagain⟩

/-! ### Items -/

variable {draft : Draft}

/-- A type is defined anew, unless there is one of its name. -/
theorem exists_define {t : TypeDef} {s : TypeSyntax} (h : StatesType source schema t s)
    (hsound : t.Sound) (hnew : t.name ∉ draft.types.names) :
    ∃ u, draft.define source none s = .ok { draft with types := draft.types.insert u } ∧
      u.name = t.name ∧ TypeAgain schema t u := by
  let owner : Owner := ⟨source, s.name, source.location s.position, source.location s.position⟩
  have hbodySound : t.body.Sound nestingLimit owner.name := by
    rw [show owner.name = t.name from h.name]
    exact hsound.body
  have howner : owner.source = source := rfl
  obtain ⟨body, hadd, hbody⟩ := exists_add howner h.body hbodySound
  let u : TypeDef := ⟨s.name, source.description none s.position, source.location s.position, body⟩
  have hnone : draft.types.find? u.name = none := by
    rw [show u.name = t.name from h.name]
    exact NameTable.find?_eq_none_iff.mpr hnew
  have haddType : draft.addType u = .ok { draft with types := draft.types.insert u } := by
    rw [Draft.addType, hnone]
  refine ⟨u, ?_, h.name, ⟨h.name, h.description, hbody⟩⟩
  unfold Draft.define
  dsimp only
  rw [h.name, hsound.unreserved, if_neg Bool.false_ne_true, ← h.name]
  show ((TypeBody.empty s.contents.kind).add owner s.contents >>= _) = _
  rw [hadd]
  exact haddType

/-- A directive is defined anew, unless there is one of its name. -/
theorem exists_defineDirective {d : Directive} {s : DirectiveSyntax}
    (h : StatesDirective source schema d s) (hsound : d.Sound)
    (hnew : d.name ∉ draft.directives.names) :
    ∃ e, draft.defineDirective source s
        = .ok { draft with directives := draft.directives.insert e } ∧
      e.name = d.name ∧ DirectiveAgain schema d e := by
  have hnone : draft.directives.find? s.name = none := by
    rw [h.name]
    exact NameTable.find?_eq_none_iff.mpr hnew
  refine ⟨⟨s.name, source.description s.description s.position, source.location s.position,
    source.parameters s.arguments, s.repeatable, s.locations⟩, ?_, h.name, ?_⟩
  · unfold Draft.defineDirective
    dsimp only
    rw [hnone, h.name, hsound.unreserved, if_neg Bool.false_ne_true]
  · exact ⟨h.name, h.description, again_parameters h.parameters, h.repeatable, h.locations⟩

/-- A draft that has no roots yet gets those of a schema. -/
theorem exists_declareRoots (draft : Draft) {position : Position}
    (hroots : ∀ first second name, schema.root first = some name → schema.root second = some name →
      first = second)
    (hnone : ∀ operation, draft.root? operation = none) :
    ∃ query mutation subscription,
      draft.declareRoots source ⟨position, some schema.query, schema.mutation, schema.subscription⟩
        = .ok { draft with query, mutation, subscription } ∧
      ∀ operation, (({ draft with query, mutation, subscription } : Draft).root? operation).map
        RootDeclaration.type = schema.root operation := by
  let place (name : String) : RootDeclaration := ⟨source.location position, name⟩
  let declared : Draft :=
    { draft with
      query := some (place schema.query)
      mutation := schema.mutation.map place
      subscription := schema.subscription.map place }
  have hdeclared : ∀ operation, (declared.root? operation).map RootDeclaration.type
      = schema.root operation := by
    intro operation
    cases operation with
    | query => rfl
    | mutation => exact (Option.map_map ..).trans Option.map_id'
    | subscription => exact (Option.map_map ..).trans Option.map_id'
  have hdistinct : declared.DistinctRoots := by
    intro first second hne a ha b hb hsame
    refine hne ?_
    have hfirst := (hdeclared first).symm.trans (congrArg (Option.map RootDeclaration.type) ha)
    have hsecond := (hdeclared second).symm.trans (congrArg (Option.map RootDeclaration.type) hb)
    refine hroots first second a.type hfirst ?_
    rw [hsame]
    exact hsecond
  refine ⟨declared.query, declared.mutation, declared.subscription, ?_, hdeclared⟩
  refine Draft.declareRoots_eq_ok_iff.mpr ⟨⟨rfl, rfl, rfl, rfl⟩, hdistinct, fun operation => ?_⟩
  rw [hnone]
  cases operation <;> rfl

/-! ### Documents -/

/-- What a draft is like that a document has been loaded into. -/
structure Reloaded (schema : Schema) (directives : List Directive) (types : List TypeDef)
    (draft : Draft) : Prop where
  types : ∃ news, draft.types.toList = Builtin.scalars ++ news ∧ List.Forall₂ (TypeAgain schema) types news
  directives : List.Forall₂ (DirectiveAgain schema) directives draft.directives.toList
  roots : ∀ operation, (draft.root? operation).map RootDeclaration.type = schema.root operation
  extensions : draft.extensions = []

/-- The directives of a document are defined one after the other. -/
theorem exists_defineDirectives (draft : Draft) {directives : List Directive} {items : List Item}
    (h : List.Forall₂ (StatesPart source schema) (directives.map Part.directive) items)
    (hsound : ∀ d ∈ directives, d.Sound)
    (hnew : (draft.directives.names ++ directives.map Directive.name).Nodup) :
    ∃ directives' news,
      items.foldlM (Draft.loadItem source) draft = .ok { draft with directives := directives' } ∧
      directives'.toList = draft.directives.toList ++ news ∧
      List.Forall₂ (DirectiveAgain schema) directives news := by
  rw [List.forall₂_map_left_iff] at h
  let put (t : NameTable Directive) : Draft := { draft with directives := t }
  have hstep : ∀ d ∈ directives, ∀ item, StatesPart source schema (.directive d) item →
      ∀ t : NameTable Directive, d.name ∉ t.names → ∃ e, Draft.loadItem source (put t) item = .ok (put (t.insert e)) ∧
        e.name = d.name ∧ DirectiveAgain schema d e := by
    intro d hd item hstates t hname
    cases hstates with
    | directive hs => exact exists_defineDirective hs (hsound d hd) hname
  exact exists_insertAll h hstep hnew

/-- The types of a document are defined one after the other. -/
theorem exists_defineTypes (draft : Draft) {types : List TypeDef} {items : List Item}
    (h : List.Forall₂ (StatesPart source schema) (types.map Part.type) items)
    (hsound : ∀ t ∈ types, t.Sound)
    (hnew : (draft.types.names ++ types.map TypeDef.name).Nodup) :
    ∃ types' news,
      items.foldlM (Draft.loadItem source) draft = .ok { draft with types := types' } ∧
      types'.toList = draft.types.toList ++ news ∧ List.Forall₂ (TypeAgain schema) types news := by
  rw [List.forall₂_map_left_iff] at h
  let put (table : NameTable TypeDef) : Draft := { draft with types := table }
  have hstep : ∀ t ∈ types, ∀ item, StatesPart source schema (.type t) item →
      ∀ table : NameTable TypeDef, t.name ∉ table.names → ∃ u,
        Draft.loadItem source (put table) item = .ok (put (table.insert u)) ∧ u.name = t.name ∧
          TypeAgain schema t u := by
    intro t ht item hstates table hname
    cases hstates with
    | type hs => exact exists_define hs (hsound t ht) hname
  exact exists_insertAll h hstep hnew

/-- **A document is loaded into the empty draft.** -/
theorem exists_load {directives : List Directive} {types : List TypeDef}
    (hfits : ∀ part ∈ parts directives types, part.Fits schema)
    (hroots : ∀ first second name, schema.root first = some name → schema.root second = some name →
      first = second)
    (hdirectives : (directives.map Directive.name).Nodup)
    (htypes : (Builtin.scalarNames ++ types.map TypeDef.name).Nodup) :
    ∃ draft, Draft.empty.load none (documentText schema directives types) = .ok draft ∧
      Reloaded schema directives types draft := by
  have hfitsDirective : ∀ d ∈ directives, DirectiveFits schema d := fun d hd =>
    hfits (.directive d) (List.mem_cons_of_mem _ (List.mem_append_left _ (List.mem_map_of_mem hd)))
  have hfitsType : ∀ t ∈ types, TypeFits schema t := fun t ht =>
    hfits (.type t) (List.mem_cons_of_mem _ (List.mem_append_right _ (List.mem_map_of_mem ht)))
  obtain ⟨items, hread, hstates⟩ := exists_items_of_document (Draft.unnamedPath 0) hfits
  obtain ⟨block, others, hblock, hothers, rfl⟩ := List.forall₂_cons_left_iff.mp hstates
  have hflip := hothers.flip
  have hbefore := (List.forall₂_take_append _ _ _ hflip).flip
  have hafter := (List.forall₂_drop_append _ _ _ hflip).flip
  cases hblock
  obtain ⟨query, mutation, subscription, hdeclare, hdeclared⟩ :=
    exists_declareRoots { Draft.empty with unnamed := 1 } hroots
      (fun operation => by cases operation <;> rfl)
  obtain ⟨directives', news, hdefineDirectives, hnews, hdirectivesAgain⟩ :=
    exists_defineDirectives { Draft.empty with unnamed := 1, query, mutation, subscription }
      hbefore (fun d hd => (hfitsDirective d hd).sound) hdirectives
  obtain ⟨types', newTypes, hdefineTypes, hnewTypes, htypesAgain⟩ :=
    exists_defineTypes
      { Draft.empty with unnamed := 1, query, mutation, subscription, directives := directives' }
      hafter (fun t ht => (hfitsType t ht).sound) htypes
  refine ⟨{ Draft.empty with unnamed := 1, query, mutation, subscription, directives := directives', types := types' },
    ?_, ⟨newTypes, hnewTypes, htypesAgain⟩, ?_, ?_, rfl⟩
  · show ({ Draft.empty with unnamed := 1 } : Draft).loadText (Draft.unnamedPath 0) _ = _
    unfold Draft.loadText
    rw [hread]
    dsimp only
    rw [List.foldlM_cons]
    show (Draft.declareRoots _ _ _ >>= _) = _
    rw [hdeclare]
    show others.foldlM _ _ = _
    rw [← List.take_append_drop (directives.map Part.directive).length others, List.foldlM_append, hdefineDirectives]
    exact hdefineTypes
  · rw [show directives'.toList = news from hnews]
    exact hdirectivesAgain
  · exact hdeclared

end GraphSchema.Sdl
