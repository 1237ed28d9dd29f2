/-
The order of sources.

What is loaded from sources with paths of their own does not depend on their order, but for the
order of what comes of it (`Draft.Reordered`): definitions are refused for what other definitions
there are, wherever they stand, and extensions wait for all of them.  Building then looks names
up, so it succeeds in any order or in none.  Only the order of the interfaces of a type and of the
directives shows in a schema, and it is that of one source if there is only one that has a say.
-/
import Mathlib.Data.List.Perm.Basic
import GraphSchema.Proofs.Schema.Linked
import GraphSchema.Proofs.Schema.Reordered
import GraphSchema.Proofs.Schema.Same
import GraphSchema.Proofs.Schema.Sound
import GraphSchema.Proofs.Sdl.Places

namespace GraphSchema

open Syntax

/-! ### Loading

The components of a draft in another order.  Each definition is checked against the rest whatever
their order, so a permuted run succeeds as well.
-/

/-- The drafts hold the same, in some order. -/
structure Draft.Reordered (draft draft' : Draft) : Prop where
  types : draft.types.toList.Perm draft'.types.toList
  directives : draft.directives.toList.Perm draft'.directives.toList
  roots : ∀ operation, draft.root? operation = draft'.root? operation
  extensions : draft.extensions.Perm draft'.extensions

theorem AddsTypes.perm {definitions definitions' : List (Source × Option String × TypeSyntax)}
    {types types' : NameTable TypeDef} (h : AddsTypes definitions types types')
    (hperm : definitions.Perm definitions') :
    ∃ others, AddsTypes definitions' types others ∧ types'.toList.Perm others.toList := by
  obtain ⟨news, hnews, hnodup, hroom, rfl⟩ := h
  obtain ⟨news', hnews', hperm'⟩ := List.perm_comp_forall₂ hperm.symm hnews
  have hnames := hperm'.map TypeDef.name
  refine ⟨news'.foldl NameTable.insert types,
    ⟨news', hnews', hnames.nodup_iff.mpr hnodup, fun t ht => hroom t (hperm'.mem_iff.mp ht), rfl⟩, ?_⟩
  exact NameTable.foldl_insert_perm (.refl _) hperm'.symm hnodup

namespace Draft

variable {start draft draft' : Draft} {stated stated' : List StatedItem} {types types' : NameTable TypeDef}

/-- A list of at most one entry has one order. -/
theorem eq_toList_of_perm {α : Type} {o : Option α} {list : List α} (h : list.Perm o.toList) :
    list = o.toList := by
  cases o with
  | none => exact List.perm_nil.mp h
  | some a => exact List.perm_singleton.mp h

/-- **Items may be loaded in any order.** -/
theorem Loaded.perm (h : Loaded start stated draft) (hperm : stated.Perm stated') :
    ∃ draft', Loaded start stated' draft' ∧ draft.Reordered draft' := by
  obtain ⟨types, htypes, htypesPerm⟩ := h.types.perm (hperm.filterMap StatedItem.definition?)
  obtain ⟨directives, hdirectives, hdirectivesPerm⟩ := AddsParts.reorder h.directives (fun _ => rfl)
    (hperm.filterMap StatedItem.directive?) (.refl _)
  have hroots : ∀ operation, (draft.root? operation).toList
      = (start.root? operation).toList ++ stated'.flatMap (StatedItem.declared operation) := by
    intro operation
    refine (eq_toList_of_perm ?_).symm
    rw [h.roots operation]
    exact (hperm.symm.flatMap_right _).append_left _
  let draft' : Draft :=
    { draft with types, directives, extensions := start.extensions ++ stated'.filterMap StatedItem.extension? }
  have hsame : ∀ operation, draft'.root? operation = draft.root? operation := by
    intro operation
    cases operation <;> rfl
  refine ⟨draft', ⟨htypes, hdirectives, fun operation => ?_, fun hblock => ?_, rfl, h.unnamed⟩,
    htypesPerm, hdirectivesPerm, fun operation => (hsame operation).symm, ?_⟩
  · rw [hsame]
    exact hroots operation
  · obtain ⟨item, hitem, hblock⟩ := hblock
    refine (h.distinct ⟨item, hperm.mem_iff.mpr hitem, hblock⟩).of_kept fun operation a ha => ?_
    rwa [← hsame]
  · rw [h.extensions]
    exact (hperm.filterMap StatedItem.extension?).append_left _

/-! ### Building -/

/-- The draft with what every schema has is in the same order as the draft. -/
theorem Reordered.withBuiltins (h : draft.Reordered draft') :
    draft.withBuiltins.types.toList.Perm draft'.withBuiltins.types.toList ∧
      draft.withBuiltins.directives.toList.Perm draft'.withBuiltins.directives.toList := by
  constructor
  · exact NameTable.foldl_insert_perm h.types (.refl _) introspection_nodup
  · have hcontains : ∀ name, draft.directives.contains name = draft'.directives.contains name := by
      intro name
      rw [NameTable.contains, NameTable.contains, NameTable.perm_iff_find?.mp h.directives]
    rw [toList_directives_withBuiltins, toList_directives_withBuiltins]
    simp only [hcontains]
    exact h.directives.append_left _

/-- Extensions may be applied in any order, if what becomes of each type is related by `R`. -/
theorem ExtendsTo.relate {R : TypeDef → TypeDef → Prop} (h : draft.ExtendsTo types)
    (hreordered : draft.Reordered draft')
    (hR : ∀ t t' : TypeDef, t.Extended (draft.extensions.filter fun e => e.type.name == t.name) t' →
      ∃ u', t.Extended (draft'.extensions.filter fun e => e.type.name == t.name) u' ∧ R t' u') :
    ∃ types' list, draft'.ExtendsTo types' ∧ list.Perm types.toList ∧
      List.Forall₂ R list types'.toList := by
  obtain ⟨hnames, hall⟩ := foldlM_applyExtension_eq_ok_iff.mp h
  obtain ⟨htypes, -⟩ := hreordered.withBuiltins
  obtain ⟨list, hlist, hperm⟩ := List.perm_comp_forall₂ htypes.symm hall
  obtain ⟨others, hothers, hrelated⟩ := exists_forall₂ hlist hR
  obtain ⟨types', rfl⟩ := NameTable.exists_toList_eq hothers fun _ _ hextended => hextended.rest.1.symm
  refine ⟨types', list, foldlM_applyExtension_eq_ok_iff.mpr ⟨fun extension hmem => ?_, hothers⟩, hperm, hrelated⟩
  exact (htypes.map TypeDef.name).mem_iff.mp (hnames extension (hreordered.extensions.mem_iff.mpr hmem))

end Draft

/-- What is found under a name differs at most in the order of its parts. -/
def NameTable.Regrouped (types types' : NameTable TypeDef) : Prop :=
  ∀ name, Option.Rel TypeDef.Reordered (types.find? name) (types'.find? name)

/-- The schemas are the same but for the order in them. -/
structure Schema.Reordered (schema schema' : Schema) : Prop where
  types : schema.types.Regrouped schema'.types
  directives : schema.directives.toList.Perm schema'.directives.toList
  root : schema.root = schema'.root

namespace NameTable

variable {types types' : NameTable TypeDef}

theorem regrouped_of_forall₂ {list : List TypeDef} (hperm : list.Perm types.toList)
    (h : List.Forall₂ TypeDef.Reordered list types'.toList) : types.Regrouped types' := by
  have hnodup : (list.map TypeDef.name).Nodup := (hperm.map TypeDef.name).nodup_iff.mpr types.names_nodup
  intro name
  let others : NameTable TypeDef := ⟨list, List.pairwise_map.mp hnodup⟩
  rw [← (perm_iff_find? (t := others)).mp hperm]
  exact rel_find? (t := others) h (fun _ _ hab => hab.name) name

theorem Regrouped.kindOf?_eq (h : types.Regrouped types') (name : String) :
    types.kindOf? name = types'.kindOf? name := by
  have hrelated := h name
  unfold kindOf?
  generalize types.find? name = found, types'.find? name = found' at hrelated
  cases hrelated with
  | none => rfl
  | some hreordered => exact congrArg some hreordered.body.kind_eq

theorem Regrouped.isInput (h : types.Regrouped types') {name : String} (hname : types.IsInput name) :
    types'.IsInput name := by
  rwa [IsInput, ← h.kindOf?_eq]

/-- References that lead to a type lead to one. -/
theorem Regrouped.linked (h : types.Regrouped types') {body body' : TypeBody}
    (hlinked : body.Linked types) (hbody : body.Reordered body') : body'.Linked types' := by
  have hserves : Serves types types' := by
    refine ⟨fun name => h.isInput, fun name hname => ?_⟩
    rwa [IsOutput, ← h.kindOf?_eq]
  have hlinked := hlinked.mono hserves fun name _ kind hkind => (h.kindOf?_eq name).symm.trans hkind
  cases hbody with
  | enum | scalar => trivial
  | inputObject hfields => exact fun p hp => hlinked p (hfields.mem_iff.mpr hp)
  | interface hinterfaces hfields | object hinterfaces hfields =>
    exact ⟨fun name hname => hlinked.1 name (hinterfaces.mem_iff.mpr hname),
      fun f hf => hlinked.2 f (hfields.mem_iff.mpr hf)⟩
  | union hmembers =>
    exact fun name hname => hlinked name ((hmembers.map TypeRef.name).mem_iff.mpr hname)

theorem Regrouped.referenceErrors_eq_nil (h : types.Regrouped types')
    {directives directives' : NameTable Directive} (hdirectives : directives.toList.Perm directives'.toList)
    (hnone : types.referenceErrors directives = []) : types'.referenceErrors directives' = [] := by
  obtain ⟨hlinked, hinputs⟩ := referenceErrors_eq_nil_iff.mp hnone
  refine referenceErrors_eq_nil_iff.mpr ⟨fun u hu => ?_, fun d hd p hp => ?_⟩
  · have hfound := find?_name hu
    have hrelated := h (Named.name u)
    rw [hfound] at hrelated
    cases ht : types.find? (Named.name u) with
    | none => rw [ht] at hrelated; cases hrelated
    | some t =>
      rw [ht] at hrelated
      cases hrelated with
      | some hreordered => exact h.linked (hlinked t (mem_of_find?_eq_some ht)) hreordered.body
  · exact h.isInput (hinputs d (hdirectives.mem_iff.mpr hd) p hp)

end NameTable

namespace Draft

variable {draft draft' : Draft} {types types' : NameTable TypeDef} {schema : Schema}

/-- Roots are found in any order of types. -/
theorem Reordered.schemaOf (h : draft.Reordered draft') (htypes : types.Regrouped types')
    (hrooted : draft.Rooted types) :
    draft'.Rooted types' ∧ (draft.schemaOf types).Reordered (draft'.schemaOf types') := by
  have hname : ∀ operation, draft.rootName operation = draft'.rootName operation := by
    intro operation
    rw [rootName, rootName, h.roots]
  have hamong : ∀ operation, draft.rootAmong types operation = draft'.rootAmong types' operation := by
    intro operation
    rw [rootAmong, rootAmong, hname, htypes.kindOf?_eq]
  refine ⟨⟨fun operation declaration hdeclared => ?_, ?_⟩, htypes, h.withBuiltins.2, ?_⟩
  · rw [← htypes.kindOf?_eq]
    rw [← h.roots] at hdeclared
    exact hrooted.declared operation declaration hdeclared
  · rw [← htypes.kindOf?_eq, ← hname]
    exact hrooted.query
  · funext operation
    cases operation with
    | query => exact congrArg some (hname .query)
    | mutation => exact hamong .mutation
    | subscription => exact hamong .subscription

/-- **Drafts that hold the same are built to the same**, but for the order. -/
theorem Reordered.exists_build (h : draft.Reordered draft') (hbuild : draft.build = .ok schema) :
    ∃ schema', draft'.build = .ok schema' ∧ schema.Reordered schema' := by
  obtain ⟨types, hextend, herrors, hrooted, rfl⟩ := build_eq_ok_iff.mp hbuild
  obtain ⟨types', list, hextend', hperm, hrelated⟩ := hextend.relate h fun t t' hextended => by
    refine hextended.perm (h.extensions.filter _) fun extension hmem => ?_
    exact eq_of_beq (List.mem_filter.mp hmem).2
  have htypes := NameTable.regrouped_of_forall₂ hperm hrelated
  obtain ⟨hrooted', hreordered⟩ := h.schemaOf htypes hrooted
  exact ⟨draft'.schemaOf types', build_eq_ok_iff.mpr ⟨types', hextend',
    htypes.referenceErrors_eq_nil h.withBuiltins.2 herrors, hrooted', rfl⟩, hreordered⟩

end Draft

/-! ### Sameness

What remains of the order is compared here.  Tables are the same in any order, but the interfaces
of a type are a list, so they are sorted before.
-/

/-- What a type is made of, with its interfaces in the order of their names. -/
def TypeBody.sortInterfaces : TypeBody → TypeBody
  | .interface interfaces fields => .interface interfaces.mergeSort fields
  | .object interfaces fields => .object interfaces.mergeSort fields
  | body => body

/-- The type with its interfaces in the order of their names. -/
def TypeDef.sortInterfaces (t : TypeDef) : TypeDef := { t with body := t.body.sortInterfaces }

theorem TypeDef.name_sortInterfaces (t : TypeDef) : Named.name t.sortInterfaces = Named.name t := rfl

/-- The schema, with the interfaces of each type in the order of their names. -/
def Schema.sortInterfaces (schema : Schema) : Schema :=
  { schema with types := schema.types.map TypeDef.sortInterfaces TypeDef.name_sortInterfaces }

theorem mergeSort_eq_of_perm {names names' : List String} (h : names.Perm names') :
    names.mergeSort = names'.mergeSort := by
  have hsorted : ∀ names : List String, names.mergeSort.Pairwise fun a b => decide (a ≤ b) = true := by
    intro names
    refine List.pairwise_mergeSort (fun a b c hab hbc => ?_) (fun a b => ?_) _
    · exact decide_eq_true (String.le_trans (of_decide_eq_true hab) (of_decide_eq_true hbc))
    · rw [← Bool.decide_or]
      exact decide_eq_true (String.le_total _ _)
  refine List.Perm.eq_of_pairwise (fun a b _ _ hab hba => ?_) (hsorted names) (hsorted names')
    (((List.mergeSort_perm _ _).trans h).trans (List.mergeSort_perm _ _).symm)
  exact String.le_antisymm (of_decide_eq_true hab) (of_decide_eq_true hba)

theorem TypeBody.Reordered.beq {body body' : TypeBody} (h : body.Reordered body') (hproper : ProperBody body) :
    (body.sortInterfaces == body'.sortInterfaces) = true := by
  have hfields : ∀ {fields fields' : NameTable Field}, fields.toList.Perm fields'.toList →
      (∀ f ∈ fields.toList, ProperArguments f) → (fields == fields') = true := by
    intro fields fields' hperm hproper
    refine NameTable.beq_of_perm hperm fun f hf => Field.beq_self fun p hp => Parameter.beq_self fun v hv => ?_
    exact (hproper f hf p hp v hv).beq_self
  cases h with
  | enum h => exact NameTable.beq_of_perm h fun v _ => beq_self_eq_true v
  | inputObject h =>
    refine NameTable.beq_of_perm h fun p hp => Parameter.beq_self fun v hv => ?_
    exact (hproper p hp v hv).beq_self
  | interface hinterfaces h | object hinterfaces h =>
    have hsame := hfields h hproper
    have hsorted := mergeSort_eq_of_perm hinterfaces
    show (_ == _ && (_ == _)) = true
    rw [hsorted, hsame, beq_self_eq_true]
    rfl
  | scalar => rfl
  | union h => exact NameTable.beq_of_perm h fun r _ => beq_self_eq_true r

theorem TypeDef.Reordered.beq {t u : TypeDef} (h : t.Reordered u) (hproper : ProperBody t.body) :
    (t.sortInterfaces == u.sortInterfaces) = true := by
  have hbody := h.body.beq hproper
  show instBEqTypeDef.beq t.sortInterfaces u.sortInterfaces = true
  simp [instBEqTypeDef.beq, sortInterfaces, h.name, h.description, h.location, hbody]

/-- **Schemas that differ in order only are the same**, but for the order of interfaces. -/
theorem Schema.Reordered.beq {schema schema' : Schema} (h : schema.Reordered schema') (hsound : schema.Sound) :
    (schema.sortInterfaces == schema'.sortInterfaces) = true := by
  have htypes : (schema.sortInterfaces.types == schema'.sortInterfaces.types) = true := by
    refine NameTable.beq_iff_find?.mpr fun name => ?_
    unfold sortInterfaces
    dsimp only
    rw [NameTable.find?_map _ TypeDef.name_sortInterfaces, NameTable.find?_map _ TypeDef.name_sortInterfaces]
    have hrelated := h.types name
    have hproper := fun t (ht : schema.types.find? name = some t) =>
      hsound.types.defaults t (NameTable.mem_of_find?_eq_some ht)
    generalize schema.types.find? name = found, schema'.types.find? name = found' at hrelated hproper
    cases hrelated with
    | none => rfl
    | some hreordered => exact hreordered.beq (hproper _ rfl)
  have hdirectives : (schema.directives == schema'.directives) = true :=
    NameTable.beq_of_perm h.directives fun d hd => Directive.beq_self fun p hp =>
      Parameter.beq_self fun v hv => (hsound.defaults d hd p hp v hv).beq_self
  have hroot : ∀ operation, schema.root operation = schema'.root operation := congrFun h.root
  have hquery : schema.query = schema'.query := Option.some.inj (hroot .query)
  have hmutation : schema.mutation = schema'.mutation := hroot .mutation
  have hsubscription : schema.subscription = schema'.subscription := hroot .subscription
  show ((schema.sortInterfaces.types == schema'.sortInterfaces.types) && ((schema.directives == schema'.directives) &&
    ((schema.query == schema'.query) && ((schema.mutation == schema'.mutation) &&
      (schema.subscription == schema'.subscription))))) = true
  rw [htypes, hdirectives, hquery, hmutation, hsubscription]
  simp

/-! ### Sources -/

/-- A source with a path of its own: the path and the text. -/
abbrev NamedText := FilePath × String

namespace NamedText

/-- The source, as one among those that may go without a path. -/
def toText (named : NamedText) : SourceText := (some named.1, named.2)

/-- The items of a source, each with the source that it stands in. -/
def items (named : NamedText) : List StatedItem :=
  ((readSchemaDocument named.2).getD []).map (Prod.mk (Source.ofText named.1 named.2))

/-- Whether the source has a say in the order of directives or of what extends a type: it defines
a directive or extends a type. -/
def hasSay (named : NamedText) : Bool :=
  named.items.any fun stated => stated.directive?.isSome || stated.extension?.isSome

end NamedText

/-- Loads sources with paths of their own, and builds the schema. -/
def buildAll (sources : List NamedText) : Except BuildError Schema :=
  Draft.empty.loadAll (sources.map NamedText.toText) >>= Draft.build

theorem Draft.loadAll_named_eq_ok_iff {draft draft' : Draft} {sources : List NamedText} :
    draft.loadAll (sources.map NamedText.toText) = .ok draft' ↔
      (∀ named ∈ sources, (readSchemaDocument named.2).isSome) ∧
        Loaded draft (sources.flatMap NamedText.items) draft' := by
  induction sources generalizing draft with
  | nil => exact foldlM_nil_eq_ok_iff.trans (loaded_nil_iff.symm.trans (and_iff_right nofun).symm)
  | cons named sources ih =>
    unfold loadAll at ih ⊢
    rw [List.map_cons, List.foldlM_cons, bind_eq_ok, List.flatMap_cons, Loaded.append_iff, List.forall_mem_cons]
    simp only [ih]
    show (∃ first, draft.loadText named.1 named.2 = .ok first ∧ _) ↔ _
    simp only [loadText_eq_ok_iff, NamedText.items]
    cases readSchemaDocument named.2 with
    | none => simp
    | some items =>
      simp only [Option.some.injEq, exists_eq_left', Option.getD_some, Option.isSome_some, true_and]
      exact ⟨fun ⟨first, hfirst, hall, hrest⟩ => ⟨hall, first, hfirst, hrest⟩,
        fun ⟨hall, first, hfirst, hrest⟩ => ⟨first, hfirst, hall, hrest⟩⟩

/-- What two lists of sources agree on if at most one source has a say in it. -/
theorem filterMap_eq_of_hasSay {γ : Type} {f : StatedItem → Option γ} {sources sources' : List NamedText}
    (hperm : sources.Perm sources') (hone : (sources.filter NamedText.hasSay).length ≤ 1)
    (hf : ∀ stated : StatedItem, stated.directive? = none → stated.extension? = none → f stated = none) :
    (sources.flatMap NamedText.items).filterMap f = (sources'.flatMap NamedText.items).filterMap f := by
  have honly : ∀ sources : List NamedText, (sources.flatMap NamedText.items).filterMap f
      = ((sources.filter NamedText.hasSay).flatMap NamedText.items).filterMap f := by
    intro sources
    induction sources with
    | nil => rfl
    | cons named sources ih =>
      rw [List.flatMap_cons, List.filterMap_append, ih, List.filter_cons]
      cases hsay : named.hasSay with
      | true => rw [if_pos rfl, List.flatMap_cons, List.filterMap_append]
      | false =>
        rw [if_neg Bool.false_ne_true]
        have hnone : named.items.filterMap f = [] := by
          refine List.filterMap_eq_nil_iff.mpr fun stated hstated => ?_
          have hneither := List.any_eq_false.mp hsay stated hstated
          simp only [Bool.or_eq_true, not_or, Option.not_isSome_iff_eq_none] at hneither
          exact hf stated hneither.1 hneither.2
        rw [hnone, List.nil_append]
  have hfilter : sources.filter NamedText.hasSay = sources'.filter NamedText.hasSay := by
    have hsays := hperm.filter NamedText.hasSay
    match hlist : sources.filter NamedText.hasSay, hone with
    | [], _ => rw [hlist] at hsays; exact (List.nil_perm.mp hsays).symm
    | [named], _ => rw [hlist] at hsays; exact List.singleton_perm.mp hsays
    | _ :: _ :: _, hone => simp at hone
  rw [honly sources, honly sources', hfilter]

/-- **What is built in one order is built in the other.** -/
theorem exists_buildAll_perm {sources sources' : List NamedText} {schema : Schema} (hperm : sources.Perm sources')
    (hbuild : buildAll sources = .ok schema) :
    ∃ schema', buildAll sources' = .ok schema' ∧ schema.Sound ∧ schema.Reordered schema' ∧
      ((sources.filter NamedText.hasSay).length ≤ 1 → schema.sdl = schema'.sdl) := by
  obtain ⟨draft, hload, hbuild⟩ := bind_eq_ok.mp hbuild
  have hsound := (Draft.sound_of_loadAll hload).build hbuild
  obtain ⟨hread, hloaded⟩ := Draft.loadAll_named_eq_ok_iff.mp hload
  obtain ⟨draft', hloaded', hreordered⟩ := hloaded.perm (hperm.flatMap_right _)
  have hload' : Draft.empty.loadAll (sources'.map NamedText.toText) = .ok draft' :=
    Draft.loadAll_named_eq_ok_iff.mpr ⟨fun named hnamed => hread named (hperm.mem_iff.mpr hnamed), hloaded'⟩
  obtain ⟨schema', hbuild', hschema⟩ := hreordered.exists_build hbuild
  refine ⟨schema', bind_eq_ok.mpr ⟨draft', hload', hbuild'⟩, hsound, hschema, fun hone => ?_⟩
  have hdirectives : draft.directives = draft'.directives := by
    refine NameTable.ext ?_
    rw [hloaded.directives.toList, hloaded'.directives.toList,
      filterMap_eq_of_hasSay hperm hone fun _ hdirective _ => hdirective]
  have hextensions : draft.extensions = draft'.extensions := by
    rw [hloaded.extensions, hloaded'.extensions,
      filterMap_eq_of_hasSay hperm hone fun _ _ hextension => hextension]
  obtain ⟨types, hextend, -, hrooted, rfl⟩ := Draft.build_eq_ok_iff.mp hbuild
  obtain ⟨types', hextend', -, -, rfl⟩ := Draft.build_eq_ok_iff.mp hbuild'
  obtain ⟨others, list, hothers, hlist, hsame⟩ := hextend.relate hreordered (R := Eq) fun t t' hextended =>
    ⟨t', hextensions ▸ hextended, rfl⟩
  obtain rfl : others = types' := Except.ok.inj (hothers.symm.trans hextend')
  rw [List.forall₂_eq_eq_eq] at hsame
  subst hsame
  refine (Sdl.sdl_eq_of_perm hlist.symm ?_ hschema.root).symm
  show draft.withBuiltins.directives = draft'.withBuiltins.directives
  unfold Draft.withBuiltins
  rw [hdirectives]

/--
**The order of sources does not matter.**

Sources with paths of their own are loaded and built in one order exactly if they are in any
other.  The schemas are the same, up to the order of the interfaces of a type; and if at most one
of the sources defines directives or extends types, they have the same document.
-/
theorem buildAll_perm {sources sources' : List NamedText} (hperm : sources.Perm sources') :
    ((∃ schema, buildAll sources = .ok schema) ↔ ∃ schema, buildAll sources' = .ok schema) ∧
      ∀ schema schema', buildAll sources = .ok schema → buildAll sources' = .ok schema' →
        (schema.sortInterfaces == schema'.sortInterfaces) = true ∧
          ((sources.filter NamedText.hasSay).length ≤ 1 → schema.sdl = schema'.sdl) := by
  refine ⟨⟨fun ⟨schema, h⟩ => ?_, fun ⟨schema, h⟩ => ?_⟩, fun schema schema' h h' => ?_⟩
  · obtain ⟨schema', h', -⟩ := exists_buildAll_perm hperm h
    exact ⟨schema', h'⟩
  · obtain ⟨schema', h', -⟩ := exists_buildAll_perm hperm.symm h
    exact ⟨schema', h'⟩
  · obtain ⟨other, hother, hsound, hreordered, hsdl⟩ := exists_buildAll_perm hperm h
    obtain rfl : other = schema' := Except.ok.inj (hother.symm.trans h')
    exact ⟨hreordered.beq hsound, hsdl⟩

/-- Two sources, the first of which extends what the second defines. -/
def extendingSources : List NamedText :=
  [(⟨"a.graphql"⟩, "extend type Query implements J & I { g(of: E = A): Int } interface I { f: Int }"),
   (⟨"b.graphql"⟩, "type Query { f: Int } enum E { A } interface J { f: Int }")]

theorem buildAll_perm_reverse : ∃ schema schema', buildAll extendingSources = .ok schema ∧
    buildAll extendingSources.reverse = .ok schema' ∧
    (schema.sortInterfaces == schema'.sortInterfaces) = true ∧ schema.sdl = schema'.sdl := by
  have hperm : extendingSources.Perm extendingSources.reverse := (List.reverse_perm _).symm
  obtain ⟨schema, h⟩ := exists_ok (x := buildAll extendingSources) (by decide +kernel)
  obtain ⟨schema', h'⟩ := (buildAll_perm hperm).1.mp ⟨schema, h⟩
  obtain ⟨hsame, hsdl⟩ := (buildAll_perm hperm).2 schema schema' h h'
  exact ⟨schema, schema', h, h', hsame, hsdl (by decide +kernel)⟩

end GraphSchema
