/-
What loading comes to.

A run over many items comes apart into what it does to the types, the directives, the roots and
the extensions of a draft, none of which depends on the others (`Draft.Loaded`).  So what sources
add can be told from the items that stand in them, without going through the steps.

Most results about schemas are proved of the items that stand in the sources.  `loadAll_eq_ok_iff`
is how they become results about texts.
-/
import GraphSchema.Proofs.Schema.Loading

namespace GraphSchema

open Syntax

/-! ### Items -/

/-- An item, with the source that it stands in. -/
abbrev StatedItem := Source × Item

namespace StatedItem

/-- The type that the item defines, with its source and description. -/
def definition? : StatedItem → Option (Source × Option String × TypeSyntax)
  | (source, .typeDefinition description type) => some (source, description, type)
  | _ => none

/-- The directive that the item defines, with its source. -/
def directive? : StatedItem → Option (Source × DirectiveSyntax)
  | (source, .directiveDefinition d) => some (source, d)
  | _ => none

/-- The extension that the item states, as the draft keeps it until the end. -/
def extension? : StatedItem → Option PendingExtension
  | (source, .typeExtension type) => some ⟨source, type⟩
  | _ => none

/-- Whether the item says which types operations start from. -/
def isBlock : StatedItem → Bool
  | (_, .schemaBlock _) => true
  | _ => false

/-- What the item declares as the root of an operation, if it is a schema block. -/
def declared (operation : OperationKind) : StatedItem → List RootDeclaration
  | (source, .schemaBlock block) => Draft.SchemaBlock.declared block (source.location block.position) operation
  | _ => []

theorem declared_eq_nil {stated : StatedItem} (h : stated.isBlock = false) (operation : OperationKind) :
    stated.declared operation = [] := by
  obtain ⟨source, item⟩ := stated
  cases item with
  | schemaBlock => cases h
  | _ => rfl

end StatedItem

/-- Types have been defined, each under a name that was free for it. -/
def AddsTypes (definitions : List (Source × Option String × TypeSyntax)) (types types' : NameTable TypeDef) :
    Prop :=
  ∃ news, List.Forall₂ (fun d t => d.1.Defines d.2.1 d.2.2 t) definitions news ∧
    (news.map TypeDef.name).Nodup ∧ (∀ t ∈ news, types.HasRoom t.name) ∧
    types' = news.foldl NameTable.insert types

/-- Directives have been defined, each under a name of its own. -/
def AddsDirectives (definitions : List (Source × DirectiveSyntax))
    (directives directives' : NameTable Directive) : Prop :=
  AddsParts (fun d => d.2.name) (fun d => d.1.directive d.2)
    (fun d => Builtin.isReserved d.2.name = false) definitions directives directives'

namespace Draft

variable {draft draft' : Draft}

/-- What loading items comes to: it defines types and directives, declares roots, and puts the
extensions behind those that wait already. -/
structure Loaded (draft : Draft) (items : List StatedItem) (draft' : Draft) : Prop where
  types : AddsTypes (items.filterMap StatedItem.definition?) draft.types draft'.types
  directives : AddsDirectives (items.filterMap StatedItem.directive?) draft.directives draft'.directives
  roots : ∀ operation, (draft'.root? operation).toList
    = (draft.root? operation).toList ++ items.flatMap (StatedItem.declared operation)
  distinct : (∃ stated ∈ items, stated.isBlock = true) → draft'.DistinctRoots
  extensions : draft'.extensions = draft.extensions ++ items.filterMap StatedItem.extension?
  unnamed : draft'.unnamed = draft.unnamed

end Draft

/-! ### One item after the other

Each of the four components grows by what an item adds to it.  The lemmas say how the components of
a whole run come apart into those of its first and its second part.
-/

theorem addsTypes_nil_iff {types types' : NameTable TypeDef} : AddsTypes [] types types' ↔ types' = types := by
  constructor
  · rintro ⟨_, hnews, -, -, heq⟩
    cases hnews
    exact heq
  · exact fun heq => ⟨[], .nil, .nil, nofun, heq⟩

/-- What a definition states belongs to a source. -/
theorem Source.Defines.isBuiltin {source : Source} {description : Option String} {type : TypeSyntax}
    {t : TypeDef} (h : source.Defines description type t) : t.isBuiltin = false := by
  rw [TypeDef.isBuiltin, h.location]
  rfl

/-- A type that belongs to a source leaves no room for another one of its name. -/
theorem hasRoom_insert_iff {types : NameTable TypeDef} {t : TypeDef} (ht : t.isBuiltin = false)
    {name : String} : (types.insert t).HasRoom name ↔ t.name ≠ name ∧ types.HasRoom name := by
  unfold NameTable.HasRoom
  rw [NameTable.find?_insert]
  show (∀ existing ∈ (if t.name = name then some t else types.find? name), _) ↔ _
  by_cases hname : t.name = name
  · rw [if_pos hname]
    refine ⟨fun h => ?_, fun h => absurd hname h.1⟩
    have hbuiltin := (h t rfl).1
    rw [ht] at hbuiltin
    cases hbuiltin
  · rw [if_neg hname]
    exact ⟨fun h => ⟨hname, h⟩, fun h => h.2⟩

theorem AddsTypes.cons_iff {definition : Source × Option String × TypeSyntax}
    {definitions : List (Source × Option String × TypeSyntax)} {types types' : NameTable TypeDef} :
    AddsTypes (definition :: definitions) types types' ↔
      ∃ t, definition.1.Defines definition.2.1 definition.2.2 t ∧ types.HasRoom t.name ∧
        AddsTypes definitions (types.insert t) types' := by
  constructor
  · rintro ⟨_, hnews, hnodup, hroom, heq⟩
    cases hnews with
    | @cons _ t _ news ht hnews =>
      obtain ⟨hfirst, hnodup⟩ := List.nodup_cons.mp hnodup
      obtain ⟨hroomFirst, hroom⟩ := List.forall_mem_cons.mp hroom
      refine ⟨t, ht, hroomFirst, news, hnews, hnodup, fun u hu => ?_, heq⟩
      refine (hasRoom_insert_iff ht.isBuiltin).mpr ⟨fun hname => hfirst ?_, hroom u hu⟩
      exact List.mem_map.mpr ⟨u, hu, hname.symm⟩
  · rintro ⟨t, ht, hroom, news, hnews, hnodup, hrooms, heq⟩
    have hrooms := fun u hu => (hasRoom_insert_iff ht.isBuiltin).mp (hrooms u hu)
    refine ⟨t :: news, .cons ht hnews, List.nodup_cons.mpr ⟨fun hmem => ?_, hnodup⟩,
      List.forall_mem_cons.mpr ⟨hroom, fun u hu => (hrooms u hu).2⟩, heq⟩
    obtain ⟨u, hu, hname⟩ := List.mem_map.mp hmem
    exact (hrooms u hu).1 hname.symm

theorem AddsTypes.append_iff {definitions more : List (Source × Option String × TypeSyntax)}
    {types types' : NameTable TypeDef} :
    AddsTypes (definitions ++ more) types types' ↔
      ∃ middle, AddsTypes definitions types middle ∧ AddsTypes more middle types' := by
  induction definitions generalizing types with
  | nil => simp only [List.nil_append, addsTypes_nil_iff, exists_eq_left]
  | cons definition definitions ih =>
    rw [List.cons_append, cons_iff]
    simp only [ih, cons_iff]
    constructor
    · exact fun ⟨t, ht, hroom, middle, hfirst, hrest⟩ => ⟨middle, ⟨t, ht, hroom, hfirst⟩, hrest⟩
    · exact fun ⟨middle, ⟨t, ht, hroom, hfirst⟩, hrest⟩ => ⟨t, ht, hroom, middle, hfirst, hrest⟩

theorem addsDirectives_nil_iff {directives directives' : NameTable Directive} :
    AddsDirectives [] directives directives' ↔ directives' = directives :=
  addsParts_nil_iff

theorem AddsDirectives.append_iff {definitions more : List (Source × DirectiveSyntax)}
    {directives directives' : NameTable Directive} :
    AddsDirectives (definitions ++ more) directives directives' ↔
      ∃ middle, AddsDirectives definitions directives middle ∧ AddsDirectives more middle directives' := by
  have hname : ∀ d : Source × DirectiveSyntax, Named.name (d.1.directive d.2) = d.2.name := fun _ => rfl
  exact AddsParts.append_iff hname

namespace Draft

variable {draft draft' : Draft} {items more : List StatedItem}

/-- A draft can have any roots, as long as there is at most one for each operation. -/
theorem exists_roots (roots : OperationKind → List RootDeclaration)
    (h : ∀ operation, (roots operation).length ≤ 1) :
    ∃ query mutation subscription, ∀ (draft : Draft) (operation : OperationKind),
      (({ draft with query, mutation, subscription } : Draft).root? operation).toList = roots operation := by
  have hhead : ∀ operation, (roots operation).head?.toList = roots operation := by
    intro operation
    have hmost := h operation
    match hroots : roots operation with
    | [] | [_] => rfl
    | _ :: _ :: _ => simp [hroots] at hmost
  refine ⟨(roots .query).head?, (roots .mutation).head?, (roots .subscription).head?, fun draft operation => ?_⟩
  cases operation <;> exact hhead _

/-- What is loaded from items and more of them can be loaded from the items first. -/
theorem Loaded.exists_middle (h : Loaded draft (items ++ more) draft') :
    ∃ middle, Loaded draft items middle ∧ Loaded middle more draft' := by
  obtain ⟨htypes, hdirectives, hroots, hdistinct, hextensions, hunnamed⟩ := h
  rw [List.filterMap_append, AddsTypes.append_iff] at htypes
  rw [List.filterMap_append] at hdirectives
  obtain ⟨types, htypes, htypes'⟩ := htypes
  obtain ⟨directives, hdirectives, hdirectives'⟩ := AddsDirectives.append_iff.mp hdirectives
  simp only [List.flatMap_append, ← List.append_assoc] at hroots
  rw [List.filterMap_append, ← List.append_assoc] at hextensions
  obtain ⟨query, mutation, subscription, hdraft⟩ := exists_roots
    (fun operation => (draft.root? operation).toList ++ items.flatMap (StatedItem.declared operation))
    fun operation => by
      have hmost : (draft'.root? operation).toList.length ≤ 1 := Option.length_toList_le
      rw [hroots] at hmost
      exact Nat.le_trans (List.sublist_append_left _ _).length_le hmost
  let middle : Draft :=
    { types, directives, query, mutation, subscription,
      extensions := draft.extensions ++ items.filterMap StatedItem.extension?, unnamed := draft.unnamed }
  have hmiddle := hdraft middle
  have hlater : ∀ operation, (draft'.root? operation).toList
      = (middle.root? operation).toList ++ more.flatMap (StatedItem.declared operation) := fun operation =>
    (hroots operation).trans (congrArg (· ++ _) (hmiddle operation).symm)
  refine ⟨middle, ⟨htypes, hdirectives, hmiddle, fun ⟨stated, hmem, hblock⟩ => ?_, rfl, rfl⟩,
    ⟨htypes', hdirectives', hlater, fun ⟨stated, hmem, hblock⟩ => ?_, hextensions, hunnamed⟩⟩
  · refine (hdistinct ⟨stated, List.mem_append_left _ hmem, hblock⟩).of_kept fun operation a ha => ?_
    refine Option.mem_toList.mp ?_
    rw [hlater]
    exact List.mem_append_left _ (Option.mem_toList.mpr ha)
  · exact hdistinct ⟨stated, List.mem_append_right _ hmem, hblock⟩

/-- Items without a schema block leave the roots alone. -/
theorem Loaded.root?_eq (h : Loaded draft items draft') (hnone : ∀ stated ∈ items, stated.isBlock = false)
    (operation : OperationKind) : draft'.root? operation = draft.root? operation := by
  have hnothing : items.flatMap (StatedItem.declared operation) = [] :=
    List.flatMap_eq_nil_iff.mpr fun stated hmem => StatedItem.declared_eq_nil (hnone stated hmem) operation
  have hroots := h.roots operation
  rw [hnothing, List.append_nil] at hroots
  simpa only [Option.head?_toList] using congrArg List.head? hroots

theorem Loaded.append {middle : Draft} (hfirst : Loaded draft items middle) (hrest : Loaded middle more draft') :
    Loaded draft (items ++ more) draft' := by
  refine ⟨?_, ?_, fun operation => ?_, ?_, ?_, hrest.unnamed.trans hfirst.unnamed⟩
  · rw [List.filterMap_append]
    exact AddsTypes.append_iff.mpr ⟨_, hfirst.types, hrest.types⟩
  · rw [List.filterMap_append]
    exact AddsDirectives.append_iff.mpr ⟨_, hfirst.directives, hrest.directives⟩
  · rw [hrest.roots, hfirst.roots, List.flatMap_append, List.append_assoc]
  · rintro ⟨stated, hmem, hblock⟩
    by_cases hlater : ∃ stated ∈ more, stated.isBlock = true
    · exact hrest.distinct hlater
    · have hnone : ∀ stated ∈ more, stated.isBlock = false := fun stated hmem =>
        Bool.eq_false_iff.mpr fun h => hlater ⟨stated, hmem, h⟩
      have hitem : ∃ stated ∈ items, stated.isBlock = true :=
        ⟨stated, (List.mem_append.mp hmem).resolve_right fun h => hlater ⟨stated, h, hblock⟩, hblock⟩
      refine (hfirst.distinct hitem).of_kept fun operation a ha => ?_
      rwa [← hrest.root?_eq hnone]
  · rw [hrest.extensions, hfirst.extensions, List.filterMap_append, List.append_assoc]

/-- **Items are loaded one after the other.** -/
theorem Loaded.append_iff :
    Loaded draft (items ++ more) draft' ↔ ∃ middle, Loaded draft items middle ∧ Loaded middle more draft' :=
  ⟨Loaded.exists_middle, fun ⟨_, hfirst, hrest⟩ => hfirst.append hrest⟩

theorem loaded_nil_iff : Loaded draft [] draft' ↔ draft' = draft := by
  constructor
  · intro h
    have hroots : ∀ operation, (draft'.root? operation).toList = (draft.root? operation).toList :=
      fun operation => (h.roots operation).trans (List.append_nil _)
    exact eq_of_sameRest ⟨addsTypes_nil_iff.mp h.types, addsDirectives_nil_iff.mp h.directives,
      h.extensions.trans (List.append_nil _), h.unnamed⟩ hroots
  · rintro rfl
    exact ⟨addsTypes_nil_iff.mpr rfl, addsDirectives_nil_iff.mpr rfl, fun _ => (List.append_nil _).symm,
      fun ⟨_, hmem, _⟩ => absurd hmem List.not_mem_nil, (List.append_nil _).symm, rfl⟩

theorem AddsTypes.singleton_iff {definition : Source × Option String × TypeSyntax}
    {types types' : NameTable TypeDef} :
    AddsTypes [definition] types types' ↔ ∃ t, definition.1.Defines definition.2.1 definition.2.2 t ∧
      types.HasRoom t.name ∧ types' = types.insert t := by
  rw [AddsTypes.cons_iff]
  simp only [addsTypes_nil_iff]

theorem AddsDirectives.singleton_iff {definition : Source × DirectiveSyntax}
    {directives directives' : NameTable Directive} :
    AddsDirectives [definition] directives directives' ↔
      Builtin.isReserved definition.2.name = false ∧ definition.2.name ∉ directives.names ∧
        directives' = directives.insert (definition.1.directive definition.2) := by
  have hname : ∀ d : Source × DirectiveSyntax, Named.name (d.1.directive d.2) = d.2.name := fun _ => rfl
  unfold AddsDirectives
  rw [AddsParts.cons_iff hname, addsParts_nil_iff]

/-- An item that is no schema block leaves the roots alone. -/
theorem loaded_singleton_iff_of_not_block {stated : StatedItem} (hblock : stated.isBlock = false) :
    Loaded draft [stated] draft' ↔
      ∃ types directives, AddsTypes stated.definition?.toList draft.types types ∧
        AddsDirectives stated.directive?.toList draft.directives directives ∧
        draft' = { draft with types, directives, extensions := draft.extensions ++ stated.extension?.toList } := by
  have hsingle : ∀ {α : Type} (f : StatedItem → Option α), [stated].filterMap f = (f stated).toList := by
    intro α f
    cases h : f stated with
    | none => rw [List.filterMap_cons_none h, List.filterMap_nil, Option.toList]
    | some a => rw [List.filterMap_cons_some h, List.filterMap_nil, Option.toList]
  have hnone : ∀ operation, [stated].flatMap (StatedItem.declared operation) = [] := fun operation => by
    rw [List.flatMap_cons, StatedItem.declared_eq_nil hblock, List.flatMap_nil, List.append_nil]
  constructor
  · intro h
    have htypes := h.types
    have hdirectives := h.directives
    have hextensions := h.extensions
    rw [hsingle] at htypes hdirectives hextensions
    refine ⟨draft'.types, draft'.directives, htypes, hdirectives, ?_⟩
    refine eq_of_sameRest ⟨rfl, rfl, hextensions, h.unnamed⟩ fun operation => ?_
    rw [h.roots, hnone, List.append_nil]
    cases operation <;> rfl
  · rintro ⟨types, directives, htypes, hdirectives, rfl⟩
    refine ⟨?_, ?_, fun operation => ?_, ?_, ?_, rfl⟩
    · rwa [hsingle]
    · rwa [hsingle]
    · rw [hnone, List.append_nil]
      cases operation <;> rfl
    · rintro ⟨other, hmem, hother⟩
      obtain rfl := List.mem_singleton.mp hmem
      rw [hblock] at hother
      cases hother
    · rw [hsingle]

/-- What loading a single item comes to. -/
theorem loadItem_eq_ok_iff {source : Source} {item : Item} :
    loadItem source draft item = .ok draft' ↔ Loaded draft [(source, item)] draft' := by
  cases item with
  | schemaBlock block =>
    show draft.declareRoots source block = .ok draft' ↔ _
    rw [declareRoots_eq_ok_iff]
    constructor
    · rintro ⟨hrest, hdistinct, hroots⟩
      refine ⟨addsTypes_nil_iff.mpr hrest.types, addsDirectives_nil_iff.mpr hrest.directives, ?_,
        fun _ => hdistinct, hrest.extensions.trans (List.append_nil _).symm, hrest.unnamed⟩
      intro operation
      rw [hroots, List.flatMap_cons, List.flatMap_nil, List.append_nil]
      rfl
    · intro h
      refine ⟨⟨addsTypes_nil_iff.mp h.types, addsDirectives_nil_iff.mp h.directives,
        h.extensions.trans (List.append_nil _), h.unnamed⟩, h.distinct ⟨_, List.mem_singleton_self _, rfl⟩, ?_⟩
      intro operation
      rw [h.roots, List.flatMap_cons, List.flatMap_nil, List.append_nil]
      rfl
  | typeDefinition description type =>
    show draft.define source description type = .ok draft' ↔ _
    rw [define_eq_ok_iff, loaded_singleton_iff_of_not_block rfl]
    simp only [StatedItem.definition?, StatedItem.directive?, StatedItem.extension?, Option.toList,
      AddsTypes.singleton_iff, addsDirectives_nil_iff, List.append_nil]
    constructor
    · rintro ⟨t, ht, hroom, rfl⟩
      exact ⟨_, _, ⟨t, ht, hroom, rfl⟩, rfl, rfl⟩
    · rintro ⟨_, _, ⟨t, ht, hroom, rfl⟩, rfl, rfl⟩
      exact ⟨t, ht, hroom, rfl⟩
  | typeExtension type =>
    show Except.ok { draft with extensions := draft.extensions ++ [⟨source, type⟩] } = .ok draft' ↔ _
    rw [loaded_singleton_iff_of_not_block rfl]
    simp only [StatedItem.definition?, StatedItem.directive?, StatedItem.extension?, Option.toList,
      addsTypes_nil_iff, addsDirectives_nil_iff]
    constructor
    · intro h
      exact ⟨_, _, rfl, rfl, (Except.ok.inj h).symm⟩
    · rintro ⟨_, _, rfl, rfl, rfl⟩
      rfl
  | directiveDefinition d =>
    show draft.defineDirective source d = .ok draft' ↔ _
    rw [defineDirective_eq_ok_iff, loaded_singleton_iff_of_not_block rfl]
    simp only [StatedItem.definition?, StatedItem.directive?, StatedItem.extension?, Option.toList,
      AddsDirectives.singleton_iff, addsTypes_nil_iff, List.append_nil]
    constructor
    · rintro ⟨hreserved, hnew, rfl⟩
      exact ⟨_, _, rfl, ⟨hreserved, hnew, rfl⟩, rfl⟩
    · rintro ⟨_, _, rfl, ⟨hreserved, hnew, rfl⟩, rfl⟩
      exact ⟨hreserved, hnew, rfl⟩

/-- **What loading a list of items comes to.** -/
theorem foldlM_loadItem_eq_ok_iff :
    items.foldlM (fun draft stated => loadItem stated.1 draft stated.2) draft = .ok draft' ↔
      Loaded draft items draft' := by
  induction items generalizing draft with
  | nil => rw [foldlM_nil_eq_ok_iff, loaded_nil_iff]
  | cons stated items ih =>
    rw [List.foldlM_cons, bind_eq_ok, ← List.singleton_append, Loaded.append_iff]
    simp only [ih, loadItem_eq_ok_iff]

/-- The number of sources without a path plays no part in loading items. -/
theorem Loaded.renumber (h : Loaded draft items draft') (n : UInt16) :
    Loaded { draft with unnamed := n } items { draft' with unnamed := n } where
  types := h.types
  directives := h.directives
  roots := fun operation => by
    have hroots := h.roots operation
    cases operation <;> exact hroots
  distinct := fun hblock => (h.distinct hblock).of_kept fun operation => by cases operation <;> exact fun _ => id
  extensions := h.extensions
  unnamed := rfl

end Draft

/-! ### Sources

Texts are read before they are loaded, and reading does not depend on the draft.  So a run over
texts is a run over the items that stand in them.
-/

/-- What is loaded: a path, if it has one, and a text. -/
abbrev SourceText := Option FilePath × String

namespace SourceText

/-- The source, if `n` sources without a path stand before it. -/
def toSource (text : SourceText) (n : UInt16) : Source :=
  Source.ofText (text.1.getD (Draft.unnamedPath n)) text.2

/-- The number of sources without a path, this one included. -/
def number (text : SourceText) (n : UInt16) : UInt16 :=
  if text.1.isNone then n + 1 else n

end SourceText

/-- Texts are read as items, those of one text after those of another. -/
inductive ReadAs : UInt16 → List SourceText → List StatedItem → Prop
  | nil (n : UInt16) : ReadAs n [] []
  | cons {n : UInt16} {text : SourceText} {texts : List SourceText} {items : List Item}
      {stated : List StatedItem} (hread : readSchemaDocument text.2 = some items)
      (hrest : ReadAs (text.number n) texts stated) :
      ReadAs n (text :: texts) (items.map (Prod.mk (text.toSource n)) ++ stated)

/-- Texts are read in one way. -/
theorem ReadAs.unique {n : UInt16} {texts : List SourceText} {stated others : List StatedItem}
    (h : ReadAs n texts stated) (h' : ReadAs n texts others) : stated = others := by
  induction h generalizing others with
  | nil =>
    cases h'
    rfl
  | cons hread _ ih =>
    cases h' with
    | cons hread' hrest' =>
      rw [hread] at hread'
      rw [Option.some.inj hread', ih hrest']

namespace Draft

variable {draft draft' : Draft}

/-- Loads sources one after the other. -/
def loadAll (draft : Draft) (texts : List SourceText) : Except BuildError Draft :=
  texts.foldlM (fun draft text => draft.load text.1 text.2) draft

theorem loadText_eq_ok_iff {path : FilePath} {content : String} :
    draft.loadText path content = .ok draft' ↔ ∃ items, readSchemaDocument content = some items ∧
      Loaded draft (items.map (Prod.mk (Source.ofText path content))) draft' := by
  unfold loadText
  cases readSchemaDocument content with
  | none => simp
  | some items =>
    simp only [Option.some.injEq, exists_eq_left', ← foldlM_loadItem_eq_ok_iff, List.foldlM_map]

theorem load_eq_ok_iff {text : SourceText} :
    draft.load text.1 text.2 = .ok draft' ↔ ∃ items, readSchemaDocument text.2 = some items ∧
      Loaded { draft with unnamed := text.number draft.unnamed }
        (items.map (Prod.mk (text.toSource draft.unnamed))) draft' := by
  obtain ⟨path?, content⟩ := text
  cases path? with
  | none => exact loadText_eq_ok_iff
  | some path => exact loadText_eq_ok_iff

/-- **What loading sources comes to**: their texts are read, and the items loaded. -/
theorem loadAll_eq_ok_iff {texts : List SourceText} :
    draft.loadAll texts = .ok draft' ↔
      draft'.unnamed = texts.foldl (fun n text => text.number n) draft.unnamed ∧
        ∃ stated, ReadAs draft.unnamed texts stated ∧
          Loaded { draft with unnamed := draft'.unnamed } stated draft' := by
  induction texts generalizing draft with
  | nil =>
    refine foldlM_nil_eq_ok_iff.trans ⟨?_, ?_⟩
    · rintro rfl
      exact ⟨rfl, [], .nil _, loaded_nil_iff.mpr rfl⟩
    · rintro ⟨hnumber, _, ⟨⟩, hloaded⟩
      rw [hnumber] at hloaded
      exact loaded_nil_iff.mp hloaded
  | cons text texts ih =>
    unfold loadAll at ih ⊢
    rw [List.foldlM_cons, bind_eq_ok]
    simp only [ih, load_eq_ok_iff, List.foldl_cons]
    constructor
    · rintro ⟨first, ⟨items, hread, hfirst⟩, hnumber, stated, hreads, hrest⟩
      have hsecond : first.unnamed = text.number draft.unnamed := hfirst.unnamed
      rw [hsecond] at hnumber hreads
      exact ⟨hnumber, _, .cons hread hreads, Loaded.append_iff.mpr ⟨_, hfirst.renumber _, hrest⟩⟩
    · rintro ⟨hnumber, _, hreads, hloaded⟩
      cases hreads with
      | @cons _ _ _ items stated hread hreads =>
        obtain ⟨middle, hfirst, hrest⟩ := Loaded.append_iff.mp hloaded
        have hsame : middle.unnamed = draft'.unnamed := hfirst.unnamed
        refine ⟨{ middle with unnamed := text.number draft.unnamed }, ⟨items, hread, hfirst.renumber _⟩,
          hnumber, stated, hreads, ?_⟩
        rwa [← hsame]

end Draft

end GraphSchema
