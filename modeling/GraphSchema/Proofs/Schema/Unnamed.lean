/-
Names of sources without a path.

A source without a path is called after the number of such sources in front of it, and what it states
is recorded under that name.  Sources with a path leave the number as it is.

The number has 16 bits, so behind 65536 sources without a path the names begin anew: two of them
share a name exactly if the number of steps from one to the other is a multiple of 65536
(`loadAll_unnamed`).
-/
import GraphSchema.Proofs.Schema.Kept
import GraphSchema.Proofs.Schema.Roots

namespace GraphSchema

open Syntax

/-! ### Names and numbers -/

/-- The name with a number in it. -/
def numberedPath (k : Nat) : FilePath := ⟨"str://" ++ toString k⟩

theorem numberedPath_inj {m n : Nat} : numberedPath m = numberedPath n ↔ m = n := by
  refine ⟨fun h => ?_, congrArg numberedPath⟩
  have htext : "str://" ++ toString m = "str://" ++ toString n := congrArg FilePath.text h
  exact Nat.repr_inj.mp ((String.append_right_inj _).mp htext)

theorem unnamedPath_eq (n : UInt16) : Draft.unnamedPath n = numberedPath n.toNat := rfl

/-- How many of the texts have no path. -/
def countUnnamed (texts : List SourceText) : Nat := texts.countP fun text => text.1.isNone

theorem countUnnamed_cons (text : SourceText) (texts : List SourceText) :
    countUnnamed (text :: texts) = countUnnamed texts + if text.1.isNone then 1 else 0 := List.countP_cons

/-- **The number counts the sources without a path**, as far as 16 bits go. -/
theorem toNat_foldl_number (n : UInt16) (texts : List SourceText) :
    (texts.foldl (fun n text => text.number n) n).toNat = (n.toNat + countUnnamed texts) % UInt16.size := by
  induction texts generalizing n with
  | nil => exact (Nat.mod_eq_of_lt n.toNat_lt).symm
  | cons text texts ih =>
    rw [List.foldl_cons, ih, countUnnamed_cons]
    cases hpath : text.1.isNone with
    | false =>
      have hnumber : text.number n = n := by rw [SourceText.number, hpath, if_neg Bool.false_ne_true]
      rw [hnumber, if_neg Bool.false_ne_true, Nat.add_zero]
    | true =>
      have hnumber : text.number n = n + 1 := by rw [SourceText.number, hpath, if_pos rfl]
      rw [hnumber, if_pos rfl, UInt16.toNat_add, Nat.mod_add_mod]
      congr 1
      exact Nat.add_right_comm ..

/-- The name of a source without a path that stands behind others: the number of those among them
that have no path, in 16 bits. -/
def pathBehind (before : List SourceText) : FilePath := numberedPath (countUnnamed before % UInt16.size)

theorem unnamedPath_foldl_number (texts : List SourceText) :
    Draft.unnamedPath (texts.foldl (fun n text => text.number n) 0) = pathBehind texts := by
  rw [unnamedPath_eq, toNat_foldl_number, pathBehind]
  exact congrArg (fun k => numberedPath (k % UInt16.size)) (Nat.zero_add _)

/-- Two names are one if the sources without a path that lie between come to a multiple of 65536. -/
theorem pathBehind_append_eq_iff (before between : List SourceText) :
    pathBehind before = pathBehind (before ++ between) ↔ UInt16.size ∣ countUnnamed between := by
  have hcount : countUnnamed (before ++ between) = countUnnamed before + countUnnamed between :=
    List.countP_append
  rw [pathBehind, pathBehind, numberedPath_inj, hcount]
  refine (Nat.modEq_iff_dvd' (Nat.le_add_right _ _)).trans ?_
  rw [Nat.add_sub_cancel_left]

/-! ### What is recorded under a name

Every item leaves something behind that tells its source.  It is found again in the draft at the
end of the run, whatever has been loaded after it.
-/

/-- The items of a text that stands among others are read with the number that it has there. -/
theorem ReadAs.exists_items {n : UInt16} {before after : List SourceText} {text : SourceText}
    {stated : List StatedItem} (h : ReadAs n (before ++ text :: after) stated) :
    ∃ items, readSchemaDocument text.2 = some items ∧ ∀ item ∈ items,
      (text.toSource (before.foldl (fun n text => text.number n) n), item) ∈ stated := by
  induction before generalizing n stated with
  | nil =>
    cases h with
    | cons hread _ =>
      exact ⟨_, hread, fun item hitem => List.mem_append_left _ (List.mem_map_of_mem hitem)⟩
  | cons first before ih =>
    cases h with
    | cons _ hrest =>
      obtain ⟨items, hread, hitems⟩ := ih hrest
      exact ⟨items, hread, fun item hitem => List.mem_append_right _ (hitems item hitem)⟩

namespace Draft

variable {draft : Draft}

/-- What an item states is in the draft, with the places that it has in its source. -/
def Records (draft : Draft) (source : Source) : Item → Prop
  | .typeDefinition description type =>
    ∃ t, draft.types.find? type.name = some t ∧ source.Defines description type t
  | .directiveDefinition d => draft.directives.find? d.name = some (source.directive d)
  | .typeExtension type => ⟨source, type⟩ ∈ draft.extensions
  | .schemaBlock block => ∀ operation,
    ∀ declaration ∈ SchemaBlock.declared block (source.location block.position) operation,
      draft.root? operation = some declaration

/-- **Every item that is loaded is recorded.** -/
theorem Loaded.records {stated : List StatedItem} (h : Draft.empty.Loaded stated draft) {source : Source}
    {item : Item} (hmem : (source, item) ∈ stated) : draft.Records source item := by
  cases item with
  | typeDefinition description type =>
    obtain ⟨news, hnews, hnames, hnodup, heq⟩ := h.definedTypes
    obtain ⟨t, ht, hdefines⟩ := exists_related_of_mem hnews (List.mem_filterMap.mpr ⟨_, hmem, rfl⟩)
    refine ⟨t, ?_, hdefines⟩
    rw [heq]
    exact (NameTable.find?_foldl_insert (hnames ▸ hnodup)).mpr (Or.inl ⟨ht, hdefines.name⟩)
  | directiveDefinition d =>
    have hdirective : source.directive d ∈ draft.directives.toList := by
      rw [h.directives.toList]
      refine List.mem_append_right _ (List.mem_map.mpr ⟨(source, d), ?_, rfl⟩)
      exact List.mem_filterMap.mpr ⟨_, hmem, rfl⟩
    exact NameTable.find?_name hdirective
  | typeExtension type =>
    show _ ∈ draft.extensions
    rw [h.extensions]
    exact List.mem_append_right _ (List.mem_filterMap.mpr ⟨_, hmem, rfl⟩)
  | schemaBlock block =>
    intro operation declaration hdeclared
    exact h.mem_root?_iff.mpr (List.mem_flatMap.mpr ⟨_, hmem, hdeclared⟩)

theorem Records.renumber {n : UInt16} {source : Source} {item : Item}
    (h : { draft with unnamed := n }.Records source item) : draft.Records source item := by
  cases item with
  | schemaBlock block =>
    intro operation
    cases operation <;> exact h _
  | _ => exact h

/-- What a text states is recorded with the number that the text has among those that are loaded. -/
theorem records_of_loadAll {before after : List SourceText} {text : SourceText}
    (h : Draft.empty.loadAll (before ++ text :: after) = .ok draft) :
    ∃ items, readSchemaDocument text.2 = some items ∧ ∀ item ∈ items,
      draft.Records (text.toSource (before.foldl (fun n text => text.number n) 0)) item := by
  obtain ⟨-, stated, hread, hloaded⟩ := loadAll_eq_ok_iff.mp h
  obtain ⟨items, hitems, hmem⟩ := hread.exists_items
  exact ⟨items, hitems, fun item hitem => ((hloaded.renumber 0).records (hmem item hitem)).renumber⟩

/--
**Names of sources without a path.**  Whatever sources have been loaded one after the other, with and
without a path: what the ones without a path state is recorded under `str://k`, where `k` is the
number of sources without a path in front, in 16 bits.  The next one without a path is loaded under
its name of this kind, which is the name that its errors tell.  So two of them have one name exactly
if the number of steps from the one to the other is a multiple of 65536; in particular, the first
65536 of them have different names.
-/
theorem loadAll_unnamed {texts : List SourceText} (h : Draft.empty.loadAll texts = .ok draft) :
    (∀ before content after, texts = before ++ (none, content) :: after →
      ∃ items, readSchemaDocument content = some items ∧
        ∀ item ∈ items, draft.Records (.ofText (pathBehind before) content) item) ∧
    (∀ content, draft.load none content
      = { draft with unnamed := draft.unnamed + 1 }.loadText (pathBehind texts) content) ∧
    ∀ before between after content content',
      texts = before ++ (none, content) :: (between ++ (none, content') :: after) →
        (pathBehind before = pathBehind (before ++ (none, content) :: between) ↔
          UInt16.size ∣ countUnnamed between + 1) := by
  refine ⟨fun before content after htexts => ?_, fun content => ?_, fun before between _ content _ _ => ?_⟩
  · subst htexts
    obtain ⟨items, hread, hrecords⟩ := records_of_loadAll h
    rw [← unnamedPath_foldl_number]
    exact ⟨items, hread, hrecords⟩
  · obtain ⟨hnumber, -⟩ := loadAll_eq_ok_iff.mp h
    rw [← unnamedPath_foldl_number]
    exact congrArg (fun n => loadText _ (unnamedPath n) content) hnumber
  · have hcount : countUnnamed ((none, content) :: between) = countUnnamed between + 1 :=
      countUnnamed_cons ..
    rw [← hcount]
    exact pathBehind_append_eq_iff before ((none, content) :: between)

/-- Sources of each sort, two of them without a path and one with a path between them. -/
def mixedTexts : List SourceText :=
  [(none, "type Query \x7b f: Int \x7d extend type Query \x7b g: ID \x7d"),
   (some ⟨"a.graphql"⟩, "scalar S"),
   (none, "schema \x7b query: Query \x7d directive @d on FIELD")]

theorem loadAll_unnamed_mixed : ∃ draft, Draft.empty.loadAll mixedTexts = .ok draft ∧
    (∃ items, readSchemaDocument "schema \x7b query: Query \x7d directive @d on FIELD" = some items ∧
      ∀ item ∈ items, draft.Records
        (.ofText ⟨"str://1"⟩ "schema \x7b query: Query \x7d directive @d on FIELD") item) ∧
    ∀ content, draft.load none content
      = { draft with unnamed := draft.unnamed + 1 }.loadText ⟨"str://2"⟩ content := by
  obtain ⟨draft, h⟩ := exists_ok (x := Draft.empty.loadAll mixedTexts) (by decide +kernel)
  obtain ⟨hrecords, hnext, -⟩ := loadAll_unnamed h
  exact ⟨draft, h, hrecords (mixedTexts.take 2) _ [] rfl, hnext⟩

/-! ### The names begin anew

That the counter wraps around has to be shown on a real run, which takes as many sources as the
counter has values.  Sources that state nothing keep it small, and what the run comes to is told by
induction on their number.
-/

/-- A source that states nothing. -/
def blankText : SourceText := (none, "schema \x7b \x7d")

/-- A schema block that declares nothing. -/
def StatesNothing (stated : StatedItem) : Prop :=
  stated.isBlock = true ∧ ∀ operation ∈ OperationKind.all, stated.declared operation = []

instance (stated : StatedItem) : Decidable (StatesNothing stated) :=
  inferInstanceAs (Decidable (_ ∧ _))

/-- Whether an item states anything does not depend on its source. -/
theorem StatesNothing.of_source {source other : Source} {item : Item} (h : StatesNothing (source, item)) :
    StatesNothing (other, item) := by
  cases item with
  | schemaBlock block =>
    refine ⟨rfl, fun operation hoperation => ?_⟩
    have hnone := h.2 operation hoperation
    cases operation <;>
      simpa only [StatedItem.declared, SchemaBlock.declared, Option.toList_eq_nil_iff, Option.map_eq_none_iff]
        using hnone
  | _ => cases h.1

/-- Blocks that declare nothing leave a draft as it is. -/
theorem loaded_of_statesNothing {items : List StatedItem} (h : ∀ stated ∈ items, StatesNothing stated)
    (hdistinct : draft.DistinctRoots) : Loaded draft items draft := by
  have hnone : ∀ {α : Type} (f : StatedItem → Option α), (∀ source block, f (source, .schemaBlock block) = none) →
      items.filterMap f = [] := by
    intro α f hf
    refine List.filterMap_eq_nil_iff.mpr fun stated hstated => ?_
    obtain ⟨source, item⟩ := stated
    cases item with
    | schemaBlock block => exact hf source block
    | _ => cases (h _ hstated).1
  refine ⟨?_, ?_, fun operation => ?_, fun _ => hdistinct, ?_, rfl⟩
  · rw [hnone _ fun _ _ => rfl]
    exact addsTypes_nil_iff.mpr rfl
  · rw [hnone _ fun _ _ => rfl]
    exact addsDirectives_nil_iff.mpr rfl
  · have hroots : ∀ stated ∈ items, stated.declared operation = [] :=
      fun stated hstated => (h stated hstated).2 operation operation.mem_all
    rw [List.flatMap_eq_nil_iff.mpr hroots, List.append_nil]
  · rw [hnone _ fun _ _ => rfl, List.append_nil]

/-- All that a source does that states nothing is to be counted. -/
theorem load_blankText (n : UInt16) :
    { Draft.empty with unnamed := n }.load blankText.1 blankText.2
      = .ok { Draft.empty with unnamed := n + 1 } := by
  have hread : (readSchemaDocument blankText.2).any (fun items => items.all fun item =>
      decide (StatesNothing (.ofText ⟨""⟩ "", item))) = true := by decide +kernel
  obtain ⟨items, hitems, hall⟩ := (Option.any_eq_true _ _).mp hread
  refine load_eq_ok_iff.mpr ⟨items, hitems, loaded_of_statesNothing ?_ ?_⟩
  · refine List.forall_mem_map.mpr fun item hitem => ?_
    exact StatesNothing.of_source (of_decide_eq_true (List.all_eq_true.mp hall item hitem))
  · intro first second _ a ha
    cases first <;> cases ha

theorem loadAll_replicate_blankText (k : Nat) (n : UInt16) :
    { Draft.empty with unnamed := n }.loadAll (List.replicate k blankText)
      = .ok { Draft.empty with unnamed := n + UInt16.ofNat k } := by
  induction k generalizing n with
  | zero => exact congrArg (fun n => Except.ok { Draft.empty with unnamed := n }) (UInt16.add_zero n).symm
  | succ k ih =>
    rw [loadAll, List.replicate_succ, List.foldlM_cons, load_blankText]
    refine (ih (n + 1)).trans ?_
    rw [UInt16.ofNat_add, UInt16.add_assoc, UInt16.add_comm 1]
    rfl

/-- A source behind 65536 others without a path, which has the name of the first of them. -/
theorem not_forall_numbered : ¬∀ texts draft, Draft.empty.loadAll texts = .ok draft →
    ∀ before content after, texts = before ++ (none, content) :: after →
      ∃ items, readSchemaDocument content = some items ∧ ∀ item ∈ items,
        draft.Records (.ofText (numberedPath (countUnnamed before)) content) item := by
  intro hall
  let before := List.replicate 65536 blankText
  let content := "type Query \x7b f: Int \x7d"
  -- Behind the 65536 sources the draft is what it was in front of them.
  have hbefore : Draft.empty.loadAll before = .ok Draft.empty := loadAll_replicate_blankText 65536 0
  have hload : Draft.empty.loadAll (before ++ [(none, content)]) = Draft.empty.loadAll [(none, content)] := by
    unfold loadAll at hbefore ⊢
    rw [List.foldlM_append, hbefore]
    rfl
  obtain ⟨draft, h⟩ := exists_ok (x := Draft.empty.loadAll [(none, content)]) (by decide +kernel)
  obtain ⟨items, hread, hclaimed⟩ := hall _ draft (hload.trans h) before content [] rfl
  obtain ⟨others, hothers, hrecords⟩ := @records_of_loadAll draft [] [] (none, content) h
  obtain rfl : items = others := Option.some.inj (hread.symm.trans hothers)
  -- The text defines a type, which cannot stand in two files.
  have htype : (readSchemaDocument content).any (fun items => items.any fun item =>
      (StatedItem.definition? (.ofText ⟨""⟩ "", item)).isSome) = true := by decide +kernel
  rw [hread, Option.any_some] at htype
  obtain ⟨item, hitem, hdefinition⟩ := List.any_eq_true.mp htype
  cases item with
  | typeDefinition description type =>
    obtain ⟨t, hfound, hdefines⟩ := hclaimed _ hitem
    obtain ⟨t', hfound', hdefines'⟩ := hrecords _ hitem
    obtain rfl : t = t' := Option.some.inj (hfound.symm.trans hfound')
    have hfile : numberedPath (countUnnamed before) = numberedPath 0 :=
      (Location.source.inj (hdefines.location.symm.trans hdefines'.location)).1
    have hcount : countUnnamed before = 65536 := by
      rw [countUnnamed, List.countP_replicate]
      rfl
    rw [hcount, numberedPath_inj] at hfile
    cases hfile
  | _ => cases hdefinition

end Draft

end GraphSchema
