/-
What the exemption of mutually exclusive fields hides.

Two occurrences are exempt when their scopes tell that no object is subject to both.  In a
schema whose object types keep to their interfaces, every scope admits the objects of every
run that the field is run in, so no run comes to two fields that are exempt: in a document
that passes, whatever a run puts under one response name is the same field (`run_agrees`).
Schemas are built without a look at what interfaces declare, and in one whose object types
do not keep to them a run can come to a conflict (`exists_hidden_conflict`).

That a context fits is carried down the path of a run.  The step needs more than the scopes:
the next object comes from some field of the group that is run, and only because the group
does not conflict is that the same field as all the others that are run.
-/
import Mathlib.Data.List.Flatten
import GraphSchema.Proofs.Merge.Reporting
import GraphSchema.Proofs.Merge.Scopes
import GraphSchema.Proofs.Schema.Built

namespace GraphSchema.Merge

open Syntax

variable {schema : Schema} {document : QueryDocument} {operation : Operation}

/-! ### Occurrences and the fields they stand for

An occurrence carries scopes, and the use of a field in a run carries the conditions that it stands
under.  Both are expanded from the same selections, so they come up one by one.
-/

/-- The occurrence is one of the field. -/
structure Depicts (o : Occurrence) (u : FieldUse) : Prop where
  key : o.key = u.key
  name : o.name = u.name
  arguments : o.arguments = u.arguments
  selections : o.selections = u.selections

/-- The occurrence is one of the field, found in the context of its level. -/
structure Stands (schema : Schema) (document : QueryDocument) (context : Context)
    (outer : List (List String)) (conditions : List String) (o : Occurrence) (u : FieldUse) :
    Prop where
  depicts : Depicts o u
  leads : Leads document o.context.entered o.selections
  outer : u.outer = outer
  conditions : conditions ⊆ u.conditions
  fits : ∀ objects object, Fits schema objects object context →
    Meets schema object u.conditions → Fits schema objects object o.context

/-- What is found further inside is found further outside too. -/
theorem Stands.outward {context inner : Context} {outer : List (List String)}
    {conditions more : List String} {o : Occurrence} {u : FieldUse}
    (h : Stands schema document inner outer (conditions ++ more) o u)
    (hinner : ∀ objects object, Fits schema objects object context → Meets schema object more →
      Fits schema objects object inner) :
    Stands schema document context outer conditions o u where
  depicts := h.depicts
  leads := h.leads
  outer := h.outer
  conditions := fun _ hmem => h.conditions (List.mem_append_left _ hmem)
  fits := by
    intro objects object hfits hmeets
    have hmore : Meets schema object more :=
      fun condition hmem => hmeets condition (h.conditions (List.mem_append_right _ hmem))
    exact h.fits objects object (hinner objects object hfits hmore) hmeets

/-- In a document without cycles, selections unfold to the fields that they expand to. -/
theorem exists_unfolds (hacyclic : Acyclic document) {context : Context}
    {selections : List Selection} {found : List Occurrence}
    (h : Expands schema document context selections found)
    (hleads : Leads document context.entered selections) (outer : List (List String))
    (conditions : List String) :
    ∃ uses, Unfolds document outer conditions selections uses ∧
      List.Forall₂ (Stands schema document context outer conditions) found uses := by
  induction h generalizing conditions with
  | nil context => exact ⟨[], .nil conditions, .nil⟩
  | field position responseName name arguments inner hrest ih =>
    obtain ⟨others, hothers, hmatch⟩ := ih hleads.later conditions
    refine ⟨_, .field position responseName name arguments inner hothers, .cons ?_ hmatch⟩
    exact ⟨⟨rfl, rfl, rfl, rfl⟩, hleads.field, rfl, List.Subset.refl _, fun _ _ hfits _ => hfits⟩
  | @inline context condition inner rest found others hinner hrest ihInner ihRest =>
    have hleadsInner : Leads document (context.inline schema condition).entered inner := by
      rw [Context.entered_inline]
      exact hleads.inline
    obtain ⟨uses, huses, hmatch⟩ := ihInner hleadsInner (conditions ++ condition.toList)
    obtain ⟨others', hothers, hmatchRest⟩ := ihRest hleads.later conditions
    refine ⟨_, .inline huses hothers, List.rel_append (hmatch.imp fun o u hstands => ?_) hmatchRest⟩
    exact hstands.outward fun _ _ hfits hmeets => hfits.inline hmeets
  | enclosed hmem hrest ih => exact absurd hmem (hleads.not_mem hacyclic)
  | unknown hnone hrest ih =>
    obtain ⟨others, hothers, hmatch⟩ := ih hleads.later conditions
    exact ⟨others, .unknown hnone hothers, hmatch⟩
  | @spread context name fragment rest found others hnew hsome hinner hrest ihInner ihRest =>
    have hleadsInner : Leads document (context.enter schema fragment).entered
        fragment.selections := by
      rw [Context.entered_enter]
      exact hleads.enter hsome
    obtain ⟨uses, huses, hmatch⟩ := ihInner hleadsInner (conditions ++ [fragment.condition])
    obtain ⟨others', hothers, hmatchRest⟩ := ihRest hleads.later conditions
    refine ⟨_, .spread hsome huses hothers,
      List.rel_append (hmatch.imp fun o u hstands => ?_) hmatchRest⟩
    exact hstands.outward fun _ _ hfits hmeets => hfits.enter hmeets

/-- The same of the selections of several fields. -/
theorem exists_unfoldsEach (hacyclic : Acyclic document) {R : Occurrence → FieldUse → Prop}
    (hR : ∀ o u, R o u → Depicts o u ∧ Leads document o.context.entered o.selections)
    {members : List Occurrence} {uses : List FieldUse} (h : List.Forall₂ R members uses) :
    ∃ found, UnfoldsEach document uses found ∧
      List.Forall₂ (fun c w => ∃ o u, R o u ∧
          Stands schema document (o.innerContext schema) u.levels [] c w)
        (members.flatMap (Occurrence.children schema document)) found := by
  induction h with
  | nil => exact ⟨[], .nil, .nil⟩
  | @cons o u members uses hfirst hrest ih =>
    obtain ⟨hdepicts, hleads⟩ := hR o u hfirst
    obtain ⟨found, hfound, hmatch⟩ :=
      exists_unfolds hacyclic (expands_collect (o.innerContext schema) o.selections) hleads
        u.levels []
    rw [hdepicts.selections] at hfound
    obtain ⟨others, hothers, hmatchRest⟩ := ih
    refine ⟨found ++ others, .cons hfound hothers, ?_⟩
    rw [List.flatMap_cons]
    refine List.rel_append (hmatch.imp fun c w hstands => ?_) hmatchRest
    exact ⟨o, u, hfirst, hstands⟩

/-! ### Going down a run

The induction along a run.  What is carried is that every field that is run has an occurrence whose
context admits the object which the run stands on.
-/

/-- The occurrence is one of the field, and its context fits the run if the field is run. -/
structure Fitting (schema : Schema) (document : QueryDocument) (outer : List String)
    (object : String) (o : Occurrence) (u : FieldUse) : Prop where
  depicts : Depicts o u
  leads : Leads document o.context.entered o.selections
  fits : Applies schema outer object u → Fits schema outer object o.context

theorem forall₂_append_singleton {α β : Type} {R : α → β → Prop} {l : List α} {m : List β} {a : α}
    {b : β} (h : List.Forall₂ R (l ++ [a]) (m ++ [b])) : List.Forall₂ R l m ∧ R a b := by
  have hlength : l.length = m.length := by
    have hboth := h.length_eq
    simp only [List.length_append, List.length_singleton] at hboth
    omega
  have hinit := List.forall₂_take l.length h
  have hlast := List.forall₂_drop l.length h
  rw [List.take_left, hlength, List.take_left] at hinit
  rw [List.drop_left, hlength, List.drop_left] at hlast
  cases hlast with
  | cons hab _ => exact ⟨hinit, hab⟩

theorem exists_sublist_of_forall₂ {α β : Type} {R : α → β → Prop} {l : List α} {m part : List β}
    (h : List.Forall₂ R l m) (hsub : part.Sublist m) :
    ∃ r, r.Sublist l ∧ List.Forall₂ R r part := by
  induction hsub generalizing l with
  | slnil => exact ⟨[], List.nil_sublist l, .nil⟩
  | cons b _ ih =>
    cases h with
    | @cons a _ l _ _ hrest =>
      obtain ⟨r, hr, hmatch⟩ := ih hrest
      exact ⟨r, hr.cons a, hmatch⟩
  | cons_cons b _ ih =>
    cases h with
    | @cons a _ l _ hab hrest =>
      obtain ⟨r, hr, hmatch⟩ := ih hrest
      exact ⟨a :: r, hr.cons_cons a, .cons hab hmatch⟩

/-- Two members of a group that does not conflict are of one field, if they are not exempt. -/
theorem name_eq_of_not_conflicting {members : List Occurrence} (hfree : ¬ Conflicting members)
    {a b : Occurrence} (ha : a ∈ members) (hb : b ∈ members) (hab : a.exclusive b = false)
    (hba : b.exclusive a = false) : a.name = b.name := by
  have hpairs : members.Pairwise fun c d =>
      c.exclusive d = false → d.exclusive c = false → c.name = d.name := by
    rw [List.pairwise_iff_forall_sublist]
    intro c d hsub hcd _
    by_contra hne
    exact hfree ⟨c, d, hsub, hcd, Or.inl hne⟩
  have hflip := hpairs.imp fun {c d} hcd (hdc : d.exclusive c = false) hcd' => (hcd hcd' hdc).symm
  exact hpairs.forall_of_forall_of_flip (fun _ _ _ _ => rfl) hflip ha hb hab hba

/-- No group of the operation conflicts. -/
def NoneConflict (schema : Schema) (document : QueryDocument) (operation : Operation) : Prop :=
  ∀ path key, ¬ Conflicting
    (group (descend schema document (rootOccurrences schema document operation) path) key)

theorem conflicts_eq_nil_iff :
    conflicts schema document = []
      ↔ ∀ operation ∈ document.operations, NoneConflict schema document operation := by
  obtain ⟨-, -, hiff⟩ := conflicts_slots schema document
  simp only [hiff, conflictAt_iff, NoneConflict]

/-- Behind the path of a run, the occurrences are those of the fields there, and fit the run if
their fields are run. -/
theorem exists_fitting (hacyclic : Acyclic document) (hcovariant : Covariant schema)
    (hobject : ∀ object, schema.root operation.kind = some object →
      object ∈ schema.possibleTypes object)
    (hfree : NoneConflict schema document operation) {path outer : List String} {object : String}
    (h : Run schema document operation path outer object) :
    ∃ uses, UsesAt document operation path uses ∧
      List.Forall₂ (Fitting schema document outer object)
        (descend schema document (rootOccurrences schema document operation) path) uses := by
  induction h with
  | @root object hroot =>
    have hleads : Leads document (Context.ofOperation schema operation.kind).entered
        operation.selections := fun _ hname => absurd hname List.not_mem_nil
    obtain ⟨uses, huses, hmatch⟩ :=
      exists_unfolds hacyclic (expands_collect _ operation.selections) hleads [] []
    refine ⟨uses, .root huses, hmatch.imp fun o u hstands => ?_⟩
    refine ⟨hstands.depicts, hstands.leads, fun happlies => ?_⟩
    have hbase := fits_ofOperation hroot (hobject object hroot)
    exact hstands.fits [] object hbase happlies.here
  | @step path outer object type next uses u₀ houter huses hmem happlies htype hnext ih =>
    obtain ⟨uses', huses', hmatch⟩ := ih
    obtain rfl := usesAt_unique huses huses'
    -- The group of the field that leads on, as occurrences and as fields.
    have hgroup := List.rel_filter (p := fun o => o.key == u₀.key) (q := fun u => u.key == u₀.key)
      (fun o u hfitting => by simp only [hfitting.depicts.key]) hmatch
    obtain ⟨_, hsub, _ | ⟨hfitting₀, _ | _⟩⟩ := exists_sublist_of_forall₂ hgroup
      (List.singleton_sublist.mpr (List.mem_filter.mpr ⟨hmem, beq_self_eq_true u₀.key⟩))
    have ho₀ := List.singleton_sublist.mp hsub
    have hfits₀ := hfitting₀.fits happlies
    -- All of it that is run is of that field, and so leads on to the same object.
    have hinner := (List.forall₂_and_left _ _).mpr ⟨fun o ho => ho, hgroup⟩
    have hinner := hinner.imp (S := fun o u => Fitting schema document outer object o u ∧
        (Applies schema outer object u → Fits schema (outer ++ [object]) next (o.innerContext schema)))
      fun o u ⟨ho, hfitting⟩ => by
        refine ⟨hfitting, fun hruns => ?_⟩
        have hfits := hfitting.fits hruns
        have hname : o.name = u₀.name := by
          rw [← hfitting₀.depicts.name]
          exact name_eq_of_not_conflicting (hfree path u₀.key) ho ho₀
            (hfits.exclusive_eq_false hfits₀) (hfits₀.exclusive_eq_false hfits)
        exact hfits.inner hcovariant (hname ▸ htype) hnext
    obtain ⟨found, hfound, hchildren⟩ := exists_unfoldsEach hacyclic
      (fun o u h => ⟨h.1.depicts, h.1.leads⟩) hinner
    refine ⟨found, .step u₀.key huses hfound, ?_⟩
    rw [descend_append_singleton]
    refine hchildren.imp fun c w ⟨o, u, ⟨_, hinner⟩, hstands⟩ => ?_
    refine ⟨hstands.depicts, hstands.leads, fun hruns => ?_⟩
    have hlevels := hruns.outer
    rw [hstands.outer, FieldUse.levels] at hlevels
    obtain ⟨habove, hat⟩ := forall₂_append_singleton hlevels
    exact hstands.fits _ _ (hinner ⟨habove, hat⟩) hruns.here

/-! ### A field under an interface and on the object itself

The operation `twice` selects the field `f` under an interface and once more on the root
itself, and in each a field of its own under one response name.
-/

theorem acyclic_of_fragments_eq_nil (h : document.fragments = []) : Acyclic document := by
  have hnone : ∀ name other, ¬ Refers document name other := by
    intro name other ⟨fragment, hsome, _⟩
    simp [QueryDocument.fragment?, h] at hsome
  intro name hcycle
  obtain ⟨other, -, hlast⟩ := Relation.TransGen.tail'_iff.mp hcycle
  exact hnone other name hlast

/-- What holds at the root of an operation and is kept going down holds of all levels. -/
theorem noneConflict_of_levels {P : List Occurrence → Prop}
    (hroot : P (rootOccurrences schema document operation))
    (hbelow : ∀ occurrences key, P occurrences → P (below schema document occurrences key))
    (hfree : ∀ occurrences, P occurrences →
      occurrences.Pairwise fun a b => a.clashes b = false) :
    NoneConflict schema document operation := by
  have hlevels : ∀ path, P (descend schema document
      (rootOccurrences schema document operation) path) := by
    intro path
    induction path using List.reverseRecOn with
    | nil => exact hroot
    | append_singleton path key ih =>
      rw [descend_append_singleton]
      exact hbelow _ key ih
  intro path key hconflicting
  obtain ⟨a, b, hsub, hclash⟩ := hconflicting
  have hpair := (hfree _ (hlevels path)).forall_sublist (hsub.trans List.filter_sublist)
  rw [Occurrence.clashes_iff.mpr hclash] at hpair
  cases hpair

/-- One field of a field `f`. -/
def leaf (position : Position) (name : String) : List Selection :=
  [.field position (some "x") name [] []]

/-- The field `f` twice, the first time under an interface. -/
def twice (first second : String) : Operation where
  kind := .query
  selections :=
    [.inline (some "I") [.field ⟨1, 14⟩ none "f" [] (leaf ⟨1, 18⟩ first)],
      .field ⟨1, 27⟩ none "f" [] (leaf ⟨1, 31⟩ second)]

/-- The document of that operation. -/
def twiceDocument (first second : String) : QueryDocument := ⟨[.operation (twice first second)]⟩

/-- The field under the interface. -/
def underInterface (schema : Schema) (inner : List Selection) : Occurrence :=
  ⟨⟨1, 14⟩, "f", "f", [], inner, (Context.ofOperation schema .query).under schema "I"⟩

/-- The field on the object itself. -/
def onObject (schema : Schema) (inner : List Selection) : Occurrence :=
  ⟨⟨1, 27⟩, "f", "f", [], inner, Context.ofOperation schema .query⟩

/-- The field below another one. -/
def leafOf (schema : Schema) (o : Occurrence) (position : Position) (name : String) : Occurrence :=
  ⟨position, "x", name, [], [], o.innerContext schema⟩

theorem clashes_eq_false_of_same {a b : Occurrence} (hname : a.name = b.name)
    (ha : a.arguments = []) (hb : b.arguments = []) : a.clashes b = false := by
  have hsame : (a.argumentTable == b.argumentTable) = true := by
    unfold Occurrence.argumentTable
    rw [ha, hb]
    rfl
  simp [Occurrence.clashes, hname, hsame]

theorem clashes_eq_false_of_exclusive {a b : Occurrence} (h : a.exclusive b = true) :
    a.clashes b = false := by
  simp [Occurrence.clashes, h]

/-- Below two fields that return types without a common object, all are exempt. -/
theorem exclusive_leafOf {a b : Occurrence} {position position' : Position}
    {name name' : String} (types others : List String)
    (hlevel : a.context.outer.length = b.context.outer.length)
    (ha : returnScope schema (a.returnType schema) = some types)
    (hb : returnScope schema (b.returnType schema) = some others)
    (hdisjoint : Scope.disjoint (some types) (some others) = true) :
    (leafOf schema a position name).exclusive (leafOf schema b position' name') = true := by
  have hlength : a.context.scopes.length = b.context.scopes.length := by
    simp [Context.scopes, hlevel]
  show List.any (List.zip (a.context.scopes ++ [returnScope schema (a.returnType schema)])
    (b.context.scopes ++ [returnScope schema (b.returnType schema)])) _ = true
  rw [List.zip_append hlength, List.any_append, ha, hb]
  simp [hdisjoint]

/-- Nothing conflicts if the two inner fields do not. -/
theorem conflicts_twice {first second : String}
    (h : (leafOf schema (underInterface schema (leaf ⟨1, 18⟩ first)) ⟨1, 18⟩ first).clashes
      (leafOf schema (onObject schema (leaf ⟨1, 31⟩ second)) ⟨1, 31⟩ second) = false) :
    conflicts schema (twiceDocument first second) = [] := by
  let a := underInterface schema (leaf ⟨1, 18⟩ first)
  let b := onObject schema (leaf ⟨1, 31⟩ second)
  let c := leafOf schema a ⟨1, 18⟩ first
  let d := leafOf schema b ⟨1, 31⟩ second
  have hroot : rootOccurrences schema (twiceDocument first second) (twice first second) = [a, b] := by
    simp only [rootOccurrences, twice, collect_inline, collect_field, collect_nil,
      List.singleton_append]
    rfl
  have hchildren : [a, b].flatMap (Occurrence.children schema (twiceDocument first second))
      = [c, d] := by
    simp only [List.flatMap_cons, List.flatMap_nil, Occurrence.children, a, b, underInterface,
      onObject, leaf, collect_field, collect_nil]
    rfl
  have hleaves : [c, d].flatMap (Occurrence.children schema (twiceDocument first second)) = [] := by
    simp only [List.flatMap_cons, List.flatMap_nil, Occurrence.children, c, d, leafOf, collect_nil,
      List.append_nil]
  have hab : a.clashes b = false := clashes_eq_false_of_same rfl rfl rfl
  refine conflicts_eq_nil_iff.mpr fun operation hmem => ?_
  obtain rfl := List.mem_singleton.mp hmem
  refine noneConflict_of_levels (P := fun l => l.Sublist [a, b] ∨ l.Sublist [c, d]) ?_ ?_ ?_
  · exact Or.inl (hroot ▸ List.Sublist.refl _)
  · intro occurrences key hlevel
    refine Or.inr ?_
    rcases hlevel with hlevel | hlevel
    · rw [← hchildren]
      exact (List.filter_sublist.trans hlevel).flatMap _
    · have hgroup : (group occurrences key).Sublist [c, d] := List.filter_sublist.trans hlevel
      have hnone := hgroup.flatMap (Occurrence.children schema (twiceDocument first second))
      rw [hleaves] at hnone
      exact hnone.trans (List.nil_sublist _)
  · intro occurrences hlevel
    rcases hlevel with hlevel | hlevel
    · exact List.Pairwise.sublist hlevel (List.pairwise_pair.mpr hab)
    · exact List.Pairwise.sublist hlevel (List.pairwise_pair.mpr h)

/-- The field `f` under some conditions. -/
def outerUse (position : Position) (inner : List Selection) (conditions : List String) :
    FieldUse :=
  ⟨position, "f", "f", [], inner, [], conditions⟩

/-- The field below `f`. -/
def leafUse (position : Position) (name : String) (outer : List String) : FieldUse :=
  ⟨position, "x", name, [], [], [outer], []⟩

theorem unfoldsEach_leaf {u : FieldUse} {position : Position} {name : String}
    {rest others : List FieldUse} (h : u.selections = leaf position name)
    (hrest : UnfoldsEach document rest others) :
    UnfoldsEach document (u :: rest) (⟨position, "x", name, [], [], u.levels, []⟩ :: others) := by
  have hfirst : Unfolds document u.levels [] u.selections
      [⟨position, "x", name, [], [], u.levels, []⟩] := by
    rw [h]
    exact .field position (some "x") name [] [] (.nil [])
  exact .cons hfirst hrest

theorem usesAt_root_twice (first second : String) :
    UsesAt (twiceDocument first second) (twice first second) []
      [outerUse ⟨1, 14⟩ (leaf ⟨1, 18⟩ first) ["I"], outerUse ⟨1, 27⟩ (leaf ⟨1, 31⟩ second) []] :=
  .root (.inline (.field _ _ _ _ _ (.nil _)) (.field _ _ _ _ _ (.nil _)))

theorem usesAt_twice (first second : String) :
    UsesAt (twiceDocument first second) (twice first second) ["f"]
      [leafUse ⟨1, 18⟩ first ["I"], leafUse ⟨1, 31⟩ second []] := by
  refine .step "f" (usesAt_root_twice first second) ?_
  have hfields : ∀ u v : FieldUse, u.key = "f" → v.key = "f" → fieldsOf [u, v] "f" = [u, v] := by
    intro u v hu hv
    simp [fieldsOf, hu, hv]
  rw [hfields _ _ rfl rfl]
  exact unfoldsEach_leaf rfl (unfoldsEach_leaf rfl .nil)

theorem run_twice {first second type next : String}
    (htype : declaredType? schema schema.query "f" = some type)
    (hnext : next ∈ schema.possibleTypes type) :
    Run schema (twiceDocument first second) (twice first second) ["f"] [schema.query] next := by
  refine .step (.root rfl) (usesAt_root_twice first second)
    (List.mem_cons_of_mem _ List.mem_cons_self) ⟨.nil, ?_⟩ htype hnext
  intro condition hmem
  cases hmem

/-- A check of the schema that a text is built to. -/
def builds (text : String) (check : Schema → Bool) : Bool :=
  match Draft.empty.load none text >>= Draft.build with
  | .ok schema => check schema
  | .error _ => false

theorem exists_of_builds (text : String) (check : Schema → Bool) (h : builds text check = true) :
    ∃ draft schema, Draft.empty.load none text = .ok draft ∧ draft.build = .ok schema ∧
      check schema = true := by
  unfold builds at h
  split at h
  · next schema hbuilt =>
    obtain ⟨draft, hload, hbuild⟩ := bind_eq_ok.mp hbuilt
    exact ⟨draft, schema, hload, hbuild, h⟩
  · cases h

/-- The query root is an object type of the interface. -/
def rootImplements (schema : Schema) (interface : String) : Bool :=
  (schema.type? interface).any (fun t => t.kind == .interface) &&
    (schema.type? schema.query).any fun t =>
      t.kind == .object && t.interfaceNames.contains interface

theorem mem_of_rootImplements {interface : String} (h : rootImplements schema interface = true) :
    schema.query ∈ schema.possibleTypes interface := by
  simp only [rootImplements, Bool.and_eq_true, Option.any_eq_true, beq_iff_eq] at h
  obtain ⟨⟨type, htype, hkind⟩, object, hobject, hobjectKind, himplements⟩ := h
  exact Schema.mem_possibleTypes_of_interface htype hkind hobject hobjectKind
    (List.contains_iff_mem.mp himplements)

/-- The root keeps to its interface. -/
def agreeing : String :=
  "interface I \x7b f: I \x7d
type Query implements I \x7b f: Query \x7d"

/-- The root declares another type than its interface. -/
def disagreeing : String :=
  "interface I \x7b f: A \x7d
type A \x7b a: Int b: Int \x7d
type B \x7b a: Int b: Int \x7d
type Query implements I \x7b f: B \x7d"

/-- What is checked of the agreeing schema: there are no other interfaces and no other types
that implement one, and all fields are of the types above. -/
def isAgreeing (schema : Schema) : Bool :=
  rootImplements schema "I" && declaredType? schema schema.query "f" == some "Query" &&
    scopeOf schema "Query" == some ["Query"] && schema.query == "Query" &&
    (schema.types.toList.all fun t => t.kind != .interface ||
      (t.name == "I" && t.fields?.all fun fields =>
        fields.toList.all fun f => f.name == "f" && f.type.innermostName == "I")) &&
    schema.types.toList.all fun t => t.interfaceNames.isEmpty || t.name == "Query"

theorem covariant_of_isAgreeing (h : isAgreeing schema = true) : Covariant schema := by
  simp only [isAgreeing, Bool.and_eq_true, beq_iff_eq] at h
  obtain ⟨⟨⟨⟨⟨hroot, hfield⟩, hscope⟩, hquery⟩, hinterfaces⟩, hobjects⟩ := h
  intro interface type htype hkind object hobject field s t hs ht
  have hname : type.name = interface := Schema.name_of_type? htype
  have hinterface := List.all_eq_true.mp hinterfaces type (NameTable.mem_of_find?_eq_some htype)
  simp only [hkind, bne_self_eq_false, Bool.false_or, Bool.and_eq_true, beq_iff_eq,
    Option.all_eq_true] at hinterface
  obtain ⟨hI, hfields⟩ := hinterface
  obtain rfl : interface = "I" := hname.symm.trans hI
  obtain ⟨implementor, himplementor, -, himplements⟩ :=
    Schema.exists_of_mem_possibleTypes htype hkind hobject
  have hQuery := List.all_eq_true.mp hobjects implementor
    (NameTable.mem_of_find?_eq_some himplementor)
  simp only [List.isEmpty_eq_false_iff.mpr himplements, Bool.false_or, beq_iff_eq,
    Schema.name_of_type? himplementor] at hQuery
  obtain ⟨parent, hparent, hdeclared⟩ := Option.bind_eq_some_iff.mp hs
  obtain rfl := Option.some.inj (hparent.symm.trans htype)
  obtain ⟨fields, hfields', hdeclared⟩ := Option.bind_eq_some_iff.mp hdeclared
  obtain ⟨declared, hfind, heq⟩ := Option.bind_eq_some_iff.mp hdeclared
  have hall := List.all_eq_true.mp (hfields fields hfields') declared
    (NameTable.mem_of_find?_eq_some hfind)
  simp only [Bool.and_eq_true, beq_iff_eq] at hall
  obtain ⟨hf, hinner⟩ := hall
  have hnamed : declared.name = field := NameTable.name_of_find?_eq_some hfind
  obtain rfl : s = "I" := (Option.some.inj heq).symm.trans hinner
  rw [hQuery, ← hnamed, hf, ← hquery] at ht
  obtain rfl := Option.some.inj (ht.symm.trans hfield)
  rw [← eq_possibleTypes_of_scopeOf hscope]
  intro next hnext
  obtain rfl := List.mem_singleton.mp hnext
  exact hquery ▸ mem_of_rootImplements hroot

/-! ### Runs of documents that pass -/

/--
**In a document that passes, no run comes to fields that conflict.**

Let no conflict be found in a document without cycles, in a schema that has been built and
whose object types keep to their interfaces.  Then any two fields that stand behind the path
of a run under one response name, and are both run there, are the same field with the same
arguments: what is exempt from the check never applies to one object.
-/
theorem run_agrees {draft : Draft} (hbuilt : draft.build = .ok schema)
    (hcovariant : Covariant schema) (hacyclic : Acyclic document)
    (hnone : conflicts schema document = []) (hoperation : operation ∈ document.operations)
    {path outer : List String} {object : String}
    (hrun : Run schema document operation path outer object) (key : String) :
    ∃ uses, UsesAt document operation path uses ∧
      ∀ u v, [u, v].Sublist (fieldsOf uses key) → Applies schema outer object u →
        Applies schema outer object v → u.name = v.name ∧ u.SameArguments v := by
  have hobject : ∀ object, schema.root operation.kind = some object →
      object ∈ schema.possibleTypes object := by
    intro object hroot
    obtain ⟨type, htype, hkind⟩ := Schema.exists_object_of_root hbuilt hroot
    rw [Schema.possibleTypes_of_object htype hkind]
    exact List.mem_cons_self
  have hfree : NoneConflict schema document operation :=
    conflicts_eq_nil_iff.mp hnone operation hoperation
  obtain ⟨uses, huses, hmatch⟩ := exists_fitting hacyclic hcovariant hobject hfree hrun
  refine ⟨uses, huses, fun u v hsub hu hv => ?_⟩
  have hgroup := List.rel_filter (p := fun o => o.key == key) (q := fun u => u.key == key)
    (fun o u hfitting => by simp only [hfitting.depicts.key]) hmatch
  obtain ⟨_, hmembers, _ | ⟨ha, _ | ⟨hb, _ | _⟩⟩⟩ := exists_sublist_of_forall₂ hgroup hsub
  rename_i a b
  have hexclusive : a.exclusive b = false := (ha.fits hu).exclusive_eq_false (hb.fits hv)
  have hagree : ¬ a.Differ b := fun hdiffer => hfree path key ⟨a, b, hmembers, hexclusive, hdiffer⟩
  obtain ⟨hname, hsame⟩ := not_or.mp hagree
  rw [not_not] at hname hsame
  refine ⟨ha.depicts.name ▸ hb.depicts.name ▸ hname, fun name => ?_⟩
  have hsame := hsame name
  unfold Occurrence.argumentTable at hsame
  rw [ha.depicts.arguments, hb.depicts.arguments] at hsame
  exact hsame

/-- A document that passes in a schema whose root keeps to its interface. -/
theorem run_agrees_twice :
    ∃ draft schema, Draft.empty.load none agreeing = .ok draft ∧ draft.build = .ok schema ∧
      Covariant schema ∧ Acyclic (twiceDocument "__typename" "__typename") ∧
      conflicts schema (twiceDocument "__typename" "__typename") = [] ∧
      Run schema (twiceDocument "__typename" "__typename") (twice "__typename" "__typename")
        ["f"] [schema.query] "Query" ∧
      ∃ uses, UsesAt (twiceDocument "__typename" "__typename")
          (twice "__typename" "__typename") ["f"] uses ∧
        ∀ u v, [u, v].Sublist (fieldsOf uses "x") → Applies schema [schema.query] "Query" u →
          Applies schema [schema.query] "Query" v → u.name = v.name ∧ u.SameArguments v := by
  obtain ⟨draft, schema, hload, hbuilt, hcheck⟩ :=
    exists_of_builds agreeing isAgreeing (by decide +kernel)
  have hcovariant := covariant_of_isAgreeing hcheck
  have hacyclic : Acyclic (twiceDocument "__typename" "__typename") :=
    acyclic_of_fragments_eq_nil rfl
  have hnone : conflicts schema (twiceDocument "__typename" "__typename") = [] :=
    conflicts_twice (clashes_eq_false_of_same rfl rfl rfl)
  have hrun : Run schema (twiceDocument "__typename" "__typename")
      (twice "__typename" "__typename") ["f"] [schema.query] "Query" := by
    simp only [isAgreeing, Bool.and_eq_true, beq_iff_eq] at hcheck
    obtain ⟨⟨⟨⟨⟨-, hfield⟩, hscope⟩, -⟩, -⟩, -⟩ := hcheck
    refine run_twice hfield ?_
    rw [← eq_possibleTypes_of_scopeOf hscope]
    exact List.mem_cons_self
  exact ⟨draft, schema, hload, hbuilt, hcovariant, hacyclic, hnone, hrun,
    run_agrees hbuilt hcovariant hacyclic hnone List.mem_cons_self hrun "x"⟩

/--
**Where objects do not keep to their interfaces, a conflict can be hidden.**  The document
passes, since `f` returns objects of different types on the interface and on the root.  A run
asks the root for it in both cases, and comes to two fields of different names.
-/
theorem exists_hidden_conflict :
    ∃ draft schema, Draft.empty.load none disagreeing = .ok draft ∧ draft.build = .ok schema ∧
      Acyclic (twiceDocument "a" "b") ∧ conflicts schema (twiceDocument "a" "b") = [] ∧
      Run schema (twiceDocument "a" "b") (twice "a" "b") ["f"] [schema.query] "B" ∧
      ∃ u v, UsesAt (twiceDocument "a" "b") (twice "a" "b") ["f"] [u, v] ∧ u.key = v.key ∧
        Applies schema [schema.query] "B" u ∧ Applies schema [schema.query] "B" v ∧
        u.name ≠ v.name := by
  obtain ⟨draft, schema, hload, hbuilt, hcheck⟩ := exists_of_builds disagreeing
    (fun s => rootImplements s "I" && declaredType? s "I" "f" == some "A" &&
      declaredType? s s.query "f" == some "B" && scopeOf s "A" == some ["A"] &&
      scopeOf s "B" == some ["B"]) (by decide +kernel)
  simp only [Bool.and_eq_true, beq_iff_eq] at hcheck
  obtain ⟨⟨⟨⟨hroot, hinterface⟩, hobject⟩, hA⟩, hB⟩ := hcheck
  have hnone : conflicts schema (twiceDocument "a" "b") = [] := by
    refine conflicts_twice (clashes_eq_false_of_exclusive ?_)
    refine exclusive_leafOf ["A"] ["B"] rfl ?_ ?_ rfl
    · rw [returnType_eq]
      show returnScope schema (declaredType? schema "I" "f") = _
      rw [hinterface]
      simp [returnScope, hA]
    · rw [returnType_eq]
      show returnScope schema (declaredType? schema schema.query "f") = _
      rw [hobject]
      simp [returnScope, hB]
  have hrun : Run schema (twiceDocument "a" "b") (twice "a" "b") ["f"] [schema.query] "B" := by
    refine run_twice hobject ?_
    rw [← eq_possibleTypes_of_scopeOf hB]
    exact List.mem_cons_self
  have hmeets : Meets schema schema.query ["I"] := by
    intro condition hmem
    obtain rfl := List.mem_singleton.mp hmem
    exact mem_of_rootImplements hroot
  have hfree : ∀ object, Meets schema object [] := fun _ _ hmem => absurd hmem List.not_mem_nil
  exact ⟨draft, schema, hload, hbuilt, acyclic_of_fragments_eq_nil rfl, hnone, hrun, _, _,
    usesAt_twice "a" "b", rfl, ⟨.cons hmeets .nil, hfree _⟩, ⟨.cons (hfree _) .nil, hfree _⟩,
    by decide⟩

end GraphSchema.Merge
