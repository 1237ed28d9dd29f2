/-
Documents in another order.

Selections, arguments and definitions can be written in any order, and what is reported of a
document is the same but for the order and for the fields that stand for a conflict: the same
depths and response names (`messages_reordered`).

The search does depend on the order.  Groups are formed and pairs are tried as fields come up, the
first pair that clashes speaks for its group, and of several conflicts at one depth and name the
first one found is kept.  But what stands behind a path of response names is the same up to order
(`Reordered.shuffled_collect`, from there one step down at a time), a group that conflicts does so
in any order, and which depths and names are reported is a matter of the groups that conflict.
-/
import GraphSchema.Merge.Message
import GraphSchema.Proofs.Merge.Arguments
import GraphSchema.Proofs.Related

namespace GraphSchema.Merge

open Syntax

variable {schema : Schema} {document document' : QueryDocument}

/-! ### Reordering -/

/-- The second selections are the first in another order, those inside of them and the arguments
that are passed likewise.  Where they are written is not said. -/
inductive Reordered : List Selection → List Selection → Prop
  | nil : Reordered [] []
  | field (position position' : Position) (responseName : Option String) (name : String)
      {arguments arguments' : List (String × Literal)} {inner inner' rest before after : List Selection}
      (harguments : arguments.Perm arguments') (hinner : Reordered inner inner')
      (hrest : Reordered rest (before ++ after)) :
      Reordered (.field position responseName name arguments inner :: rest)
        (before ++ .field position' responseName name arguments' inner' :: after)
  | inline (condition : Option String) {inner inner' rest before after : List Selection}
      (hinner : Reordered inner inner') (hrest : Reordered rest (before ++ after)) :
      Reordered (.inline condition inner :: rest) (before ++ .inline condition inner' :: after)
  | spread (name : String) {rest before after : List Selection} (hrest : Reordered rest (before ++ after)) :
      Reordered (.spread name :: rest) (before ++ .spread name :: after)

/-- What comes first stands somewhere in another order. -/
theorem exists_of_cons_perm {α : Type} {a : α} {as bs : List α} (h : (a :: as).Perm bs) :
    ∃ before after, bs = before ++ a :: after ∧ as.Perm (before ++ after) := by
  obtain ⟨before, after, rfl⟩ := List.append_of_mem (h.subset List.mem_cons_self)
  exact ⟨before, after, rfl, (List.perm_cons a).mp (h.trans List.perm_middle)⟩

/-- Every permutation is another order. -/
theorem Reordered.of_perm {selections selections' : List Selection} (h : selections.Perm selections') :
    Reordered selections selections' := by
  match selections with
  | [] =>
    rw [List.nil_perm.mp h]
    exact .nil
  | .field position responseName name arguments inner :: rest =>
    obtain ⟨before, after, rfl, hrest⟩ := exists_of_cons_perm h
    exact .field _ _ _ _ (.refl _) (of_perm (.refl inner)) (of_perm hrest)
  | .inline condition inner :: rest =>
    obtain ⟨before, after, rfl, hrest⟩ := exists_of_cons_perm h
    exact .inline _ (of_perm (.refl inner)) (of_perm hrest)
  | .spread name :: rest =>
    obtain ⟨before, after, rfl, hrest⟩ := exists_of_cons_perm h
    exact .spread _ (of_perm hrest)
termination_by sizeOf selections

/-- The same of a definition. -/
inductive DefinitionReordered : Executable → Executable → Prop
  | operation (kind : OperationKind) {selections selections' : List Selection}
      (h : Reordered selections selections') :
      DefinitionReordered (.operation ⟨kind, selections⟩) (.operation ⟨kind, selections'⟩)
  | fragment (name condition : String) {selections selections' : List Selection}
      (h : Reordered selections selections') :
      DefinitionReordered (.fragment ⟨name, condition, selections⟩) (.fragment ⟨name, condition, selections'⟩)

/-- The second document is the first in another order, its definitions among each other and what
they are made of. -/
def DocumentReordered (document document' : QueryDocument) : Prop :=
  Shuffled DefinitionReordered document.definitions document'.definitions

/-- The same of a fragment. -/
structure FragmentReordered (fragment fragment' : Fragment) : Prop where
  name : fragment'.name = fragment.name
  condition : fragment'.condition = fragment.condition
  selections : Reordered fragment.selections fragment'.selections

/-- The same of an operation. -/
structure OperationReordered (operation operation' : Operation) : Prop where
  kind : operation'.kind = operation.kind
  selections : Reordered operation.selections operation'.selections

namespace DocumentReordered

theorem shuffled_operations (h : DocumentReordered document document') :
    Shuffled OperationReordered document.operations document'.operations := by
  refine h.filterMap fun definition definition' hdefinition => ?_
  cases hdefinition with
  | operation kind h => exact .some ⟨rfl, h⟩
  | fragment _ _ _ => exact .none

theorem shuffled_fragments (h : DocumentReordered document document') :
    Shuffled FragmentReordered document.fragments document'.fragments := by
  refine h.filterMap fun definition definition' hdefinition => ?_
  cases hdefinition with
  | operation _ _ => exact .none
  | fragment name condition h => exact .some ⟨rfl, rfl, h⟩

end DocumentReordered

/-! ### Fragments by name

A spread finds the first fragment with its name.  If no name is given to two of them, the order of
definitions does not matter to that.
-/

theorem fragment?_eq_some_iff (h : (document.fragments.map Fragment.name).Nodup) {name : String}
    {fragment : Fragment} :
    document.fragment? name = some fragment ↔ fragment ∈ document.fragments ∧ fragment.name = name := by
  constructor
  · intro hsome
    exact (name_of_fragment? hsome).symm
  · rintro ⟨hmem, rfl⟩
    cases hfound : document.fragment? fragment.name with
    | none =>
      have hnone := List.find?_eq_none.mp hfound fragment (List.mem_reverse.mpr hmem)
      simp at hnone
    | some other =>
      obtain ⟨hname, hother⟩ := name_of_fragment? hfound
      rw [List.inj_on_of_nodup_map h hother hmem hname]

/-! ### Occurrences -/

/-- No field among the selections passes an argument twice, or an object with a key twice. -/
def DistinctIn (selections : List Selection) : Prop :=
  ∀ arguments ∈ argumentListsIn selections, Distinct arguments

/-- The second occurrence is the first with its arguments and its selections in another order. -/
structure Occurrence.Reordered (o o' : Occurrence) : Prop where
  key : o'.key = o.key
  name : o'.name = o.name
  context : o'.context = o.context
  arguments : o.arguments.Perm o'.arguments
  selections : Merge.Reordered o.selections o'.selections
  distinct : Distinct o.arguments
  distinctIn : DistinctIn o.selections

/-- What the search can rely on in both documents. -/
structure Comparable (document document' : QueryDocument) : Prop where
  names : (document.fragments.map Fragment.name).Nodup
  distinct : ∀ definition ∈ document.definitions, DistinctIn definition.selections
  reordered : DocumentReordered document document'

namespace Comparable

theorem distinctIn_fragment (h : Comparable document document') {fragment : Fragment}
    (hmem : fragment ∈ document.fragments) : DistinctIn fragment.selections :=
  h.distinct _ (mem_definitions_of_fragment hmem)

theorem distinctIn_operation (h : Comparable document document') {operation : Operation}
    (hmem : operation ∈ document.operations) : DistinctIn operation.selections :=
  h.distinct _ (mem_definitions_of_operation hmem)

theorem names' (h : Comparable document document') : (document'.fragments.map Fragment.name).Nodup :=
  (h.reordered.shuffled_fragments.map_perm fun _ _ hab => hab.name).nodup_iff.mp h.names

/-- With one fragment for each name, the order of definitions does not decide which is spread. -/
theorem exists_fragment? (h : Comparable document document') {name : String} {fragment : Fragment}
    (hsome : document.fragment? name = some fragment) :
    ∃ fragment', document'.fragment? name = some fragment' ∧ FragmentReordered fragment fragment' := by
  obtain ⟨hmem, hname⟩ := (fragment?_eq_some_iff h.names).mp hsome
  obtain ⟨fragment', hmem', hrelated⟩ := h.reordered.shuffled_fragments.exists_of_mem hmem
  exact ⟨fragment', (fragment?_eq_some_iff h.names').mpr ⟨hmem', hrelated.name.trans hname⟩, hrelated⟩

theorem fragment?_eq_none (h : Comparable document document') {name : String}
    (hnone : document.fragment? name = none) : document'.fragment? name = none := by
  refine Option.eq_none_iff_forall_ne_some.mpr fun fragment' hsome => ?_
  obtain ⟨hmem', hname⟩ := (fragment?_eq_some_iff h.names').mp hsome
  obtain ⟨fragment, hmem, hrelated⟩ := h.reordered.shuffled_fragments.exists_of_mem_right hmem'
  rw [(fragment?_eq_some_iff h.names).mpr ⟨hmem, hrelated.name.symm.trans hname⟩] at hnone
  cases hnone

end Comparable

/-- **Selections come to the same occurrences, in another order.** -/
theorem Expands.shuffled (hdocuments : Comparable document document') {context : Context}
    {selections selections' : List Selection} {found : List Occurrence}
    (h : Expands schema document context selections found) (hdistinct : DistinctIn selections)
    (hreordered : Reordered selections selections') :
    Shuffled Occurrence.Reordered found (collect schema document' context selections') := by
  -- along the expansion of the first selections: what the first of them comes to is put in where
  -- it stands among the second
  induction h generalizing selections' with
  | nil =>
    cases hreordered
    rw [collect_nil]
    exact .nil
  | field position responseName name arguments inner _ ihRest =>
    cases hreordered with
    | field _ position' _ _ harguments hinner hrest =>
      obtain ⟨hpassed, hbelow, hlater⟩ := forall_argumentListsIn_field.mp hdistinct
      have hothers := ihRest hlater hrest
      rw [collect_append] at hothers ⊢
      rw [collect_field]
      exact Shuffled.insert ⟨[_], .cons ⟨rfl, rfl, rfl, harguments, hinner, hpassed, hbelow⟩ .nil, .refl _⟩
        hothers
  | inline _ _ ihInner ihRest =>
    cases hreordered with
    | inline _ hinner hrest =>
      obtain ⟨hbelow, hlater⟩ := forall_argumentListsIn_inline.mp hdistinct
      have hothers := ihRest hlater hrest
      rw [collect_append] at hothers ⊢
      rw [collect_inline]
      exact (ihInner hbelow hinner).insert hothers
  | enclosed hmem _ ihRest =>
    cases hreordered with
    | spread _ hrest =>
      have hothers := ihRest (forall_argumentListsIn_spread.mp hdistinct) hrest
      rw [collect_append] at hothers ⊢
      rwa [collect_enclosed hmem]
  | unknown hnone _ ihRest =>
    cases hreordered with
    | spread _ hrest =>
      have hothers := ihRest (forall_argumentListsIn_spread.mp hdistinct) hrest
      rw [collect_append] at hothers ⊢
      rwa [collect_unknown (hdocuments.fragment?_eq_none hnone)]
  | @spread context name fragment _ _ _ hnew hsome _ _ ihInner ihRest =>
    cases hreordered with
    | spread _ hrest =>
      have hothers := ihRest (forall_argumentListsIn_spread.mp hdistinct) hrest
      obtain ⟨fragment', hsome', hfragment⟩ := hdocuments.exists_fragment? hsome
      have hinner := ihInner (hdocuments.distinctIn_fragment (name_of_fragment? hsome).2)
        hfragment.selections
      rw [collect_append] at hothers ⊢
      rw [collect_spread hnew hsome', Context.enter_congr hfragment.name hfragment.condition]
      exact hinner.insert hothers

/-! ### Groups

A group is picked by response name, so groups correspond as well.  Whether a group conflicts is
asked of its pairs, which have no order.
-/

namespace Occurrence.Reordered

variable {o o' : Occurrence}

theorem distinct' (h : o.Reordered o') : Distinct o'.arguments := h.distinct.of_perm h.arguments

/-- What a field selects is selected in another order. -/
theorem shuffled_children (hdocuments : Comparable document document') (h : o.Reordered o') :
    Shuffled Occurrence.Reordered (o.children schema document) (o'.children schema document') := by
  unfold children
  rw [innerContext_congr h.name h.context]
  exact (expands_collect _ _).shuffled hdocuments h.distinctIn h.selections

theorem clashes_iff {a a' b b' : Occurrence} (ha : a.Reordered a') (hb : b.Reordered b') :
    (a'.exclusive b' = false ∧ a'.Differ b') ↔ (a.exclusive b = false ∧ a.Differ b) := by
  have harguments : a'.SameArguments b' ↔ a.SameArguments b := by
    refine forall_congr' fun name => ?_
    rw [find?_argumentTable_of_perm ha.distinct ha.arguments,
      find?_argumentTable_of_perm hb.distinct hb.arguments]
  unfold exclusive Differ
  rw [ha.context, hb.context, ha.name, hb.name, harguments]

end Occurrence.Reordered

/-- A group conflicts if it does so in another order. -/
theorem conflicting_iff_of_shuffled {members members' : List Occurrence}
    (h : Shuffled Occurrence.Reordered members members') : Conflicting members ↔ Conflicting members' := by
  obtain ⟨middle, hrelated, hperm⟩ := h
  have hdistinct : ∀ o ∈ middle, Distinct o.arguments :=
    forall_of_forall₂ hrelated fun _ _ _ hab => hab.distinct'
  -- related pairs clash alike, and only then does the order come in, among the second members
  refine Iff.trans ⟨?_, ?_⟩ ⟨Conflicting.of_perm hdistinct hperm,
    Conflicting.of_perm (fun o ho => hdistinct o (hperm.mem_iff.mpr ho)) hperm.symm⟩
  · rintro ⟨a, b, hsub, hclash⟩
    obtain ⟨a', b', hsub', ha, hb⟩ := exists_related_pair hrelated hsub
    exact ⟨a', b', hsub', (ha.clashes_iff hb).mpr hclash⟩
  · rintro ⟨a', b', hsub, hclash⟩
    obtain ⟨a, b, hsub', ha, hb⟩ := exists_related_pair hrelated.flip hsub
    exact ⟨a, b, hsub', (Occurrence.Reordered.clashes_iff ha hb).mp hclash⟩

variable {occurrences occurrences' : List Occurrence}

theorem shuffled_group (h : Shuffled Occurrence.Reordered occurrences occurrences') (key : String) :
    Shuffled Occurrence.Reordered (group occurrences key) (group occurrences' key) :=
  h.filter fun _ _ hab => by rw [hab.key]

/-- One response name further down, the same stands there in another order. -/
theorem shuffled_below (hdocuments : Comparable document document')
    (h : Shuffled Occurrence.Reordered occurrences occurrences') (key : String) :
    Shuffled Occurrence.Reordered (below schema document occurrences key)
      (below schema document' occurrences' key) :=
  (shuffled_group h key).flatMap fun _ _ hab => hab.shuffled_children hdocuments

/-- So it does behind every path. -/
theorem shuffled_descend (hdocuments : Comparable document document')
    (h : Shuffled Occurrence.Reordered occurrences occurrences') (path : List String) :
    Shuffled Occurrence.Reordered (descend schema document occurrences path)
      (descend schema document' occurrences' path) := by
  induction path generalizing occurrences occurrences' with
  | nil => exact h
  | cons key path ih => exact ih (shuffled_below hdocuments h key)

/-- **The same groups conflict.** -/
theorem conflictAt_iff_of_reordered (hdocuments : Comparable document document')
    {operation operation' : Operation} (hmem : operation ∈ document.operations)
    (h : OperationReordered operation operation') (path : List String) (key : String) :
    ConflictAt schema document operation path key ↔ ConflictAt schema document' operation' path key := by
  have hroots : Shuffled Occurrence.Reordered (rootOccurrences schema document operation)
      (rootOccurrences schema document' operation') := by
    unfold rootOccurrences
    rw [h.kind]
    exact (expands_collect _ _).shuffled hdocuments (hdocuments.distinctIn_operation hmem) h.selections
  rw [conflictAt_iff, conflictAt_iff]
  exact conflicting_iff_of_shuffled (shuffled_group (shuffled_descend hdocuments hroots path) key)

/-! ### What is reported -/

theorem mem_slots_iff_of_reordered (hdocuments : Comparable document document')
    {operation operation' : Operation} (hmem : operation ∈ document.operations)
    (h : OperationReordered operation operation') (n : Nat) (key : String) :
    (n, key) ∈ (operationConflicts schema document operation).map Conflict.slot ↔
      (n, key) ∈ (operationConflicts schema document' operation').map Conflict.slot := by
  simp only [mem_slots_operationConflicts, conflictAt_iff_of_reordered hdocuments hmem h]

/-- The depths and response names of conflicts are those of the operations, each once. -/
theorem slots_perm_of_reordered (hdocuments : Comparable document document') (schema : Schema) :
    ((conflicts schema document).map Conflict.slot).Perm
      ((conflicts schema document').map Conflict.slot) := by
  rw [map_slot_conflicts, map_slot_conflicts]
  refine (List.perm_ext_iff_of_nodup (nodup_eraseDups _) (nodup_eraseDups _)).mpr fun (n, key) => ?_
  rw [List.mem_eraseDups, List.mem_eraseDups, List.mem_flatMap, List.mem_flatMap]
  have hoperations := hdocuments.reordered.shuffled_operations
  constructor
  · rintro ⟨operation, hmem, hslot⟩
    obtain ⟨operation', hmem', h⟩ := hoperations.exists_of_mem hmem
    exact ⟨operation', hmem', (mem_slots_iff_of_reordered hdocuments hmem h n key).mp hslot⟩
  · rintro ⟨operation', hmem', hslot⟩
    obtain ⟨operation, hmem, h⟩ := hoperations.exists_of_mem_right hmem'
    exact ⟨operation, hmem, (mem_slots_iff_of_reordered hdocuments hmem h n key).mpr hslot⟩

/-- The length of the path of a message, and the response name at its end. -/
def Message.slot (m : Message) : Nat × Option String := (m.path.length, m.path.getLast?)

/-- A message is about the depth and the response name of its conflict. -/
theorem map_slot_messages :
    (messages schema document).map Message.slot
      = ((conflicts schema document).map Conflict.slot).map fun (n, key) => (n + 1, some key) := by
  rw [messages, List.map_map, List.map_map]
  refine List.map_congr_left fun c _ => ?_
  simp [Message.slot, Conflict.toMessage, Conflict.path, Conflict.slot]

/--
**The order of a document does not matter.**  Let the fragments of a document have different names,
and let no field pass an argument twice (nor an object with a key twice, which no document that is
read does: `settled_of_readQueryDocument`).  Whatever the order of its selections, its arguments and its definitions, the messages
about the document are about the same lengths of paths with the same response names at their ends,
and so they are as many, and there are none or some.
-/
theorem messages_reordered (hfragments : (document.fragments.map Fragment.name).Nodup)
    (harguments : ∀ arguments ∈ document.argumentLists, (arguments.map Prod.fst).Nodup)
    (hkeyed : ∀ arguments ∈ document.argumentLists, ∀ a ∈ arguments, a.2.Keyed)
    (h : DocumentReordered document document') (schema : Schema) :
    ((messages schema document').map Message.slot).Perm ((messages schema document).map Message.slot) ∧
    (messages schema document').length = (messages schema document).length ∧
    (messages schema document' = [] ↔ messages schema document = []) := by
  have hdistinct : ∀ definition ∈ document.definitions, DistinctIn definition.selections := by
    intro definition hmem arguments hpassed
    have hlist : arguments ∈ document.argumentLists := List.mem_flatMap.mpr ⟨definition, hmem, hpassed⟩
    exact ⟨harguments arguments hlist, hkeyed arguments hlist⟩
  have hslots : ((messages schema document').map Message.slot).Perm
      ((messages schema document).map Message.slot) := by
    rw [map_slot_messages, map_slot_messages]
    exact ((slots_perm_of_reordered ⟨hfragments, hdistinct, h⟩ schema).map _).symm
  have hlength : (messages schema document').length = (messages schema document).length := by
    simpa only [List.length_map] using hslots.length_eq
  refine ⟨hslots, hlength, ?_⟩
  rw [← List.length_eq_zero_iff, hlength, List.length_eq_zero_iff]

/-- Two definitions, with a field that selects two and a field that passes two arguments. -/
def orderedDocument : QueryDocument :=
  ⟨[.operation ⟨.query, [.field ⟨1, 3⟩ none "t" [] [.field ⟨1, 7⟩ none "a" [] [], .field ⟨1, 9⟩ none "b" [] []],
      .spread "F"]⟩,
    .fragment ⟨"F", "Query", [.field ⟨2, 23⟩ (some "t") "u" [("p", .int 1), ("q", .int 2)] []]⟩]⟩

/-- The same the other way round throughout. -/
def reversedDocument : QueryDocument :=
  ⟨[.fragment ⟨"F", "Query", [.field ⟨1, 23⟩ (some "t") "u" [("q", .int 2), ("p", .int 1)] []]⟩,
    .operation ⟨.query, [.spread "F",
      .field ⟨2, 8⟩ none "t" [] [.field ⟨2, 12⟩ none "b" [] [], .field ⟨2, 14⟩ none "a" [] []]]⟩]⟩

theorem documentReordered_reversed : DocumentReordered orderedDocument reversedDocument := by
  have hinner : Reordered [.field ⟨1, 7⟩ none "a" [] [], .field ⟨1, 9⟩ none "b" [] []]
      [.field ⟨2, 12⟩ none "b" [] [], .field ⟨2, 14⟩ none "a" [] []] :=
    @Reordered.field _ _ none "a" _ _ _ _ _ [.field ⟨2, 12⟩ none "b" [] []] [] (.refl _) .nil
      (@Reordered.field _ _ none "b" _ _ _ _ _ [] [] (.refl _) .nil .nil)
  have hoperation := @Reordered.field ⟨1, 3⟩ ⟨2, 8⟩ none "t" _ _ _ _ _ [.spread "F"] [] (.refl []) hinner
    (.of_perm (.refl _))
  have hfragment := @Reordered.field ⟨2, 23⟩ ⟨1, 23⟩ (some "t") "u" _ _ _ _ _ [] []
    (.swap ("q", .int 2) ("p", .int 1) []) .nil .nil
  exact ⟨_, .cons (.operation .query hoperation) (.cons (.fragment "F" "Query" hfragment) .nil), .swap _ _ _⟩

/-- The messages of the two documents above. -/
theorem messages_reversedDocument : DocumentReordered orderedDocument reversedDocument ∧ ∀ schema,
    ((messages schema reversedDocument).map Message.slot).Perm
      ((messages schema orderedDocument).map Message.slot) := by
  have hlists : orderedDocument.argumentLists = [[], [], [], [("p", .int 1), ("q", .int 2)]] := rfl
  have hkeyed : ∀ arguments ∈ orderedDocument.argumentLists, ∀ a ∈ arguments, a.2.Keyed := by
    simp only [hlists, List.forall_mem_cons]
    exact ⟨nofun, nofun, nofun, ⟨.int 1, .int 2, nofun⟩, nofun⟩
  exact ⟨documentReordered_reversed, fun schema =>
    (messages_reordered (by decide) (by rw [hlists]; decide) hkeyed documentReordered_reversed schema).1⟩

end GraphSchema.Merge
