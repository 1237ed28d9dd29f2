/-
Selections that are repeated.

A selection set may say one thing twice.  A copy of a field joins the group of the field, and a copy
of an inline fragment or a spread has its fields join their groups, so that all groups below have
further members.  Nothing that is reported changes (`messages_repeated`).

The occurrences of the document with the copy are those of the document without it, and further ones
that are the same as others which have come up before (`Echoes`): so it is where selections are
expanded (`Expands.echoes`), and from there one step down at a time.  Such a further member clashes
with what the member before it clashes with, and with nothing else.  That calls for clashes without
a direction, since what stands between the two has been compared with the first of them only, and
for fields that do not clash with themselves.
-/
import GraphSchema.Proofs.Merge.Alike
import GraphSchema.Proofs.Merge.Arguments
import Mathlib.Logic.Relation

namespace GraphSchema.Merge

open Syntax
open Relation (ReflGen)

variable {schema : Schema} {document document' : QueryDocument}

/-! ### Repeating -/

/-- One of the selection sets ends in a copy of a selection that it holds. -/
inductive Repeated : List Selection → List Selection → Prop
  | here {selections : List Selection} {selection : Selection} (hmem : selection ∈ selections) :
      Repeated selections (selections ++ [selection])
  | field (position : Position) (responseName : Option String) (name : String)
      (arguments : List (String × Literal)) {inner inner' : List Selection} (h : Repeated inner inner')
      (rest : List Selection) :
      Repeated (.field position responseName name arguments inner :: rest)
        (.field position responseName name arguments inner' :: rest)
  | inline (condition : Option String) {inner inner' : List Selection} (h : Repeated inner inner')
      (rest : List Selection) : Repeated (.inline condition inner :: rest) (.inline condition inner' :: rest)
  | later (selection : Selection) {rest rest' : List Selection} (h : Repeated rest rest') :
      Repeated (selection :: rest) (selection :: rest')

/-- The same of a definition. -/
inductive DefinitionRepeated : Executable → Executable → Prop
  | operation (kind : OperationKind) {selections selections' : List Selection}
      (h : Repeated selections selections') :
      DefinitionRepeated (.operation ⟨kind, selections⟩) (.operation ⟨kind, selections'⟩)
  | fragment (name condition : String) {selections selections' : List Selection}
      (h : Repeated selections selections') :
      DefinitionRepeated (.fragment ⟨name, condition, selections⟩) (.fragment ⟨name, condition, selections'⟩)

/-- The documents are the same but for a copy in one of the selection sets. -/
inductive DocumentRepeated : QueryDocument → QueryDocument → Prop
  | of {definition definition' : Executable} (before after : List Executable)
      (h : DefinitionRepeated definition definition') :
      DocumentRepeated ⟨before ++ definition :: after⟩ ⟨before ++ definition' :: after⟩

/-- The operations are the same, or but for a copy. -/
structure OperationRepeated (operation operation' : Operation) : Prop where
  kind : operation'.kind = operation.kind
  selections : ReflGen Repeated operation.selections operation'.selections

/-- The fragments are the same, or but for a copy. -/
structure FragmentRepeated (fragment fragment' : Fragment) : Prop where
  name : fragment'.name = fragment.name
  condition : fragment'.condition = fragment.condition
  selections : ReflGen Repeated fragment.selections fragment'.selections

namespace DocumentRepeated

theorem forall₂ (h : DocumentRepeated document document') :
    List.Forall₂ (ReflGen DefinitionRepeated) document.definitions document'.definitions := by
  obtain ⟨before, after, h⟩ := h
  exact List.rel_append (List.forall₂_same.mpr fun _ _ => .refl)
    (.cons (.single h) (List.forall₂_same.mpr fun _ _ => .refl))

theorem forall₂_operations (h : DocumentRepeated document document') :
    List.Forall₂ OperationRepeated document.operations document'.operations := by
  refine List.rel_filterMap (fun definition definition' hdefinition => ?_) h.forall₂
  cases hdefinition with
  | refl =>
    cases definition with
    | operation _ => exact .some ⟨rfl, .refl⟩
    | fragment _ => exact .none
  | single hdefinition =>
    cases hdefinition with
    | operation _ h => exact .some ⟨rfl, .single h⟩
    | fragment _ _ _ => exact .none

theorem forall₂_fragments (h : DocumentRepeated document document') :
    List.Forall₂ FragmentRepeated document.fragments document'.fragments := by
  refine List.rel_filterMap (fun definition definition' hdefinition => ?_) h.forall₂
  cases hdefinition with
  | refl =>
    cases definition with
    | operation _ => exact .none
    | fragment _ => exact .some ⟨rfl, rfl, .refl⟩
  | single hdefinition =>
    cases hdefinition with
    | operation _ _ => exact .none
    | fragment _ _ h => exact .some ⟨rfl, rfl, .single h⟩

theorem rel_fragment? (h : DocumentRepeated document document') (name : String) :
    Option.Rel FragmentRepeated (document.fragment? name) (document'.fragment? name) :=
  rel_find?_of_forall₂ (List.rel_reverse h.forall₂_fragments) fun _ _ hab => by rw [hab.name]

theorem fragment?_eq_none (h : DocumentRepeated document document') {name : String}
    (hnone : document.fragment? name = none) : document'.fragment? name = none := by
  have hrel := hnone ▸ h.rel_fragment? name
  generalize document'.fragment? name = found at hrel
  cases hrel
  rfl

theorem exists_fragment? (h : DocumentRepeated document document') {name : String} {fragment : Fragment}
    (hsome : document.fragment? name = some fragment) :
    ∃ fragment', document'.fragment? name = some fragment' ∧ FragmentRepeated fragment fragment' := by
  have hrel := hsome ▸ h.rel_fragment? name
  generalize document'.fragment? name = found at hrel
  cases hrel with
  | some hrepeated => exact ⟨_, rfl, hrepeated⟩

end DocumentRepeated

/-! ### Occurrences

A copied spread is entered twice, once at each place.  What it comes to the second time has come up
before, so it counts as repeated throughout.
-/

/-- The second occurrence is the first, or is so but for a copy below it. -/
structure Occurrence.Repeats (o o' : Occurrence) : Prop where
  alike : o.Alike o'
  context : o'.context = o.context
  selections : ReflGen Repeated o.selections o'.selections
  settled : ∀ passed ∈ o.arguments, passed.2.Settled
  settledIn : SettledIn o.selections

/-- What the search can rely on in both documents. -/
structure Repeating (document document' : QueryDocument) : Prop where
  settled : ∀ definition ∈ document.definitions, SettledIn definition.selections
  repeated : DocumentRepeated document document'

/-- What a copy of a selection comes to has come up before. -/
theorem echoes_append_copy {context : Context} {found : List Occurrence} {selections : List Selection}
    {selection : Selection} (hmem : selection ∈ selections)
    (h : Echoes Occurrence.Repeats [] found (collect schema document' context selections)) :
    Echoes Occurrence.Repeats [] found (collect schema document' context (selections ++ [selection])) := by
  obtain ⟨before, after, rfl⟩ := List.append_of_mem hmem
  have hcopy : collect schema document' context [selection] ⊆
      collect schema document' context (before ++ selection :: after) := by
    rw [collect_append, collect_cons context selection after]
    exact fun o ho => List.mem_append_right _ (List.mem_append_left _ ho)
  rw [collect_append]
  have hagain : Echoes Occurrence.Repeats (found ++ []) [] (collect schema document' context [selection] ++ []) :=
    .againEach (fun o' ho' => h.exists_of_mem (hcopy ho')) .nil
  simpa using h.append hagain

/-- A spread has nothing below it in which there could be a copy. -/
theorem echoes_of_spread {context : Context} {found : List Occurrence} {name : String}
    {rest selections' : List Selection}
    (h : ∀ rest', ReflGen Repeated rest rest' → Echoes Occurrence.Repeats [] found
      (collect schema document' context (.spread name :: rest')))
    (hrepeated : ReflGen Repeated (.spread name :: rest) selections') :
    Echoes Occurrence.Repeats [] found (collect schema document' context selections') := by
  cases hrepeated with
  | refl => exact h _ .refl
  | single hrepeated =>
    cases hrepeated with
    | here hmem => exact echoes_append_copy hmem (h _ .refl)
    | later _ hrest => exact h _ (.single hrest)

/-- **Selections with a copy among them come to the same occurrences, but for repetitions.** -/
theorem Expands.echoes (hdocuments : Repeating document document') {context : Context}
    {selections selections' : List Selection} {found : List Occurrence}
    (h : Expands schema document context selections found) (hsettled : SettledIn selections)
    (hrepeated : ReflGen Repeated selections selections') :
    Echoes Occurrence.Repeats [] found (collect schema document' context selections') := by
  induction h generalizing selections' with
  | nil =>
    cases hrepeated with
    | refl => rw [collect_nil]; exact .nil
    | single h => cases h with | here hmem => cases hmem
  | @field context rest others position responseName name arguments inner _ ihRest =>
    obtain ⟨hpassed, hbelow, hlater⟩ := forall_argumentListsIn_field.mp hsettled
    have hcons : ∀ {inner' rest'}, ReflGen Repeated inner inner' → ReflGen Repeated rest rest' →
        Echoes Occurrence.Repeats [] (⟨position, responseName.getD name, name, arguments, inner, context⟩ :: others)
          (collect schema document' context (.field position responseName name arguments inner' :: rest')) := by
      intro inner' rest' hinner hrest
      rw [collect_field]
      exact .next ⟨⟨rfl, rfl, rfl, rfl, rfl⟩, rfl, hinner, hpassed, hbelow⟩
        ((ihRest hlater hrest).mono (List.nil_subset _))
    cases hrepeated with
    | refl => exact hcons .refl .refl
    | single h =>
      cases h with
      | here hmem => exact echoes_append_copy hmem (hcons .refl .refl)
      | field _ _ _ _ h _ => exact hcons (.single h) .refl
      | later _ h => exact hcons .refl (.single h)
  | @inline context condition inner rest found others _ _ ihInner ihRest =>
    obtain ⟨hbelow, hlater⟩ := forall_argumentListsIn_inline.mp hsettled
    have hcons : ∀ {inner' rest'}, ReflGen Repeated inner inner' → ReflGen Repeated rest rest' →
        Echoes Occurrence.Repeats [] (found ++ others)
          (collect schema document' context (.inline condition inner' :: rest')) := by
      intro inner' rest' hinner hrest
      rw [collect_inline]
      exact (ihInner hbelow hinner).append ((ihRest hlater hrest).mono (List.nil_subset _))
    cases hrepeated with
    | refl => exact hcons .refl .refl
    | single h =>
      cases h with
      | here hmem => exact echoes_append_copy hmem (hcons .refl .refl)
      | inline _ h _ => exact hcons (.single h) .refl
      | later _ h => exact hcons .refl (.single h)
  | enclosed hmem _ ihRest =>
    refine echoes_of_spread (fun rest' hrest => ?_) hrepeated
    rw [collect_enclosed hmem]
    exact ihRest (forall_argumentListsIn_spread.mp hsettled) hrest
  | unknown hnone _ ihRest =>
    refine echoes_of_spread (fun rest' hrest => ?_) hrepeated
    rw [collect_unknown (hdocuments.repeated.fragment?_eq_none hnone)]
    exact ihRest (forall_argumentListsIn_spread.mp hsettled) hrest
  | @spread context name fragment _ _ _ hnew hsome _ _ ihInner ihRest =>
    obtain ⟨fragment', hsome', hfragment⟩ := hdocuments.repeated.exists_fragment? hsome
    have hinner := ihInner (hdocuments.settled _ (mem_definitions_of_fragment (name_of_fragment? hsome).2))
      hfragment.selections
    refine echoes_of_spread (fun rest' hrest => ?_) hrepeated
    rw [collect_spread hnew hsome', Context.enter_congr hfragment.name hfragment.condition]
    have hothers := ihRest (forall_argumentListsIn_spread.mp hsettled) hrest
    exact hinner.append (hothers.mono (List.nil_subset _))

/-! ### Groups

The first clash of a group is not moved by a member that is a copy: what clashes with the copy
clashes with the original, which stands earlier.
-/

/-- What a field selects is selected with a copy. -/
theorem Occurrence.Repeats.echoes_children (hdocuments : Repeating document document') {o o' : Occurrence}
    (h : o.Repeats o') :
    Echoes Occurrence.Repeats [] (o.children schema document) (o'.children schema document') := by
  unfold children
  rw [innerContext_congr h.alike.name h.context]
  exact (expands_collect _ _).echoes hdocuments h.settledIn h.selections

/-- A pair that clashes is found in the same place, if what has come up does not clash. -/
theorem rel_firstClash?_of_echoes {seen members members' : List Occurrence}
    (h : Echoes Occurrence.Repeats seen members members')
    (hsettled : ∀ a ∈ seen, ∀ passed ∈ a.arguments, passed.2.Settled)
    (hseen : ∀ a ∈ seen, ∀ b ∈ members ++ seen, a.clashes b = false) :
    Option.Rel PairAlike (firstClash? members) (firstClash? members') := by
  induction h with
  | nil => exact .none
  | @next seen rest rest' a a' hab hrest ih =>
    -- The member in front clashes neither with itself nor with what came before it.
    have hbefore : ∀ b ∈ a :: seen, a.clashes b = false := by
      refine List.forall_mem_cons.mpr ⟨Occurrence.clashes_self fun passed hpassed =>
        (hab.settled passed hpassed).self, fun b hb => Bool.eq_false_iff.mpr fun hclash => ?_⟩
      have hback := Occurrence.clashes_symm (fun passed hpassed => (hab.settled passed hpassed).keyed)
        (fun passed hpassed => (hsettled b hb passed hpassed).keyed) hclash
      rw [hseen b hb a List.mem_cons_self] at hback
      cases hback
    have hfind : Option.Rel Occurrence.Alike (rest.find? a.clashes) (rest'.find? a'.clashes) :=
      (hrest.imp fun _ _ hb => hb.alike).rel_find? (fun _ _ hb => hab.alike.clashes_eq hb) hbefore
    refine rel_firstClash?_cons hab.alike hfind fun hnone => ih ?_ ?_
    · exact List.forall_mem_cons.mpr ⟨hab.settled, hsettled⟩
    · refine List.forall_mem_cons.mpr ⟨List.forall_mem_append.mpr ⟨fun b hb => ?_, hbefore⟩, fun b hb c hc => ?_⟩
      · exact Bool.eq_false_iff.mpr (List.find?_eq_none.mp hnone b hb)
      · exact hseen b hb c (List.perm_middle.subset hc)
  | @again seen rest rest' a a' hmem hab hrest ih =>
    -- The copy clashes with nothing behind it, since the member before it does not.
    have hfind : rest'.find? a'.clashes = none := by
      refine List.find?_eq_none.mpr fun b' hb' => Bool.eq_false_iff.mp ?_
      obtain ⟨b, hb, hbb⟩ := hrest.exists_of_mem hb'
      exact (hab.alike.clashes_eq hbb.alike).trans (hseen a hmem b hb)
    rw [firstClash?, hfind]
    exact ih hsettled hseen

/-- **A search takes the same steps with a copy.** -/
theorem inStep_of_echoes (hdocuments : Repeating document document') :
    InStep schema document document' (Echoes Occurrence.Repeats []) where
  keys occurrences occurrences' h := by
    have hnames := (h.map (f := Occurrence.key) (g := Occurrence.key) fun _ _ hab => hab.alike.key).eraseDups_eq
    simpa [keys] using hnames
  firstClash occurrences occurrences' key h :=
    rel_firstClash?_of_echoes (h.filter fun _ _ hab => by rw [hab.alike.key]) nofun nofun
  below occurrences occurrences' key h :=
    (h.filter fun _ _ hab => by rw [hab.alike.key]).flatMap fun _ _ hab => hab.echoes_children hdocuments

/-! ### Messages -/

/--
**Repetition is harmless.**  Let one of the selection sets of a document end in a copy of one of its
own selections, a field with all that it selects, an inline fragment or a spread.  Then the messages
about the document are the same as without the copy, provided that fields pass what can be told
apart, and so they do in every document that has been read.
-/
theorem messages_repeated :
    (∀ text document, readQueryDocument text = some document →
      ∀ arguments ∈ document.argumentLists, ∀ passed ∈ arguments, passed.2.Settled) ∧
    ∀ document document', (∀ arguments ∈ document.argumentLists, ∀ passed ∈ arguments, passed.2.Settled) →
      DocumentRepeated document document' →
      ∀ schema, messages schema document' = messages schema document := by
  refine ⟨fun _ _ => settled_of_readQueryDocument, fun document document' hsettled h schema => ?_⟩
  have hdocuments : Repeating document document' := by
    refine ⟨fun definition hmem arguments hpassed => ?_, h⟩
    exact hsettled arguments (List.mem_flatMap.mpr ⟨definition, hmem, hpassed⟩)
  have hoperations := (List.forall₂_and_left (p := (· ∈ document.operations)) _ _).mpr
    ⟨fun _ hmem => hmem, h.forall₂_operations⟩
  refine messages_eq_of_inStep (inStep_of_echoes hdocuments) (hoperations.imp ?_)
  rintro operation operation' ⟨hmem, hrepeated⟩
  unfold rootOccurrences
  rw [hrepeated.kind]
  exact (expands_collect _ _).echoes hdocuments
    (hdocuments.settled _ (mem_definitions_of_operation hmem)) hrepeated.selections

/-- A field with an argument, in an inline fragment. -/
def quarrellingFragment : Selection :=
  .inline (some "T") [.field ⟨1, 23⟩ (some "x") "g" [("p", .int 1)] []]

/-- A field of that name stands before the fragment and another one in a second selection of `t`. -/
def quarrellingDocument (more : List Selection) : QueryDocument :=
  ⟨[.operation ⟨.query,
      [.field ⟨1, 3⟩ none "t" [] ([.field ⟨1, 7⟩ (some "x") "f" [] [], quarrellingFragment] ++ more), .spread "F"]⟩,
    .fragment ⟨"F", "Query", [.field ⟨2, 23⟩ none "t" [] [.field ⟨2, 27⟩ (some "x") "f" [("p", .int 2)] []]]⟩]⟩

/-- The inline fragment is repeated, so that of four fields in a group two are the same. -/
theorem messages_repeated_fragment :
    DocumentRepeated (quarrellingDocument []) (quarrellingDocument [quarrellingFragment]) ∧
    ∀ schema, messages schema (quarrellingDocument [quarrellingFragment])
      = messages schema (quarrellingDocument []) := by
  have hlists : (quarrellingDocument []).argumentLists = [[], [], [("p", .int 1)], [], [("p", .int 2)]] := rfl
  have hsettled : ∀ arguments ∈ (quarrellingDocument []).argumentLists,
      ∀ passed ∈ arguments, passed.2.Settled := by
    simp only [hlists, List.forall_mem_cons]
    exact ⟨nofun, nofun, ⟨⟨.int 1, rfl⟩, nofun⟩, nofun, ⟨⟨.int 2, rfl⟩, nofun⟩, nofun⟩
  have hrepeated : DocumentRepeated (quarrellingDocument []) (quarrellingDocument [quarrellingFragment]) :=
    .of [] _ (.operation .query (.field _ _ _ _ (.here (List.mem_cons_of_mem _ List.mem_cons_self)) _))
  exact ⟨hrepeated, messages_repeated.2 _ _ hsettled hrepeated⟩

end GraphSchema.Merge
