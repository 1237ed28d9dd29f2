/-
Fragments written out.

A document can do without fragments.  A spread of a known fragment says no more than an inline
fragment with the same condition and the same selections, a spread of an unknown one says
nothing, and an inline fragment without a condition says what it selects.  If no fragment leads
back to itself there is exactly one document that says all this in full, and the messages about
it are those about the document itself (`messages_writtenOut`).

The search does not write anything out: it enters fragments as it comes upon them, keeps those
that it has entered with every field, and skips a spread of one of them.  In the document that
is written out it has nothing to enter and nothing to skip.  The two searches run alike because
whatever is still spread below a field is reached from every fragment around it (`Leads`), so
that without cycles no spread is ever skipped.
-/
import GraphSchema.Proofs.Merge.Alike
import GraphSchema.Proofs.Merge.Responses

namespace GraphSchema.Merge

open Syntax

variable {schema : Schema} {document written : QueryDocument}

/-! ### Writing out -/

/-- The second selections are the first, with the fragments of the document written out. -/
inductive WrittenOut (document : QueryDocument) : List Selection → List Selection → Prop
  | nil : WrittenOut document [] []
  | field {inner inner' rest rest' : List Selection} (position : Position)
      (responseName : Option String) (name : String) (arguments : List (String × Literal))
      (hinner : WrittenOut document inner inner') (hrest : WrittenOut document rest rest') :
      WrittenOut document (.field position responseName name arguments inner :: rest)
        (.field position responseName name arguments inner' :: rest')
  | conditional {inner inner' rest rest' : List Selection} (condition : String)
      (hinner : WrittenOut document inner inner') (hrest : WrittenOut document rest rest') :
      WrittenOut document (.inline (some condition) inner :: rest)
        (.inline (some condition) inner' :: rest')
  | spliced {inner inner' rest rest' : List Selection}
      (hinner : WrittenOut document inner inner') (hrest : WrittenOut document rest rest') :
      WrittenOut document (.inline none inner :: rest) (inner' ++ rest')
  | unknown {name : String} {rest rest' : List Selection}
      (hnone : document.fragment? name = none) (hrest : WrittenOut document rest rest') :
      WrittenOut document (.spread name :: rest) rest'
  | spread {name : String} {fragment : Fragment} {inner' rest rest' : List Selection}
      (hsome : document.fragment? name = some fragment)
      (hinner : WrittenOut document fragment.selections inner')
      (hrest : WrittenOut document rest rest') :
      WrittenOut document (.spread name :: rest)
        (.inline (some fragment.condition) inner' :: rest')

/-- The same of a definition. -/
inductive DefinitionWrittenOut (document : QueryDocument) : Executable → Executable → Prop
  | operation (kind : OperationKind) {selections selections' : List Selection}
      (h : WrittenOut document selections selections') :
      DefinitionWrittenOut document (.operation ⟨kind, selections⟩) (.operation ⟨kind, selections'⟩)
  | fragment (name condition : String) {selections selections' : List Selection}
      (h : WrittenOut document selections selections') :
      DefinitionWrittenOut document (.fragment ⟨name, condition, selections⟩)
        (.fragment ⟨name, condition, selections'⟩)

/-- The second document is the first, with its fragments written out. -/
def DocumentWrittenOut (document written : QueryDocument) : Prop :=
  List.Forall₂ (DefinitionWrittenOut document) document.definitions written.definitions

/-! ### There is one way to write a document out

The relation is a function where it is defined, and in documents without cycles it is defined
everywhere.  The function that shows this recurses on the fragments that are left.
-/

theorem WrittenOut.unique {selections first second : List Selection}
    (h : WrittenOut document selections first) (h' : WrittenOut document selections second) :
    first = second := by
  induction h generalizing second with
  | nil => cases h'; rfl
  | field position responseName name arguments hinner hrest ihInner ihRest =>
    cases h' with
    | field _ _ _ _ hinner' hrest' => rw [ihInner hinner', ihRest hrest']
  | conditional condition hinner hrest ihInner ihRest =>
    cases h' with
    | conditional _ hinner' hrest' => rw [ihInner hinner', ihRest hrest']
  | spliced hinner hrest ihInner ihRest =>
    cases h' with
    | spliced hinner' hrest' => rw [ihInner hinner', ihRest hrest']
  | unknown hnone hrest ih =>
    cases h' with
    | unknown _ hrest' => exact ih hrest'
    | spread hsome _ _ => rw [hnone] at hsome; cases hsome
  | spread hsome hinner hrest ihInner ihRest =>
    cases h' with
    | unknown hnone _ => rw [hnone] at hsome; cases hsome
    | spread hsome' hinner' hrest' =>
      rw [hsome] at hsome'
      obtain rfl := Option.some.inj hsome'
      rw [ihInner hinner', ihRest hrest']

theorem DefinitionWrittenOut.unique {definition first second : Executable}
    (h : DefinitionWrittenOut document definition first)
    (h' : DefinitionWrittenOut document definition second) : first = second := by
  cases h with
  | operation kind h => cases h' with | operation _ h' => rw [h.unique h']
  | fragment name condition h => cases h' with | fragment _ _ h' => rw [h.unique h']

theorem sizeOf_fieldInner_lt (position : Position) (responseName : Option String) (name : String)
    (arguments : List (String × Literal)) (inner rest : List Selection) :
    sizeOf inner < sizeOf (Selection.field position responseName name arguments inner :: rest) := by
  simp only [List.cons.sizeOf_spec, Selection.field.sizeOf_spec]
  omega

/-- Selections with fragments written out, but for spreads of those that have been entered. -/
def writeOut (document : QueryDocument) (entered : List String) (selections : List Selection) :
    List Selection :=
  match selections with
  | [] => []
  | .field position responseName name arguments inner :: rest =>
    .field position responseName name arguments (writeOut document entered inner)
      :: writeOut document entered rest
  | .inline (some condition) inner :: rest =>
    .inline (some condition) (writeOut document entered inner) :: writeOut document entered rest
  | .inline none inner :: rest => writeOut document entered inner ++ writeOut document entered rest
  | .spread name :: rest =>
    let expanded :=
      if _hnew : entered.contains name then []
      else
        match _hfound : document.fragment? name with
        | none => []
        | some fragment =>
          [.inline (some fragment.condition)
            (writeOut document (fragment.name :: entered) fragment.selections)]
    expanded ++ writeOut document entered rest
termination_by (unentered document entered, sizeOf selections)
decreasing_by
  · exact Prod.Lex.right _ (sizeOf_fieldInner_lt _ _ _ _ _ _)
  · exact Prod.Lex.right _ (sizeOf_rest_lt _ _)
  · exact Prod.Lex.right _ (sizeOf_inner_lt _ _ _)
  · exact Prod.Lex.right _ (sizeOf_rest_lt _ _)
  · exact Prod.Lex.right _ (sizeOf_inner_lt _ _ _)
  · exact Prod.Lex.right _ (sizeOf_rest_lt _ _)
  · obtain ⟨rfl, hmem⟩ := name_of_fragment? _hfound
    exact Prod.Lex.left _ _ (unentered_cons_lt hmem (by simpa using _hnew))
  · exact Prod.Lex.right _ (sizeOf_rest_lt _ _)

/-- Without cycles no spread has been entered before, so that all is written out. -/
theorem writtenOut_writeOut (hacyclic : Acyclic document) {entered : List String}
    {selections : List Selection} (hleads : Leads document entered selections) :
    WrittenOut document selections (writeOut document entered selections) := by
  fun_induction writeOut document entered selections with
  | case1 => exact .nil
  | case2 entered position responseName name arguments inner rest ihInner ihRest =>
    exact .field _ _ _ _ (ihInner hleads.field) (ihRest hleads.later)
  | case3 entered condition inner rest ihInner ihRest =>
    exact .conditional _ (ihInner hleads.inline) (ihRest hleads.later)
  | case4 entered inner rest ihInner ihRest =>
    exact .spliced (ihInner hleads.inline) (ihRest hleads.later)
  | case5 entered name rest expanded ihExpanded ihRest =>
    simp only [expanded]
    split
    · next h => exact absurd (by simpa using h) (hleads.not_mem hacyclic)
    · next hnew =>
      split
      · next hnone => exact .unknown hnone (ihRest hleads.later)
      · next fragment hsome =>
        exact .spread hsome (ihExpanded hnew fragment hsome (hleads.enter hsome))
          (ihRest hleads.later)

theorem leads_nil (selections : List Selection) : Leads document [] selections :=
  fun _ hname => absurd hname List.not_mem_nil

/-- A document with its fragments written out. -/
def writeOutDocument (document : QueryDocument) : QueryDocument :=
  ⟨document.definitions.map fun
    | .operation operation => .operation ⟨operation.kind, writeOut document [] operation.selections⟩
    | .fragment fragment =>
      .fragment ⟨fragment.name, fragment.condition, writeOut document [] fragment.selections⟩⟩

/-- **A document without cycles is written out in exactly one way.** -/
theorem documentWrittenOut_iff (hacyclic : Acyclic document) :
    DocumentWrittenOut document written ↔ written = writeOutDocument document := by
  have hout : DocumentWrittenOut document (writeOutDocument document) := by
    refine List.forall₂_map_right_iff.mpr (List.forall₂_same.mpr fun definition _ => ?_)
    cases definition with
    | operation operation => exact .operation _ (writtenOut_writeOut hacyclic (leads_nil _))
    | fragment fragment => exact .fragment _ _ (writtenOut_writeOut hacyclic (leads_nil _))
  constructor
  · intro h
    have hsame := List.right_unique_forall₂' (fun _ _ _ h h' => h.unique h') h hout
    cases written
    exact congrArg QueryDocument.mk hsame
  · rintro rfl
    exact hout

/-! ### The searches run alike

Occurrences of both documents correspond one by one.  They differ in the fragments they have
entered, which no comparison looks at.
-/

/-- The two contexts differ at most in the fragments that have been entered. -/
structure Context.Agrees (context context' : Context) : Prop where
  parent : context'.parent = context.parent
  outer : context'.outer = context.outer
  scope : context'.scope = context.scope

theorem Context.Agrees.under {context context' : Context} (h : context.Agrees context')
    (schema : Schema) (condition : String) :
    (context.under schema condition).Agrees (context'.under schema condition) := by
  refine ⟨rfl, h.outer, ?_⟩
  unfold Context.under
  rw [h.scope]

/-- The second occurrence is the first in a document that is written out. -/
structure Restates (document : QueryDocument) (o o' : Occurrence) : Prop where
  position : o'.position = o.position
  key : o'.key = o.key
  name : o'.name = o.name
  arguments : o'.arguments = o.arguments
  context : o.context.Agrees o'.context
  selections : WrittenOut document o.selections o'.selections
  leads : Leads document o.context.entered o.selections

/-- Selections come to the same occurrences when they are written out. -/
theorem WrittenOut.forall₂_collect (hacyclic : Acyclic document) {selections selections' : List Selection}
    (h : WrittenOut document selections selections') {context context' : Context}
    (hagrees : context.Agrees context') (hleads : Leads document context.entered selections) :
    List.Forall₂ (Restates document) (collect schema document context selections)
      (collect schema written context' selections') := by
  induction h generalizing context context' with
  | nil => simp
  | field position responseName name arguments hinner hrest _ ihRest =>
    rw [collect_field, collect_field]
    exact .cons ⟨rfl, rfl, rfl, rfl, hagrees, hinner, hleads.field⟩ (ihRest hagrees hleads.later)
  | conditional condition _ _ ihInner ihRest =>
    rw [collect_inline, collect_inline]
    exact List.rel_append (ihInner (hagrees.under schema condition) hleads.inline)
      (ihRest hagrees hleads.later)
  | spliced _ _ ihInner ihRest =>
    rw [collect_inline, collect_append]
    exact List.rel_append (ihInner hagrees hleads.inline) (ihRest hagrees hleads.later)
  | unknown hnone _ ih =>
    rw [collect_unknown hnone]
    exact ih hagrees hleads.later
  | @spread name fragment _ _ _ hsome _ _ ihInner ihRest =>
    rw [collect_spread (hleads.not_mem hacyclic) hsome, collect_inline]
    refine List.rel_append (ihInner ?_ (hleads.enter hsome)) (ihRest hagrees hleads.later)
    have hunder := hagrees.under schema fragment.condition
    exact ⟨hunder.parent, hunder.outer, hunder.scope⟩

/-- The search cannot tell whether fragments have been written out. -/
theorem alike_writtenOut (hacyclic : Acyclic document) :
    Alike schema document written (Restates document) where
  alike o o' h := by
    refine ⟨h.position, h.key, h.name, h.arguments, ?_⟩
    unfold Context.scopes
    rw [h.context.outer, h.context.scope]
  children o o' h := by
    have hreturn : o'.returnType schema = o.returnType schema := by
      unfold Occurrence.returnType
      rw [h.name, h.context.parent]
    have hinner : (o.innerContext schema).Agrees (o'.innerContext schema) := by
      refine ⟨hreturn, ?_, ?_⟩
      · show o'.context.scopes = o.context.scopes
        unfold Context.scopes
        rw [h.context.outer, h.context.scope]
      · show returnScope schema (o'.returnType schema) = returnScope schema (o.returnType schema)
        rw [hreturn]
    exact h.selections.forall₂_collect hacyclic hinner h.leads

/--
**Fragments are transparent.**  If no fragment of a document leads back to itself, there is
exactly one document in which its fragments are written out, and in every schema the messages
about that one are the messages about the document.
-/
theorem messages_writtenOut (hacyclic : Acyclic document) :
    (∃! written, DocumentWrittenOut document written) ∧
      ∀ written, DocumentWrittenOut document written →
        ∀ schema, messages schema written = messages schema document := by
  refine ⟨⟨writeOutDocument document, (documentWrittenOut_iff hacyclic).mpr rfl,
    fun _ h => (documentWrittenOut_iff hacyclic).mp h⟩, fun written hwritten schema => ?_⟩
  have hoperations : List.Forall₂ (fun operation operation' : Operation =>
      operation'.kind = operation.kind ∧
        WrittenOut document operation.selections operation'.selections)
      document.operations written.operations := by
    refine List.rel_filterMap (fun definition definition' h => ?_) hwritten
    cases h with
    | operation kind h => exact .some ⟨rfl, h⟩
    | fragment _ _ _ => exact .none
  refine messages_eq_of_alike (alike_writtenOut hacyclic) (hoperations.imp ?_)
  rintro operation operation' ⟨hkind, h⟩
  unfold rootOccurrences
  rw [hkind]
  exact h.forall₂_collect hacyclic ⟨rfl, rfl, rfl⟩ (leads_nil _)

/-- Names that go down a rank along references do not come back to themselves. -/
theorem acyclic_of_rank (rank : String → Nat)
    (h : ∀ name other, Refers document name other → rank other < rank name) :
    Acyclic document := by
  have hdown : ∀ name other, Relation.TransGen (Refers document) name other →
      rank other < rank name := by
    intro name other hpath
    induction hpath with
    | single hlast => exact h _ _ hlast
    | tail _ hlast ih => exact Nat.lt_trans (h _ _ hlast) ih
  exact fun name hcycle => Nat.lt_irrefl _ (hdown name name hcycle)

/-- A fragment with a field in which another fragment is spread, and a spread of neither. -/
def nestedDocument : QueryDocument :=
  ⟨[.operation ⟨.query, [.spread "Outer", .inline none [.field ⟨1, 16⟩ (some "x") "a" [] []],
      .spread "Unknown"]⟩,
    .fragment ⟨"Outer", "Query", [.field ⟨2, 26⟩ none "f" [] [.spread "Inner"],
      .field ⟨2, 42⟩ (some "x") "b" [] []]⟩,
    .fragment ⟨"Inner", "T", [.field ⟨3, 22⟩ none "g" [] []]⟩]⟩

/-- The same without spreads. -/
def nestedWritten : QueryDocument :=
  ⟨[.operation ⟨.query, [.inline (some "Query") [
        .field ⟨2, 26⟩ none "f" [] [.inline (some "T") [.field ⟨3, 22⟩ none "g" [] []]],
        .field ⟨2, 42⟩ (some "x") "b" [] []], .field ⟨1, 16⟩ (some "x") "a" [] []]⟩,
    .fragment ⟨"Outer", "Query", [
      .field ⟨2, 26⟩ none "f" [] [.inline (some "T") [.field ⟨3, 22⟩ none "g" [] []]],
      .field ⟨2, 42⟩ (some "x") "b" [] []]⟩,
    .fragment ⟨"Inner", "T", [.field ⟨3, 22⟩ none "g" [] []]⟩]⟩

theorem acyclic_nestedDocument : Acyclic nestedDocument := by
  refine acyclic_of_rank (fun name => if name = "Outer" then 1 else 0) fun name other h => ?_
  obtain ⟨fragment, hsome, hspread⟩ := h
  obtain ⟨rfl, hmem⟩ := name_of_fragment? hsome
  have hfragments : nestedDocument.fragments = [
    ⟨"Outer", "Query", [.field ⟨2, 26⟩ none "f" [] [.spread "Inner"],
      .field ⟨2, 42⟩ (some "x") "b" [] []]⟩,
    ⟨"Inner", "T", [.field ⟨3, 22⟩ none "g" [] []]⟩] := rfl
  rw [hfragments] at hmem
  simp only [List.mem_cons, List.not_mem_nil, or_false] at hmem
  rcases hmem with rfl | rfl
  · obtain rfl : other = "Inner" := by simpa using hspread
    decide
  · simp at hspread

theorem writtenOut_nestedDocument : DocumentWrittenOut nestedDocument nestedWritten := by
  have hinner : WrittenOut nestedDocument [.field ⟨3, 22⟩ none "g" [] []]
      [.field ⟨3, 22⟩ none "g" [] []] := .field _ _ _ _ .nil .nil
  have houter : WrittenOut nestedDocument
      [.field ⟨2, 26⟩ none "f" [] [.spread "Inner"], .field ⟨2, 42⟩ (some "x") "b" [] []]
      [.field ⟨2, 26⟩ none "f" [] [.inline (some "T") [.field ⟨3, 22⟩ none "g" [] []]],
        .field ⟨2, 42⟩ (some "x") "b" [] []] :=
    .field _ _ _ _ (@WrittenOut.spread _ "Inner" ⟨"Inner", "T", _⟩ _ _ _ rfl hinner .nil)
      (.field _ _ _ _ .nil .nil)
  refine .cons (.operation _ ?_) (.cons (.fragment _ _ houter) (.cons (.fragment _ _ hinner) .nil))
  exact @WrittenOut.spread _ "Outer" ⟨"Outer", "Query", _⟩ _ _ _ rfl houter
    (.spliced (.field _ _ _ _ .nil .nil) (.unknown rfl .nil))

/-- The messages of the operation above, with and without its fragments. -/
theorem messages_nestedDocument : Acyclic nestedDocument ∧
    DocumentWrittenOut nestedDocument nestedWritten ∧
    ∀ schema, messages schema nestedWritten = messages schema nestedDocument :=
  ⟨acyclic_nestedDocument, writtenOut_nestedDocument,
    (messages_writtenOut acyclic_nestedDocument).2 _ writtenOut_nestedDocument⟩

end GraphSchema.Merge
