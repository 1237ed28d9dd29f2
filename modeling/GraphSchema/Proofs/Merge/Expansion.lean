/-
What stands along the paths of a response.

`collect` is a function that recurses on a measure.  What it computes is said here as a
relation with one rule per selection, and the occurrences at a path of response names as
a second relation on top of it: a path leads from some occurrences to what the selections
of a group of them come to, all taken together.  Both relations are functions, and
`descend` is the second one.
-/
import Mathlib.Data.List.Induction
import GraphSchema.Merge.Conflict

namespace GraphSchema.Merge

open Syntax

variable {schema : Schema} {document : QueryDocument} {operation : Operation}

theorem mem_definitions_of_operation (h : operation ∈ document.operations) :
    .operation operation ∈ document.definitions := by
  obtain ⟨definition, hmem, heq⟩ := List.mem_filterMap.mp h
  cases definition with
  | operation _ => cases heq; exact hmem
  | fragment _ => cases heq

theorem mem_definitions_of_fragment {fragment : Fragment} (h : fragment ∈ document.fragments) :
    .fragment fragment ∈ document.definitions := by
  obtain ⟨definition, hmem, heq⟩ := List.mem_filterMap.mp h
  cases definition with
  | operation _ => cases heq
  | fragment _ => cases heq; exact hmem

/-- Fragments of one name on one type lead to the same context. -/
theorem Context.enter_congr {fragment fragment' : Fragment} (hname : fragment'.name = fragment.name)
    (hcondition : fragment'.condition = fragment.condition) (context : Context) :
    context.enter schema fragment' = context.enter schema fragment := by
  unfold enter
  rw [hname, hcondition]

/-- Occurrences of one field in one context lead to the same context. -/
theorem Occurrence.innerContext_congr {o o' : Occurrence} (hname : o'.name = o.name)
    (hcontext : o'.context = o.context) : o'.innerContext schema = o.innerContext schema := by
  unfold innerContext returnType
  rw [hname, hcontext]

/-! ### Expanding selections -/

/-- The occurrences that selections come to in a context.  A spread comes to nothing when its
fragment is one of those that enclose it or is unknown, and only then. -/
inductive Expands (schema : Schema) (document : QueryDocument) :
    Context → List Selection → List Occurrence → Prop
  | nil (context : Context) : Expands schema document context [] []
  | field {context : Context} {rest : List Selection} {others : List Occurrence}
      (position : Position) (responseName : Option String) (name : String)
      (arguments : List (String × Literal)) (inner : List Selection)
      (hrest : Expands schema document context rest others) :
      Expands schema document context
        (.field position responseName name arguments inner :: rest)
        (⟨position, responseName.getD name, name, arguments, inner, context⟩ :: others)
  | inline {context : Context} {condition : Option String} {inner rest : List Selection}
      {found others : List Occurrence}
      (hinner : Expands schema document (context.inline schema condition) inner found)
      (hrest : Expands schema document context rest others) :
      Expands schema document context (.inline condition inner :: rest) (found ++ others)
  | enclosed {context : Context} {name : String} {rest : List Selection}
      {others : List Occurrence} (hmem : name ∈ context.entered)
      (hrest : Expands schema document context rest others) :
      Expands schema document context (.spread name :: rest) others
  | unknown {context : Context} {name : String} {rest : List Selection}
      {others : List Occurrence} (hnone : document.fragment? name = none)
      (hrest : Expands schema document context rest others) :
      Expands schema document context (.spread name :: rest) others
  | spread {context : Context} {name : String} {fragment : Fragment} {rest : List Selection}
      {found others : List Occurrence} (hnew : name ∉ context.entered)
      (hsome : document.fragment? name = some fragment)
      (hinner : Expands schema document (context.enter schema fragment) fragment.selections found)
      (hrest : Expands schema document context rest others) :
      Expands schema document context (.spread name :: rest) (found ++ others)

/-! ### `collect`, one selection at a time -/

@[simp] theorem collect_nil (context : Context) : collect schema document context [] = [] := by
  rw [collect]

@[simp] theorem collect_field (context : Context) (position : Position)
    (responseName : Option String) (name : String) (arguments : List (String × Literal))
    (inner rest : List Selection) :
    collect schema document context (.field position responseName name arguments inner :: rest)
      = ⟨position, responseName.getD name, name, arguments, inner, context⟩
        :: collect schema document context rest := by
  rw [collect]

@[simp] theorem collect_inline (context : Context) (condition : Option String)
    (inner rest : List Selection) :
    collect schema document context (.inline condition inner :: rest)
      = collect schema document (context.inline schema condition) inner
        ++ collect schema document context rest := by
  rw [collect]

theorem collect_enclosed {context : Context} {name : String} (hmem : name ∈ context.entered)
    (rest : List Selection) :
    collect schema document context (.spread name :: rest)
      = collect schema document context rest := by
  rw [collect]
  simp [hmem]

theorem collect_unknown {context : Context} {name : String}
    (hnone : document.fragment? name = none) (rest : List Selection) :
    collect schema document context (.spread name :: rest)
      = collect schema document context rest := by
  rw [collect]
  split
  · rfl
  · split
    · rfl
    · next fragment hsome => rw [hnone] at hsome; cases hsome

theorem collect_spread {context : Context} {name : String} {fragment : Fragment}
    (hnew : name ∉ context.entered) (hsome : document.fragment? name = some fragment)
    (rest : List Selection) :
    collect schema document context (.spread name :: rest)
      = collect schema document (context.enter schema fragment) fragment.selections
        ++ collect schema document context rest := by
  rw [collect]
  split
  · next h => exact absurd (by simpa using h) hnew
  · split
    · next hnone => rw [hsome] at hnone; cases hnone
    · next found hfound =>
      rw [hsome] at hfound
      obtain rfl := Option.some.inj hfound
      rfl

theorem collect_cons (context : Context) (selection : Selection) (rest : List Selection) :
    collect schema document context (selection :: rest)
      = collect schema document context [selection] ++ collect schema document context rest := by
  cases selection with
  | field | inline => simp
  | spread name =>
    by_cases hmem : name ∈ context.entered
    · simp [collect_enclosed hmem]
    · cases hfound : document.fragment? name with
      | none => simp [collect_unknown hfound]
      | some fragment => simp [collect_spread hmem hfound]

theorem collect_append (context : Context) (selections more : List Selection) :
    collect schema document context (selections ++ more)
      = collect schema document context selections ++ collect schema document context more := by
  induction selections with
  | nil => simp
  | cons selection rest ih =>
    rw [List.cons_append, collect_cons, ih, collect_cons context selection rest, List.append_assoc]

/-- `collect` follows the rules. -/
theorem expands_collect (context : Context) (selections : List Selection) :
    Expands schema document context selections
      (collect schema document context selections) := by
  fun_induction collect schema document context selections with
  | case1 context => exact .nil context
  | case2 context position responseName name arguments inner rest ih =>
    exact .field position responseName name arguments inner ih
  | case3 context condition inner rest ihInner ihRest => exact .inline ihInner ihRest
  | case4 context name rest expanded ihExpanded ihRest =>
    simp only [expanded]
    split
    · next h => exact .enclosed (by simpa using h) ihRest
    · next hnew =>
      split
      · next hnone => exact .unknown hnone ihRest
      · next fragment hsome =>
        exact .spread (by simpa using hnew) hsome (ihExpanded hnew fragment hsome) ihRest

/-- The rules leave no choice. -/
theorem eq_collect_of_expands {context : Context} {selections : List Selection}
    {found : List Occurrence} (h : Expands schema document context selections found) :
    found = collect schema document context selections := by
  induction h with
  | nil context => rw [collect_nil]
  | field position responseName name arguments inner hrest ih => rw [collect_field, ih]
  | inline hinner hrest ihInner ihRest => rw [collect_inline, ihInner, ihRest]
  | enclosed hmem hrest ih => rw [collect_enclosed hmem, ih]
  | unknown hnone hrest ih => rw [collect_unknown hnone, ih]
  | spread hnew hsome hinner hrest ihInner ihRest =>
    rw [collect_spread hnew hsome, ihInner, ihRest]

theorem expands_iff {context : Context} {selections : List Selection}
    {found : List Occurrence} :
    Expands schema document context selections found
      ↔ found = collect schema document context selections :=
  ⟨eq_collect_of_expands, fun h => h ▸ expands_collect context selections⟩

/-! ### Going down a path

Groups are taken by response name, and the selections of a group are expanded together, each in its
own context.
-/

/-- What the own selections of some occurrences come to, one after the other. -/
inductive ExpandsEach (schema : Schema) (document : QueryDocument) :
    List Occurrence → List Occurrence → Prop
  | nil : ExpandsEach schema document [] []
  | cons {o : Occurrence} {rest found others : List Occurrence}
      (hfirst : Expands schema document (o.innerContext schema) o.selections found)
      (hrest : ExpandsEach schema document rest others) :
      ExpandsEach schema document (o :: rest) (found ++ others)

/-- The occurrences that stand behind a path of response names in an operation: its own
selections come to those behind the empty path, and the selections of the group of a
response name to those one step further. -/
inductive StandAt (schema : Schema) (document : QueryDocument) (operation : Operation) :
    List String → List Occurrence → Prop
  | root {found : List Occurrence}
      (h : Expands schema document (Context.ofOperation schema operation.kind)
        operation.selections found) :
      StandAt schema document operation [] found
  | step {path : List String} {occurrences found : List Occurrence} (key : String)
      (houter : StandAt schema document operation path occurrences)
      (h : ExpandsEach schema document (group occurrences key) found) :
      StandAt schema document operation (path ++ [key]) found

/-- The occurrences one response name further down. -/
def below (schema : Schema) (document : QueryDocument) (occurrences : List Occurrence)
    (key : String) : List Occurrence :=
  (group occurrences key).flatMap (Occurrence.children schema document)

/-- The occurrences behind a path that begins at the given ones. -/
def descend (schema : Schema) (document : QueryDocument) (occurrences : List Occurrence)
    (path : List String) : List Occurrence :=
  path.foldl (below schema document) occurrences

/-- The occurrences behind the empty path of an operation. -/
def rootOccurrences (schema : Schema) (document : QueryDocument) (operation : Operation) :
    List Occurrence :=
  collect schema document (Context.ofOperation schema operation.kind) operation.selections

@[simp] theorem descend_nil (occurrences : List Occurrence) :
    descend schema document occurrences [] = occurrences := rfl

@[simp] theorem descend_cons (occurrences : List Occurrence) (key : String)
    (path : List String) :
    descend schema document occurrences (key :: path)
      = descend schema document (below schema document occurrences key) path := rfl

theorem descend_append_singleton (occurrences : List Occurrence) (path : List String)
    (key : String) :
    descend schema document occurrences (path ++ [key])
      = below schema document (descend schema document occurrences path) key := by
  simp only [descend, List.foldl_append, List.foldl_cons, List.foldl_nil]

theorem expandsEach_iff {occurrences found : List Occurrence} :
    ExpandsEach schema document occurrences found
      ↔ found = occurrences.flatMap (Occurrence.children schema document) := by
  constructor
  · intro h
    induction h with
    | nil => rfl
    | cons hfirst hrest ih => rw [List.flatMap_cons, ih, expands_iff.mp hfirst]; rfl
  · rintro rfl
    induction occurrences with
    | nil => exact .nil
    | cons o rest ih => exact .cons (expands_collect _ _) ih

/-- Exactly the occurrences that `descend` arrives at stand behind a path. -/
theorem standAt_iff {path : List String} {found : List Occurrence} :
    StandAt schema document operation path found
      ↔ found = descend schema document (rootOccurrences schema document operation) path := by
  constructor
  · intro h
    induction h with
    | root h => exact expands_iff.mp h
    | step key houter h ih =>
      rw [descend_append_singleton, ← ih]
      exact expandsEach_iff.mp h
  · rintro rfl
    induction path using List.reverseRecOn with
    | nil => exact .root (expands_collect _ _)
    | append_singleton path key ih =>
      rw [descend_append_singleton]
      exact .step key ih (expandsEach_iff.mpr rfl)

end GraphSchema.Merge
