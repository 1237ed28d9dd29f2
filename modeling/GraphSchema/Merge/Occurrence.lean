/-
Occurrences: the fields that a selection set comes to when its fragments are expanded.

An occurrence remembers under which type it was selected, which fragments were entered
on the way, and to which object types it is confined at each level of the response.  A
spread is followed unless its fragment is unknown or has been entered already, so that
the expansion comes to an end however fragments refer to each other.
-/
import GraphSchema.Schema.Basic
import GraphSchema.Syntax.Query

namespace GraphSchema.Merge

open Syntax

/-! ### Scopes -/

/-- The object types that a selection is confined to, if anything is known of them. -/
abbrev Scope := Option (List String)

/-- The possible types of a defined type. -/
def scopeOf (schema : Schema) (type : String) : Scope :=
  (schema.type? type).map fun _ => schema.possibleTypes type

/-- The scope of what is selected under a type condition.  An unknown condition confines
nothing. -/
def Scope.narrow (schema : Schema) (scope : Scope) (condition : String) : Scope :=
  match scopeOf schema condition, scope with
  | none, scope => scope
  | some types, none => some types
  | some types, some current => some (current.filter types.contains)

/-- The scope of the selections of a field, given the type that it returns: nothing is
known of them if that type has no possible types. -/
def returnScope (schema : Schema) (returnType : Option String) : Scope :=
  (returnType.bind (scopeOf schema)).filter fun types => !types.isEmpty

/-- Both scopes are known and have no object type in common. -/
def Scope.disjoint : Scope → Scope → Bool
  | some types, some others => types.all fun type => !others.contains type
  | _, _ => false

/-! ### Contexts -/

/-- Where a selection stands. -/
structure Context where
  /-- The type whose fields are selected, as far as it is known. -/
  parent : Option String
  /-- The fragments that have been entered. -/
  entered : List String
  /-- The scopes of the levels above, the operation's own first. -/
  outer : List Scope
  /-- The scope of this level. -/
  scope : Scope

namespace Context

/-- The scopes of all levels, the operation's own first. -/
def scopes (context : Context) : List Scope := context.outer ++ [context.scope]

/-- The context of what stands under a type condition. -/
def under (schema : Schema) (context : Context) (condition : String) : Context :=
  { context with parent := some condition, scope := context.scope.narrow schema condition }

/-- The context of an inline fragment's selections. -/
def inline (schema : Schema) (context : Context) : Option String → Context
  | some condition => context.under schema condition
  | none => context

/-- The context of a fragment's selections. -/
def enter (schema : Schema) (context : Context) (fragment : Fragment) : Context :=
  { context.under schema fragment.condition with entered := fragment.name :: context.entered }

/-- The context of an operation's selections. -/
def ofOperation (schema : Schema) (kind : OperationKind) : Context :=
  { parent := schema.root kind
    entered := []
    outer := []
    scope := (schema.root kind).bind (scopeOf schema) }

@[simp] theorem entered_under (schema : Schema) (context : Context) (condition : String) :
    (context.under schema condition).entered = context.entered := rfl

@[simp] theorem entered_inline (schema : Schema) (context : Context) (condition : Option String) :
    (context.inline schema condition).entered = context.entered := by
  cases condition <;> rfl

@[simp] theorem entered_enter (schema : Schema) (context : Context) (fragment : Fragment) :
    (context.enter schema fragment).entered = fragment.name :: context.entered := rfl

end Context

/-! ### Fragments left to enter -/

/-- How many fragments of a document have not been entered. -/
def unentered (document : QueryDocument) (entered : List String) : Nat :=
  (document.fragments.map Fragment.name).countP fun name => !entered.contains name

theorem name_of_fragment? {document : QueryDocument} {name : String} {fragment : Fragment}
    (h : document.fragment? name = some fragment) :
    fragment.name = name ∧ fragment ∈ document.fragments := by
  refine ⟨by simpa using List.find?_some h, ?_⟩
  simpa using List.mem_of_find?_eq_some h

/-- What is counted is fewer, if the predicate gets stricter and a member drops out. -/
theorem countP_lt_countP {α : Type} {p q : α → Bool} {l : List α} {a : α}
    (himp : ∀ b, p b = true → q b = true) (hmem : a ∈ l) (hp : p a = false) (hq : q a = true) :
    l.countP p < l.countP q := by
  induction l with
  | nil => simp at hmem
  | cons b rest ih =>
    have hle : rest.countP p ≤ rest.countP q := List.countP_mono_left fun c _ => himp c
    simp only [List.countP_cons]
    rcases List.mem_cons.mp hmem with rfl | hrest
    · simp only [hp, hq, Bool.false_eq_true, if_false, if_true]
      omega
    · have hlt := ih hrest
      by_cases hb : p b = true
      · simp only [hb, himp b hb, if_true]
        omega
      · simp only [hb, Bool.false_eq_true, if_false]
        omega

/-- Entering a fragment for the first time leaves fewer to enter. -/
theorem unentered_cons_lt {document : QueryDocument} {entered : List String}
    {fragment : Fragment} (hmem : fragment ∈ document.fragments)
    (hnew : entered.contains fragment.name = false) :
    unentered document (fragment.name :: entered) < unentered document entered := by
  refine countP_lt_countP (fun name hname => ?_) (List.mem_map_of_mem hmem) (by simp)
    (by simpa using hnew)
  simp only [List.contains_cons, Bool.not_or, Bool.and_eq_true] at hname
  exact hname.2

/-! ### Occurrences -/

/-- A field that is selected somewhere. -/
structure Occurrence where
  position : Position
  /-- The name that the value goes by in the response. -/
  key : String
  name : String
  arguments : List (String × Literal)
  selections : List Selection
  context : Context

theorem sizeOf_rest_lt (selection : Selection) (rest : List Selection) :
    sizeOf rest < sizeOf (selection :: rest) := by
  simp only [List.cons.sizeOf_spec]
  omega

theorem sizeOf_inner_lt (condition : Option String) (inner rest : List Selection) :
    sizeOf inner < sizeOf (Selection.inline condition inner :: rest) := by
  simp only [List.cons.sizeOf_spec, Selection.inline.sizeOf_spec]
  omega

/-- The occurrences that selections come to in a context. -/
def collect (schema : Schema) (document : QueryDocument) (context : Context)
    (selections : List Selection) : List Occurrence :=
  match selections with
  | [] => []
  | .field position responseName name arguments inner :: rest =>
    ⟨position, responseName.getD name, name, arguments, inner, context⟩
      :: collect schema document context rest
  | .inline condition inner :: rest =>
    collect schema document (context.inline schema condition) inner
      ++ collect schema document context rest
  | .spread name :: rest =>
    let expanded :=
      if _hnew : context.entered.contains name then []
      else
        match _hfound : document.fragment? name with
        | none => []
        | some fragment =>
          collect schema document (context.enter schema fragment) fragment.selections
    expanded ++ collect schema document context rest
termination_by (unentered document context.entered, sizeOf selections)
decreasing_by
  · exact Prod.Lex.right _ (sizeOf_rest_lt _ _)
  · rw [Context.entered_inline]
    exact Prod.Lex.right _ (sizeOf_inner_lt _ _ _)
  · exact Prod.Lex.right _ (sizeOf_rest_lt _ _)
  · obtain ⟨rfl, hmem⟩ := name_of_fragment? _hfound
    exact Prod.Lex.left _ _ (unentered_cons_lt hmem (by simpa using _hnew))
  · exact Prod.Lex.right _ (sizeOf_rest_lt _ _)

end GraphSchema.Merge
