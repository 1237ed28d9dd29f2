/-
What scopes mean.

Every level of a response has a type that it begins with, the root of the operation or what the
field above returns, and type conditions that are crossed on the way from there to a field.
`ReachedAt` follows the expansion of selections and writes down just that, without computing with
object types.  The scope of a level is what the types allow together: the object types that are
possible for all of them that confine anything, and unknown if none of them does (`scopes_mean`).

Scopes are narrowed at the end of a list and handed down to the next level as a whole, so what has
to be kept is that each level has one scope, its own.  That makes an occurrence a function of what
was written down (`Reached.occurrence`), and expanding selections is the same with either.
-/
import GraphSchema.Proofs.Merge.Arguments
import GraphSchema.Proofs.Merge.Scopes
import GraphSchema.Proofs.Schema.Texts

namespace GraphSchema.Merge

open Syntax

variable {schema : Schema} {document : QueryDocument} {operation : Operation}

/-! ### Levels -/

/-- What a level of a response begins with: the root type of the operation, or the type that the
field above returns, as far as they are known. -/
inductive Origin where
  | root (type : Option String)
  | field (type : Option String)

/-- A level of a response, as seen from a field. -/
structure Level where
  origin : Origin
  /-- The type conditions that are crossed at the level, the outermost first. -/
  conditions : List String

/-- The type that a level begins with confines it, if it is defined.  What a field returns does so
only if it has possible types. -/
def Origin.Confines (schema : Schema) : Origin → String → Prop
  | .root base, type => base = some type ∧ schema.type? type ≠ none
  | .field base, type => base = some type ∧ schema.type? type ≠ none ∧ schema.possibleTypes type ≠ []

/-- The types that confine a level: what it begins with, and the conditions that are defined. -/
def Level.Confines (schema : Schema) (level : Level) (type : String) : Prop :=
  level.origin.Confines schema type ∨ type ∈ level.conditions ∧ schema.type? type ≠ none

/-- The scope holds the object types that are possible for all of the types that confine it, and is
unknown if there are none. -/
structure Scope.IsMeet (schema : Schema) (confines : String → Prop) (scope : Scope) : Prop where
  unknown : scope = none ↔ ∀ type, ¬ confines type
  known : ∀ types, scope = some types → ∀ object,
    object ∈ types ↔ ∀ type, confines type → object ∈ schema.possibleTypes type

/-! ### Reaching fields

The expansion of selections once more, with levels in the place of scopes.  Nothing in it depends
on which types are possible for which.
-/

/-- Where selections stand, told by the types on the way. -/
structure Standpoint where
  /-- The type whose fields are selected, as far as it is known. -/
  parent : Option String
  /-- The fragments that have been entered. -/
  entered : List String
  /-- The levels above, the operation's own first. -/
  outer : List Level
  here : Level

namespace Standpoint

/-- At the selections of an operation. -/
def ofOperation (schema : Schema) (kind : OperationKind) : Standpoint where
  parent := schema.root kind
  entered := []
  outer := []
  here := ⟨.root (schema.root kind), []⟩

/-- Behind a type condition. -/
def cross (standpoint : Standpoint) (condition : String) : Standpoint :=
  { standpoint with
    parent := some condition
    here := ⟨standpoint.here.origin, standpoint.here.conditions ++ [condition]⟩ }

/-- Inside of an inline fragment. -/
def inline (standpoint : Standpoint) : Option String → Standpoint
  | some condition => standpoint.cross condition
  | none => standpoint

/-- Inside of a fragment. -/
def enter (standpoint : Standpoint) (fragment : Fragment) : Standpoint :=
  { standpoint.cross fragment.condition with entered := fragment.name :: standpoint.entered }

end Standpoint

/-- A field that is reached from somewhere. -/
structure Reached where
  position : Position
  /-- The name that the value goes by in the response. -/
  key : String
  name : String
  arguments : List (String × Literal)
  selections : List Selection
  standpoint : Standpoint

namespace Reached

/-- The levels on the way to the field, the operation's own first. -/
def levels (r : Reached) : List Level := r.standpoint.outer ++ [r.standpoint.here]

/-- What the field returns on the type that it is selected on. -/
def returnType (schema : Schema) (r : Reached) : Option String :=
  (metaFieldType? r.name).or (r.standpoint.parent.bind fun parent => declaredType? schema parent r.name)

/-- At the selections of the field. -/
def inner (schema : Schema) (r : Reached) : Standpoint where
  parent := r.returnType schema
  entered := r.standpoint.entered
  outer := r.levels
  here := ⟨.field (r.returnType schema), []⟩

end Reached

/-- The fields that selections come to.  A spread comes to nothing when its fragment is one of those
that enclose it or is unknown, and only then. -/
inductive Reaches (document : QueryDocument) : Standpoint → List Selection → List Reached → Prop
  | nil (standpoint : Standpoint) : Reaches document standpoint [] []
  | field {standpoint : Standpoint} {rest : List Selection} {others : List Reached}
      (position : Position) (responseName : Option String) (name : String)
      (arguments : List (String × Literal)) (inner : List Selection)
      (hrest : Reaches document standpoint rest others) :
      Reaches document standpoint (.field position responseName name arguments inner :: rest)
        (⟨position, responseName.getD name, name, arguments, inner, standpoint⟩ :: others)
  | inline {standpoint : Standpoint} {condition : Option String} {inner rest : List Selection}
      {found others : List Reached} (hinner : Reaches document (standpoint.inline condition) inner found)
      (hrest : Reaches document standpoint rest others) :
      Reaches document standpoint (.inline condition inner :: rest) (found ++ others)
  | enclosed {standpoint : Standpoint} {name : String} {rest : List Selection} {others : List Reached}
      (hmem : name ∈ standpoint.entered) (hrest : Reaches document standpoint rest others) :
      Reaches document standpoint (.spread name :: rest) others
  | unknown {standpoint : Standpoint} {name : String} {rest : List Selection} {others : List Reached}
      (hnone : document.fragment? name = none) (hrest : Reaches document standpoint rest others) :
      Reaches document standpoint (.spread name :: rest) others
  | spread {standpoint : Standpoint} {name : String} {fragment : Fragment} {rest : List Selection}
      {found others : List Reached} (hnew : name ∉ standpoint.entered)
      (hsome : document.fragment? name = some fragment)
      (hinner : Reaches document (standpoint.enter fragment) fragment.selections found)
      (hrest : Reaches document standpoint rest others) :
      Reaches document standpoint (.spread name :: rest) (found ++ others)

/-- What the own selections of some fields come to, one after the other. -/
inductive ReachesEach (schema : Schema) (document : QueryDocument) : List Reached → List Reached → Prop
  | nil : ReachesEach schema document [] []
  | cons {r : Reached} {rest found others : List Reached}
      (hfirst : Reaches document (r.inner schema) r.selections found)
      (hrest : ReachesEach schema document rest others) :
      ReachesEach schema document (r :: rest) (found ++ others)

/-- The fields that are reached behind a path of response names in an operation. -/
inductive ReachedAt (schema : Schema) (document : QueryDocument) (operation : Operation) :
    List String → List Reached → Prop
  | root {found : List Reached}
      (h : Reaches document (Standpoint.ofOperation schema operation.kind) operation.selections found) :
      ReachedAt schema document operation [] found
  | step {path : List String} {reached found : List Reached} (key : String)
      (houter : ReachedAt schema document operation path reached)
      (h : ReachesEach schema document (reached.filter fun r => r.key == key) found) :
      ReachedAt schema document operation (path ++ [key]) found

/-! ### Scopes of levels

The meaning of a scope, defined as a meet over what a level is confined by.  Narrowing a scope is
taking the meet with one more type.
-/

theorem scopeOf_eq_none_iff {type : String} : scopeOf schema type = none ↔ schema.type? type = none :=
  Option.map_eq_none_iff

theorem scopeOf_of_defined {type : String} (h : schema.type? type ≠ none) :
    scopeOf schema type = some (schema.possibleTypes type) := by
  obtain ⟨types, htypes⟩ := Option.ne_none_iff_exists'.mp (mt scopeOf_eq_none_iff.mp h)
  rw [htypes, eq_possibleTypes_of_scopeOf htypes]

namespace Scope

variable {confines : String → Prop}

theorem isMeet_none (h : ∀ type, ¬ confines type) : IsMeet schema confines none :=
  ⟨iff_of_true rfl h, nofun⟩

theorem IsMeet.congr {confines' : String → Prop} {scope : Scope} (h : IsMeet schema confines scope)
    (hiff : ∀ type, confines' type ↔ confines type) : IsMeet schema confines' scope := by
  obtain rfl : confines' = confines := funext fun type => propext (hiff type)
  exact h

/-- A type that is defined confines alone, another one not at all. -/
theorem isMeet_scopeOf (type : String) :
    IsMeet schema (fun other => other = type ∧ schema.type? other ≠ none) (scopeOf schema type) := by
  by_cases hdefined : schema.type? type = none
  · rw [scopeOf_eq_none_iff.mpr hdefined]
    refine isMeet_none ?_
    rintro _ ⟨rfl, hne⟩
    exact hne hdefined
  · rw [scopeOf_of_defined hdefined]
    refine ⟨iff_of_false nofun fun hnone => hnone type ⟨rfl, hdefined⟩, fun types heq object => ?_⟩
    obtain rfl := Option.some.inj heq
    refine ⟨?_, fun hall => hall type ⟨rfl, hdefined⟩⟩
    rintro hmem _ ⟨rfl, -⟩
    exact hmem

/-- A condition confines what it is crossed in, if it is defined. -/
theorem IsMeet.narrow {scope : Scope} (h : IsMeet schema confines scope) (condition : String) :
    IsMeet schema (fun type => confines type ∨ type = condition ∧ schema.type? type ≠ none)
      (scope.narrow schema condition) := by
  cases scope with
  | none =>
    have hscope : Scope.narrow schema none condition = scopeOf schema condition := by
      unfold Scope.narrow
      cases scopeOf schema condition <;> rfl
    rw [hscope]
    exact (isMeet_scopeOf condition).congr fun type => or_iff_right (h.unknown.mp rfl type)
  | some current =>
    by_cases hdefined : schema.type? condition = none
    · have hscope : Scope.narrow schema (some current) condition = some current := by
        unfold Scope.narrow
        rw [scopeOf_eq_none_iff.mpr hdefined]
      rw [hscope]
      refine h.congr fun type => or_iff_left ?_
      rintro ⟨rfl, hne⟩
      exact hne hdefined
    · have hscope : Scope.narrow schema (some current) condition
          = some (current.filter (schema.possibleTypes condition).contains) := by
        unfold Scope.narrow
        rw [scopeOf_of_defined hdefined]
      rw [hscope]
      refine ⟨iff_of_false nofun fun hnone => hnone condition (Or.inr ⟨rfl, hdefined⟩), fun types heq object => ?_⟩
      obtain rfl := Option.some.inj heq
      rw [List.mem_filter, h.known current rfl, List.contains_iff_mem]
      constructor
      · rintro ⟨hcurrent, hcondition⟩ type (hconfines | ⟨rfl, -⟩)
        · exact hcurrent type hconfines
        · exact hcondition
      · intro hall
        exact ⟨fun type hconfines => hall type (Or.inl hconfines), hall condition (Or.inr ⟨rfl, hdefined⟩)⟩

end Scope

/-- The scope that a level begins with. -/
def Origin.scope (schema : Schema) : Origin → Scope
  | .root base => base.bind (scopeOf schema)
  | .field base => returnScope schema base

/-- The scope of a level. -/
def Level.scope (schema : Schema) (level : Level) : Scope :=
  level.conditions.foldl (Scope.narrow schema) (level.origin.scope schema)

theorem Origin.isMeet_scope (origin : Origin) :
    Scope.IsMeet schema (origin.Confines schema) (origin.scope schema) := by
  match origin with
  | .root none | .field none => exact Scope.isMeet_none fun type h => nomatch h.1
  | .root (some base) =>
    refine (Scope.isMeet_scopeOf base).congr fun type => ?_
    rw [Confines, Option.some_inj, eq_comm]
  | .field (some base) =>
    by_cases hempty : schema.possibleTypes base = []
    · have hscope : scope schema (.field (some base)) = none := by
        refine Option.filter_eq_none_iff.mpr fun types htypes => ?_
        rw [eq_possibleTypes_of_scopeOf htypes, hempty]
        exact nofun
      rw [hscope]
      refine Scope.isMeet_none ?_
      rintro _ ⟨heq, -, hne⟩
      obtain rfl := Option.some.inj heq
      exact hne hempty
    · have hscope : scope schema (.field (some base)) = scopeOf schema base := by
        rw [scope, returnScope, Option.bind_some]
        cases hfound : scopeOf schema base with
        | none => rfl
        | some types =>
          rw [Option.filter_some, eq_possibleTypes_of_scopeOf hfound]
          exact if_pos (by simpa using hempty)
      rw [hscope]
      refine (Scope.isMeet_scopeOf base).congr fun type => ?_
      rw [Confines, Option.some_inj]
      constructor
      · rintro ⟨rfl, hdefined, -⟩
        exact ⟨rfl, hdefined⟩
      · rintro ⟨rfl, hdefined⟩
        exact ⟨rfl, hdefined, hempty⟩

theorem Level.isMeet_scope (level : Level) : Scope.IsMeet schema (level.Confines schema) (level.scope schema) := by
  obtain ⟨origin, conditions⟩ := level
  induction conditions using List.reverseRecOn with
  | nil => exact origin.isMeet_scope.congr fun type => or_iff_left fun h => nomatch h.1
  | append_singleton conditions condition ih =>
    have hscope : scope schema ⟨origin, conditions ++ [condition]⟩
        = (scope schema ⟨origin, conditions⟩).narrow schema condition := List.foldl_concat ..
    rw [hscope]
    refine (ih.narrow condition).congr fun type => ?_
    simp only [Confines, List.mem_append, List.mem_singleton, or_and_right, or_assoc]

/-! ### Occurrences of fields that are reached -/

/-- The context that a standpoint comes to. -/
def Standpoint.context (schema : Schema) (standpoint : Standpoint) : Context where
  parent := standpoint.parent
  entered := standpoint.entered
  outer := standpoint.outer.map (Level.scope schema)
  scope := standpoint.here.scope schema

/-- The occurrence of a field that is reached. -/
def Reached.occurrence (schema : Schema) (r : Reached) : Occurrence :=
  ⟨r.position, r.key, r.name, r.arguments, r.selections, r.standpoint.context schema⟩

namespace Standpoint

variable {standpoint : Standpoint}

theorem entered_inline (condition : Option String) :
    (standpoint.inline condition).entered = standpoint.entered := by
  cases condition <;> rfl

theorem context_cross (condition : String) :
    (standpoint.cross condition).context schema = (standpoint.context schema).under schema condition := by
  unfold context cross Context.under Level.scope
  rw [List.foldl_concat]

theorem context_inline (condition : Option String) :
    (standpoint.inline condition).context schema = (standpoint.context schema).inline schema condition := by
  cases condition with
  | none => rfl
  | some condition => exact context_cross condition

theorem context_enter (fragment : Fragment) :
    (standpoint.enter fragment).context schema = (standpoint.context schema).enter schema fragment := by
  unfold Context.enter
  rw [← context_cross]
  rfl

end Standpoint

namespace Reached

theorem scopes_occurrence (r : Reached) :
    (r.occurrence schema).context.scopes = r.levels.map (Level.scope schema) := by
  rw [levels, List.map_append]
  rfl

theorem context_inner (r : Reached) : (r.inner schema).context schema = (r.occurrence schema).innerContext schema := by
  have htype : (r.occurrence schema).returnType schema = r.returnType schema := returnType_eq _
  unfold Occurrence.innerContext
  rw [htype, scopes_occurrence]
  rfl

end Reached

/-- What is reached are the occurrences that are expanded. -/
theorem Reaches.expands {standpoint : Standpoint} {selections : List Selection} {found : List Reached}
    (h : Reaches document standpoint selections found) :
    Expands schema document (standpoint.context schema) selections (found.map (Reached.occurrence schema)) := by
  induction h with
  | nil standpoint => exact .nil _
  | field position responseName name arguments inner _ ih => exact .field position responseName name arguments inner ih
  | inline _ _ ihInner ihRest =>
    rw [Standpoint.context_inline] at ihInner
    rw [List.map_append]
    exact .inline ihInner ihRest
  | enclosed hmem _ ih => exact .enclosed hmem ih
  | unknown hnone _ ih => exact .unknown hnone ih
  | spread hnew hsome _ _ ihInner ihRest =>
    rw [Standpoint.context_enter] at ihInner
    rw [List.map_append]
    exact .spread hnew hsome ihInner ihRest

theorem ReachesEach.expandsEach {reached found : List Reached} (h : ReachesEach schema document reached found) :
    ExpandsEach schema document (reached.map (Reached.occurrence schema))
      (found.map (Reached.occurrence schema)) := by
  induction h with
  | nil => exact .nil
  | @cons r _ _ _ hfirst _ ih =>
    rw [List.map_append]
    exact .cons (r.context_inner ▸ hfirst.expands) ih

theorem ReachedAt.standAt {path : List String} {found : List Reached}
    (h : ReachedAt schema document operation path found) :
    StandAt schema document operation path (found.map (Reached.occurrence schema)) := by
  induction h with
  | root h => exact .root h.expands
  | step key _ h ih =>
    refine .step key ih ?_
    rw [group, List.filter_map]
    exact h.expandsEach

/-- Everything that is expanded is reached. -/
theorem Expands.exists_reaches {context : Context} {selections : List Selection} {occurrences : List Occurrence}
    (h : Expands schema document context selections occurrences) {standpoint : Standpoint}
    (hentered : standpoint.entered = context.entered) : ∃ found, Reaches document standpoint selections found := by
  induction h generalizing standpoint with
  | nil => exact ⟨[], .nil _⟩
  | field position responseName name arguments inner _ ih =>
    obtain ⟨others, hrest⟩ := ih hentered
    exact ⟨_, .field position responseName name arguments inner hrest⟩
  | @inline _ condition _ _ _ _ _ _ ihInner ihRest =>
    obtain ⟨others, hrest⟩ := ihRest hentered
    rw [← Context.entered_inline schema _ condition, ← Standpoint.entered_inline condition] at hentered
    obtain ⟨found, hinner⟩ := ihInner hentered
    exact ⟨_, .inline hinner hrest⟩
  | enclosed hmem _ ih =>
    obtain ⟨others, hrest⟩ := ih hentered
    exact ⟨_, .enclosed (hentered ▸ hmem) hrest⟩
  | unknown hnone _ ih =>
    obtain ⟨others, hrest⟩ := ih hentered
    exact ⟨_, .unknown hnone hrest⟩
  | @spread _ _ fragment _ _ _ hnew hsome _ _ ihInner ihRest =>
    obtain ⟨found, hinner⟩ := @ihInner (standpoint.enter fragment) (congrArg (fragment.name :: ·) hentered)
    obtain ⟨others, hrest⟩ := ihRest hentered
    exact ⟨_, .spread (hentered ▸ hnew) hsome hinner hrest⟩

theorem ExpandsEach.exists_reachesEach {reached : List Reached} {occurrences : List Occurrence}
    (h : ExpandsEach schema document (reached.map (Reached.occurrence schema)) occurrences) :
    ∃ found, ReachesEach schema document reached found := by
  induction reached generalizing occurrences with
  | nil => exact ⟨[], .nil⟩
  | cons r rest ih =>
    cases h with
    | cons hfirst hrest =>
      obtain ⟨found, hfound⟩ : ∃ found, Reaches document (r.inner schema) _ found := hfirst.exists_reaches rfl
      obtain ⟨others, hothers⟩ := ih hrest
      exact ⟨_, .cons hfound hothers⟩

theorem StandAt.exists_reachedAt {path : List String} {occurrences : List Occurrence}
    (h : StandAt schema document operation path occurrences) :
    ∃ found, ReachedAt schema document operation path found := by
  induction h with
  | root h =>
    obtain ⟨found, hfound⟩ : ∃ found, Reaches document (.ofOperation schema operation.kind) _ found :=
      h.exists_reaches rfl
    exact ⟨found, .root hfound⟩
  | step key houter h ih =>
    obtain ⟨reached, hreached⟩ := ih
    obtain rfl := (standAt_iff.mp houter).trans (standAt_iff.mp hreached.standAt).symm
    rw [group, List.filter_map] at h
    obtain ⟨found, hfound⟩ := h.exists_reachesEach
    exact ⟨found, .step key hreached hfound⟩

/-! ### Levels are handed down

A level is not changed by what is below it, so an occurrence has the scopes of all occurrences
above it at the front of its own.
-/

theorem Expands.outer_eq {context : Context} {selections : List Selection} {found : List Occurrence}
    (h : Expands schema document context selections found) : ∀ o ∈ found, o.context.outer = context.outer := by
  induction h with
  | nil => exact nofun
  | field _ _ _ _ _ _ ih => exact List.forall_mem_cons.mpr ⟨rfl, ih⟩
  | @inline _ condition _ _ _ _ _ _ ihInner ihRest =>
    refine List.forall_mem_append.mpr ⟨fun o ho => (ihInner o ho).trans ?_, ihRest⟩
    cases condition <;> rfl
  | enclosed _ _ ih => exact ih
  | unknown _ _ ih => exact ih
  | spread _ _ _ _ ihInner ihRest => exact List.forall_mem_append.mpr ⟨ihInner, ihRest⟩

/-- The levels above a field's selections are those of the field. -/
theorem outer_of_mem_children {o child : Occurrence} (h : child ∈ o.children schema document) :
    child.context.outer = o.context.scopes :=
  (expands_collect (o.innerContext schema) o.selections).outer_eq child h

/-- Behind a path there is a level for each name in it, and one before. -/
theorem StandAt.length_scopes {path : List String} {occurrences : List Occurrence}
    (h : StandAt schema document operation path occurrences) :
    ∀ o ∈ occurrences, o.context.scopes.length = path.length + 1 := by
  induction h with
  | root h =>
    intro o ho
    rw [Context.scopes, h.outer_eq o ho]
    rfl
  | step key _ h ih =>
    intro child hchild
    obtain rfl := expandsEach_iff.mp h
    obtain ⟨o, ho, hchild⟩ := List.mem_flatMap.mp hchild
    rw [Context.scopes, outer_of_mem_children hchild, List.length_append, List.length_append,
      ih o (List.mem_filter.mp ho).1]
    rfl

theorem scopes_prefix_of_mem_children {o child : Occurrence} (h : child ∈ o.children schema document) :
    o.context.scopes <+: child.context.scopes :=
  ⟨[child.context.scope], congrArg (· ++ [child.context.scope]) (outer_of_mem_children h).symm⟩

/-- Below a field all levels stay as they are. -/
theorem scopes_prefix_of_mem_descend {scopes : List Scope} {occurrences : List Occurrence} {path : List String}
    (h : ∀ o ∈ occurrences, scopes <+: o.context.scopes) :
    ∀ o ∈ descend schema document occurrences path, scopes <+: o.context.scopes := by
  induction path generalizing occurrences with
  | nil => exact h
  | cons key path ih =>
    refine ih fun child hchild => ?_
    obtain ⟨o, ho, hchild⟩ := List.mem_flatMap.mp hchild
    exact (h o (List.mem_filter.mp ho).1).trans (scopes_prefix_of_mem_children hchild)

/-! ### Mutually exclusive occurrences

Exclusion at some level stays, since the levels above are the same for everything below.
-/

theorem getElem?_of_prefix {α : Type} {l l' : List α} {i : Nat} {a : α} (h : l <+: l') (ha : l[i]? = some a) :
    l'[i]? = some a := by
  obtain ⟨hi, rfl⟩ := List.getElem?_eq_some_iff.mp ha
  exact List.prefix_iff_getElem?.mp h i hi

theorem Scope.disjoint_iff {scope other : Scope} :
    scope.disjoint other = true ↔ ∃ types others, scope = some types ∧ other = some others ∧
      ∀ object, ¬ (object ∈ types ∧ object ∈ others) := by
  cases scope with
  | none => exact iff_of_false nofun nofun
  | some types =>
    cases other with
    | none => exact iff_of_false nofun nofun
    | some others => simp [disjoint]

/-- At some level both scopes are known and have no object type in common. -/
theorem Occurrence.exclusive_iff {a b : Occurrence} :
    a.exclusive b = true ↔ ∃ (i : Nat) (types others : List String), a.context.scopes[i]? = some (some types) ∧
      b.context.scopes[i]? = some (some others) ∧ ∀ object, ¬ (object ∈ types ∧ object ∈ others) := by
  unfold exclusive
  rw [List.any_eq_true]
  constructor
  · rintro ⟨⟨scope, other⟩, hmem, hdisjoint⟩
    obtain ⟨i, hi⟩ := List.mem_iff_getElem?.mp hmem
    obtain ⟨hscope, hother⟩ := List.getElem?_zip_eq_some.mp hi
    obtain ⟨types, others, rfl, rfl, hnone⟩ := Scope.disjoint_iff.mp hdisjoint
    exact ⟨i, types, others, hscope, hother, hnone⟩
  · rintro ⟨i, types, others, hscope, hother, hnone⟩
    have hzip : (a.context.scopes.zip b.context.scopes)[i]? = some (some types, some others) :=
      List.getElem?_zip_eq_some.mpr ⟨hscope, hother⟩
    exact ⟨_, List.mem_of_getElem? hzip, Scope.disjoint_iff.mpr ⟨types, others, rfl, rfl, hnone⟩⟩

/-- What is mutually exclusive stays so further down. -/
theorem Occurrence.exclusive_of_prefix {a b c d : Occurrence} (h : a.exclusive b = true)
    (ha : a.context.scopes <+: c.context.scopes) (hb : b.context.scopes <+: d.context.scopes) :
    c.exclusive d = true := by
  obtain ⟨i, types, others, htypes, hothers, hnone⟩ := exclusive_iff.mp h
  exact exclusive_iff.mpr ⟨i, types, others, getElem?_of_prefix ha htypes, getElem?_of_prefix hb hothers, hnone⟩

/-! ### What scopes mean -/

/-- The occurrence is that of the field, and each of its scopes is what the types that confine the
level allow together. -/
structure Reached.Shows (schema : Schema) (r : Reached) (o : Occurrence) : Prop where
  position : o.position = r.position
  key : o.key = r.key
  name : o.name = r.name
  arguments : o.arguments = r.arguments
  selections : o.selections = r.selections
  parent : o.context.parent = r.standpoint.parent
  scopes : List.Forall₂ (fun level scope => Scope.IsMeet schema (level.Confines schema) scope) r.levels
    o.context.scopes

theorem Reached.shows_occurrence (r : Reached) : r.Shows schema (r.occurrence schema) := by
  refine ⟨rfl, rfl, rfl, rfl, rfl, rfl, ?_⟩
  rw [scopes_occurrence]
  exact List.forall₂_map_right_iff.mpr (List.forall₂_same.mpr fun level _ => level.isMeet_scope)

/--
**Scopes mean what they say.**

The occurrences behind a path are the fields that are reached there, in the same order.  Each has one
scope more than the path has names, and the scope of a level holds the object types that are possible
for the type that the level begins with and for all defined type conditions that are crossed at it; it
is unknown if there are neither.  A root is always defined and possible for itself alone in a schema
that has been built.

Two members of a group are mutually exclusive, whichever of them comes first, if at some level both
scopes are known and have no object type in common, and then all that stands below the one is
mutually exclusive with all that stands at the same path below the other.
-/
theorem scopes_mean {schema : Schema} {document : QueryDocument} {operation : Operation}
    {path : List String} {occurrences : List Occurrence}
    (h : StandAt schema document operation path occurrences) :
    (∃ reached, ReachedAt schema document operation path reached) ∧
    (∀ reached, ReachedAt schema document operation path reached →
      List.Forall₂ (Reached.Shows schema) reached occurrences) ∧
    (∀ o ∈ occurrences, o.context.scopes.length = path.length + 1) ∧
    (∀ texts, buildTexts texts = .ok schema → ∀ kind root, schema.root kind = some root →
      schema.type? root ≠ none ∧ schema.possibleTypes root = [root]) ∧
    ∀ key, ∀ a ∈ group occurrences key, ∀ b ∈ group occurrences key,
      a.exclusive b = b.exclusive a ∧
      (a.exclusive b = true ↔ ∃ (i : Nat) (types others : List String),
        a.context.scopes[i]? = some (some types) ∧ b.context.scopes[i]? = some (some others) ∧
          ∀ object, ¬ (object ∈ types ∧ object ∈ others)) ∧
      (a.exclusive b = true → ∀ inner,
        ∀ c ∈ descend schema document (a.children schema document) inner,
        ∀ d ∈ descend schema document (b.children schema document) inner, c.exclusive d = true) := by
  refine ⟨h.exists_reachedAt, fun reached hreached => ?_, h.length_scopes, fun texts htexts kind root hroot => ?_,
    fun key a _ b _ => ⟨Occurrence.exclusive_comm a b, Occurrence.exclusive_iff, ?_⟩⟩
  · rw [(standAt_iff.mp h).trans (standAt_iff.mp hreached.standAt).symm]
    exact List.forall₂_map_right_iff.mpr (List.forall₂_same.mpr fun r _ => r.shows_occurrence)
  · obtain ⟨draft, -, hbuild⟩ := bind_eq_ok.mp htexts
    obtain ⟨type, htype, hkind⟩ := Schema.exists_object_of_root hbuild hroot
    exact ⟨htype ▸ nofun, Schema.possibleTypes_of_object htype hkind⟩
  · intro hexclusive inner c hc d hd
    exact Occurrence.exclusive_of_prefix hexclusive
      (scopes_prefix_of_mem_descend (fun _ => scopes_prefix_of_mem_children) c hc)
      (scopes_prefix_of_mem_descend (fun _ => scopes_prefix_of_mem_children) d hd)

/-- Two object types in a union. -/
def splitTypes : SourceText :=
  (none, "type I \x7b i: Int \x7d type A \x7b f: I \x7d type B \x7b g: I \x7d union T = A | B "
    ++ "type Query \x7b t: T \x7d")

/-- The same is selected below a field of the one and below a field of the other. -/
def splitFields : List Selection :=
  [.inline (some "A") [.field ⟨1, 18⟩ (some "x") "f" [] [.field ⟨1, 24⟩ none "i" [] []]],
    .inline (some "B") [.field ⟨1, 40⟩ (some "x") "g" [] [.field ⟨1, 46⟩ none "i" [] []]]]

/-- The query whose one field holds the selections. -/
def splitOperation : Operation := ⟨.query, [.field ⟨1, 3⟩ none "t" [] splitFields]⟩

/-- The document of that query alone. -/
def splitDocument : QueryDocument := ⟨[.operation splitOperation]⟩

/-- The field at the root of the operation. -/
def splitRoot : Occurrence :=
  ⟨⟨1, 3⟩, "t", "t", [], splitFields, ⟨some "Query", [], [], some ["Query"]⟩⟩

/-- The field of one object type. -/
def splitFirst : Occurrence :=
  ⟨⟨1, 18⟩, "x", "f", [], [.field ⟨1, 24⟩ none "i" [] []], ⟨some "A", [], [some ["Query"]], some ["A"]⟩⟩

/-- The field of the other object type. -/
def splitSecond : Occurrence :=
  ⟨⟨1, 40⟩, "x", "g", [], [.field ⟨1, 46⟩ none "i" [] []], ⟨some "B", [], [some ["Query"]], some ["B"]⟩⟩

/-- Below mutually exclusive fields stand mutually exclusive fields. -/
theorem scopes_mean_split : ∃ schema, buildTexts [splitTypes] = .ok schema ∧
    StandAt schema splitDocument splitOperation ["t"] [splitFirst, splitSecond] ∧
    (∀ o ∈ [splitFirst, splitSecond], o.context.scopes.length = 2) ∧
    splitFirst ∈ group [splitFirst, splitSecond] "x" ∧ splitSecond ∈ group [splitFirst, splitSecond] "x" ∧
    splitFirst.exclusive splitSecond = true ∧
    ∀ c ∈ splitFirst.children schema splitDocument, ∀ d ∈ splitSecond.children schema splitDocument,
      c.exclusive d = true := by
  obtain ⟨schema, h, hcheck⟩ := exists_buildTexts [splitTypes] (p := fun schema =>
    schema.root .query == some "Query" && scopeOf schema "Query" == some ["Query"] &&
      scopeOf schema "A" == some ["A"] && scopeOf schema "B" == some ["B"] &&
      scopeOf schema "T" == some ["A", "B"] && splitRoot.returnType schema == some "T")
    (by decide +kernel)
  simp only [Bool.and_eq_true, beq_iff_eq] at hcheck
  obtain ⟨⟨⟨⟨⟨hroot, hquery⟩, hA⟩, hB⟩, hT⟩, hreturn⟩ := hcheck
  have hfound : rootOccurrences schema splitDocument splitOperation = [splitRoot] := by
    simp [rootOccurrences, splitOperation, Context.ofOperation, hroot, hquery, splitRoot]
  have hcontext : splitRoot.innerContext schema = ⟨some "T", [], [some ["Query"]], some ["A", "B"]⟩ := by
    unfold Occurrence.innerContext
    rw [hreturn]
    simp [returnScope, hT, splitRoot, Context.scopes]
  have hbelow : below schema splitDocument [splitRoot] "t" = [splitFirst, splitSecond] := by
    show collect schema splitDocument (splitRoot.innerContext schema) splitFields ++ [] = _
    rw [hcontext]
    simp [splitFields, splitFirst, splitSecond, Context.inline, Context.under, Scope.narrow, hA, hB]
  have hstand : StandAt schema splitDocument splitOperation ["t"] [splitFirst, splitSecond] :=
    standAt_iff.mpr (hbelow.symm.trans (by rw [hfound]; rfl))
  have hfirst : splitFirst ∈ group [splitFirst, splitSecond] "x" := List.mem_cons_self
  have hsecond : splitSecond ∈ group [splitFirst, splitSecond] "x" := List.mem_cons_of_mem _ List.mem_cons_self
  have hexclusive : splitFirst.exclusive splitSecond = true := by decide
  obtain ⟨-, -, hlength, -, hgroups⟩ := scopes_mean hstand
  exact ⟨schema, h, hstand, hlength, hfirst, hsecond, hexclusive,
    (hgroups "x" _ hfirst _ hsecond).2.2 hexclusive []⟩

end GraphSchema.Merge
