/-
What can stand in a response.

An execution stands on an object, whose type it knows.  Of the fields that selections come
to it runs those whose type conditions the object meets, and the type that the object
itself declares for a field decides which objects the next level can stand on.  No scopes
and no types of fragments enter into that: `Run` is what the exemption of mutually
exclusive fields has to be measured against.

Selections are unfolded along the spreads of known fragments, without regard to which of
them enclose a spread.  That comes to an end in documents whose fragments do not refer to
themselves.
-/
import Mathlib.Data.List.Forall2
import Mathlib.Logic.Relation
import GraphSchema.Merge.Conflict

namespace GraphSchema.Merge

open Syntax

variable {schema : Schema} {document : QueryDocument} {operation : Operation}

/-! ### Fields under their conditions -/

/-- A field that is selected somewhere, with the type conditions that enclose it. -/
structure FieldUse where
  position : Position
  /-- The name that the value goes by in the response. -/
  key : String
  name : String
  arguments : List (String × Literal)
  selections : List Selection
  /-- The conditions at each of the levels above, the operation's own first. -/
  outer : List (List String)
  /-- The conditions at this level. -/
  conditions : List String

namespace FieldUse

/-- The conditions at all levels, the operation's own first. -/
def levels (u : FieldUse) : List (List String) := u.outer ++ [u.conditions]

/-- The arguments by name; of several of one name the last counts. -/
def argumentTable (u : FieldUse) : NameTable Argument :=
  .ofList (u.arguments.map fun (name, value) => ⟨name, value⟩)

/-- The two pass the same arguments: under each name both pass the same value or none. -/
def SameArguments (u v : FieldUse) : Prop :=
  ∀ name, (u.argumentTable.find? name == v.argumentTable.find? name) = true

end FieldUse

/-- The fields that selections come to under some conditions.  A spread comes to nothing only
if its fragment is unknown. -/
inductive Unfolds (document : QueryDocument) (outer : List (List String)) :
    List String → List Selection → List FieldUse → Prop
  | nil (conditions : List String) : Unfolds document outer conditions [] []
  | field {conditions : List String} {rest : List Selection} {others : List FieldUse}
      (position : Position) (responseName : Option String) (name : String)
      (arguments : List (String × Literal)) (inner : List Selection)
      (hrest : Unfolds document outer conditions rest others) :
      Unfolds document outer conditions
        (.field position responseName name arguments inner :: rest)
        (⟨position, responseName.getD name, name, arguments, inner, outer, conditions⟩ :: others)
  | inline {conditions : List String} {condition : Option String} {inner rest : List Selection}
      {found others : List FieldUse}
      (hinner : Unfolds document outer (conditions ++ condition.toList) inner found)
      (hrest : Unfolds document outer conditions rest others) :
      Unfolds document outer conditions (.inline condition inner :: rest) (found ++ others)
  | unknown {conditions : List String} {name : String} {rest : List Selection}
      {others : List FieldUse} (hnone : document.fragment? name = none)
      (hrest : Unfolds document outer conditions rest others) :
      Unfolds document outer conditions (.spread name :: rest) others
  | spread {conditions : List String} {name : String} {fragment : Fragment}
      {rest : List Selection} {found others : List FieldUse}
      (hsome : document.fragment? name = some fragment)
      (hinner : Unfolds document outer (conditions ++ [fragment.condition]) fragment.selections
        found)
      (hrest : Unfolds document outer conditions rest others) :
      Unfolds document outer conditions (.spread name :: rest) (found ++ others)

/-- What the own selections of some fields come to, one after the other. -/
inductive UnfoldsEach (document : QueryDocument) : List FieldUse → List FieldUse → Prop
  | nil : UnfoldsEach document [] []
  | cons {u : FieldUse} {rest found others : List FieldUse}
      (hfirst : Unfolds document u.levels [] u.selections found)
      (hrest : UnfoldsEach document rest others) :
      UnfoldsEach document (u :: rest) (found ++ others)

/-- The fields with a response name. -/
def fieldsOf (uses : List FieldUse) (key : String) : List FieldUse :=
  uses.filter fun u => u.key == key

/-- The fields that stand behind a path of response names in an operation. -/
inductive UsesAt (document : QueryDocument) (operation : Operation) :
    List String → List FieldUse → Prop
  | root {uses : List FieldUse} (h : Unfolds document [] [] operation.selections uses) :
      UsesAt document operation [] uses
  | step {path : List String} {uses found : List FieldUse} (key : String)
      (houter : UsesAt document operation path uses)
      (h : UnfoldsEach document (fieldsOf uses key) found) :
      UsesAt document operation (path ++ [key]) found

/-! ### Runs

A run stands on an object of a known type at every level.  It goes on through a response name if
some field of that name applies, with an object that the declared type of the field allows.
-/

/-- An object of the type meets all conditions. -/
def Meets (schema : Schema) (object : String) (conditions : List String) : Prop :=
  ∀ condition ∈ conditions, object ∈ schema.possibleTypes condition

/-- The field is run, if the levels above stand on objects of the types `outer` and this one
on an object of the type `object`. -/
structure Applies (schema : Schema) (outer : List String) (object : String) (u : FieldUse) :
    Prop where
  outer : List.Forall₂ (Meets schema) outer u.outer
  here : Meets schema object u.conditions

/-- The type of a field that every object has without declaring it. -/
def metaFieldType? (field : String) : Option String :=
  if field = "__typename" then some "String"
  else if field = "__schema" then some "__Schema"
  else if field = "__type" then some "__Type"
  else none

/-- The type of a field that a type declares. -/
def declaredType? (schema : Schema) (type field : String) : Option String := do
  let parent ← schema.type? type
  let declared ← (← parent.fields?).find? field
  return declared.type.innermostName

/-- The type of a field of a type. -/
def fieldType? (schema : Schema) (type field : String) : Option String :=
  (metaFieldType? field).or (declaredType? schema type field)

/-- The objects that a run of an operation can stand on behind a path: those of the levels
above, and the one behind the whole path.  A field that is run there leads on to any object
that is possible for the type the current object declares for it. -/
inductive Run (schema : Schema) (document : QueryDocument) (operation : Operation) :
    List String → List String → String → Prop
  | root {object : String} (h : schema.root operation.kind = some object) :
      Run schema document operation [] [] object
  | step {path outer : List String} {object type next : String} {uses : List FieldUse}
      {u : FieldUse} (houter : Run schema document operation path outer object)
      (huses : UsesAt document operation path uses) (hmem : u ∈ uses)
      (happlies : Applies schema outer object u)
      (htype : fieldType? schema object u.name = some type)
      (hnext : next ∈ schema.possibleTypes type) :
      Run schema document operation (path ++ [u.key]) (outer ++ [object]) next

/-! ### Unfolding leaves no choice

Unfolding is a relation because it need not end.  Where it does, its result is determined.
-/

theorem unfolds_unique {outer : List (List String)} {conditions : List String}
    {selections : List Selection} {uses uses' : List FieldUse}
    (h : Unfolds document outer conditions selections uses)
    (h' : Unfolds document outer conditions selections uses') : uses = uses' := by
  induction h generalizing uses' with
  | nil conditions => cases h'; rfl
  | field position responseName name arguments inner hrest ih =>
    cases h' with
    | field _ _ _ _ _ hrest' => rw [ih hrest']
  | inline hinner hrest ihInner ihRest =>
    cases h' with
    | inline hinner' hrest' => rw [ihInner hinner', ihRest hrest']
  | unknown hnone hrest ih =>
    cases h' with
    | unknown _ hrest' => rw [ih hrest']
    | spread hsome _ _ => rw [hnone] at hsome; cases hsome
  | spread hsome hinner hrest ihInner ihRest =>
    cases h' with
    | unknown hnone _ => rw [hnone] at hsome; cases hsome
    | spread hsome' hinner' hrest' =>
      rw [hsome] at hsome'
      obtain rfl := Option.some.inj hsome'
      rw [ihInner hinner', ihRest hrest']

theorem unfoldsEach_unique {uses found found' : List FieldUse}
    (h : UnfoldsEach document uses found) (h' : UnfoldsEach document uses found') :
    found = found' := by
  induction h generalizing found' with
  | nil => cases h'; rfl
  | cons hfirst hrest ih =>
    cases h' with
    | cons hfirst' hrest' => rw [unfolds_unique hfirst hfirst', ih hrest']

theorem usesAt_unique {path : List String} {uses uses' : List FieldUse}
    (h : UsesAt document operation path uses) (h' : UsesAt document operation path uses') :
    uses = uses' := by
  induction h generalizing uses' with
  | root h =>
    generalize hpath : ([] : List String) = path' at h'
    cases h' with
    | root h' => exact unfolds_unique h h'
    | step key _ _ => simp at hpath
  | @step path uses found key houter h ih =>
    generalize hpath : path ++ [key] = path' at h'
    cases h' with
    | root _ => simp at hpath
    | step key' houter' hfound' =>
      obtain ⟨rfl, hkey⟩ := List.append_inj' hpath rfl
      obtain rfl := List.singleton_inj.mp hkey
      obtain rfl := ih houter'
      exact unfoldsEach_unique h hfound'

/-! ### Documents without cycles -/

/-- The fragment is spread somewhere in the selections, in those of their fields included. -/
inductive SpreadIn (name : String) : List Selection → Prop
  | here (rest : List Selection) : SpreadIn name (.spread name :: rest)
  | field {position : Position} {responseName : Option String} {field : String}
      {arguments : List (String × Literal)} {inner : List Selection} (rest : List Selection)
      (h : SpreadIn name inner) :
      SpreadIn name (.field position responseName field arguments inner :: rest)
  | inline {condition : Option String} {inner : List Selection} (rest : List Selection)
      (h : SpreadIn name inner) : SpreadIn name (.inline condition inner :: rest)
  | later (selection : Selection) {rest : List Selection} (h : SpreadIn name rest) :
      SpreadIn name (selection :: rest)

@[simp] theorem spreadIn_nil_iff {name : String} : SpreadIn name [] ↔ False :=
  ⟨nofun, False.elim⟩

@[simp] theorem spreadIn_field_iff {name : String} {position : Position}
    {responseName : Option String} {field : String} {arguments : List (String × Literal)}
    {inner rest : List Selection} :
    SpreadIn name (.field position responseName field arguments inner :: rest)
      ↔ SpreadIn name inner ∨ SpreadIn name rest := by
  constructor
  · intro h
    cases h with
    | field _ h => exact .inl h
    | later _ h => exact .inr h
  · rintro (h | h)
    · exact .field _ h
    · exact .later _ h

@[simp] theorem spreadIn_inline_iff {name : String} {condition : Option String}
    {inner rest : List Selection} :
    SpreadIn name (.inline condition inner :: rest) ↔ SpreadIn name inner ∨ SpreadIn name rest := by
  constructor
  · intro h
    cases h with
    | inline _ h => exact .inl h
    | later _ h => exact .inr h
  · rintro (h | h)
    · exact .inline _ h
    · exact .later _ h

@[simp] theorem spreadIn_spread_iff {name other : String} {rest : List Selection} :
    SpreadIn name (.spread other :: rest) ↔ name = other ∨ SpreadIn name rest := by
  constructor
  · intro h
    cases h with
    | here => exact .inl rfl
    | later _ h => exact .inr h
  · rintro (rfl | h)
    · exact .here _
    · exact .later _ h

/-- The fragment of the first name spreads the second. -/
def Refers (document : QueryDocument) (name other : String) : Prop :=
  ∃ fragment, document.fragment? name = some fragment ∧ SpreadIn other fragment.selections

/-- No fragment of the document leads back to itself. -/
def Acyclic (document : QueryDocument) : Prop :=
  ∀ name, ¬ Relation.TransGen (Refers document) name name

/-! ### Fragments that have been entered

No fragment encloses a spread of itself, so that in a document without cycles an expansion
leaves nothing out.
-/

/-- All that is spread in the selections is reached from each fragment that has been entered. -/
def Leads (document : QueryDocument) (entered : List String) (selections : List Selection) :
    Prop :=
  ∀ name ∈ entered, ∀ other, SpreadIn other selections →
    Relation.TransGen (Refers document) name other

namespace Leads

variable {entered : List String} {rest : List Selection}

theorem later {selection : Selection} (h : Leads document entered (selection :: rest)) :
    Leads document entered rest :=
  fun name hname other hspread => h name hname other (.later selection hspread)

theorem field {position : Position} {responseName : Option String} {name : String}
    {arguments : List (String × Literal)} {inner : List Selection}
    (h : Leads document entered (.field position responseName name arguments inner :: rest)) :
    Leads document entered inner :=
  fun name hname other hspread => h name hname other (.field rest hspread)

theorem inline {condition : Option String} {inner : List Selection}
    (h : Leads document entered (.inline condition inner :: rest)) :
    Leads document entered inner :=
  fun name hname other hspread => h name hname other (.inline rest hspread)

theorem not_mem (hacyclic : Acyclic document) {name : String}
    (h : Leads document entered (.spread name :: rest)) : name ∉ entered :=
  fun hmem => hacyclic name (h name hmem name (.here rest))

theorem enter {name : String} {fragment : Fragment}
    (h : Leads document entered (.spread name :: rest))
    (hsome : document.fragment? name = some fragment) :
    Leads document (fragment.name :: entered) fragment.selections := by
  intro outer houter other hspread
  obtain ⟨hname, -⟩ := name_of_fragment? hsome
  have hrefers : Refers document name other := ⟨fragment, hsome, hspread⟩
  rcases List.mem_cons.mp houter with rfl | hmem
  · rw [hname]
    exact .single hrefers
  · exact (h outer hmem name (.here rest)).tail hrefers

end Leads

end GraphSchema.Merge
