/-
Conflicts between fields that share a name in the response.

All occurrences with one response name have to be mergeable: the same field with the same
arguments, unless no object can be subject to both.  A group of occurrences that does not
conflict is searched for conflicts among the selections of its members, all taken
together; below a conflict nothing is searched.

Each step down uses up a field of the document, or enters a fragment for the first time.
The weight of an occurrence bounds the steps that are left below it.
-/
import GraphSchema.Merge.Occurrence

namespace GraphSchema.Merge

open Syntax

/-! ### Two occurrences -/

/-- An argument that is passed to a field. -/
structure Argument where
  name : String
  value : Literal
  deriving BEq

instance : Named Argument := ⟨Argument.name⟩

namespace Occurrence

/-- The arguments by name; of several of one name the last counts. -/
def argumentTable (o : Occurrence) : NameTable Argument :=
  .ofList (o.arguments.map fun (name, value) => ⟨name, value⟩)

/-- No object can be subject to both: at some level the two are confined to object types
that have none in common. -/
def exclusive (a b : Occurrence) : Bool :=
  (a.context.scopes.zip b.context.scopes).any fun (s, t) => s.disjoint t

/-- The two can apply to one object and cannot be merged. -/
def clashes (a b : Occurrence) : Bool :=
  !a.exclusive b && (a.name != b.name || !(a.argumentTable == b.argumentTable))

/-- The type that the field returns, as far as it is known. -/
def returnType (schema : Schema) (o : Occurrence) : Option String :=
  match o.name with
  | "__typename" => some "String"
  | "__schema" => some "__Schema"
  | "__type" => some "__Type"
  | name => do
    let parent ← schema.type? (← o.context.parent)
    let field ← (← parent.fields?).find? name
    return field.type.innermostName

/-- The context of the field's own selections. -/
def innerContext (schema : Schema) (o : Occurrence) : Context where
  parent := o.returnType schema
  entered := o.context.entered
  outer := o.context.scopes
  scope := returnScope schema (o.returnType schema)

/-- The occurrences that the field's own selections come to. -/
def children (schema : Schema) (document : QueryDocument) (o : Occurrence) : List Occurrence :=
  collect schema document (o.innerContext schema) o.selections

end Occurrence

/-! ### Groups -/

/-- The response names of occurrences, in the order in which they come up. -/
def keys (occurrences : List Occurrence) : List String :=
  (occurrences.map Occurrence.key).eraseDups

/-- The occurrences of a response name. -/
def group (occurrences : List Occurrence) (key : String) : List Occurrence :=
  occurrences.filter fun o => o.key == key

/-- The first pair that clashes, in the order of the first and then of the second. -/
def firstClash? : List Occurrence → Option (Occurrence × Occurrence)
  | [] => none
  | a :: rest =>
    match rest.find? a.clashes with
    | some b => some (a, b)
    | none => firstClash? rest

/-! ### Weights -/

mutual

/-- How many fields of a selection stand inside of each other. -/
def height : Selection → Nat
  | .field _ _ _ _ inner => heights inner + 1
  | .inline _ inner => heights inner
  | .spread _ => 0

/-- How many fields of some selections stand inside of each other at most. -/
def heights : List Selection → Nat
  | [] => 0
  | selection :: rest => max (height selection) (heights rest)

end

/-- How many fields stand inside of each other in one fragment at most. -/
def fragmentHeight (document : QueryDocument) : Nat :=
  (document.fragments.map fun fragment => heights fragment.selections).foldr max 0

/-- A bound on the levels of the response from an occurrence on. -/
def Occurrence.weight (document : QueryDocument) (o : Occurrence) : Nat :=
  unentered document o.context.entered * fragmentHeight document + heights o.selections + 1

/-- A bound on the levels of the response from some occurrences on. -/
def level (document : QueryDocument) (occurrences : List Occurrence) : Nat :=
  (occurrences.map (Occurrence.weight document)).foldr max 0

theorem le_foldr_max {l : List Nat} {n : Nat} (h : n ∈ l) : n ≤ l.foldr max 0 := by
  induction l with
  | nil => simp at h
  | cons m rest ih =>
    rcases List.mem_cons.mp h with rfl | hrest
    · exact Nat.le_max_left ..
    · exact Nat.le_trans (ih hrest) (Nat.le_max_right ..)

theorem foldr_max_lt {l : List Nat} {n : Nat} (hpos : 0 < n) (h : ∀ m ∈ l, m < n) :
    l.foldr max 0 < n := by
  induction l with
  | nil => exact hpos
  | cons m rest ih =>
    exact Nat.max_lt.mpr ⟨h m (by simp), ih fun k hk => h k (by simp [hk])⟩

theorem heights_le_fragmentHeight {document : QueryDocument} {fragment : Fragment}
    (h : fragment ∈ document.fragments) :
    heights fragment.selections ≤ fragmentHeight document :=
  le_foldr_max (List.mem_map_of_mem h)

/-- Expanding fragments trades their number for their height. -/
theorem weight_le_of_mem_collect {schema : Schema} {document : QueryDocument}
    {context : Context} {selections : List Selection} {o : Occurrence}
    (h : o ∈ collect schema document context selections) :
    o.weight document
      ≤ unentered document context.entered * fragmentHeight document + heights selections := by
  fun_induction collect schema document context selections with
  | case1 => simp at h
  | case2 context position responseName name arguments inner rest ih =>
    simp only [heights, height]
    rcases List.mem_cons.mp h with rfl | hrest
    · simp only [Occurrence.weight]
      omega
    · have := ih hrest
      omega
  | case3 context condition inner rest ihInner ihRest =>
    simp only [heights, height]
    rcases List.mem_append.mp h with hin | hrest
    · have := ihInner hin
      rw [Context.entered_inline] at this
      omega
    · have := ihRest hrest
      omega
  | case4 context name rest expanded ihExpanded ihRest =>
    simp only [heights, height]
    rcases List.mem_append.mp h with hin | hrest
    · simp only [expanded] at hin
      split at hin
      · simp at hin
      · next hnew =>
        split at hin
        · simp at hin
        · next fragment hfound =>
          obtain ⟨rfl, hmem⟩ := name_of_fragment? hfound
          have hweight := ihExpanded (by simpa using hnew) fragment hfound hin
          have hnew' : context.entered.contains fragment.name = false := by simpa using hnew
          have hless := unentered_cons_lt hmem hnew'
          have hheight := heights_le_fragmentHeight hmem
          rw [Context.entered_enter] at hweight
          have hmul := Nat.mul_le_mul_right (fragmentHeight document) (Nat.succ_le_of_lt hless)
          rw [Nat.succ_mul] at hmul
          omega
    · have := ihRest hrest
      omega

/-- What a field selects weighs less than the field. -/
theorem weight_lt_of_mem_children {schema : Schema} {document : QueryDocument}
    {o child : Occurrence} (h : child ∈ o.children schema document) :
    child.weight document < o.weight document := by
  have hle := weight_le_of_mem_collect h
  exact Nat.lt_succ_of_le hle

theorem exists_mem_of_mem_keys {occurrences : List Occurrence} {key : String}
    (h : key ∈ keys occurrences) : ∃ o ∈ occurrences, o.key = key := by
  simpa [keys] using h

theorem level_children_lt {schema : Schema} {document : QueryDocument}
    {occurrences : List Occurrence} {key : String} (h : key ∈ keys occurrences) :
    level document ((group occurrences key).flatMap (Occurrence.children schema document))
      < level document occurrences := by
  have hle : ∀ o ∈ occurrences, o.weight document ≤ level document occurrences :=
    fun o ho => le_foldr_max (List.mem_map_of_mem ho)
  refine foldr_max_lt ?_ ?_
  · obtain ⟨o, ho, _⟩ := exists_mem_of_mem_keys h
    exact Nat.lt_of_lt_of_le (Nat.succ_pos _) (hle o ho)
  · intro n hn
    obtain ⟨child, hchild, rfl⟩ := List.mem_map.mp hn
    obtain ⟨o, ho, hmem⟩ := List.mem_flatMap.mp hchild
    exact Nat.lt_of_lt_of_le (weight_lt_of_mem_children hmem) (hle o (List.mem_filter.mp ho).1)

/-! ### Conflicts -/

/-- A clash of two occurrences, with the response names that lead to them. -/
structure Conflict where
  outer : List String
  key : String
  first : Occurrence
  second : Occurrence

/-- The conflicts among occurrences that stand at a path of response names, and below
them. -/
def conflictsAt (schema : Schema) (document : QueryDocument) (path : List String)
    (occurrences : List Occurrence) : List Conflict :=
  (keys occurrences).attach.flatMap fun ⟨key, _hkey⟩ =>
    let members := group occurrences key
    match firstClash? members with
    | some (first, second) => [⟨path, key, first, second⟩]
    | none =>
      conflictsAt schema document (path ++ [key])
        (members.flatMap (Occurrence.children schema document))
termination_by level document occurrences
decreasing_by exact level_children_lt _hkey

/-- The conflicts of an operation. -/
def operationConflicts (schema : Schema) (document : QueryDocument) (operation : Operation) :
    List Conflict :=
  conflictsAt schema document []
    (collect schema document (Context.ofOperation schema operation.kind) operation.selections)

/-- The conflicts of a document.  Of several at one depth with one response name, the first
stands for all. -/
def conflicts (schema : Schema) (document : QueryDocument) : List Conflict :=
  (document.operations.flatMap (operationConflicts schema document)).eraseDupsBy fun c d =>
    c.outer.length == d.outer.length && c.key == d.key

end GraphSchema.Merge
