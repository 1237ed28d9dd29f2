/-
Which conflicts are reported.

The search goes down from the root of each operation, stops below a group that conflicts
and keeps one conflict for each depth and response name.  Which one it keeps depends on
the order of the document, but not whether there is one: `conflicts_slots` says that a
depth and a response name are reported, once, exactly if some operation has a path of that
length on which no group conflicts, with a conflicting group of that name at its end.

The descent is an induction over the search on one side and over the path on the other;
`mem_conflictsAt_iff` is where the two meet.
-/
import GraphSchema.Proofs.Merge.Expansion
import GraphSchema.Proofs.Tables

namespace GraphSchema.Merge

open Syntax

variable {schema : Schema} {document : QueryDocument} {operation : Operation}

/-! ### Conflicting groups

A group conflicts if two of its members differ and are not exempt.  The program stops at the first
such pair; the definition here asks for any.
-/

/-- The two occurrences pass the same arguments: under each name both pass the same value or
none. -/
def Occurrence.SameArguments (a b : Occurrence) : Prop :=
  ∀ name, (a.argumentTable.find? name == b.argumentTable.find? name) = true

/-- The two occurrences ask for different things. -/
def Occurrence.Differ (a b : Occurrence) : Prop := a.name ≠ b.name ∨ ¬ a.SameArguments b

/-- Two members of a group that are not mutually exclusive ask for different things. -/
def Conflicting (members : List Occurrence) : Prop :=
  ∃ a b, [a, b].Sublist members ∧ a.exclusive b = false ∧ a.Differ b

theorem Occurrence.clashes_iff {a b : Occurrence} :
    a.clashes b = true ↔ a.exclusive b = false ∧ a.Differ b := by
  have hsame : (a.argumentTable == b.argumentTable) = true ↔ a.SameArguments b :=
    NameTable.beq_iff_find?
  simp only [clashes, Differ, ← hsame, Bool.and_eq_true, Bool.or_eq_true, Bool.not_eq_true',
    bne_iff_ne, ne_eq, Bool.not_eq_true]

theorem not_conflicting_nil : ¬ Conflicting [] := by
  rintro ⟨a, b, hsub, -⟩
  simp at hsub

/-- Nothing is found exactly in groups that do not conflict. -/
theorem firstClash?_eq_none_iff {members : List Occurrence} :
    firstClash? members = none ↔ ¬ Conflicting members := by
  induction members with
  | nil => exact iff_of_true rfl not_conflicting_nil
  | cons c rest ih =>
    simp only [firstClash?]
    split
    · next d hfind =>
      have hmem := List.mem_of_find?_eq_some hfind
      have hclash := Occurrence.clashes_iff.mp (List.find?_some hfind)
      refine iff_of_false (by simp) (not_not.mpr ⟨c, d, ?_, hclash⟩)
      exact (List.singleton_sublist.mpr hmem).cons_cons _
    · next hfind =>
      rw [ih]
      refine not_congr ⟨?_, ?_⟩
      · rintro ⟨a, b, hsub, hclash⟩
        exact ⟨a, b, hsub.cons _, hclash⟩
      · rintro ⟨a, b, hsub, hclash⟩
        -- The pair cannot begin with `c`, with which no member behind it clashes.
        cases hsub with
        | cons _ hsub => exact ⟨a, b, hsub, hclash⟩
        | cons_cons _ hsub =>
          have hmem : b ∈ rest := List.singleton_sublist.mp hsub
          exact absurd (Occurrence.clashes_iff.mpr hclash) (List.find?_eq_none.mp hfind b hmem)

theorem exists_firstClash? {members : List Occurrence} :
    (∃ a b, firstClash? members = some (a, b)) ↔ Conflicting members := by
  rw [← not_iff_not, ← firstClash?_eq_none_iff]
  cases firstClash? members with
  | none => simp
  | some pair => obtain ⟨a, b⟩ := pair; simp

/-! ### The search and the paths

The search runs down the groups, and a path runs down from the root.  A conflict is found at the
end of a path exactly if no group on the way conflicts.
-/

/-- No group on a path that begins at some occurrences conflicts. -/
def Free (schema : Schema) (document : QueryDocument) (occurrences : List Occurrence)
    (path : List String) : Prop :=
  ∀ outer key, outer ++ [key] <+: path →
    ¬ Conflicting (group (descend schema document occurrences outer) key)

theorem free_nil (occurrences : List Occurrence) : Free schema document occurrences [] := by
  intro outer key hpre
  simp at hpre

theorem free_cons {occurrences : List Occurrence} {key : String} {path : List String} :
    Free schema document occurrences (key :: path)
      ↔ ¬ Conflicting (group occurrences key)
        ∧ Free schema document (below schema document occurrences key) path := by
  constructor
  · intro h
    refine ⟨h [] key (by simp), fun outer last hpre => ?_⟩
    exact h (key :: outer) last (by simpa using hpre)
  · rintro ⟨hfirst, hrest⟩ outer last hpre
    cases outer with
    | nil =>
      obtain rfl : last = key := by simpa using hpre
      exact hfirst
    | cons first outer =>
      obtain ⟨rfl, htail⟩ := List.cons_prefix_cons.mp hpre
      exact hrest outer last htail

theorem mem_keys_iff {occurrences : List Occurrence} {key : String} :
    key ∈ keys occurrences ↔ group occurrences key ≠ [] := by
  simp [keys, group, List.filter_eq_nil_iff]

theorem conflictsAt_nil (path : List String) : conflictsAt schema document path [] = [] := by
  rw [conflictsAt]
  rfl

theorem firstClash?_nil : firstClash? [] = none := rfl

/-- One step of the search: a group is reported, or else what stands below it is searched. -/
theorem mem_conflictsAt {path : List String} {occurrences : List Occurrence} {c : Conflict} :
    c ∈ conflictsAt schema document path occurrences ↔ ∃ key,
      (∃ a b, firstClash? (group occurrences key) = some (a, b) ∧ c = ⟨path, key, a, b⟩) ∨
      (¬ Conflicting (group occurrences key) ∧
        c ∈ conflictsAt schema document (path ++ [key])
          (below schema document occurrences key)) := by
  rw [conflictsAt]
  simp only [List.mem_flatMap, List.mem_attach, true_and, Subtype.exists, exists_prop]
  refine exists_congr fun key => ?_
  by_cases hkey : key ∈ keys occurrences
  · rw [← firstClash?_eq_none_iff]
    cases hclash : firstClash? (group occurrences key) with
    | none => simp [hkey, below]
    | some pair =>
      obtain ⟨a, b⟩ := pair
      simp only [hkey, true_and, List.mem_singleton, Option.some.injEq, Prod.mk.injEq,
        reduceCtorEq, false_and, or_false]
      constructor
      · rintro rfl
        exact ⟨a, b, ⟨rfl, rfl⟩, rfl⟩
      · rintro ⟨a', b', ⟨rfl, rfl⟩, rfl⟩
        rfl
  · -- Without members there is neither a clash nor anything below.
    have hempty : group occurrences key = [] := by
      by_contra hne
      exact hkey (mem_keys_iff.mpr hne)
    simp [hkey, hempty, below, firstClash?_nil, conflictsAt_nil]

/-- A conflict is found exactly if its path leads through groups that do not conflict to one
in which its two occurrences clash first. -/
theorem mem_conflictsAt_iff {path : List String} {occurrences : List Occurrence}
    {c : Conflict} :
    c ∈ conflictsAt schema document path occurrences ↔ ∃ inner, c.outer = path ++ inner ∧
      Free schema document occurrences inner ∧
      firstClash? (group (descend schema document occurrences inner) c.key)
        = some (c.first, c.second) := by
  constructor
  · induction path, occurrences using conflictsAt.induct schema document with
    | case1 path occurrences ih =>
      intro h
      obtain ⟨key, ⟨a, b, hclash, rfl⟩ | ⟨hfree, hbelow⟩⟩ := mem_conflictsAt.mp h
      · exact ⟨[], by simp, free_nil _, hclash⟩
      · have hkey : key ∈ keys occurrences := by
          rw [mem_keys_iff]
          intro hempty
          rw [below, hempty, List.flatMap_nil, conflictsAt_nil] at hbelow
          simp at hbelow
        obtain ⟨inner, houter, hinner, hclash⟩ := ih key hkey hbelow
        exact ⟨key :: inner, by simpa using houter, free_cons.mpr ⟨hfree, hinner⟩, hclash⟩
  · rintro ⟨inner, houter, hfree, hclash⟩
    induction inner generalizing path occurrences with
    | nil =>
      refine mem_conflictsAt.mpr ⟨c.key, Or.inl ⟨c.first, c.second, hclash, ?_⟩⟩
      rw [List.append_nil] at houter
      rw [← houter]
    | cons key inner ih =>
      obtain ⟨hfirst, hrest⟩ := free_cons.mp hfree
      exact mem_conflictsAt.mpr
        ⟨key, Or.inr ⟨hfirst, ih (by simpa using houter) hrest hclash⟩⟩

/-! ### One conflict for each depth and name

Repetitions are dropped by depth and name, so two paths of one length that end in one name share a
report.
-/

/-- The depth and the response name by which conflicts are told apart. -/
def Conflict.slot (c : Conflict) : Nat × String := (c.outer.length, c.key)

section Repetitions

variable {α β : Type} [BEq β]

/-- Dropping elements of a value that came before drops that value's repetitions. -/
theorem map_eraseDupsBy (f : α → β) (l : List α) :
    (l.eraseDupsBy fun x y => f x == f y).map f = (l.map f).eraseDups := by
  match l with
  | [] => rfl
  | a :: rest =>
    rw [List.eraseDupsBy_cons, List.map_cons, List.map_cons, List.eraseDups_cons,
      map_eraseDupsBy, List.filter_map]
    congr 4
    funext b
    simp
termination_by l.length
decreasing_by
  simp only [List.length_cons]
  exact Nat.lt_succ_of_le (List.length_filter_le _ _)

theorem nodup_eraseDups [LawfulBEq β] (l : List β) : l.eraseDups.Nodup := by
  match l with
  | [] => exact List.nodup_nil
  | b :: rest =>
    rw [List.eraseDups_cons, List.nodup_cons]
    refine ⟨?_, nodup_eraseDups _⟩
    simp [List.mem_eraseDups]
termination_by l.length
decreasing_by
  simp only [List.length_cons]
  exact Nat.lt_succ_of_le (List.length_filter_le _ _)

end Repetitions

/-- The group of a response name that stands behind a path conflicts. -/
def ConflictAt (schema : Schema) (document : QueryDocument) (operation : Operation)
    (path : List String) (key : String) : Prop :=
  ∃ occurrences, StandAt schema document operation path occurrences ∧
    Conflicting (group occurrences key)

theorem conflictAt_iff {path : List String} {key : String} :
    ConflictAt schema document operation path key
      ↔ Conflicting (group
          (descend schema document (rootOccurrences schema document operation) path) key) := by
  simp only [ConflictAt, standAt_iff, exists_eq_left]

/-- A conflict is found in an operation exactly at the end of a path on which no group
conflicts. -/
theorem mem_slots_operationConflicts {n : Nat} {key : String} :
    (n, key) ∈ (operationConflicts schema document operation).map Conflict.slot
      ↔ ∃ path, path.length = n ∧
        (∀ outer k, outer ++ [k] <+: path → ¬ ConflictAt schema document operation outer k) ∧
        ConflictAt schema document operation path key := by
  simp only [conflictAt_iff, List.mem_map, operationConflicts, mem_conflictsAt_iff,
    List.nil_append, Conflict.slot, Prod.mk.injEq]
  constructor
  · rintro ⟨c, ⟨path, houter, hfree, hclash⟩, hlength, rfl⟩
    exact ⟨path, houter ▸ hlength, hfree, exists_firstClash?.mp ⟨_, _, hclash⟩⟩
  · rintro ⟨path, hlength, hfree, hconflict⟩
    obtain ⟨a, b, hclash⟩ := exists_firstClash?.mpr hconflict
    exact ⟨⟨path, key, a, b⟩, ⟨path, rfl, hfree, hclash⟩, hlength, rfl⟩

theorem map_slot_conflicts :
    (conflicts schema document).map Conflict.slot
      = (document.operations.flatMap fun operation =>
          (operationConflicts schema document operation).map Conflict.slot).eraseDups := by
  rw [← List.map_flatMap, ← map_eraseDupsBy]
  rfl

/-- Above every group that conflicts, or at it, there is one that no conflict precedes. -/
theorem exists_first_conflictAt {path : List String} {key : String}
    (h : ConflictAt schema document operation path key) :
    ∃ outer k, (∀ outer' k', outer' ++ [k'] <+: outer →
        ¬ ConflictAt schema document operation outer' k') ∧
      ConflictAt schema document operation outer k := by
  induction hn : path.length using Nat.strongRecOn generalizing path key with
  | ind n ih =>
    by_cases hfree : ∀ outer k, outer ++ [k] <+: path →
        ¬ ConflictAt schema document operation outer k
    · exact ⟨path, key, hfree, h⟩
    · simp only [not_forall, not_not] at hfree
      obtain ⟨outer, k, hpre, hconflict⟩ := hfree
      have hlength := hpre.length_le
      rw [List.length_append, List.length_singleton] at hlength
      exact ih outer.length (by omega) hconflict rfl

/--
**What is reported.**  A depth and a response name are reported at most once, and exactly
if some operation has a path of that length on which no group conflicts, with a
conflicting group of that name at its end.  So nothing is reported exactly if no group of
any operation conflicts.
-/
theorem conflicts_slots (schema : Schema) (document : QueryDocument) :
    ((conflicts schema document).map Conflict.slot).Nodup ∧
    (∀ n key, (n, key) ∈ (conflicts schema document).map Conflict.slot
      ↔ ∃ operation ∈ document.operations, ∃ path, path.length = n ∧
        (∀ outer k, outer ++ [k] <+: path → ¬ ConflictAt schema document operation outer k) ∧
        ConflictAt schema document operation path key) ∧
    (conflicts schema document = []
      ↔ ∀ operation ∈ document.operations, ∀ path key,
        ¬ ConflictAt schema document operation path key) := by
  have hmem : ∀ n key, (n, key) ∈ (conflicts schema document).map Conflict.slot
      ↔ ∃ operation ∈ document.operations, ∃ path, path.length = n ∧
        (∀ outer k, outer ++ [k] <+: path → ¬ ConflictAt schema document operation outer k) ∧
        ConflictAt schema document operation path key := by
    intro n key
    simp only [map_slot_conflicts, List.mem_eraseDups, List.mem_flatMap,
      mem_slots_operationConflicts]
  refine ⟨?_, hmem, ?_, ?_⟩
  · rw [map_slot_conflicts]
    exact nodup_eraseDups _
  · intro hnil operation hoperation path key hconflict
    obtain ⟨outer, k, hfree, hfirst⟩ := exists_first_conflictAt hconflict
    have hslot := (hmem outer.length k).mpr ⟨operation, hoperation, outer, rfl, hfree, hfirst⟩
    rw [hnil] at hslot
    exact List.not_mem_nil hslot
  · intro hnone
    rw [List.eq_nil_iff_forall_not_mem]
    intro c hc
    obtain ⟨operation, hoperation, path, -, -, hconflict⟩ :=
      (hmem c.slot.1 c.slot.2).mp (List.mem_map_of_mem hc)
    exact hnone operation hoperation path c.key hconflict

end GraphSchema.Merge
