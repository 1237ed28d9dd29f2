/-
Literals that are read.

A constant is read as a `Proper` literal: no variable occurs in it, and the entries of its
objects are sorted by key.  Since entries are sorted as they are read, the order in which they
are written does not matter.

The names of the keywords stand for literals of their own (`reservedNames`), so a name is an
enum value only if it is none of them.  Later proofs go by `induct`, in which lists and objects
have one case each.
-/
import Mathlib.Data.List.Nodup
import Mathlib.Data.List.Sort
import GraphSchema.Literal
import GraphSchema.Proofs.Syntax.Lexemes

namespace GraphSchema

/-- With distinct keys, what is looked up is what is there. -/
theorem lookup_eq_some_iff_mem {γ : Type} {entries : List (String × γ)}
    (h : (entries.map Prod.fst).Nodup) {key : String} {a : γ} :
    entries.lookup key = some a ↔ (key, a) ∈ entries := by
  induction entries with
  | nil => exact ⟨nofun, nofun⟩
  | cons entry rest ih =>
    obtain ⟨k, b⟩ := entry
    rw [List.map_cons, List.nodup_cons] at h
    by_cases hkey : key = k
    · subst hkey
      have hrest : (key, a) ∉ rest := fun hmem => h.1 (List.mem_map.mpr ⟨(key, a), hmem, rfl⟩)
      rw [List.lookup_cons_self, List.mem_cons]
      constructor
      · intro heq
        exact Or.inl (congrArg (key, ·) (Option.some.inj heq).symm)
      · intro hmem
        rw [(Prod.mk.inj (hmem.resolve_right hrest)).2]
    · rw [List.lookup_cons, beq_eq_false_iff_ne.mpr hkey, List.mem_cons]
      constructor
      · intro heq
        exact Or.inr ((ih h.2).mp heq)
      · intro hmem
        refine (ih h.2).mpr (hmem.resolve_left fun heq => hkey (Prod.mk.inj heq).1)

namespace Literal

/-- Induction over a literal: its items and the values of its entries are smaller. -/
theorem induct {P : Literal → Prop} (boolean : ∀ value, P (.boolean value))
    (enum : ∀ name, P (.enum name)) (float : ∀ x, P (.float x)) (int : ∀ n, P (.int n))
    (list : ∀ items, (∀ item ∈ items, P item) → P (.list items)) (null : P .null)
    (object : ∀ entries, (∀ entry ∈ entries, P entry.2) → P (.object entries))
    (string : ∀ value, P (.string value)) (varRef : ∀ name, P (.varRef name))
    (v : Literal) : P v :=
  @Literal.rec P (fun items => ∀ item ∈ items, P item)
    (fun entries => ∀ entry ∈ entries, P entry.2) (fun entry => P entry.2)
    boolean enum float int list null object string varRef
    (fun _ h => nomatch h) (fun _ _ hfirst hrest => List.forall_mem_cons.mpr ⟨hfirst, hrest⟩)
    (fun _ h => nomatch h) (fun _ _ hfirst hrest => List.forall_mem_cons.mpr ⟨hfirst, hrest⟩)
    (fun _ _ h => h) v

/-- The names that stand for literals other than enum values. -/
def reservedNames : List String := ["true", "false", "null"]

theorem ofName_of_not_mem {name : String} (h : name ∉ reservedNames) : ofName name = .enum name := by
  simp only [reservedNames, List.mem_cons, List.not_mem_nil, or_false, not_or] at h
  unfold ofName
  split <;> simp_all

/-- The literal is one that a constant is read as: no variable occurs in it, its names are
names, those of enum values stand for nothing else, its floats are numbers, and the entries of its
objects are sorted. -/
inductive Proper : Literal → Prop
  | boolean (value : Bool) : Proper (.boolean value)
  | enum {name : String} (h : Syntax.isName name.toList = true) (hreserved : name ∉ reservedNames) :
      Proper (.enum name)
  | float {x : Float} (h : x.isNaN = false) : Proper (.float x)
  | int (n : Int64) : Proper (.int n)
  | list {items : List Literal} (h : ∀ item ∈ items, Proper item) : Proper (.list items)
  | null : Proper .null
  | object {entries : List (String × Literal)} (hsorted : entries.Pairwise fun a b => a.1 < b.1)
      (hkeys : ∀ entry ∈ entries, Syntax.isName entry.1.toList = true)
      (h : ∀ entry ∈ entries, Proper entry.2) : Proper (.object entries)
  | string (value : String) : Proper (.string value)

/-! ### Sorting entries

Entries are put into their places one at a time, and an entry takes the place of an earlier one
with the same key.  If no key is repeated, nothing is lost on the way.
-/

theorem mem_insertEntry {key : String} {value : Literal} {entries : List (String × Literal)}
    {entry : String × Literal} (h : entry ∈ insertEntry key value entries) :
    entry = (key, value) ∨ entry ∈ entries := by
  induction entries with
  | nil => exact Or.inl (List.mem_singleton.mp h)
  | cons first rest ih =>
    obtain ⟨k, v⟩ := first
    rw [insertEntry] at h
    split at h
    · exact List.mem_cons.mp h
    · split at h
      · rcases List.mem_cons.mp h with h | h
        · exact Or.inl h
        · exact Or.inr (List.mem_cons_of_mem _ h)
      · rcases List.mem_cons.mp h with h | h
        · exact Or.inr (h ▸ List.mem_cons_self)
        · exact (ih h).imp_right (List.mem_cons_of_mem _)

/-- An entry with a new key is put among the others. -/
theorem insertEntry_perm {key : String} {value : Literal} {entries : List (String × Literal)}
    (h : ∀ entry ∈ entries, entry.1 ≠ key) :
    (insertEntry key value entries).Perm ((key, value) :: entries) := by
  induction entries with
  | nil => exact List.Perm.refl _
  | cons first rest ih =>
    obtain ⟨k, v⟩ := first
    rw [List.forall_mem_cons] at h
    rw [insertEntry]
    split
    · exact List.Perm.refl _
    · rw [if_neg fun heq => h.1 heq.symm]
      exact ((ih h.2).cons _).trans (List.Perm.swap _ _ _)

/-- Sorted entries stay sorted. -/
theorem insertEntry_sorted {key : String} {value : Literal} {entries : List (String × Literal)}
    (h : entries.Pairwise fun a b => a.1 < b.1) :
    (insertEntry key value entries).Pairwise fun a b => a.1 < b.1 := by
  induction entries with
  | nil => exact List.pairwise_singleton _ _
  | cons first rest ih =>
    obtain ⟨k, v⟩ := first
    obtain ⟨hfirst, hrest⟩ := List.pairwise_cons.mp h
    rw [insertEntry]
    split
    · next hlt =>
      refine List.pairwise_cons.mpr ⟨fun entry hentry => ?_, h⟩
      rcases List.mem_cons.mp hentry with rfl | hentry
      · exact hlt
      · exact String.lt_trans hlt (hfirst entry hentry)
    · next hge =>
      split
      · next heq =>
        subst heq
        exact List.pairwise_cons.mpr ⟨hfirst, hrest⟩
      · next hne =>
        refine List.pairwise_cons.mpr ⟨fun entry hentry => ?_, ih hrest⟩
        rcases mem_insertEntry hentry with rfl | hentry
        · exact Std.lt_of_le_of_ne (String.not_lt.mp hge) fun heq => hne heq.symm
        · exact hfirst entry hentry

/-- The entries of an object literal are sorted. -/
theorem foldl_insertEntry_sorted {entries sorted : List (String × Literal)}
    (h : sorted.Pairwise fun a b => a.1 < b.1) :
    (entries.foldl (fun sorted (key, value) => insertEntry key value sorted) sorted).Pairwise
      fun a b => a.1 < b.1 := by
  induction entries generalizing sorted with
  | nil => exact h
  | cons entry rest ih => exact ih (insertEntry_sorted h)

theorem foldl_insertEntry_perm {entries sorted : List (String × Literal)}
    (h : (entries ++ sorted).Pairwise fun a b => a.1 ≠ b.1) :
    (entries.foldl (fun sorted (key, value) => insertEntry key value sorted) sorted).Perm
      (entries ++ sorted) := by
  induction entries generalizing sorted with
  | nil => exact List.Perm.refl _
  | cons entry rest ih =>
    obtain ⟨hentry, hrest⟩ := List.pairwise_cons.mp h
    have hnew : ∀ other ∈ sorted, other.1 ≠ entry.1 := fun other hother =>
      (hentry other (List.mem_append_right _ hother)).symm
    have hperm : (rest ++ insertEntry entry.1 entry.2 sorted).Perm (entry :: (rest ++ sorted)) :=
      ((insertEntry_perm hnew).append_left rest).trans List.perm_middle
    refine (ih ?_).trans hperm
    refine (hperm.pairwise_iff fun hne => hne.symm).mpr h

/-- Entries with distinct keys are all kept, and sorted. -/
theorem exists_ofEntries_perm {entries : List (String × Literal)} (h : (entries.map Prod.fst).Nodup) :
    ∃ sorted, ofEntries entries = .object sorted ∧ sorted.Perm entries ∧
      sorted.Pairwise fun a b => a.1 < b.1 := by
  have hne : (entries ++ []).Pairwise fun a b : String × Literal => a.1 ≠ b.1 := by
    rw [List.append_nil]
    exact List.pairwise_map.mp h
  have hperm := foldl_insertEntry_perm hne
  rw [List.append_nil] at hperm
  exact ⟨_, rfl, hperm, foldl_insertEntry_sorted .nil⟩

/-- **Entries are read back whatever their order.** -/
theorem ofEntries_of_perm {entries sorted : List (String × Literal)} (hperm : entries.Perm sorted)
    (hsorted : sorted.Pairwise fun a b => a.1 < b.1) : ofEntries entries = .object sorted := by
  have hnodup : (sorted.map Prod.fst).Nodup :=
    List.pairwise_map.mpr (hsorted.imp fun hlt => String.ne_of_lt hlt)
  obtain ⟨found, heq, hfound, hfoundSorted⟩ :=
    exists_ofEntries_perm ((hperm.map Prod.fst).nodup_iff.mpr hnodup)
  rw [heq]
  refine congrArg object ?_
  refine List.Perm.eq_of_pairwise ?_ hfoundSorted hsorted (hfound.trans hperm)
  intro a b _ _ hab hba
  exact absurd (String.lt_trans hab hba) (String.lt_irrefl _)

end Literal

end GraphSchema
