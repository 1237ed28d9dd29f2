/-
Trees of files as they are on a disk.

The entries of a directory have different names, and no name is empty or holds a slash
(`FileTree.WellFormed`).  Trees that are put together are of this kind.  In such a tree a walk comes
to every file once, and the path that is written for a place is that of no other place.

The tree that a command runs on is put together from the paths that the program is given, so that
it is well-formed is a property of `FileTree.put` and not an assumption.
-/
import GraphSchema.FileSystem.Search
import GraphSchema.Proofs.Literal
import GraphSchema.Proofs.Text.Lines
import Mathlib.Data.List.Nodup
import Mathlib.Data.String.Basic

namespace GraphSchema

/-- A name that an entry of a directory can have. -/
def IsEntryName (name : String) : Prop := name ≠ "" ∧ '/' ∉ name.toList

instance (name : String) : Decidable (IsEntryName name) :=
  inferInstanceAs (Decidable (name ≠ "" ∧ '/' ∉ name.toList))

namespace FileTree

/-- The entries of each directory are sorted by their names. -/
inductive WellFormed : FileTree → Prop
  | file (bytes : List UInt8) : WellFormed (file bytes)
  | refused (reason : String) : WellFormed (refused reason)
  | directory {entries : List (String × FileTree)} (sorted : (entries.map Prod.fst).Pairwise (· < ·))
      (named : ∀ entry ∈ entries, IsEntryName entry.1) (trees : ∀ entry ∈ entries, WellFormed entry.2) :
      WellFormed (directory entries)

/-! ### Putting trees together -/

theorem mem_of_mem_putEntry {name : String} {tree : FileTree} {entries : List (String × FileTree)}
    {entry : String × FileTree} (h : entry ∈ putEntry name tree entries) :
    entry = (name, tree) ∨ entry ∈ entries := by
  fun_induction putEntry name tree entries with
  | case1 => exact Or.inl (List.mem_singleton.mp h)
  | case2 => exact List.mem_cons.mp h
  | case3 => exact (List.mem_cons.mp h).imp_right (List.mem_cons_of_mem _)
  | case4 n t rest _ _ ih =>
    rcases List.mem_cons.mp h with rfl | h
    · exact Or.inr List.mem_cons_self
    · exact (ih h).imp_right (List.mem_cons_of_mem _)

theorem sorted_putEntry {name : String} {tree : FileTree} {entries : List (String × FileTree)}
    (h : (entries.map Prod.fst).Pairwise (· < ·)) :
    ((putEntry name tree entries).map Prod.fst).Pairwise (· < ·) := by
  fun_induction putEntry name tree entries with
  | case1 => exact List.pairwise_singleton _ _
  | case2 n t rest hlt =>
    refine List.pairwise_cons.mpr ⟨fun other hother => ?_, h⟩
    rcases List.mem_cons.mp hother with rfl | hother
    · exact hlt
    · exact hlt.trans ((List.pairwise_cons.mp h).1 other hother)
  | case3 => exact h
  | case4 n t rest hlt hne ih =>
    obtain ⟨hfirst, hrest⟩ := List.pairwise_cons.mp h
    refine List.pairwise_cons.mpr ⟨fun other hother => ?_, ih hrest⟩
    obtain ⟨entry, hentry, rfl⟩ := List.mem_map.mp hother
    rcases mem_of_mem_putEntry hentry with rfl | hentry
    · exact lt_of_le_of_ne (not_lt.mp hlt) (Ne.symm hne)
    · exact hfirst _ (List.mem_map_of_mem hentry)

namespace WellFormed

variable {tree : FileTree} {below : List (String × FileTree)}

theorem empty : WellFormed (.directory []) := .directory .nil nofun nofun

theorem distinct (h : WellFormed (.directory below)) : (below.map Prod.fst).Nodup := by
  cases h with
  | directory sorted => exact sorted.imp fun hlt => ne_of_lt hlt

/-- The entries of a tree, if it has any, make up a directory. -/
theorem entries (h : tree.WellFormed) : WellFormed (.directory tree.entries) := by
  cases h with
  | file | refused => exact empty
  | directory sorted named trees => exact .directory sorted named trees

theorem putEntry (h : WellFormed (.directory below)) {name : String} (hname : IsEntryName name)
    (htree : tree.WellFormed) : WellFormed (.directory (putEntry name tree below)) := by
  cases h with
  | directory sorted named trees =>
    refine .directory (sorted_putEntry sorted) (fun entry hentry => ?_) fun entry hentry => ?_
    · rcases mem_of_mem_putEntry hentry with rfl | hentry
      · exact hname
      · exact named entry hentry
    · rcases mem_of_mem_putEntry hentry with rfl | hentry
      · exact htree
      · exact trees entry hentry

/-- What stands under a name in a well-formed tree is well formed. -/
theorem of_lookup (h : tree.WellFormed) {name : String} {child : FileTree}
    (hchild : tree.entries.lookup name = some child) : IsEntryName name ∧ child.WellFormed := by
  have hentries := h.entries
  have hmem := (lookup_eq_some_iff_mem hentries.distinct).mp hchild
  cases hentries with
  | directory sorted named trees => exact ⟨named _ hmem, trees _ hmem⟩

/-- **Trees that are put together are well formed.** -/
theorem put (h : tree.WellFormed) {place : List String} (hplace : ∀ name ∈ place, IsEntryName name)
    {new : FileTree} (hnew : new.WellFormed) : (put place new tree).WellFormed := by
  induction place generalizing tree with
  | nil =>
    unfold FileTree.put
    split
    · exact h
    · exact hnew
    · contradiction
  | cons name rest ih =>
    rw [List.forall_mem_cons] at hplace
    rw [FileTree.put]
    refine h.entries.putEntry hplace.1 (ih ?_ hplace.2)
    cases hchild : tree.entries.lookup name with
    | none => exact empty
    | some child => exact (h.of_lookup hchild).2

/-- What is in a well-formed tree is well formed, and the names on the way to it are names of
entries. -/
theorem of_at? (h : tree.WellFormed) {place : List String} {child : FileTree}
    (hplace : tree.at? place = some child) : (∀ name ∈ place, IsEntryName name) ∧ child.WellFormed := by
  induction place generalizing tree with
  | nil =>
    obtain rfl := Option.some.inj hplace
    exact ⟨nofun, h⟩
  | cons name rest ih =>
    rw [at?] at hplace
    obtain ⟨next, hnext, hrest⟩ := Option.bind_eq_some_iff.mp hplace
    obtain ⟨hname, hwell⟩ := h.of_lookup hnext
    obtain ⟨hnames, hchild⟩ := ih hwell hrest
    exact ⟨List.forall_mem_cons.mpr ⟨hname, hnames⟩, hchild⟩

end WellFormed

/-! ### Walking through a tree

The walk collects places from above, and a place is looked up from above as well.  So what the walk
gives is what can be looked up, and each place is given by its own entry.
-/

theorem at?_append (tree : FileTree) (place below : List String) :
    tree.at? (place ++ below) = (tree.at? place).bind (at? below) := by
  induction place generalizing tree with
  | nil => rfl
  | cons name rest ih =>
    rw [List.cons_append, at?, at?, Option.bind_assoc]
    exact congrArg _ (funext ih)

theorem filesAmong_eq (place : List String) (entries : List (String × FileTree)) :
    filesAmong place entries = entries.flatMap fun entry => filesFrom (place ++ [entry.1]) entry.2 := by
  induction entries with
  | nil => rfl
  | cons entry entries ih =>
    obtain ⟨name, tree⟩ := entry
    rw [filesAmong, ih, List.flatMap_cons]

/-- There is a file at the place. -/
def HasFile (tree : FileTree) (place : List String) : Prop := ∃ t, tree.at? place = some t ∧ t.isFile = true

theorem hasFile_nil_iff {tree : FileTree} : tree.HasFile [] ↔ tree.isFile = true := by
  simp [HasFile, at?]

theorem hasFile_cons_iff {tree : FileTree} (h : tree.WellFormed) {name : String} {rest : List String} :
    tree.HasFile (name :: rest) ↔ ∃ child, (name, child) ∈ tree.entries ∧ child.HasFile rest := by
  unfold HasFile
  simp only [at?, Option.bind_eq_some_iff, lookup_eq_some_iff_mem h.entries.distinct]
  constructor
  · rintro ⟨t, ⟨child, hchild, hat⟩, hfile⟩
    exact ⟨child, hchild, t, hat, hfile⟩
  · rintro ⟨child, hchild, t, hat, hfile⟩
    exact ⟨t, ⟨child, hchild, hat⟩, hfile⟩

/-- **A walk comes to all files of a tree.** -/
theorem mem_filesFrom {tree : FileTree} (h : tree.WellFormed) {place p : List String} :
    p ∈ filesFrom place tree ↔ ∃ below, p = place ++ below ∧ tree.HasFile below := by
  induction h generalizing place p with
  | file | refused =>
    rw [filesFrom, List.mem_singleton]
    constructor
    · rintro rfl
      exact ⟨[], (List.append_nil _).symm, hasFile_nil_iff.mpr rfl⟩
    · rintro ⟨below, rfl, hfile⟩
      cases below with
      | nil => exact List.append_nil _
      | cons name rest =>
        obtain ⟨_, hat, -⟩ := hfile
        cases hat
  | @directory entries sorted named trees ih =>
    rw [filesFrom, filesAmong_eq, List.mem_flatMap]
    constructor
    · rintro ⟨entry, hentry, hp⟩
      obtain ⟨below, rfl, hfile⟩ := (ih entry hentry).mp hp
      refine ⟨entry.1 :: below, (List.append_cons ..).symm, ?_⟩
      exact (hasFile_cons_iff (.directory sorted named trees)).mpr ⟨entry.2, hentry, hfile⟩
    · rintro ⟨below, rfl, hfile⟩
      cases below with
      | nil => cases hasFile_nil_iff.mp hfile
      | cons name rest =>
        obtain ⟨child, hchild, hfile⟩ := (hasFile_cons_iff (.directory sorted named trees)).mp hfile
        exact ⟨(name, child), hchild, (ih _ hchild).mpr ⟨rest, List.append_cons .., hfile⟩⟩

/-- **A walk comes to no file twice.** -/
theorem nodup_filesFrom {tree : FileTree} (h : tree.WellFormed) (place : List String) :
    (filesFrom place tree).Nodup := by
  induction h generalizing place with
  | file | refused => exact List.nodup_singleton _
  | @directory entries sorted named trees ih =>
    rw [filesFrom, filesAmong_eq, List.nodup_flatMap]
    refine ⟨fun entry hentry => ih entry hentry _, ?_⟩
    -- A file under two entries would have the names of both on its way.
    refine (List.pairwise_map.mp sorted).imp_of_mem fun {first second} hfirst hsecond hlt => ?_
    intro p hp hp'
    obtain ⟨below, rfl, -⟩ := (mem_filesFrom (trees first hfirst)).mp hp
    obtain ⟨other, heq, -⟩ := (mem_filesFrom (trees second hsecond)).mp hp'
    rw [← List.append_cons, ← List.append_cons, List.append_cancel_left_eq] at heq
    exact absurd (List.cons.inj heq).1 (ne_of_lt hlt)

end FileTree

/-! ### Paths of places -/

namespace FileSystem

/-- The names of a place are found again in its path. -/
theorem cutAt_intercalate {place : List String} (h : ∀ name ∈ place, IsEntryName name) (hne : place ≠ []) :
    (Text.cutAt '/' ("/".intercalate place).toList).map String.ofList = place := by
  have hfree : ∀ piece ∈ place.map String.toList, '/' ∉ piece :=
    List.forall_mem_map.mpr fun name hname => (h name hname).2
  rw [String.toList_intercalate]
  refine (congrArg _ (Text.cutAt_intercalate (mt List.map_eq_nil_iff.mp hne) hfree)).trans ?_
  rw [List.map_map]
  exact List.map_id'' (fun name => String.ofList_toList) place

/-- The path of the root is that of no other place. -/
theorem intercalate_ne {place : List String} (h : ∀ name ∈ place, IsEntryName name) (hne : place ≠ []) :
    "/".intercalate place ≠ "" := by
  intro hempty
  have hplace := cutAt_intercalate h hne
  rw [hempty] at hplace
  exact (h "" (hplace ▸ List.mem_singleton_self "")).1 rfl

/-- **Two places with one path are one place.** -/
theorem pathOf_inj {p q : List String} (hp : ∀ name ∈ p, IsEntryName name)
    (hq : ∀ name ∈ q, IsEntryName name) : pathOf p = pathOf q ↔ p = q := by
  refine ⟨fun h => ?_, congrArg pathOf⟩
  have htext : "/".intercalate p = "/".intercalate q :=
    (String.append_right_inj _).mp (congrArg FilePath.text h)
  by_cases hp' : p = []
  · subst hp'
    by_contra hne
    exact intercalate_ne hq (Ne.symm hne) htext.symm
  · by_cases hq' : q = []
    · subst hq'
      exact absurd htext (intercalate_ne hp hp')
    · rw [← cutAt_intercalate hp hp', htext, cutAt_intercalate hq hq']

end FileSystem

end GraphSchema
