/-
Tables of lists, and when two tables are the same.

Sameness counts the entries and looks up those of one table in the other.  Since no name
stands twice in a table, that is as much as looking up every name in both.

Two tables with the same entries in the same order are one value (`ext`), since that names
are different is all that a table knows besides its list.  What `insert`, `ofList` and
`find?` do to each other is said once here, and no later module looks at how a table is
built.
-/
import Mathlib.Data.List.Perm.Subperm
import GraphSchema.NameTable

namespace GraphSchema.NameTable

variable {α : Type} [Named α]

/-- A table is its list. -/
theorem ext {t u : NameTable α} (h : t.toList = u.toList) : t = u := by
  cases t
  cases u
  cases h
  rfl

theorem find?_eq_none_iff {t : NameTable α} {name : String} :
    t.find? name = none ↔ name ∉ t.names := by
  rw [← contains_iff, contains, Option.isSome_iff_ne_none, ne_eq, not_not]

theorem find?_isSome_iff {t : NameTable α} {name : String} :
    (∃ a, t.find? name = some a) ↔ name ∈ t.names := by
  rw [← contains_iff, contains, Option.isSome_iff_exists]

/-- Entries with new names come last, in their order. -/
theorem toList_foldl_insert {t : NameTable α} {entries : List α}
    (h : (t.names ++ entries.map Named.name).Nodup) :
    (entries.foldl insert t).toList = t.toList ++ entries := by
  induction entries generalizing t with
  | nil => exact (List.append_nil _).symm
  | cons a entries ih =>
    have hnew : Named.name a ∉ t.names := fun hmem =>
      (List.nodup_append.mp h).2.2 _ hmem _ List.mem_cons_self rfl
    have hlist := toList_insert_of_not_mem hnew
    have hnames : (t.insert a).names = t.names ++ [Named.name a] := by
      rw [names_insert, if_neg hnew]
    rw [List.map_cons, List.append_cons, ← hnames] at h
    rw [List.foldl_cons, ih h, hlist, List.append_assoc, List.singleton_append]

/-- The table of a list whose names are different is the list. -/
theorem toList_ofList {entries : List α} (h : (entries.map Named.name).Nodup) :
    (ofList entries).toList = entries := toList_foldl_insert h

/-- What is in a table after an insertion. -/
theorem mem_of_mem_insert {t : NameTable α} {a b : α} (h : b ∈ (t.insert a).toList) :
    b = a ∨ b ∈ t.toList := by
  by_cases hmem : Named.name a ∈ t.names
  · rw [toList_insert_of_mem hmem] at h
    obtain ⟨c, hc, heq⟩ := List.mem_map.mp h
    split at heq
    · exact Or.inl heq.symm
    · exact Or.inr (heq ▸ hc)
  · rw [toList_insert_of_not_mem hmem] at h
    exact (List.mem_append.mp h).symm.imp_left List.mem_singleton.mp

theorem mem_of_mem_foldl_insert {t : NameTable α} {entries : List α} {a : α}
    (h : a ∈ (entries.foldl insert t).toList) : a ∈ entries ∨ a ∈ t.toList := by
  induction entries generalizing t with
  | nil => exact Or.inr h
  | cons first rest ih =>
    rcases ih h with h | h
    · exact Or.inl (List.mem_cons_of_mem _ h)
    · rcases mem_of_mem_insert h with rfl | h
      · exact Or.inl List.mem_cons_self
      · exact Or.inr h

theorem mem_of_mem_ofList {entries : List α} {a : α} (h : a ∈ (ofList entries).toList) :
    a ∈ entries := (mem_of_mem_foldl_insert h).resolve_right nofun

/-! ### Lists that repeat names

A table keeps the last entry of a name at the place of the first.  So a list that repeats a name
comes into a table as the list of its names without repetitions, and what is found under a name is
what the list says of it last.
-/

theorem eraseDups_of_nodup {names : List String} (h : names.Nodup) : names.eraseDups = names := by
  induction names with
  | nil => rfl
  | cons name names ih =>
    obtain ⟨hname, hnames⟩ := List.nodup_cons.mp h
    have hothers : (names.filter fun other => !other == name) = names := by
      refine List.filter_eq_self.mpr fun other hother => ?_
      rw [Bool.not_eq_true', beq_eq_false_iff_ne]
      rintro rfl
      exact hname hother
    rw [List.eraseDups_cons, hothers, ih hnames]

/-- The names that are new come last, in the order in which they come up first. -/
theorem names_foldl_insert (t : NameTable α) (entries : List α) :
    (entries.foldl insert t).names
      = t.names ++ ((entries.map Named.name).filter fun name => !decide (name ∈ t.names)).eraseDups := by
  induction entries generalizing t with
  | nil => exact (List.append_nil _).symm
  | cons a entries ih =>
    rw [List.foldl_cons, ih, names_insert, List.map_cons, List.filter_cons]
    by_cases hmem : Named.name a ∈ t.names
    · rw [if_pos hmem, if_neg (by simpa using hmem)]
    · rw [if_neg hmem, if_pos (by simpa using hmem), List.eraseDups_cons, List.append_assoc,
        List.singleton_append, List.filter_filter]
      congr 3
      refine List.filter_congr fun name _ => ?_
      simp [Bool.and_comm, beq_eq_decide]

/-- The names of a list, in the order in which they come up first. -/
theorem names_ofList (entries : List α) : (ofList entries).names = (entries.map Named.name).eraseDups := by
  have hall : ((entries.map Named.name).filter fun name => !decide (name ∈ (empty : NameTable α).names))
      = entries.map Named.name := List.filter_eq_self.mpr fun _ _ => rfl
  have hnames := names_foldl_insert empty entries
  rwa [hall] at hnames

/-- What is found is the last entry of its name. -/
theorem find?_foldl_insert_last (t : NameTable α) (entries : List α) (name : String) :
    (entries.foldl insert t).find? name
      = (entries.reverse.find? fun a => Named.name a == name).or (t.find? name) := by
  induction entries generalizing t with
  | nil => rfl
  | cons a entries ih =>
    rw [List.foldl_cons, ih, find?_insert, List.reverse_cons, List.find?_append, Option.or_assoc]
    by_cases hname : Named.name a = name
    · simp [hname]
    · simp [hname]

theorem find?_ofList_last (entries : List α) (name : String) :
    (ofList entries).find? name = entries.reverse.find? fun a => Named.name a == name :=
  (find?_foldl_insert_last empty entries name).trans (Option.or_none ..)

/-! ### Putting an entry in again

Adding to a type replaces the type in the table of types, and that may happen before or after other
types have been added.  Either way the table is the same one, with every name at its old place.
-/

/-- A table is its names, in their order, and what is found under them. -/
theorem ext_find? {t u : NameTable α} (hnames : t.names = u.names) (hfind : ∀ name, t.find? name = u.find? name) :
    t = u := by
  have hlist : ∀ t : NameTable α, t.names.filterMap t.find? = t.toList := by
    intro t
    rw [names, List.filterMap_map]
    exact (List.filterMap_congr fun a ha => find?_name ha).trans List.filterMap_some
  refine ext ?_
  rw [← hlist, ← hlist, hnames, funext hfind]

/-- What is there already is put in its own place. -/
theorem insert_of_find? {t : NameTable α} {a : α} (h : t.find? (Named.name a) = some a) : t.insert a = t := by
  refine ext_find? ?_ fun name => ?_
  · rw [names_insert, if_pos (find?_isSome_iff.mp ⟨a, h⟩)]
  · rw [find?_insert]
    split
    · next hname => rw [← hname, h]
    · rfl

/-- An entry takes the place of the one of its name. -/
theorem toList_insert_of_find? {t : NameTable α} {name : String} {a b : α} (h : t.find? name = some a)
    (hname : Named.name b = name) :
    (t.insert b).toList = t.toList.map fun c => if Named.name c = name then b else c := by
  subst hname
  exact toList_insert_of_mem (find?_isSome_iff.mp ⟨a, h⟩)

/-- Of two entries of one name the last stays. -/
theorem insert_insert {t : NameTable α} {a b : α} (hname : Named.name a = Named.name b) :
    (t.insert a).insert b = t.insert b := by
  refine ext_find? ?_ fun name => ?_
  · simp only [names_insert, hname]
    by_cases hmem : Named.name b ∈ t.names <;> simp [hmem]
  · simp only [find?_insert, hname]
    split <;> rfl

/-- An entry may be replaced before entries of other names are put in, or afterwards. -/
theorem insert_foldl_insert {t : NameTable α} {entries : List α} {b : α} (hmem : Named.name b ∈ t.names)
    (hother : Named.name b ∉ entries.map Named.name) :
    (entries.foldl insert t).insert b = entries.foldl insert (t.insert b) := by
  induction entries generalizing t with
  | nil => rfl
  | cons a entries ih =>
    rw [List.map_cons, List.mem_cons, not_or] at hother
    have hcomm : (t.insert a).insert b = (t.insert b).insert a := by
      refine ext_find? ?_ fun name => ?_
      · simp only [names_insert, hmem, if_true]
        by_cases ha : Named.name a ∈ t.names <;> simp [ha, hmem]
      · simp only [find?_insert]
        split
        · next hb => rw [if_neg fun ha => hother.1 (hb.trans ha.symm)]
        · rfl
    have hmem' : Named.name b ∈ (t.insert a).names := by
      rw [names_insert]
      split
      · exact hmem
      · exact List.mem_append_left _ hmem
    rw [List.foldl_cons, List.foldl_cons, ih hmem' hother.2, hcomm]

/-! ### Changing every entry -/

/-- The table with every entry changed; names stay. -/
def map {β : Type} [Named β] (t : NameTable α) (f : α → β) (h : ∀ a, Named.name (f a) = Named.name a) :
    NameTable β :=
  ⟨t.toList.map f, List.pairwise_map.mpr (t.distinct.imp fun hne heq => hne ((h _).symm.trans (heq.trans (h _))))⟩

theorem find?_map {β : Type} [Named β] (t : NameTable α) {f : α → β}
    (h : ∀ a, Named.name (f a) = Named.name a) (name : String) :
    (t.map f h).find? name = (t.find? name).map f := by
  unfold find? map
  rw [List.find?_map]
  simp only [Function.comp_def, h]

/-! ### Order -/

theorem toList_nodup (t : NameTable α) : t.toList.Nodup :=
  t.distinct.imp fun hne heq => hne (congrArg Named.name heq)

/-- **Tables differ in their order only if the same is found under every name.** -/
theorem perm_iff_find? {t u : NameTable α} :
    t.toList.Perm u.toList ↔ ∀ name, t.find? name = u.find? name := by
  constructor
  · intro h name
    refine Option.ext fun a => ?_
    rw [find?_eq_some_iff, find?_eq_some_iff, h.mem_iff]
  · intro h
    refine (List.perm_ext_iff_of_nodup t.toList_nodup u.toList_nodup).mpr fun a => ?_
    constructor
    · exact fun ha => mem_of_find?_eq_some ((h _).symm.trans (find?_name ha))
    · exact fun ha => mem_of_find?_eq_some ((h _).trans (find?_name ha))

/-- What is found after entries with different names have been put in. -/
theorem find?_foldl_insert {t : NameTable α} {entries : List α} {name : String} {a : α}
    (h : (entries.map Named.name).Nodup) :
    (entries.foldl insert t).find? name = some a ↔
      (a ∈ entries ∧ Named.name a = name) ∨ (name ∉ entries.map Named.name ∧ t.find? name = some a) := by
  induction entries generalizing t with
  | nil => simp
  | cons b entries ih =>
    obtain ⟨hb, hnodup⟩ := List.nodup_cons.mp h
    rw [List.foldl_cons, ih hnodup, find?_insert, List.map_cons, List.mem_cons, List.mem_cons, not_or]
    by_cases hname : Named.name b = name
    · subst hname
      simp only [if_true, Option.some.injEq, hb, not_false_eq_true, true_and, not_true_eq_false,
        false_and, or_false]
      constructor
      · rintro (⟨ha, hname⟩ | rfl)
        · exact absurd (hname ▸ List.mem_map_of_mem ha) hb
        · exact ⟨Or.inl rfl, rfl⟩
      · rintro ⟨rfl | ha, hname⟩
        · exact Or.inr rfl
        · exact Or.inl ⟨ha, hname⟩
    · rw [if_neg hname]
      constructor
      · rintro (⟨ha, heq⟩ | ⟨hnew, hfound⟩)
        · exact Or.inl ⟨Or.inr ha, heq⟩
        · exact Or.inr ⟨⟨fun heq => hname heq.symm, hnew⟩, hfound⟩
      · rintro (⟨rfl | ha, heq⟩ | ⟨⟨-, hnew⟩, hfound⟩)
        · exact absurd heq hname
        · exact Or.inl ⟨ha, heq⟩
        · exact Or.inr ⟨hnew, hfound⟩

/-- Entries may be put in in any order, and into a table in any order. -/
theorem foldl_insert_perm {t u : NameTable α} {entries others : List α} (htable : t.toList.Perm u.toList)
    (hentries : entries.Perm others) (h : (entries.map Named.name).Nodup) :
    (entries.foldl insert t).toList.Perm (others.foldl insert u).toList := by
  have hnames := hentries.map (Named.name (α := α))
  refine perm_iff_find?.mpr fun name => Option.ext fun a => ?_
  rw [find?_foldl_insert h, find?_foldl_insert (hnames.nodup_iff.mp h), hentries.mem_iff, hnames.mem_iff,
    perm_iff_find?.mp htable]

variable [BEq α]

/-- Sameness, spelt out. -/
theorem beq_iff_lookups {t u : NameTable α} :
    (t == u) = true ↔ t.size = u.size ∧
      ∀ a ∈ t.toList, ∃ b, u.find? (Named.name a) = some b ∧ (a == b) = true := by
  show sameEntries t u = true ↔ _
  simp only [sameEntries, Bool.and_eq_true, beq_iff_eq, List.all_eq_true]
  refine and_congr_right fun _ => forall₂_congr fun a _ => ?_
  cases u.find? (Named.name a) <;> simp

/-- If two tables are the same, they have the same names. -/
theorem mem_names_iff_of_beq {t u : NameTable α} (h : (t == u) = true) (name : String) :
    name ∈ t.names ↔ name ∈ u.names := by
  obtain ⟨hsize, hfound⟩ := beq_iff_lookups.mp h
  have hsub : t.names ⊆ u.names := by
    intro other hother
    obtain ⟨a, ha, rfl⟩ := List.mem_map.mp hother
    obtain ⟨b, hb, _⟩ := hfound a ha
    exact find?_isSome_iff.mp ⟨b, hb⟩
  have hlength : u.names.length ≤ t.names.length := by
    simp only [names, List.length_map]
    exact Nat.le_of_eq hsize.symm
  exact ((List.subperm_of_subset t.names_nodup hsub).perm_of_length_le hlength).mem_iff

/-- Two tables are the same exactly if the same is found under every name in both. -/
theorem beq_iff_find? {t u : NameTable α} :
    (t == u) = true ↔ ∀ name, (t.find? name == u.find? name) = true := by
  constructor
  · intro h name
    obtain ⟨_, hfound⟩ := beq_iff_lookups.mp h
    cases ht : t.find? name with
    | none =>
      have hmem : name ∉ u.names := by
        rw [← mem_names_iff_of_beq h]
        exact find?_eq_none_iff.mp ht
      rw [find?_eq_none_iff.mpr hmem]
      rfl
    | some a =>
      obtain ⟨b, hb, hsame⟩ := hfound a (mem_of_find?_eq_some ht)
      rw [name_of_find?_eq_some ht] at hb
      rw [hb]
      exact hsame
  · intro h
    have hnames : ∀ name, name ∈ t.names ↔ name ∈ u.names := by
      intro name
      have hname := h name
      rw [← find?_isSome_iff, ← find?_isSome_iff]
      cases ht : t.find? name <;> cases hu : u.find? name <;> simp_all
    refine beq_iff_lookups.mpr ⟨?_, fun a ha => ?_⟩
    · have hperm : t.names.Perm u.names :=
        (List.perm_ext_iff_of_nodup t.names_nodup u.names_nodup).mpr hnames
      simpa only [names, size, List.length_map] using hperm.length_eq
    · have hname := h (Named.name a)
      rw [find?_name ha] at hname
      cases hu : u.find? (Named.name a) with
      | none => rw [hu] at hname; exact absurd hname (by simp)
      | some b => rw [hu] at hname; exact ⟨b, rfl, hname⟩

end GraphSchema.NameTable
