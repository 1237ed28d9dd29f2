/-
Tables of named things.

A `NameTable` keeps its entries in the order of their first insertion, and no two of
them share a name.  The order shows in everything that is listed; two tables are
nevertheless the same (`==`) when they hold the same entries in any order.
-/
namespace GraphSchema

/-- A kind of thing that carries its own name. -/
class Named (α : Type) where
  name : α → String

/-- Entries with pairwise different names, in order. -/
structure NameTable (α : Type) [Named α] where
  toList : List α
  distinct : toList.Pairwise fun a b => Named.name a ≠ Named.name b

namespace NameTable

variable {α : Type} [Named α]

/-- The table with no entries. -/
def empty : NameTable α := ⟨[], .nil⟩

instance : EmptyCollection (NameTable α) := ⟨empty⟩

instance : Inhabited (NameTable α) := ⟨empty⟩

/-- The names in the order of the table. -/
def names (t : NameTable α) : List String := t.toList.map Named.name

/-- The entry with a name, if there is one. -/
def find? (t : NameTable α) (name : String) : Option α :=
  t.toList.find? fun a => Named.name a == name

/-- Whether the table has an entry with the name. -/
def contains (t : NameTable α) (name : String) : Bool := (t.find? name).isSome

/-- Whether the table has no entry. -/
def isEmpty (t : NameTable α) : Bool := t.toList.isEmpty

/-- How many entries the table has. -/
def size (t : NameTable α) : Nat := t.toList.length

/-- The entries, with the one of `a`'s name replaced by `a`. -/
def replaceIn (a : α) (entries : List α) : List α :=
  entries.map fun b => if Named.name b = Named.name a then a else b

theorem map_name_replaceIn (a : α) (entries : List α) :
    (replaceIn a entries).map Named.name = entries.map Named.name := by
  simp only [replaceIn, List.map_map]
  refine List.map_congr_left fun b _ => ?_
  simp only [Function.comp_apply]
  split
  · next h => exact h.symm
  · rfl

/-- Puts an entry into the table: at the place of the entry of that name, or at the end. -/
def insert (t : NameTable α) (a : α) : NameTable α :=
  if h : ∃ b ∈ t.toList, Named.name b = Named.name a then
    ⟨replaceIn a t.toList, by
      have names := t.distinct
      rw [← List.pairwise_map (f := Named.name)] at names ⊢
      rwa [map_name_replaceIn]⟩
  else
    ⟨t.toList ++ [a], by
      refine List.pairwise_append.mpr ⟨t.distinct, by simp, ?_⟩
      intro b hb c hc hname
      obtain rfl := List.mem_singleton.mp hc
      exact h ⟨b, hb, hname⟩⟩

/-- The table of a list, in which a later entry replaces an earlier one of its name. -/
def ofList (entries : List α) : NameTable α := entries.foldl insert empty

/-- The entries that satisfy a predicate. -/
def filter (t : NameTable α) (p : α → Bool) : NameTable α :=
  ⟨t.toList.filter p, t.distinct.filter p⟩

/-- The two tables have the same entries, whatever their order. -/
def sameEntries [BEq α] (t u : NameTable α) : Bool :=
  t.size == u.size && t.toList.all fun a =>
    match u.find? (Named.name a) with
    | some b => a == b
    | none => false

instance [BEq α] : BEq (NameTable α) := ⟨sameEntries⟩

/-! ### What is found -/

theorem name_of_find?_eq_some {t : NameTable α} {name : String} {a : α}
    (h : t.find? name = some a) : Named.name a = name := by
  simpa using List.find?_some h

theorem mem_of_find?_eq_some {t : NameTable α} {name : String} {a : α}
    (h : t.find? name = some a) : a ∈ t.toList := List.mem_of_find?_eq_some h

theorem contains_iff {t : NameTable α} {name : String} :
    t.contains name = true ↔ name ∈ t.names := by
  simp [contains, find?, names, List.find?_isSome]

/-- An entry is what is found under its name. -/
theorem find?_name {t : NameTable α} {a : α} (h : a ∈ t.toList) :
    t.find? (Named.name a) = some a := by
  obtain ⟨entries, distinct⟩ := t
  simp only [find?] at h ⊢
  induction entries with
  | nil => simp at h
  | cons b rest ih =>
    obtain ⟨hb, hrest⟩ := List.pairwise_cons.mp distinct
    rcases List.mem_cons.mp h with rfl | hmem
    · simp
    · rw [List.find?_cons_of_neg (by simpa using hb a hmem)]
      exact ih hrest hmem

theorem find?_eq_some_iff {t : NameTable α} {name : String} {a : α} :
    t.find? name = some a ↔ a ∈ t.toList ∧ Named.name a = name :=
  ⟨fun h => ⟨mem_of_find?_eq_some h, name_of_find?_eq_some h⟩,
    fun ⟨hmem, hname⟩ => hname ▸ find?_name hmem⟩

theorem names_nodup (t : NameTable α) : t.names.Nodup :=
  List.pairwise_map.mpr t.distinct

/-! ### What inserting changes -/

theorem toList_insert_of_mem {t : NameTable α} {a : α} (h : Named.name a ∈ t.names) :
    (t.insert a).toList = replaceIn a t.toList := by
  have h' : ∃ b ∈ t.toList, Named.name b = Named.name a := List.mem_map.mp h
  simp only [insert, dif_pos h']

theorem toList_insert_of_not_mem {t : NameTable α} {a : α} (h : Named.name a ∉ t.names) :
    (t.insert a).toList = t.toList ++ [a] := by
  have h' : ¬∃ b ∈ t.toList, Named.name b = Named.name a := fun hex => h (List.mem_map.mpr hex)
  simp only [insert, dif_neg h']

/-- A name keeps its place, and a new one comes last. -/
theorem names_insert (t : NameTable α) (a : α) :
    (t.insert a).names
      = if Named.name a ∈ t.names then t.names else t.names ++ [Named.name a] := by
  split
  · next h => rw [names, toList_insert_of_mem h, map_name_replaceIn, names]
  · next h => rw [names, toList_insert_of_not_mem h, List.map_append, names]; rfl

theorem find?_replaceIn (a : α) (entries : List α) (name : String) :
    (replaceIn a entries).find? (fun b => Named.name b == name)
      = (entries.find? fun b => Named.name b == name).map fun b =>
          if Named.name b = Named.name a then a else b := by
  rw [replaceIn, List.find?_map]
  congr 2
  funext b
  simp only [Function.comp_apply]
  split
  · next h => rw [h]
  · rfl

/-- What is found after an insertion: the new entry under its own name, and under any
other name what was found before. -/
theorem find?_insert (t : NameTable α) (a : α) (name : String) :
    (t.insert a).find? name = if Named.name a = name then some a else t.find? name := by
  by_cases hmem : Named.name a ∈ t.names
  · rw [find?, toList_insert_of_mem hmem, find?_replaceIn]
    split
    · next h =>
      obtain ⟨b, hb⟩ := Option.isSome_iff_exists.mp (contains_iff.mpr (h ▸ hmem))
      have hname := name_of_find?_eq_some hb
      rw [find?] at hb
      rw [hb, Option.map_some, if_pos (hname.trans h.symm)]
    · next h =>
      rw [find?]
      cases hb : t.toList.find? fun b => Named.name b == name with
      | none => rfl
      | some b =>
        have hname : Named.name b = name := by simpa using List.find?_some hb
        rw [Option.map_some, if_neg fun heq : Named.name b = Named.name a => h (heq ▸ hname)]
  · rw [find?, toList_insert_of_not_mem hmem, List.find?_append]
    split
    · next h =>
      have hnone : (t.toList.find? fun b => Named.name b == name) = none := by
        refine List.find?_eq_none.mpr fun b hb heq => hmem ?_
        rw [h, ← (by simpa using heq : Named.name b = name)]
        exact List.mem_map_of_mem hb
      rw [hnone]
      simp [h]
    · next h => simp [find?, h]

end NameTable

end GraphSchema
