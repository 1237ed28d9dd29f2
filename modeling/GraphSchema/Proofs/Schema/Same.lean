/-
When a part of a schema is the same as itself, and that sameness has no direction.

Sameness of parts (`==`) compares floats as floats, and one float is not the same as itself.  No
constant is read as that one, so what is made of constants that have been read is the same as
itself.  The entries of two objects are looked up in one of them, so sameness has no direction as
long as no key of an object occurs twice.

Without these two, a field that is repeated could clash with itself, and whether two fields clash
could depend on which of them comes first.
-/
import GraphSchema.Proofs.Literal
import GraphSchema.Proofs.Decimal.Number
import GraphSchema.Proofs.Tables
import GraphSchema.Schema.TypeDef

namespace GraphSchema

/-! ### Literals

Entries of objects are compared by key.  The number of entries is compared too, and with distinct
keys both together say that neither object has an entry of its own.
-/

namespace Literal

theorem sameItems_iff {items others : List Literal} :
    sameItems items others = true ↔ List.Forall₂ (fun a b => same a b = true) items others := by
  induction items generalizing others with
  | nil => cases others <;> simp [sameItems]
  | cons a items ih => cases others <;> simp [sameItems, ih]

theorem entriesAmong_iff {entries others : List (String × Literal)} :
    entriesAmong entries others = true ↔
      ∀ entry ∈ entries, ∃ b, others.lookup entry.1 = some b ∧ same entry.2 b = true := by
  induction entries with
  | nil => exact iff_of_true rfl nofun
  | cons entry rest ih =>
    obtain ⟨key, a⟩ := entry
    rw [entriesAmong, Bool.and_eq_true, ih, List.forall_mem_cons]
    refine and_congr_left fun _ => ?_
    cases others.lookup key <;> simp

/-- Entries that are found among as many others have their keys. -/
theorem keys_perm_of_entriesAmong {entries others : List (String × Literal)} (hkeys : (entries.map Prod.fst).Nodup)
    (hothers : (others.map Prod.fst).Nodup) (hlength : entries.length = others.length)
    (h : entriesAmong entries others = true) : (entries.map Prod.fst).Perm (others.map Prod.fst) := by
  have hsub : entries.map Prod.fst ⊆ others.map Prod.fst := by
    intro key hkey
    obtain ⟨entry, hentry, rfl⟩ := List.mem_map.mp hkey
    obtain ⟨b, hb, -⟩ := entriesAmong_iff.mp h entry hentry
    exact List.mem_map.mpr ⟨(entry.1, b), (lookup_eq_some_iff_mem hothers).mp hb, rfl⟩
  exact (List.subperm_of_subset hkeys hsub).perm_of_length_le (by simp [hlength])

theorem beq_self_list {items : List Literal} (h : ∀ item ∈ items, (item == item) = true) :
    (list items == list items) = true := by
  show same (.list items) (.list items) = true
  rw [same, sameItems_iff]
  exact List.forall₂_same.mpr h

theorem beq_self_object {entries : List (String × Literal)} (hkeys : (entries.map Prod.fst).Nodup)
    (h : ∀ entry ∈ entries, (entry.2 == entry.2) = true) : (object entries == object entries) = true := by
  show same (.object entries) (.object entries) = true
  rw [same, beq_self_eq_true, Bool.true_and, entriesAmong_iff]
  exact fun entry hentry => ⟨entry.2, (lookup_eq_some_iff_mem hkeys).mpr hentry, h entry hentry⟩

/-- **A constant that has been read is the same as itself.** -/
theorem Proper.beq_self {v : Literal} (h : v.Proper) : (v == v) = true := by
  induction v using Literal.induct with
  | boolean value => exact beq_self_eq_true value
  | enum name => exact beq_self_eq_true name
  | int n => exact beq_self_eq_true n
  | string value => exact beq_self_eq_true value
  | float x =>
    cases h with
    | float hnumber => exact Decimal.beq_self_of_not_isNaN hnumber
  | list items ih =>
    cases h with
    | list hitems => exact beq_self_list fun item hitem => ih item hitem (hitems item hitem)
  | null => rfl
  | object entries ih =>
    cases h with
    | object hsorted _ hvalues =>
      have hkeys : (entries.map Prod.fst).Nodup :=
        List.pairwise_map.mpr (hsorted.imp fun hlt => String.ne_of_lt hlt)
      exact beq_self_object hkeys fun entry hentry => ih entry hentry (hvalues entry hentry)
  | varRef => cases h

/-- No object in the literal has two entries of one key. -/
inductive Keyed : Literal → Prop
  | boolean (value : Bool) : Keyed (.boolean value)
  | enum (name : String) : Keyed (.enum name)
  | float (x : Float) : Keyed (.float x)
  | int (n : Int64) : Keyed (.int n)
  | list {items : List Literal} (h : ∀ item ∈ items, Keyed item) : Keyed (.list items)
  | null : Keyed .null
  | object {entries : List (String × Literal)} (hkeys : (entries.map Prod.fst).Nodup)
      (h : ∀ entry ∈ entries, Keyed entry.2) : Keyed (.object entries)
  | string (value : String) : Keyed (.string value)
  | varRef (name : String) : Keyed (.varRef name)

/-- **Sameness of literals has no direction.** -/
theorem same_symm {a b : Literal} (ha : a.Keyed) (hb : b.Keyed) (h : a.same b = true) : b.same a = true := by
  induction a using Literal.induct generalizing b with
  | boolean | enum | int | string | varRef => cases b <;> simp_all [same]
  | null => cases b <;> simp_all [same]
  | float x =>
    cases b with
    | float y =>
      show (y == x) = true
      rw [Decimal.beq_comm]
      exact h
    | _ => simp [same] at h
  | list items ih =>
    cases b with
    | list others =>
      cases ha with | list hitems =>
      cases hb with | list hothers =>
      rw [same, sameItems_iff] at h ⊢
      induction h with
      | nil => exact .nil
      | cons hab _ ihRest =>
        rw [List.forall_mem_cons] at hitems hothers ih
        exact .cons (ih.1 hitems.1 hothers.1 hab) (ihRest ih.2 hitems.2 hothers.2)
    | _ => simp [same] at h
  | object entries ih =>
    cases b with
    | object others =>
      cases ha with | object hkeys hentries =>
      cases hb with | object hothersKeys hothers =>
      rw [same, Bool.and_eq_true, beq_iff_eq] at h ⊢
      obtain ⟨hlength, hamong⟩ := h
      have hperm := keys_perm_of_entriesAmong hkeys hothersKeys hlength hamong
      rw [entriesAmong_iff] at hamong ⊢
      refine ⟨hlength.symm, fun entry hentry => ?_⟩
      obtain ⟨⟨key, a⟩, ha, hkey⟩ := List.mem_map.mp (hperm.mem_iff.mpr (List.mem_map_of_mem hentry))
      obtain ⟨b, hb, hsame⟩ := hamong _ ha
      obtain rfl : key = entry.1 := hkey
      have hentry' := (lookup_eq_some_iff_mem hothersKeys).mpr hentry
      obtain rfl := Option.some.inj (hb.symm.trans hentry')
      exact ⟨a, (lookup_eq_some_iff_mem hkeys).mpr ha, ih _ ha (hentries _ ha) (hothers _ hentry) hsame⟩
    | _ => simp [same] at h

/-- The literal can be told apart from others: it has no key twice and is the same as itself. -/
structure Settled (v : Literal) : Prop where
  keyed : v.Keyed
  self : (v == v) = true

theorem Settled.list {items : List Literal} (h : ∀ item ∈ items, item.Settled) : (list items).Settled :=
  ⟨.list fun item hitem => (h item hitem).keyed, beq_self_list fun item hitem => (h item hitem).self⟩

theorem Settled.object {entries : List (String × Literal)} (hkeys : (entries.map Prod.fst).Nodup)
    (h : ∀ entry ∈ entries, entry.2.Settled) : (object entries).Settled :=
  ⟨.object hkeys fun entry hentry => (h entry hentry).keyed,
    beq_self_object hkeys fun entry hentry => (h entry hentry).self⟩

end Literal

/-! ### Parts of types -/

instance : ReflBEq Location where
  rfl := by
    intro location
    cases location with
    | builtin => rfl
    | source file position =>
      show (file.samePlace file && position == position) = true
      simp [FilePath.samePlace]

instance : ReflBEq TypeRef := ⟨by intro r; exact beq_self_eq_true r.name⟩

instance : ReflBEq EnumValue where
  rfl := by
    intro v
    show instBEqEnumValue.beq v v = true
    simp [instBEqEnumValue.beq]

theorem Parameter.beq_self {p : Parameter} (h : ∀ v ∈ p.default, (v == v) = true) : (p == p) = true := by
  have hdefault : (p.default == p.default) = true := by
    cases hvalue : p.default with
    | none => rfl
    | some v => exact h v hvalue
  show instBEqParameter.beq p p = true
  simp [instBEqParameter.beq, hdefault]

/-- Tables of the same entries are the same, in whatever order. -/
theorem NameTable.beq_of_perm {α : Type} [Named α] [BEq α] {t u : NameTable α}
    (h : t.toList.Perm u.toList) (hself : ∀ a ∈ t.toList, (a == a) = true) : (t == u) = true := by
  refine beq_iff_find?.mpr fun name => ?_
  rw [perm_iff_find?.mp h]
  cases hfound : u.find? name with
  | none => rfl
  | some a => exact hself a (h.mem_iff.mpr (mem_of_find?_eq_some hfound))

theorem Field.beq_self {f : Field} (h : ∀ p ∈ f.parameters.toList, (p == p) = true) : (f == f) = true := by
  have hparameters := NameTable.beq_of_perm (.refl _) h
  show instBEqField.beq f f = true
  simp [instBEqField.beq, hparameters]

theorem Directive.beq_self {d : Directive} (h : ∀ p ∈ d.parameters.toList, (p == p) = true) :
    (d == d) = true := by
  have hparameters := NameTable.beq_of_perm (.refl _) h
  show instBEqDirective.beq d d = true
  simp [instBEqDirective.beq, hparameters]

end GraphSchema
