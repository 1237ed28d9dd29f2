/-
Adding in another order.

The same parts may be added to a type in any order: they are refused in either order or in none,
and what the type is made of is the same but for its order (`TypeBody.Reordered`).  One step goes
through for another order as well (`TypeBody.Adds.reorder`), two steps may be exchanged
(`TypeBody.Adds.exchange`), and so a list of extensions may be permuted.

The parts themselves carry the places where they were stated, so they are the same in either
order.  Only the order in which they stand differs.
-/
import GraphSchema.Proofs.Schema.Extending

namespace GraphSchema

open Syntax

/-! ### Parts

Whether a part can be added depends on which names are taken, and not on the order in which they
came.
-/

section Parts

variable {σ α : Type} [Named α] {key : σ → String} {make make' : σ → α} {Admits Admits' : σ → Prop}
  {stated stated' : List σ} {t t' u m : NameTable α}

theorem AddsParts.names_eq (h : AddsParts key make Admits stated t t')
    (hname : ∀ s, Named.name (make s) = key s) : t'.names = t.names ++ stated.map key := by
  have hnames : Named.name ∘ make = key := funext hname
  rw [NameTable.names, h.toList, List.map_append, List.map_map, hnames]
  rfl

/-- Parts can be added if they may be, and have new and different names. -/
theorem exists_addsParts (hname : ∀ s, Named.name (make s) = key s) (hadmits : ∀ s ∈ stated, Admits s)
    (hnew : (t.names ++ stated.map key).Nodup) : ∃ t', AddsParts key make Admits stated t t' := by
  have hnames : Named.name ∘ make = key := funext hname
  refine ⟨⟨t.toList ++ stated.map make, List.pairwise_map.mp ?_⟩, hadmits, hnew, rfl⟩
  rw [List.map_append, List.map_map, hnames]
  exact hnew

/-- Parts may be added in any order, and to a table in any order. -/
theorem AddsParts.reorder (h : AddsParts key make Admits stated t t')
    (hname : ∀ s, Named.name (make s) = key s) (hstated : stated.Perm stated')
    (htable : t.toList.Perm u.toList) :
    ∃ u', AddsParts key make Admits stated' u u' ∧ t'.toList.Perm u'.toList := by
  have hnames := (htable.map Named.name).append (hstated.map key)
  obtain ⟨u', hu'⟩ := exists_addsParts (t := u) hname (fun s hs => h.admits s (hstated.mem_iff.mpr hs))
    (hnames.nodup_iff.mp h.new)
  refine ⟨u', hu', ?_⟩
  rw [h.toList, hu'.toList]
  exact htable.append (hstated.map make)

/-- Two lists of parts may be added the other way round. -/
theorem AddsParts.exchange (h : AddsParts key make Admits stated t m)
    (h' : AddsParts key make' Admits' stated' m t') (hname : ∀ s, Named.name (make s) = key s)
    (hname' : ∀ s, Named.name (make' s) = key s) :
    ∃ m' u', AddsParts key make' Admits' stated' t m' ∧ AddsParts key make Admits stated m' u' ∧
      t'.toList.Perm u'.toList := by
  have hnew := h'.new
  rw [h.names_eq hname, List.append_assoc] at hnew
  have hnew' : (t.names ++ (stated'.map key ++ stated.map key)).Nodup :=
    (List.perm_append_comm.append_left t.names).nodup_iff.mp hnew
  obtain ⟨m', hm'⟩ := exists_addsParts (t := t) hname' h'.admits
    (hnew'.sublist ((List.sublist_append_left _ _).append_left _))
  rw [← List.append_assoc, ← hm'.names_eq hname'] at hnew'
  obtain ⟨u', hu'⟩ := exists_addsParts (t := m') hname h.admits hnew'
  refine ⟨m', u', hm', hu', ?_⟩
  rw [h'.toList, h.toList, hu'.toList, hm'.toList, List.append_assoc, List.append_assoc]
  exact List.perm_append_comm.append_left _

end Parts

section Interfaces

variable {owner : String} {kind : TypeKind} {stated stated' interfaces interfaces' others middle : List String}

theorem AddsInterfaces.reorder (h : AddsInterfaces owner kind stated interfaces interfaces')
    (hperm : interfaces.Perm others) :
    ∃ others', AddsInterfaces owner kind stated others others' ∧ interfaces'.Perm others' := by
  refine ⟨others ++ stated, ⟨h.other, h.nodup, fun name hname hmem => ?_, rfl⟩, ?_⟩
  · exact h.new name hname (hperm.mem_iff.mpr hmem)
  · rw [h.eq]
    exact hperm.append_right stated

theorem AddsInterfaces.exchange (h : AddsInterfaces owner kind stated interfaces middle)
    (h' : AddsInterfaces owner kind stated' middle interfaces') :
    ∃ middle' others', AddsInterfaces owner kind stated' interfaces middle' ∧
      AddsInterfaces owner kind stated middle' others' ∧ interfaces'.Perm others' := by
  have hnew := h'.new
  simp only [h.eq, List.mem_append, not_or] at hnew
  refine ⟨interfaces ++ stated', interfaces ++ stated' ++ stated,
    ⟨h'.other, h'.nodup, fun name hname => (hnew name hname).1, rfl⟩,
    ⟨h.other, h.nodup, fun name hname hmem => ?_, rfl⟩, ?_⟩
  · rcases List.mem_append.mp hmem with hmem | hmem
    · exact h.new name hname hmem
    · exact (hnew name hmem).2 hname
  · rw [h'.eq, h.eq, List.append_assoc, List.append_assoc]
    exact List.perm_append_comm.append_left _

end Interfaces

/-! ### Types -/

/-- The two are made of the same parts, in some order. -/
inductive TypeBody.Reordered : TypeBody → TypeBody → Prop
  | enum {values values' : NameTable EnumValue} (h : values.toList.Perm values'.toList) :
      Reordered (.enum values) (.enum values')
  | inputObject {fields fields' : NameTable Parameter} (h : fields.toList.Perm fields'.toList) :
      Reordered (.inputObject fields) (.inputObject fields')
  | interface {interfaces interfaces' : List String} {fields fields' : NameTable Field}
      (hinterfaces : interfaces.Perm interfaces') (hfields : fields.toList.Perm fields'.toList) :
      Reordered (.interface interfaces fields) (.interface interfaces' fields')
  | object {interfaces interfaces' : List String} {fields fields' : NameTable Field}
      (hinterfaces : interfaces.Perm interfaces') (hfields : fields.toList.Perm fields'.toList) :
      Reordered (.object interfaces fields) (.object interfaces' fields')
  | scalar : Reordered .scalar .scalar
  | union {members members' : NameTable TypeRef} (h : members.toList.Perm members'.toList) :
      Reordered (.union members) (.union members')

namespace TypeBody

variable {owner owner' : Owner} {contents contents' : TypeContents} {body body' middle other : TypeBody}

theorem Reordered.refl (body : TypeBody) : body.Reordered body := by
  cases body with
  | enum => exact .enum (.refl _)
  | inputObject => exact .inputObject (.refl _)
  | interface => exact .interface (.refl _) (.refl _)
  | object => exact .object (.refl _) (.refl _)
  | scalar => exact .scalar
  | union => exact .union (.refl _)

theorem Reordered.trans (h : body.Reordered middle) (h' : middle.Reordered other) : body.Reordered other := by
  cases h with
  | enum h => cases h' with | enum h' => exact .enum (h.trans h')
  | inputObject h => cases h' with | inputObject h' => exact .inputObject (h.trans h')
  | interface hi hf => cases h' with | interface hi' hf' => exact .interface (hi.trans hi') (hf.trans hf')
  | object hi hf => cases h' with | object hi' hf' => exact .object (hi.trans hi') (hf.trans hf')
  | scalar => exact h'
  | union h => cases h' with | union h' => exact .union (h.trans h')

theorem Reordered.kind_eq (h : body.Reordered other) : body.kind = other.kind := by
  cases h <;> rfl

/-- What is added to a type can be added to it in any order that it has. -/
theorem Adds.reorder (h : Adds owner contents body body') (hbody : body.Reordered other) :
    ∃ other', Adds owner contents other other' ∧ body'.Reordered other' := by
  cases h with
  | scalar => cases hbody with | scalar => exact ⟨_, .scalar, .scalar⟩
  | object hinterfaces hfields =>
    cases hbody with
    | object hi hf =>
      obtain ⟨_, hinterfaces', hperm⟩ := hinterfaces.reorder hi
      obtain ⟨_, hfields', hperm'⟩ := hfields.reorder (fun _ => rfl) (.refl _) hf
      exact ⟨_, .object hinterfaces' hfields', .object hperm hperm'⟩
  | interface hinterfaces hfields =>
    cases hbody with
    | interface hi hf =>
      obtain ⟨_, hinterfaces', hperm⟩ := hinterfaces.reorder hi
      obtain ⟨_, hfields', hperm'⟩ := hfields.reorder (fun _ => rfl) (.refl _) hf
      exact ⟨_, .interface hinterfaces' hfields', .interface hperm hperm'⟩
  | union hmembers =>
    cases hbody with
    | union h =>
      obtain ⟨_, hmembers', hperm⟩ := hmembers.reorder (fun _ => rfl) (.refl _) h
      exact ⟨_, .union hmembers', .union hperm⟩
  | enum hvalues =>
    cases hbody with
    | enum h =>
      obtain ⟨_, hvalues', hperm⟩ := hvalues.reorder (fun _ => rfl) (.refl _) h
      exact ⟨_, .enum hvalues', .enum hperm⟩
  | inputObject hfields =>
    cases hbody with
    | inputObject h =>
      obtain ⟨_, hfields', hperm⟩ := hfields.reorder (fun _ => rfl) (.refl _) h
      exact ⟨_, .inputObject hfields', .inputObject hperm⟩

/-- What two sources add to a type can be added the other way round. -/
theorem Adds.exchange (h : Adds owner contents body middle) (h' : Adds owner' contents' middle body')
    (howner : owner.name = owner'.name) :
    ∃ middle' other', Adds owner' contents' body middle' ∧ Adds owner contents middle' other' ∧
      body'.Reordered other' := by
  cases h with
  | scalar => cases h' with | scalar => exact ⟨_, _, .scalar, .scalar, .scalar⟩
  | object hinterfaces hfields =>
    cases h' with
    | object hinterfaces' hfields' =>
      rw [howner] at hinterfaces
      obtain ⟨_, _, hi, hi', hperm⟩ := hinterfaces.exchange hinterfaces'
      rw [← howner] at hi'
      obtain ⟨_, _, hf, hf', hperm'⟩ := hfields.exchange hfields' (fun _ => rfl) (fun _ => rfl)
      exact ⟨_, _, .object hi hf, .object hi' hf', .object hperm hperm'⟩
  | interface hinterfaces hfields =>
    cases h' with
    | interface hinterfaces' hfields' =>
      rw [howner] at hinterfaces
      obtain ⟨_, _, hi, hi', hperm⟩ := hinterfaces.exchange hinterfaces'
      rw [← howner] at hi'
      obtain ⟨_, _, hf, hf', hperm'⟩ := hfields.exchange hfields' (fun _ => rfl) (fun _ => rfl)
      exact ⟨_, _, .interface hi hf, .interface hi' hf', .interface hperm hperm'⟩
  | union hmembers =>
    cases h' with
    | union hmembers' =>
      obtain ⟨_, _, h, h', hperm⟩ := hmembers.exchange hmembers' (fun _ => rfl) (fun _ => rfl)
      exact ⟨_, _, .union h, .union h', .union hperm⟩
  | enum hvalues =>
    cases h' with
    | enum hvalues' =>
      obtain ⟨_, _, h, h', hperm⟩ := hvalues.exchange hvalues' (fun _ => rfl) (fun _ => rfl)
      exact ⟨_, _, .enum h, .enum h', .enum hperm⟩
  | inputObject hfields =>
    cases h' with
    | inputObject hfields' =>
      obtain ⟨_, _, h, h', hperm⟩ := hfields.exchange hfields' (fun _ => rfl) (fun _ => rfl)
      exact ⟨_, _, .inputObject h, .inputObject h', .inputObject hperm⟩

end TypeBody

/-- The two types differ at most in the order of their parts. -/
structure TypeDef.Reordered (t u : TypeDef) : Prop where
  name : t.name = u.name
  description : t.description = u.description
  location : t.location = u.location
  body : t.body.Reordered u.body

namespace TypeDef

variable {t t' u : TypeDef} {extensions extensions' : List PendingExtension}

theorem Reordered.refl (t : TypeDef) : t.Reordered t := ⟨rfl, rfl, rfl, .refl _⟩

theorem Reordered.trans {v : TypeDef} (h : t.Reordered u) (h' : u.Reordered v) : t.Reordered v :=
  ⟨h.name.trans h'.name, h.description.trans h'.description, h.location.trans h'.location,
    h.body.trans h'.body⟩

theorem Reordered.owner_eq (h : t.Reordered u) (extension : PendingExtension) :
    extension.owner t = extension.owner u := by
  unfold PendingExtension.owner
  rw [h.location]

/-- What extends a type extends it in any order that its parts have. -/
theorem Extended.reorder (h : t.Extended extensions t') (ht : t.Reordered u) :
    ∃ u', u.Extended extensions u' ∧ t'.Reordered u' := by
  induction h generalizing u with
  | nil => exact ⟨u, .nil u, ht⟩
  | cons hbody _ ih =>
    obtain ⟨body, hadds, hreordered⟩ := hbody.reorder ht.body
    obtain ⟨u', hrest, hu'⟩ := ih (u := { u with body }) ⟨ht.name, ht.description, ht.location, hreordered⟩
    rw [ht.owner_eq] at hadds
    exact ⟨u', .cons hadds hrest, hu'⟩

/-- **A type may be extended in any order.** -/
theorem Extended.perm (h : t.Extended extensions t') (hperm : extensions.Perm extensions')
    (hname : ∀ extension ∈ extensions, extension.type.name = t.name) :
    ∃ u', t.Extended extensions' u' ∧ t'.Reordered u' := by
  induction hperm generalizing t t' with
  | nil => exact ⟨t', h, .refl t'⟩
  | cons extension _ ih =>
    rw [List.forall_mem_cons] at hname
    obtain ⟨body, hbody, hrest⟩ := cons_iff.mp h
    obtain ⟨u', hrest', hu'⟩ := ih hrest hname.2
    exact ⟨u', .cons hbody hrest', hu'⟩
  | swap first second rest =>
    simp only [List.forall_mem_cons] at hname
    obtain ⟨middle, hmiddle, h⟩ := cons_iff.mp h
    obtain ⟨body, hbody, hrest⟩ := cons_iff.mp h
    have hsame : (second.owner t).name = (first.owner t).name := hname.1.trans hname.2.1.symm
    obtain ⟨middle', body', hmiddle', hbody', hreordered⟩ := hmiddle.exchange hbody hsame
    obtain ⟨u', hrest', hu'⟩ := hrest.reorder (u := { t with body := body' })
      ⟨rfl, rfl, rfl, hreordered⟩
    exact ⟨u', .cons hmiddle' (.cons hbody' hrest'), hu'⟩
  | trans hfirst _ ih ih' =>
    obtain ⟨u', hu', hreordered⟩ := ih h hname
    obtain ⟨v', hv', hreordered'⟩ := ih' hu' fun extension hmem => hname extension (hfirst.mem_iff.mpr hmem)
    exact ⟨v', hv', hreordered.trans hreordered'⟩

end TypeDef

end GraphSchema
