/-
Adding to the parts of a type.

Each way to add a part is spelt out once: when it succeeds, and what is there afterwards.  A
whole list of parts is added if its names are new and different, and then they come last, in
their order.

All of these are equivalences.  So a run that has succeeded can be taken apart, and another
one be concluded to succeed: with the same parts in another order, or with all of them at
once.
-/
import GraphSchema.Proofs.Steps
import GraphSchema.Proofs.Tables
import GraphSchema.Schema.Draft

namespace GraphSchema

open Syntax

/-! ### One part

What each function checks, in the order in which it does, and what it adds.  Nothing below opens
these functions again.
-/

namespace Owner

variable {owner : Owner}

theorem addEnumValue_eq_ok_iff {values values' : NameTable EnumValue} {v : EnumValueSyntax} :
    owner.addEnumValue values v = .ok values' ↔
      v.name ∉ values.names ∧ values' = values.insert (owner.enumValue v) := by
  rw [← NameTable.find?_eq_none_iff, addEnumValue]
  cases values.find? v.name with
  | none => simp [eq_comm]
  | some existing => simp

theorem addInputField_eq_ok_iff {fields fields' : NameTable Parameter} {p : InputValueSyntax} :
    owner.addInputField fields p = .ok fields' ↔
      p.name ∉ fields.names ∧ fields' = fields.insert (owner.source.parameter p) := by
  rw [← NameTable.find?_eq_none_iff, addInputField]
  cases fields.find? p.name with
  | none => simp [eq_comm]
  | some existing => simp

theorem addField_eq_ok_iff {fields fields' : NameTable Field} {f : FieldSyntax} :
    owner.addField fields f = .ok fields' ↔
      Builtin.isReserved f.name = false ∧ f.name ∉ fields.names ∧
        (∀ p ∈ f.arguments, Builtin.isReserved p.name = false) ∧
        fields' = fields.insert (owner.field f) := by
  rw [← NameTable.find?_eq_none_iff, addField]
  cases hreserved : Builtin.isReserved f.name with
  | true => simp
  | false =>
    cases fields.find? f.name with
    | some existing => simp
    | none =>
      cases hargument : f.arguments.find? fun p => Builtin.isReserved p.name with
      | some p =>
        have hp := List.find?_some hargument
        have hmem := List.mem_of_find?_eq_some hargument
        simp only [Bool.false_eq_true, if_false, reduceCtorEq, true_and, false_iff, not_and]
        intro hall
        rw [hall p hmem] at hp
        cases hp
      | none =>
        have hall : ∀ p ∈ f.arguments, Builtin.isReserved p.name = false := by
          simpa using List.find?_eq_none.mp hargument
        exact ⟨fun h => ⟨rfl, rfl, hall, (Except.ok.inj h).symm⟩, fun ⟨_, _, _, h⟩ => h ▸ rfl⟩

theorem addInterface_eq_ok_iff {kind : TypeKind} {interfaces interfaces' : List String} {name : String} :
    owner.addInterface kind interfaces name = .ok interfaces' ↔
      ¬(kind = .interface ∧ name = owner.name) ∧ name ∉ interfaces ∧
        interfaces' = interfaces ++ [name] := by
  unfold addInterface
  by_cases hself : kind = .interface ∧ name = owner.name
  · rw [if_pos hself]
    exact ⟨nofun, fun h => absurd hself h.1⟩
  · rw [if_neg hself]
    by_cases hmem : name ∈ interfaces
    · rw [if_pos (List.contains_iff_mem.mpr hmem)]
      exact ⟨nofun, fun h => absurd hmem h.2.1⟩
    · rw [if_neg fun h => hmem (List.contains_iff_mem.mp h)]
      exact ⟨fun h => ⟨hself, hmem, (Except.ok.inj h).symm⟩, fun h => congrArg _ h.2.2.symm⟩

theorem addMember_eq_ok_iff {members members' : NameTable TypeRef} {name : String} :
    owner.addMember members name = .ok members' ↔
      name ∉ members.names ∧ members' = members.insert ⟨name, owner.statedAt⟩ := by
  rw [← NameTable.contains_iff, addMember]
  split
  · next hmem => simp [hmem]
  · next hmem => simp [hmem, eq_comm]

end Owner

/-! ### Whole lists -/

/-- **Parts with new names are added**, one for each that is stated, behind what is there already.
The table may be a part of what the steps go through. -/
theorem exists_insertAll {ε σ α β γ : Type} [Named α] {step : γ → σ → Except ε γ}
    {put : NameTable α → γ} {S : β → σ → Prop} {R : β → α → Prop} {name : β → String} {olds : List β}
    {stated : List σ} {t : NameTable α} (h : List.Forall₂ S olds stated)
    (hstep : ∀ old ∈ olds, ∀ s, S old s → ∀ t : NameTable α, name old ∉ t.names →
      ∃ a, step (put t) s = .ok (put (t.insert a)) ∧ Named.name a = name old ∧ R old a)
    (hnew : (t.names ++ olds.map name).Nodup) :
    ∃ t' news, stated.foldlM step (put t) = .ok (put t') ∧ t'.toList = t.toList ++ news ∧
      List.Forall₂ R olds news := by
  induction h generalizing t with
  | nil => exact ⟨t, [], rfl, (List.append_nil _).symm, .nil⟩
  | @cons old s olds stated hs _ ih =>
    have hold : name old ∉ t.names := fun hmem =>
      (List.nodup_append.mp hnew).2.2 _ hmem _ List.mem_cons_self rfl
    rw [List.forall_mem_cons] at hstep
    obtain ⟨a, ha, hname, hagain⟩ := hstep.1 s hs t hold
    rw [← hname] at hold
    have hnames : (t.insert a).names = t.names ++ [name old] := by
      rw [NameTable.names_insert, if_neg hold, hname]
    rw [List.map_cons, List.append_cons, ← hnames] at hnew
    obtain ⟨t', news, hrest, hlist, hnews⟩ := ih hstep.2 hnew
    refine ⟨t', a :: news, ?_, ?_, .cons hagain hnews⟩
    · rw [List.foldlM_cons, ha]
      exact hrest
    · rw [hlist, NameTable.toList_insert_of_not_mem hold, List.append_assoc, List.singleton_append]

/-! ### What adding comes to

Four of the five kinds of parts come into a table under their names and are otherwise only checked
for themselves, so `AddsParts` covers them with parameters.  Interfaces are a list and have a rule
of their own, because the type itself must not be among them.
-/

/-- The parts that are stated have been added behind those of a table: each of them may be added
at all, and all names are different. -/
structure AddsParts {σ α : Type} [Named α] (key : σ → String) (make : σ → α) (Admits : σ → Prop)
    (stated : List σ) (t t' : NameTable α) : Prop where
  admits : ∀ s ∈ stated, Admits s
  new : (t.names ++ stated.map key).Nodup
  toList : t'.toList = t.toList ++ stated.map make

/-- What holds of the parts that are there, and of every part that is added, holds of all of them. -/
theorem AddsParts.forall_mem {σ α : Type} [Named α] {key : σ → String} {make : σ → α}
    {Admits : σ → Prop} {stated : List σ} {t t' : NameTable α}
    (h : AddsParts key make Admits stated t t') {Q : α → Prop} (ht : ∀ a ∈ t.toList, Q a)
    (hmake : ∀ s ∈ stated, Admits s → Q (make s)) : ∀ a ∈ t'.toList, Q a := by
  rw [h.toList, List.forall_mem_append, List.forall_mem_map]
  exact ⟨ht, fun s hs => hmake s hs (h.admits s hs)⟩

/-- The parts are added one after the other. -/
theorem AddsParts.cons_iff {σ α : Type} [Named α] {key : σ → String} {make : σ → α}
    {Admits : σ → Prop} (hname : ∀ s, Named.name (make s) = key s) {s : σ} {stated : List σ}
    {t t' : NameTable α} :
    AddsParts key make Admits (s :: stated) t t' ↔
      Admits s ∧ key s ∉ t.names ∧ AddsParts key make Admits stated (t.insert (make s)) t' := by
  have hinsert : key s ∉ t.names → (t.insert (make s)).names = t.names ++ [key s] ∧
      (t.insert (make s)).toList = t.toList ++ [make s] := by
    intro hnew
    rw [← hname] at hnew
    rw [NameTable.names_insert, if_neg hnew, hname, NameTable.toList_insert_of_not_mem hnew]
    exact ⟨rfl, rfl⟩
  constructor
  · intro h
    obtain ⟨hs, hadmits⟩ := List.forall_mem_cons.mp h.admits
    have hnew : key s ∉ t.names := fun hmem =>
      (List.nodup_append.mp h.new).2.2 _ hmem _ List.mem_cons_self rfl
    obtain ⟨hnames, hlist⟩ := hinsert hnew
    refine ⟨hs, hnew, hadmits, ?_, ?_⟩
    · rw [hnames, ← List.append_cons]
      exact h.new
    · rw [hlist, ← List.append_cons]
      exact h.toList
  · rintro ⟨hs, hnew, h⟩
    obtain ⟨hnames, hlist⟩ := hinsert hnew
    refine ⟨List.forall_mem_cons.mpr ⟨hs, h.admits⟩, ?_, ?_⟩
    · have hnodup := h.new
      rwa [hnames, ← List.append_cons] at hnodup
    · rw [h.toList, hlist, ← List.append_cons, List.map_cons]

theorem addsParts_nil_iff {σ α : Type} [Named α] {key : σ → String} {make : σ → α}
    {Admits : σ → Prop} {t t' : NameTable α} : AddsParts key make Admits [] t t' ↔ t' = t := by
  constructor
  · exact fun h => NameTable.ext (h.toList.trans (List.append_nil _))
  · rintro rfl
    exact ⟨nofun, (List.append_nil _).symm ▸ t'.names_nodup, (List.append_nil _).symm⟩

theorem AddsParts.append_iff {σ α : Type} [Named α] {key : σ → String} {make : σ → α}
    {Admits : σ → Prop} (hname : ∀ s, Named.name (make s) = key s) {stated more : List σ}
    {t t' : NameTable α} :
    AddsParts key make Admits (stated ++ more) t t' ↔
      ∃ middle, AddsParts key make Admits stated t middle ∧ AddsParts key make Admits more middle t' := by
  induction stated generalizing t with
  | nil => simp only [List.nil_append, addsParts_nil_iff, exists_eq_left]
  | cons s stated ih =>
    rw [List.cons_append, cons_iff hname, ih]
    simp only [cons_iff hname]
    constructor
    · exact fun ⟨hs, hnew, middle, hfirst, hrest⟩ => ⟨middle, ⟨hs, hnew, hfirst⟩, hrest⟩
    · exact fun ⟨middle, ⟨hs, hnew, hfirst⟩, hrest⟩ => ⟨hs, hnew, middle, hfirst, hrest⟩

theorem foldlM_insert_eq_ok_iff {ε σ α : Type} [Named α] {add : NameTable α → σ → Except ε (NameTable α)}
    {key : σ → String} {make : σ → α} {Admits : σ → Prop} {stated : List σ} {t t' : NameTable α}
    (hadd : ∀ s (t t' : NameTable α),
      add t s = .ok t' ↔ Admits s ∧ key s ∉ t.names ∧ t' = t.insert (make s))
    (hname : ∀ s, Named.name (make s) = key s) :
    stated.foldlM add t = .ok t' ↔ AddsParts key make Admits stated t t' := by
  induction stated generalizing t with
  | nil => rw [foldlM_nil_eq_ok_iff, addsParts_nil_iff]
  | cons s stated ih =>
    rw [List.foldlM_cons, bind_eq_ok, AddsParts.cons_iff hname]
    simp only [ih, hadd]
    constructor
    · rintro ⟨first, ⟨hs, hnew, rfl⟩, hrest⟩
      exact ⟨hs, hnew, hrest⟩
    · exact fun ⟨hs, hnew, hrest⟩ => ⟨_, ⟨hs, hnew, rfl⟩, hrest⟩

/-- The interfaces that are stated have been added behind others. -/
structure AddsInterfaces (owner : String) (kind : TypeKind) (stated interfaces interfaces' : List String) :
    Prop where
  other : ∀ name ∈ stated, ¬(kind = .interface ∧ name = owner)
  nodup : stated.Nodup
  new : ∀ name ∈ stated, name ∉ interfaces
  eq : interfaces' = interfaces ++ stated

/-- Interfaces that are added are different from those that are there. -/
theorem AddsInterfaces.distinct {owner : String} {kind : TypeKind} {stated interfaces interfaces' : List String}
    (h : AddsInterfaces owner kind stated interfaces interfaces') (hdistinct : interfaces.Nodup) :
    interfaces'.Nodup := by
  rw [h.eq]
  refine List.nodup_append.mpr ⟨hdistinct, h.nodup, ?_⟩
  rintro name hname _ hmem rfl
  exact h.new name hmem hname

theorem foldlM_addInterface_eq_ok_iff {owner : Owner} {kind : TypeKind}
    {stated interfaces interfaces' : List String} :
    stated.foldlM (owner.addInterface kind) interfaces = .ok interfaces' ↔
      AddsInterfaces owner.name kind stated interfaces interfaces' := by
  induction stated generalizing interfaces with
  | nil =>
    rw [foldlM_nil_eq_ok_iff]
    constructor
    · exact fun h => ⟨nofun, .nil, nofun, h.trans (List.append_nil _).symm⟩
    · exact fun h => h.eq.trans (List.append_nil _)
  | cons name stated ih =>
    rw [List.foldlM_cons, bind_eq_ok]
    simp only [ih, Owner.addInterface_eq_ok_iff]
    constructor
    · rintro ⟨first, ⟨hother, hnew, rfl⟩, hrest⟩
      have hlater := hrest.new
      simp only [List.mem_append, not_or, List.mem_singleton] at hlater
      refine ⟨List.forall_mem_cons.mpr ⟨hother, hrest.other⟩, List.nodup_cons.mpr ⟨?_, hrest.nodup⟩,
        List.forall_mem_cons.mpr ⟨hnew, fun other hmem => (hlater other hmem).1⟩, ?_⟩
      · exact fun hmem => (hlater name hmem).2 rfl
      · rw [hrest.eq, List.append_assoc, List.singleton_append]
    · intro h
      obtain ⟨hother, hothers⟩ := List.forall_mem_cons.mp h.other
      obtain ⟨hfirst, hnodup⟩ := List.nodup_cons.mp h.nodup
      obtain ⟨hnew, hlater⟩ := List.forall_mem_cons.mp h.new
      refine ⟨_, ⟨hother, hnew, rfl⟩, hothers, hnodup, fun other hmem => ?_, ?_⟩
      · rw [List.mem_append, not_or, List.mem_singleton]
        refine ⟨hlater other hmem, ?_⟩
        rintro rfl
        exact hfirst hmem
      · rw [h.eq, List.append_assoc, List.singleton_append]

/-- A field may be added if neither its name nor that of an argument is reserved. -/
def Syntax.FieldSyntax.Admitted (f : FieldSyntax) : Prop :=
  Builtin.isReserved f.name = false ∧ ∀ p ∈ f.arguments, Builtin.isReserved p.name = false

namespace Owner

variable (owner : Owner)

/-- Values come into an enum under their names. -/
abbrev AddsEnumValues : List EnumValueSyntax → NameTable EnumValue → NameTable EnumValue → Prop :=
  AddsParts EnumValueSyntax.name owner.enumValue fun _ => True

/-- Input fields come into a type under their names, with no check of these. -/
abbrev AddsInputFields : List InputValueSyntax → NameTable Parameter → NameTable Parameter → Prop :=
  AddsParts InputValueSyntax.name owner.source.parameter fun _ => True

/-- Fields come into a type under their names, if these and those of their arguments are free. -/
abbrev AddsFields : List FieldSyntax → NameTable Field → NameTable Field → Prop :=
  AddsParts FieldSyntax.name owner.field FieldSyntax.Admitted

/-- Members come into a union under their names, at the place where the union is stated. -/
abbrev AddsMembers : List String → NameTable TypeRef → NameTable TypeRef → Prop :=
  AddsParts id (fun name => ⟨name, owner.statedAt⟩) fun _ => True

variable {owner}

theorem foldlM_addEnumValue_eq_ok_iff {stated : List EnumValueSyntax} {values values' : NameTable EnumValue} :
    stated.foldlM owner.addEnumValue values = .ok values' ↔ owner.AddsEnumValues stated values values' :=
  foldlM_insert_eq_ok_iff (fun _ _ _ => by rw [addEnumValue_eq_ok_iff, true_and]) fun _ => rfl

theorem foldlM_addInputField_eq_ok_iff {stated : List InputValueSyntax} {fields fields' : NameTable Parameter} :
    stated.foldlM owner.addInputField fields = .ok fields' ↔ owner.AddsInputFields stated fields fields' :=
  foldlM_insert_eq_ok_iff (fun _ _ _ => by rw [addInputField_eq_ok_iff, true_and]) fun _ => rfl

theorem foldlM_addField_eq_ok_iff {stated : List FieldSyntax} {fields fields' : NameTable Field} :
    stated.foldlM owner.addField fields = .ok fields' ↔ owner.AddsFields stated fields fields' := by
  refine foldlM_insert_eq_ok_iff (fun f t t' => ?_) fun _ => rfl
  rw [addField_eq_ok_iff, FieldSyntax.Admitted]
  tauto

theorem foldlM_addMember_eq_ok_iff {stated : List String} {members members' : NameTable TypeRef} :
    stated.foldlM owner.addMember members = .ok members' ↔ owner.AddsMembers stated members members' := by
  refine foldlM_insert_eq_ok_iff (fun name t t' => ?_) fun _ => rfl
  rw [addMember_eq_ok_iff, true_and]
  exact Iff.rfl

end Owner

/-- Contents have been added to what a type of their kind is made of. -/
inductive TypeBody.Adds (owner : Owner) : TypeContents → TypeBody → TypeBody → Prop
  | scalar : Adds owner .scalar .scalar .scalar
  | object {interfaces interfaces' more : List String} {fields fields' : NameTable Field}
      {stated : List FieldSyntax} (hinterfaces : AddsInterfaces owner.name .object more interfaces interfaces')
      (hfields : owner.AddsFields stated fields fields') :
      Adds owner (.object more stated) (.object interfaces fields) (.object interfaces' fields')
  | interface {interfaces interfaces' more : List String} {fields fields' : NameTable Field}
      {stated : List FieldSyntax}
      (hinterfaces : AddsInterfaces owner.name .interface more interfaces interfaces')
      (hfields : owner.AddsFields stated fields fields') :
      Adds owner (.interface more stated) (.interface interfaces fields) (.interface interfaces' fields')
  | union {members members' : NameTable TypeRef} {stated : List String}
      (hmembers : owner.AddsMembers stated members members') :
      Adds owner (.union stated) (.union members) (.union members')
  | enum {values values' : NameTable EnumValue} {stated : List EnumValueSyntax}
      (hvalues : owner.AddsEnumValues stated values values') :
      Adds owner (.enum stated) (.enum values) (.enum values')
  | inputObject {fields fields' : NameTable Parameter} {stated : List InputValueSyntax}
      (hfields : owner.AddsInputFields stated fields fields') :
      Adds owner (.inputObject stated) (.inputObject fields) (.inputObject fields')

/-- **When contents are added, and what a type is made of afterwards.** -/
theorem TypeBody.add_eq_ok_iff {owner : Owner} {body body' : TypeBody} {contents : TypeContents} :
    body.add owner contents = .ok body' ↔ Adds owner contents body body' := by
  constructor
  · intro h
    unfold add at h
    split at h
    · obtain rfl := Except.ok.inj h
      exact .scalar
    · obtain ⟨interfaces, hinterfaces, h⟩ := bind_eq_ok.mp h
      obtain ⟨fields, hfields, h⟩ := bind_eq_ok.mp h
      obtain rfl := Except.ok.inj h
      exact .object (foldlM_addInterface_eq_ok_iff.mp hinterfaces)
        (Owner.foldlM_addField_eq_ok_iff.mp hfields)
    · obtain ⟨interfaces, hinterfaces, h⟩ := bind_eq_ok.mp h
      obtain ⟨fields, hfields, h⟩ := bind_eq_ok.mp h
      obtain rfl := Except.ok.inj h
      exact .interface (foldlM_addInterface_eq_ok_iff.mp hinterfaces)
        (Owner.foldlM_addField_eq_ok_iff.mp hfields)
    · obtain ⟨members, hmembers, h⟩ := bind_eq_ok.mp h
      obtain rfl := Except.ok.inj h
      exact .union (Owner.foldlM_addMember_eq_ok_iff.mp hmembers)
    · obtain ⟨values, hvalues, h⟩ := bind_eq_ok.mp h
      obtain rfl := Except.ok.inj h
      exact .enum (Owner.foldlM_addEnumValue_eq_ok_iff.mp hvalues)
    · obtain ⟨fields, hfields, h⟩ := bind_eq_ok.mp h
      obtain rfl := Except.ok.inj h
      exact .inputObject (Owner.foldlM_addInputField_eq_ok_iff.mp hfields)
    · cases h
  · intro h
    cases h with
    | scalar => rfl
    | object hinterfaces hfields | interface hinterfaces hfields =>
      rw [← foldlM_addInterface_eq_ok_iff] at hinterfaces
      rw [← Owner.foldlM_addField_eq_ok_iff] at hfields
      simp only [add, hinterfaces]
      show (List.foldlM owner.addField _ _ >>= _) = _
      rw [hfields]
      rfl
    | union hmembers =>
      rw [← Owner.foldlM_addMember_eq_ok_iff] at hmembers
      simp only [add, hmembers]
      rfl
    | enum hvalues =>
      rw [← Owner.foldlM_addEnumValue_eq_ok_iff] at hvalues
      simp only [add, hvalues]
      rfl
    | inputObject hfields =>
      rw [← Owner.foldlM_addInputField_eq_ok_iff] at hfields
      simp only [add, hfields]
      rfl

end GraphSchema
