/-
What extending comes to.

Extensions are applied one after the other, each to the type that it names.  What becomes of one
type depends on the extensions of its name alone, and on nothing else that the draft holds
(`TypeDef.Extended`), so the types after all extensions can be told one by one.

A property of types that nothing which is added can break holds of the types of every draft, and
after their extensions too (`Draft.Loaded.forall_body`, `Draft.ExtendsTo.forall_body`).
-/
import GraphSchema.Proofs.Related
import GraphSchema.Proofs.Schema.Built
import GraphSchema.Proofs.Schema.Loaded

namespace GraphSchema

open Syntax

/-- The type that an extension adds to, as its owner. -/
def PendingExtension.owner (extension : PendingExtension) (t : TypeDef) : Owner :=
  ⟨extension.source, extension.type.name, t.location,
    extension.source.location extension.type.position⟩

/-- Extensions have been added to a type, one after the other. -/
inductive TypeDef.Extended : List PendingExtension → TypeDef → TypeDef → Prop
  | nil (t : TypeDef) : Extended [] t t
  | cons {extension : PendingExtension} {extensions : List PendingExtension} {t t' : TypeDef}
      {body : TypeBody} (hbody : TypeBody.Adds (extension.owner t) extension.type.contents t.body body)
      (hrest : Extended extensions { t with body } t') : Extended (extension :: extensions) t t'

namespace TypeDef.Extended

variable {extension : PendingExtension} {extensions : List PendingExtension} {t t' : TypeDef}

theorem nil_iff : Extended [] t t' ↔ t' = t := by
  constructor
  · rintro ⟨⟩
    rfl
  · rintro rfl
    exact .nil t'

theorem cons_iff : Extended (extension :: extensions) t t' ↔
    ∃ body, TypeBody.Adds (extension.owner t) extension.type.contents t.body body ∧
      Extended extensions { t with body } t' := by
  constructor
  · rintro (_ | ⟨hbody, hrest⟩)
    exact ⟨_, hbody, hrest⟩
  · exact fun ⟨_, hbody, hrest⟩ => .cons hbody hrest

/-- Extensions change nothing but what a type is made of. -/
theorem rest (h : Extended extensions t t') :
    t'.name = t.name ∧ t'.description = t.description ∧ t'.location = t.location := by
  induction h with
  | nil => exact ⟨rfl, rfl, rfl⟩
  | cons _ _ ih => exact ih

end TypeDef.Extended

theorem TypeBody.Adds.kind_eq {owner : Owner} {contents : TypeContents} {body body' : TypeBody}
    (h : Adds owner contents body body') : body.kind = contents.kind ∧ body'.kind = contents.kind := by
  cases h <;> exact ⟨rfl, rfl⟩

theorem TypeBody.Adds.unique {owner : Owner} {contents : TypeContents} {body first second : TypeBody}
    (h : Adds owner contents body first) (h' : Adds owner contents body second) : first = second := by
  rw [← add_eq_ok_iff] at h h'
  exact Except.ok.inj (h.symm.trans h')

theorem TypeDef.Extended.unique {extensions : List PendingExtension} {t first second : TypeDef}
    (h : t.Extended extensions first) (h' : t.Extended extensions second) : first = second := by
  induction h with
  | nil => exact (nil_iff.mp h').symm
  | cons hbody _ ih =>
    obtain ⟨_, hother, hrest⟩ := cons_iff.mp h'
    exact ih (hbody.unique hother ▸ hrest)

/-- Extensions are of the kind of the type. -/
theorem TypeDef.Extended.kinds {extensions : List PendingExtension} {t t' : TypeDef}
    (h : t.Extended extensions t') : ∀ extension ∈ extensions, extension.type.contents.kind = t.kind := by
  induction h with
  | nil => exact nofun
  | cons hbody _ ih =>
    refine List.forall_mem_cons.mpr ⟨hbody.kind_eq.1.symm, fun extension hmem => ?_⟩
    exact (ih extension hmem).trans (hbody.kind_eq.2.trans hbody.kind_eq.1.symm)

/-- Extensions do not change the kind of a type. -/
theorem TypeDef.Extended.kind_eq {extensions : List PendingExtension} {t t' : TypeDef}
    (h : t.Extended extensions t') : t'.kind = t.kind := by
  induction h with
  | nil => rfl
  | cons hbody _ ih => exact ih.trans (hbody.kind_eq.2.trans hbody.kind_eq.1.symm)

namespace Draft

variable {types types' : NameTable TypeDef}

theorem applyExtension_eq_ok_iff {extension : PendingExtension} :
    applyExtension types extension = .ok types' ↔
      ∃ t, types.find? extension.type.name = some t ∧
        ∃ body, TypeBody.Adds (extension.owner t) extension.type.contents t.body body ∧
          types' = types.insert { t with body } := by
  unfold applyExtension
  dsimp only
  cases types.find? extension.type.name with
  | none => simp
  | some t =>
    dsimp only
    rw [bind_eq_ok]
    simp only [TypeBody.add_eq_ok_iff, Option.some.injEq, exists_eq_left']
    constructor
    · rintro ⟨body, hbody, heq⟩
      exact ⟨body, hbody, (Except.ok.inj heq).symm⟩
    · rintro ⟨body, hbody, rfl⟩
      exact ⟨body, hbody, rfl⟩

/-- Extending a type changes no name. -/
theorem names_insert_body {name : String} {t : TypeDef} (ht : types.find? name = some t) (body : TypeBody) :
    (types.insert { t with body }).names = types.names := by
  rw [NameTable.names_insert]
  exact if_pos (List.mem_map_of_mem (NameTable.mem_of_find?_eq_some ht))

/-- Once a type has been extended, what is left are the other extensions. -/
theorem extended_insert_iff {extension : PendingExtension} {extensions : List PendingExtension}
    {t : TypeDef} {body : TypeBody} (ht : types.find? extension.type.name = some t)
    (hbody : TypeBody.Adds (extension.owner t) extension.type.contents t.body body) :
    List.Forall₂ (fun u u' => u.Extended (extensions.filter fun e => e.type.name == u.name) u')
        (types.insert { t with body }).toList types'.toList ↔
      List.Forall₂ (fun u u' => u.Extended ((extension :: extensions).filter fun e => e.type.name == u.name) u')
        types.toList types'.toList := by
  have hnamed : t.name = extension.type.name := NameTable.name_of_find?_eq_some ht
  have hname : Named.name { t with body } = extension.type.name := hnamed
  rw [NameTable.toList_insert_of_find? ht hname, List.forall₂_map_left_iff]
  refine forall₂_congr_of_mem fun u hu u' => ?_
  rw [List.filter_cons, show Named.name u = u.name from rfl]
  by_cases hname : u.name = extension.type.name
  · obtain rfl : t = u := by
      rw [← hname] at ht
      exact Option.some.inj (ht.symm.trans (NameTable.find?_name hu))
    rw [if_pos hname, if_pos (beq_iff_eq.mpr hname.symm), TypeDef.Extended.cons_iff]
    exact ⟨fun h => ⟨body, hbody, h⟩, fun ⟨_, hother, h⟩ => hbody.unique hother ▸ h⟩
  · rw [if_neg hname, if_neg fun h => hname (beq_iff_eq.mp h).symm]

/-- **What applying extensions comes to**: every type that is extended is there, and each type has
been extended by the extensions of its name. -/
theorem foldlM_applyExtension_eq_ok_iff {extensions : List PendingExtension} :
    extensions.foldlM applyExtension types = .ok types' ↔
      (∀ extension ∈ extensions, extension.type.name ∈ types.names) ∧
        List.Forall₂ (fun t t' => t.Extended (extensions.filter fun e => e.type.name == t.name) t')
          types.toList types'.toList := by
  induction extensions generalizing types with
  | nil =>
    rw [foldlM_nil_eq_ok_iff]
    simp only [List.filter_nil, TypeDef.Extended.nil_iff, eq_comm, List.forall₂_eq_eq_eq]
    exact ⟨fun h => ⟨nofun, congrArg NameTable.toList h⟩, fun h => NameTable.ext h.2⟩
  | cons extension extensions ih =>
    rw [List.foldlM_cons, bind_eq_ok]
    simp only [applyExtension_eq_ok_iff, ih, List.forall_mem_cons]
    constructor
    · rintro ⟨_, ⟨t, ht, body, hbody, rfl⟩, hnames, hrest⟩
      rw [names_insert_body ht] at hnames
      exact ⟨⟨NameTable.find?_isSome_iff.mp ⟨t, ht⟩, hnames⟩, (extended_insert_iff ht hbody).mp hrest⟩
    · rintro ⟨⟨hname, hnames⟩, hall⟩
      obtain ⟨t, ht⟩ := NameTable.find?_isSome_iff.mpr hname
      obtain ⟨t', -, hextended⟩ := exists_related_of_mem hall (NameTable.mem_of_find?_eq_some ht)
      have hnamed : t.name = extension.type.name := NameTable.name_of_find?_eq_some ht
      rw [List.filter_cons, if_pos (beq_iff_eq.mpr hnamed.symm), TypeDef.Extended.cons_iff] at hextended
      obtain ⟨body, hbody, -⟩ := hextended
      refine ⟨_, ⟨t, ht, body, hbody, rfl⟩, ?_, (extended_insert_iff ht hbody).mpr hall⟩
      rwa [names_insert_body ht]

/-! ### What adding keeps

A property that holds of types with nothing in them, and that no part which is added can break,
holds of all types.  One case for definitions, one for extensions.
-/

variable {draft draft' : Draft} {P : String → TypeBody → Prop}

/-- What holds of types without parts, and is kept by whatever is added, holds of all types that
are loaded, -/
theorem Loaded.forall_body {items : List StatedItem}
    (hadds : ∀ owner contents body body', TypeBody.Adds owner contents body body' →
      P owner.name body → P owner.name body')
    (h : Loaded draft items draft') (hempty : ∀ name kind, P name (.empty kind))
    (hbefore : ∀ t ∈ draft.types.toList, P t.name t.body) : ∀ t ∈ draft'.types.toList, P t.name t.body := by
  obtain ⟨news, hnews, -, -, heq⟩ := h.types
  rw [heq]
  intro t ht
  rcases NameTable.mem_of_mem_foldl_insert ht with ht | ht
  · obtain ⟨definition, -, hdefines⟩ := exists_related_of_mem_right hnews ht
    rw [hdefines.name]
    exact hadds _ _ _ _ hdefines.body (hempty _ _)
  · exact hbefore t ht

/-- and of all types when they have been extended, if it holds of those that every schema has and is
kept by what extensions add. -/
theorem ExtendsTo.forall_body
    (hadds : ∀ extension ∈ draft.extensions, ∀ owner body body',
      TypeBody.Adds owner extension.type.contents body body' → P owner.name body → P owner.name body')
    (h : draft.ExtendsTo types) (hintrospection : ∀ t ∈ Builtin.introspection, P t.name t.body)
    (hbefore : ∀ t ∈ draft.types.toList, P t.name t.body) : ∀ t ∈ types.toList, P t.name t.body := by
  refine of_foldlM_eq_ok h (P := fun types : NameTable TypeDef => ∀ t ∈ types.toList, P t.name t.body) ?_ ?_
  · intro t ht
    rcases NameTable.mem_of_mem_foldl_insert ht with ht | ht
    · exact hintrospection t ht
    · exact hbefore t ht
  · intro extension hextension types types' htypes hstep t ht
    obtain ⟨u, hu, body, hbody, rfl⟩ := applyExtension_eq_ok_iff.mp hstep
    rcases NameTable.mem_of_mem_insert ht with rfl | ht
    · obtain ⟨hmem, hname⟩ := NameTable.find?_eq_some_iff.mp hu
      have hname : u.name = (extension.owner u).name := hname
      have hu := htypes u hmem
      show P u.name body
      rw [hname] at hu ⊢
      exact hadds extension hextension _ _ _ hbody hu
    · exact htypes t ht

end Draft

end GraphSchema
