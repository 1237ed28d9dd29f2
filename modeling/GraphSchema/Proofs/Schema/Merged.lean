/-
Extensions written into a definition.

A definition of a type and its extensions may be written as one definition, whose parts are those
of the definition followed by those of the extensions.  What a definition states is added by an
owner, and where places do not matter it is the owner that an extension adds by as well; so adding
all parts at once is adding them one after the other (`Source.defines_merged_iff`).  What is left
is that the type has been extended when it is defined, and not when the schema is built
(`Draft.Absorbs`), and nothing looks at it in between.
-/
import Mathlib
import GraphSchema.Proofs.Schema.Plain
import GraphSchema.Proofs.Schema.Texts
import GraphSchema.Proofs.Sdl.Places

namespace GraphSchema

open Syntax

/-! ### Contents -/

/-- The parts of contents, followed by those of others of their kind. -/
def Syntax.TypeContents.append : TypeContents → TypeContents → TypeContents
  | .object interfaces fields, .object moreInterfaces moreFields =>
    .object (interfaces ++ moreInterfaces) (fields ++ moreFields)
  | .interface interfaces fields, .interface moreInterfaces moreFields =>
    .interface (interfaces ++ moreInterfaces) (fields ++ moreFields)
  | .union members, .union more => .union (members ++ more)
  | .enum values, .enum more => .enum (values ++ more)
  | .inputObject fields, .inputObject more => .inputObject (fields ++ more)
  | contents, _ => contents

@[simp] theorem Syntax.TypeContents.kind_append (contents more : TypeContents) :
    (contents.append more).kind = contents.kind := by
  cases contents <;> cases more <;> rfl

section

variable {owner : Owner}

theorem AddsInterfaces.append_iff {kind : TypeKind} {stated more interfaces interfaces' : List String} :
    AddsInterfaces owner.name kind (stated ++ more) interfaces interfaces' ↔
      ∃ middle, AddsInterfaces owner.name kind stated interfaces middle ∧
        AddsInterfaces owner.name kind more middle interfaces' := by
  simp only [← foldlM_addInterface_eq_ok_iff, List.foldlM_append, bind_eq_ok]

/-- What is reached in three steps may be cut behind the first or behind the second. -/
theorem exists_steps_iff {α β : Type} {P : α → Prop} {Q : α → β → Prop} {R : β → Prop} :
    (∃ b, (∃ a, P a ∧ Q a b) ∧ R b) ↔ ∃ a, P a ∧ ∃ b, Q a b ∧ R b := by
  constructor
  · exact fun ⟨b, ⟨a, ha, hab⟩, hb⟩ => ⟨a, ha, b, hab, hb⟩
  · exact fun ⟨a, ha, b, hab, hb⟩ => ⟨b, ⟨a, ha, hab⟩, hb⟩

/-- Two things that are reached apart from each other may go each step together. -/
theorem exists_steps_both_iff {α α' β β' : Type} {P : α → Prop} {P' : α' → Prop} {Q : α → β → Prop}
    {Q' : α' → β' → Prop} {R : β → β' → Prop} :
    (∃ b b', (∃ a, P a ∧ Q a b) ∧ (∃ a', P' a' ∧ Q' a' b') ∧ R b b') ↔
      ∃ a a', (P a ∧ P' a') ∧ ∃ b b', Q a b ∧ Q' a' b' ∧ R b b' := by
  constructor
  · exact fun ⟨b, b', ⟨a, ha, hab⟩, ⟨a', ha', hab'⟩, hb⟩ => ⟨a, a', ⟨ha, ha'⟩, b, b', hab, hab', hb⟩
  · exact fun ⟨a, a', ⟨ha, ha'⟩, b, b', hab, hab', hb⟩ => ⟨b, b', ⟨a, ha, hab⟩, ⟨a', ha', hab'⟩, hb⟩

/-- **Contents are added one after the other.** -/
theorem TypeBody.Adds.append_iff {contents more : TypeContents} (hkind : more.kind = contents.kind)
    {body body' : TypeBody} :
    Adds owner (contents.append more) body body' ↔
      ∃ middle, Adds owner contents body middle ∧ Adds owner more middle body' := by
  have hfield : ∀ f, Named.name (owner.field f) = FieldSyntax.name f := fun _ => rfl
  have hmember : ∀ name, Named.name (⟨name, owner.statedAt⟩ : TypeRef) = id name := fun _ => rfl
  have hvalue : ∀ v, Named.name (owner.enumValue v) = EnumValueSyntax.name v := fun _ => rfl
  have hinputField : ∀ p, Named.name (owner.source.parameter p) = InputValueSyntax.name p := fun _ => rfl
  by_cases hbody : body.kind = contents.kind
  · cases contents with
    | scalar =>
      cases more with
      | scalar =>
        cases body with
        | scalar => simp only [TypeContents.append, adds_scalar_iff, exists_eq_left]
        | _ => cases hbody
      | _ => cases hkind
    | object =>
      cases more with
      | object =>
        cases body with
        | object =>
          simp only [TypeContents.append, adds_object_iff, AddsInterfaces.append_iff,
            AddsParts.append_iff hfield, ↓existsAndEq, and_true]
          exact exists_steps_both_iff
        | _ => cases hbody
      | _ => cases hkind
    | interface =>
      cases more with
      | interface =>
        cases body with
        | interface =>
          simp only [TypeContents.append, adds_interface_iff, AddsInterfaces.append_iff,
            AddsParts.append_iff hfield, ↓existsAndEq, and_true]
          exact exists_steps_both_iff
        | _ => cases hbody
      | _ => cases hkind
    | union =>
      cases more with
      | union =>
        cases body with
        | union =>
          simp only [TypeContents.append, adds_union_iff, AddsParts.append_iff hmember, ↓existsAndEq, and_true]
          exact exists_steps_iff
        | _ => cases hbody
      | _ => cases hkind
    | enum =>
      cases more with
      | enum =>
        cases body with
        | enum =>
          simp only [TypeContents.append, adds_enum_iff, AddsParts.append_iff hvalue, ↓existsAndEq, and_true]
          exact exists_steps_iff
        | _ => cases hbody
      | _ => cases hkind
    | inputObject =>
      cases more with
      | inputObject =>
        cases body with
        | inputObject =>
          simp only [TypeContents.append, adds_inputObject_iff, AddsParts.append_iff hinputField,
            ↓existsAndEq, and_true]
          exact exists_steps_iff
        | _ => cases hbody
      | _ => cases hkind
  · refine ⟨fun h => absurd ?_ hbody, fun ⟨_, h, _⟩ => absurd h.kind_eq.1 hbody⟩
    have hsame := h.kind_eq.1
    rwa [TypeContents.kind_append] at hsame

end

/-- The contents of extensions, behind others. -/
def Syntax.TypeContents.appendAll (contents : TypeContents) (more : List TypeContents) : TypeContents :=
  more.foldl append contents

theorem Syntax.TypeContents.kind_appendAll (contents : TypeContents) (more : List TypeContents) :
    (contents.appendAll more).kind = contents.kind := by
  induction more generalizing contents with
  | nil => rfl
  | cons first more ih => exact (ih _).trans (contents.kind_append first)

/-- **Extensions by one owner are added with what they extend.** -/
theorem TypeBody.adds_appendAll_iff {owner : Owner} {contents : TypeContents} {extensions : List PendingExtension}
    {t u : TypeDef} {start : TypeBody} (howner : ∀ extension ∈ extensions, extension.owner t = owner)
    (hkind : ∀ extension ∈ extensions, extension.type.contents.kind = contents.kind) :
    (Adds owner (contents.appendAll (extensions.map fun extension => extension.type.contents)) start u.body ∧
        u = { t with body := u.body }) ↔
      ∃ body, Adds owner contents start body ∧ TypeDef.Extended extensions { t with body } u := by
  induction extensions generalizing contents with
  | nil =>
    simp only [List.map_nil, TypeContents.appendAll, List.foldl_nil, TypeDef.Extended.nil_iff]
    constructor
    · exact fun ⟨hadds, heq⟩ => ⟨u.body, hadds, heq⟩
    · rintro ⟨body, hadds, rfl⟩
      exact ⟨hadds, rfl⟩
  | cons extension extensions ih =>
    obtain ⟨hfirst, hrest⟩ := List.forall_mem_cons.mp howner
    obtain ⟨hkindFirst, hkindRest⟩ := List.forall_mem_cons.mp hkind
    rw [← contents.kind_append extension.type.contents] at hkindRest
    have hsame : ∀ body, extension.owner { t with body } = owner := fun _ => hfirst
    simp only [TypeDef.Extended.cons_iff, hsame]
    refine (ih hrest hkindRest).trans ?_
    simp only [Adds.append_iff hkindFirst]
    constructor
    · rintro ⟨body, ⟨middle, hadds, hmore⟩, hextended⟩
      exact ⟨middle, hadds, body, hmore, hextended⟩
    · rintro ⟨middle, hadds, body, hmore, hextended⟩
      exact ⟨body, ⟨middle, hadds, hmore⟩, hextended⟩

/-- **A definition with the parts of extensions** defines the type that they extend to. -/
theorem Source.defines_merged_iff {source : Source} {description : Option String} {type : TypeSyntax}
    {extensions : List PendingExtension} {u : TypeDef}
    (hsame : ∀ extension ∈ extensions, extension.source = source ∧ extension.type.name = type.name ∧
      extension.type.position = type.position)
    (hkind : ∀ extension ∈ extensions, extension.type.contents.kind = type.contents.kind) :
    source.Defines description
        { type with contents := type.contents.appendAll (extensions.map fun extension => extension.type.contents) } u ↔
      ∃ t, source.Defines description type t ∧ t.Extended extensions u := by
  let t : TypeDef := ⟨type.name, source.description description type.position, source.location type.position, .scalar⟩
  have howner : ∀ extension ∈ extensions, extension.owner t = source.owner type := by
    intro extension hmem
    obtain ⟨rfl, hname, hposition⟩ := hsame extension hmem
    rw [PendingExtension.owner, hname, hposition]
    rfl
  have hiff : ∀ start, _ := fun start => @TypeBody.adds_appendAll_iff _ _ _ t u start howner hkind
  constructor
  · rintro ⟨hunreserved, hname, hdescription, hlocation, hbody⟩
    rw [TypeContents.kind_appendAll] at hbody
    have heq : u = { t with body := u.body } := by
      obtain ⟨name, written, location, body⟩ := u
      cases hname
      cases hdescription
      cases hlocation
      rfl
    obtain ⟨body, hadds, hextended⟩ := (hiff _).mp ⟨hbody, heq⟩
    exact ⟨{ t with body }, ⟨hunreserved, rfl, rfl, rfl, hadds⟩, hextended⟩
  · rintro ⟨⟨name, written, location, body⟩, ⟨hunreserved, hname, hdescription, hlocation, hbody⟩, hextended⟩
    cases hname
    cases hdescription
    cases hlocation
    obtain ⟨hadds, heq⟩ := (hiff _).mpr ⟨body, hbody, hextended⟩
    rw [heq]
    refine ⟨hunreserved, rfl, rfl, rfl, ?_⟩
    rw [TypeContents.kind_appendAll]
    exact hadds

/-! ### Types that are extended when they are defined

Two drafts that differ in one type, which waits for its extensions in one of them and has them
already in the other.  All that building does treats both alike.
-/

/-- One draft defines a type, and extends it; another one defines it as it is extended. -/
structure Draft.Absorbs (draft draft' : Draft) (t t' : TypeDef) : Prop where
  unreserved : Builtin.isReserved t.name = false
  found : draft.types.find? t.name = some t
  extended : t.Extended (draft.extensions.filter fun e => e.type.name == t.name) t'
  types : draft'.types = draft.types.insert t'
  extensions : draft'.extensions = draft.extensions.filter fun e => !(e.type.name == t.name)
  directives : draft'.directives = draft.directives
  roots : ∀ operation, draft'.root? operation = draft.root? operation

namespace Draft

variable {draft draft' : Draft} {t t' : TypeDef} {types : NameTable TypeDef} {schema : Schema}

theorem not_mem_introspection {name : String} (h : Builtin.isReserved name = false) :
    name ∉ Builtin.introspection.map Named.name := by
  intro hmem
  obtain ⟨t, ht, rfl⟩ := List.mem_map.mp hmem
  have hreserved := (introspection_reserved t ht).1
  rw [show t.name = Named.name t from rfl, h] at hreserved
  cases hreserved

/-- What is found in a draft is found once it has what every schema has. -/
theorem find?_withBuiltins (hunreserved : Builtin.isReserved t.name = false) (h : draft.types.find? t.name = some t) :
    draft.withBuiltins.types.find? t.name = some t := by
  rw [types_withBuiltins, NameTable.find?_foldl_insert introspection_nodup]
  exact Or.inr ⟨not_mem_introspection hunreserved, h⟩

/-- In a draft whose extensions apply, every type is extended. -/
theorem ExtendsTo.exists_extended (h : draft.ExtendsTo types) (hunreserved : Builtin.isReserved t.name = false)
    (hfound : draft.types.find? t.name = some t) :
    ∃ t', t.Extended (draft.extensions.filter fun e => e.type.name == t.name) t' := by
  obtain ⟨-, hall⟩ := foldlM_applyExtension_eq_ok_iff.mp h
  obtain ⟨t', -, hextended⟩ :=
    exists_related_of_mem hall (NameTable.mem_of_find?_eq_some (find?_withBuiltins hunreserved hfound))
  exact ⟨t', hextended⟩

section Absorbs

variable (h : draft.Absorbs draft' t t')

include h

theorem Absorbs.name_eq : Named.name t' = t.name := h.extended.rest.1

/-- What every schema has is put in beside a type whether it is extended or not. -/
theorem Absorbs.insert_withBuiltins : draft'.withBuiltins.types = draft.withBuiltins.types.insert t' := by
  rw [types_withBuiltins, types_withBuiltins, h.types]
  refine (NameTable.insert_foldl_insert ?_ ?_).symm
  · exact NameTable.find?_isSome_iff.mp ⟨t, h.name_eq ▸ h.found⟩
  · rw [h.name_eq]
    exact not_mem_introspection h.unreserved

/-- No extension of the type waits any longer, -/
theorem Absorbs.waiting_self : (draft'.extensions.filter fun e => e.type.name == t.name) = [] := by
  rw [h.extensions, List.filter_filter]
  exact List.filter_eq_nil_iff.mpr fun extension _ => by simp

/-- and those of other types still wait. -/
theorem Absorbs.waiting_other {name : String} (hne : name ≠ t.name) :
    (draft'.extensions.filter fun e => e.type.name == name) = draft.extensions.filter fun e => e.type.name == name := by
  rw [h.extensions, List.filter_filter]
  refine List.filter_congr fun extension _ => ?_
  by_cases hname : extension.type.name = name
  · rw [hname, beq_self_eq_true, beq_eq_false_iff_ne.mpr hne]
    rfl
  · rw [beq_eq_false_iff_ne.mpr hname]
    rfl

theorem Absorbs.extendsTo_iff : draft.ExtendsTo types ↔ draft'.ExtendsTo types := by
  have hname := h.name_eq
  have hfound := find?_withBuiltins h.unreserved h.found
  have hwith := h.insert_withBuiltins
  have hnames : draft'.withBuiltins.types.names = draft.withBuiltins.types.names := by
    rw [hwith, NameTable.names_insert, if_pos]
    exact NameTable.find?_isSome_iff.mp ⟨t, hname ▸ hfound⟩
  unfold ExtendsTo
  rw [foldlM_applyExtension_eq_ok_iff, foldlM_applyExtension_eq_ok_iff, hnames]
  refine and_congr ?_ ?_
  · rw [h.extensions]
    constructor
    · exact fun hall extension hmem => hall extension (List.mem_of_mem_filter hmem)
    · intro hall extension hmem
      by_cases heq : extension.type.name = t.name
      · rw [heq]
        exact NameTable.find?_isSome_iff.mp ⟨t, hfound⟩
      · exact hall extension (List.mem_filter.mpr ⟨hmem, by rwa [Bool.not_eq_true', beq_eq_false_iff_ne]⟩)
  · rw [hwith, NameTable.toList_insert_of_find? hfound hname, List.forall₂_map_left_iff]
    refine forall₂_congr_of_mem fun u hu u' => ?_
    rw [show Named.name u = u.name from rfl]
    by_cases heq : u.name = t.name
    · obtain rfl : t = u := by
        rw [← heq] at hfound
        exact Option.some.inj (hfound.symm.trans (NameTable.find?_name hu))
      rw [if_pos rfl, show t'.name = t.name from hname, h.waiting_self, TypeDef.Extended.nil_iff]
      exact ⟨fun hextended => hextended.unique h.extended, fun heq => heq ▸ h.extended⟩
    · rw [if_neg heq, h.waiting_other heq]

end Absorbs

/-- **It does not matter when a type is extended.** -/
theorem Absorbs.build_iff (h : draft.Absorbs draft' t t') : draft.build = .ok schema ↔ draft'.build = .ok schema :=
  build_congr (fun _ => h.extendsTo_iff) h.directives h.roots

end Draft

/-- **One definition may be put in the place of another** that defines a type of the same name. -/
theorem AddsTypes.exchange {before after : List (Source × Option String × TypeSyntax)}
    {definition : Source × Option String × TypeSyntax} {types types' : NameTable TypeDef}
    (h : AddsTypes (before ++ definition :: after) types types') :
    ∃ t, definition.1.Defines definition.2.1 definition.2.2 t ∧ types'.find? t.name = some t ∧
      ∀ (other : Source × Option String × TypeSyntax) (t' : TypeDef), other.1.Defines other.2.1 other.2.2 t' →
        t'.name = t.name → AddsTypes (before ++ other :: after) types (types'.insert t') := by
  obtain ⟨middle, hbefore, h⟩ := AddsTypes.append_iff.mp h
  obtain ⟨t, ht, hroom, news, hnews, hnodup, hrooms, rfl⟩ := AddsTypes.cons_iff.mp h
  have hrooms := fun u hu => (hasRoom_insert_iff ht.isBuiltin).mp (hrooms u hu)
  have hother : t.name ∉ news.map TypeDef.name := by
    intro hmem
    obtain ⟨u, hu, heq⟩ := List.mem_map.mp hmem
    exact (hrooms u hu).1 heq.symm
  refine ⟨t, ht, ?_, fun other t' ht' hname => ?_⟩
  · refine (NameTable.find?_foldl_insert hnodup).mpr (Or.inr ⟨hother, ?_⟩)
    rw [NameTable.find?_insert]
    exact if_pos rfl
  · refine AddsTypes.append_iff.mpr ⟨middle, hbefore, AddsTypes.cons_iff.mpr ⟨t', ht', hname ▸ hroom,
      news, hnews, hnodup, fun u hu => ?_, ?_⟩⟩
    · rw [hasRoom_insert_iff ht'.isBuiltin, hname]
      exact hrooms u hu
    · have hsame : Named.name t = Named.name t' := hname.symm
      rw [NameTable.insert_foldl_insert, NameTable.insert_insert hsame]
      · rw [← hsame, NameTable.names_insert]
        split
        · next hmem => exact hmem
        · exact List.mem_append_right _ (List.mem_singleton_self _)
      · rwa [← hsame]

/-! ### Items

The items of the two documents: the merged definition stands where the definition stood, and the
extensions of its name and kind are taken out.
-/

/-- What an item adds to the type of a name and a kind, if it extends it. -/
def Syntax.Item.added? (name : String) (kind : TypeKind) : Item → Option TypeContents
  | .typeExtension type => if type.name = name ∧ type.contents.kind = kind then some type.contents else none
  | _ => none

/-- The items without the extensions of a type. -/
def Syntax.Item.others (name : String) (kind : TypeKind) (items : List Item) : List Item :=
  items.filter fun item => (item.added? name kind).isNone

/-- A definition with the extensions of its type: its own parts come first, and those of the
extensions follow in their order. -/
def mergedType (before : List Item) (type : TypeSyntax) (after : List Item) : TypeSyntax :=
  { type with
    contents := type.contents.appendAll ((before ++ after).filterMap (Item.added? type.name type.contents.kind)) }

/-- Items among which a type is defined, with its extensions written into the definition. -/
def mergedItems (before : List Item) (description : Option String) (type : TypeSyntax) (after : List Item) :
    List Item :=
  Item.others type.name type.contents.kind before
    ++ .typeDefinition description (mergedType before type after)
    :: Item.others type.name type.contents.kind after

/-- The items, all of them in the source without a text. -/
def inPlain (items : List Item) : List StatedItem := items.map (Prod.mk Source.plain)

section

variable {name : String} {kind : TypeKind} {items : List Item}

/-- Leaving out extensions changes nothing that extensions have no part in. -/
theorem flatMap_others {γ : Type} {g : StatedItem → List γ} (hg : ∀ type, g (Source.plain, .typeExtension type) = []) :
    (inPlain (Item.others name kind items)).flatMap g = (inPlain items).flatMap g := by
  induction items with
  | nil => rfl
  | cons item items ih =>
    unfold Item.others inPlain at ih ⊢
    rw [List.filter_cons, List.map_cons, List.flatMap_cons, ← ih]
    split
    · rw [List.map_cons, List.flatMap_cons]
    · next hadded =>
      cases item with
      | typeExtension type => rw [hg, List.nil_append]
      | _ => exact absurd rfl hadded

theorem filterMap_others {γ : Type} {f : StatedItem → Option γ}
    (hf : ∀ type, f (Source.plain, .typeExtension type) = none) :
    (inPlain (Item.others name kind items)).filterMap f = (inPlain items).filterMap f := by
  rw [List.filterMap_eq_flatMap_toList, List.filterMap_eq_flatMap_toList]
  exact flatMap_others fun type => by rw [hf]; rfl

/-- Whether an extension is one of a type of the name and the kind. -/
def PendingExtension.isOf (extension : PendingExtension) (name : String) (kind : TypeKind) : Bool :=
  extension.type.name == name && extension.type.contents.kind == kind

theorem isOf_eq_true_iff {extension : PendingExtension} :
    extension.isOf name kind = true ↔ extension.type.name = name ∧ extension.type.contents.kind = kind := by
  rw [PendingExtension.isOf, Bool.and_eq_true, beq_iff_eq, beq_iff_eq]

theorem added?_typeExtension (type : TypeSyntax) : Item.added? name kind (.typeExtension type)
    = if PendingExtension.isOf ⟨Source.plain, type⟩ name kind then some type.contents else none := by
  rw [Item.added?]
  by_cases hof : type.name = name ∧ type.contents.kind = kind
  · rw [if_pos hof, if_pos (isOf_eq_true_iff.mpr hof)]
  · rw [if_neg hof, if_neg fun h => hof (isOf_eq_true_iff.mp h)]

theorem extensions_cons (type : TypeSyntax) : (inPlain (.typeExtension type :: items)).filterMap StatedItem.extension?
    = ⟨Source.plain, type⟩ :: (inPlain items).filterMap StatedItem.extension? := rfl

/-- The extensions of the type are left out, -/
theorem extensions_others : (inPlain (Item.others name kind items)).filterMap StatedItem.extension?
    = ((inPlain items).filterMap StatedItem.extension?).filter fun e => !e.isOf name kind := by
  induction items with
  | nil => rfl
  | cons item items ih =>
    cases item with
    | typeExtension type =>
      rw [extensions_cons, List.filter_cons, ← ih, Item.others, List.filter_cons, added?_typeExtension]
      cases PendingExtension.isOf ⟨Source.plain, type⟩ name kind <;> rfl
    | _ => exact ih

/-- and written into the definition. -/
theorem filterMap_added? : items.filterMap (Item.added? name kind)
    = (((inPlain items).filterMap StatedItem.extension?).filter fun e => e.isOf name kind).map
        fun e => e.type.contents := by
  induction items with
  | nil => rfl
  | cons item items ih =>
    cases item with
    | typeExtension type =>
      rw [extensions_cons, List.filter_cons, List.filterMap_cons, ih, added?_typeExtension]
      cases PendingExtension.isOf ⟨Source.plain, type⟩ name kind <;> rfl
    | _ => exact ih

/-- If the extensions that have the name are of the kind, the name is enough to tell them. -/
theorem filter_isOf {extensions : List PendingExtension}
    (h : ∀ e ∈ extensions, e.type.name = name → e.type.contents.kind = kind) :
    (extensions.filter fun e => e.type.name == name) = (extensions.filter fun e => e.isOf name kind) ∧
      (extensions.filter fun e => !(e.type.name == name)) = extensions.filter fun e => !e.isOf name kind := by
  have hsame : ∀ e ∈ extensions, (e.type.name == name) = e.isOf name kind := by
    intro e he
    rw [Bool.eq_iff_iff, isOf_eq_true_iff, beq_iff_eq]
    exact ⟨fun hname => ⟨hname, h e he hname⟩, And.left⟩
  exact ⟨List.filter_congr hsame, List.filter_congr fun e he => by rw [hsame e he]⟩

end

section

variable {before after : List Item} {description : Option String} {type : TypeSyntax}

theorem flatMap_mergedItems {γ : Type} {g : StatedItem → List γ}
    (hextension : ∀ type, g (Source.plain, .typeExtension type) = [])
    (hdefinition : ∀ description type, g (Source.plain, .typeDefinition description type) = []) :
    (inPlain (mergedItems before description type after)).flatMap g
      = (inPlain (before ++ .typeDefinition description type :: after)).flatMap g := by
  have hothers : ∀ items, (inPlain (Item.others type.name type.contents.kind items)).flatMap g
      = (inPlain items).flatMap g := fun _ => flatMap_others hextension
  unfold mergedItems inPlain at *
  simp only [List.map_append, List.map_cons, List.flatMap_append, List.flatMap_cons, hothers, hdefinition]

/-- The extensions among the items. -/
def pending (items : List Item) : List PendingExtension := (inPlain items).filterMap StatedItem.extension?

theorem pending_written : pending (before ++ .typeDefinition description type :: after) = pending (before ++ after) := by
  unfold pending inPlain
  rw [List.map_append, List.map_append, List.filterMap_append, List.filterMap_append]
  rfl

theorem pending_mergedItems : pending (mergedItems before description type after)
    = (pending (before ++ after)).filter fun e => !e.isOf type.name type.contents.kind := by
  have hothers : ∀ items, pending (Item.others type.name type.contents.kind items)
      = (pending items).filter fun e => !e.isOf type.name type.contents.kind := fun _ => extensions_others
  have happend : ∀ items more, pending (items ++ more) = pending items ++ pending more := by
    intro items more
    unfold pending inPlain
    rw [List.map_append, List.filterMap_append]
  have hcons : ∀ type items, pending (.typeDefinition description type :: items) = pending items := fun _ _ => rfl
  unfold mergedItems
  rw [happend, hcons, hothers, hothers, happend, List.filter_append]

/-- **A type is defined as it is extended** if its extensions stand where it does. -/
theorem defines_mergedType_iff {u : TypeDef}
    (hposition : ∀ e ∈ pending (before ++ after), e.source = Source.plain ∧ e.type.position = type.position) :
    Source.plain.Defines description (mergedType before type after) u ↔
      ∃ t, Source.plain.Defines description type t ∧
        t.Extended ((pending (before ++ after)).filter fun e => e.isOf type.name type.contents.kind) u := by
  unfold mergedType
  rw [filterMap_added?]
  refine Source.defines_merged_iff (fun e he => ?_) fun e he => ?_
  all_goals obtain ⟨hmem, hof⟩ := List.mem_filter.mp he
  · exact ⟨(hposition e hmem).1, (isOf_eq_true_iff.mp hof).1, (hposition e hmem).2⟩
  · exact (isOf_eq_true_iff.mp hof).2

/-- A draft that items are loaded into is one that others are loaded into, but for what they define
and extend. -/
theorem Draft.Loaded.exchange {draft : Draft} {items others : List Item} {types : NameTable TypeDef}
    (h : Draft.empty.Loaded (inPlain items) draft)
    (hsame : ∀ {γ : Type} (g : StatedItem → List γ), (∀ type, g (Source.plain, .typeExtension type) = []) →
      (∀ description type, g (Source.plain, .typeDefinition description type) = []) →
        (inPlain others).flatMap g = (inPlain items).flatMap g)
    (htypes : AddsTypes ((inPlain others).filterMap StatedItem.definition?) Draft.empty.types types) :
    Draft.empty.Loaded (inPlain others) { draft with types, extensions := pending others } := by
  have hdirectives : (inPlain others).filterMap StatedItem.directive? = (inPlain items).filterMap StatedItem.directive? := by
    rw [List.filterMap_eq_flatMap_toList, List.filterMap_eq_flatMap_toList]
    exact hsame _ (fun _ => rfl) fun _ _ => rfl
  have hblock : (inPlain others).flatMap (fun item => if item.isBlock then [item] else [])
      = (inPlain items).flatMap fun item => if item.isBlock then [item] else [] :=
    hsame _ (fun _ => rfl) fun _ _ => rfl
  refine ⟨htypes, ?_, fun operation => ?_, fun ⟨item, hmem, hitem⟩ => ?_, rfl, h.unnamed⟩
  · rw [hdirectives]
    exact h.directives
  · have hroots := h.roots operation
    rw [← hsame (StatedItem.declared operation) (fun _ => rfl) fun _ _ => rfl] at hroots
    cases operation <;> exact hroots
  · have hmem : item ∈ (inPlain items).flatMap fun item => if item.isBlock then [item] else [] := by
      rw [← hblock, List.mem_flatMap]
      exact ⟨item, hmem, by rw [if_pos hitem]; exact List.mem_singleton_self _⟩
    obtain ⟨other, hmem, hitem⟩ := List.mem_flatMap.mp hmem
    split at hitem
    · next hother =>
      refine (h.distinct ⟨other, hmem, hother⟩).of_kept fun operation => ?_
      cases operation <;> exact fun _ => id
    · cases hitem

theorem definitions_written : (inPlain (before ++ .typeDefinition description type :: after)).filterMap
      StatedItem.definition?
    = (inPlain before).filterMap StatedItem.definition?
      ++ (Source.plain, description, type) :: (inPlain after).filterMap StatedItem.definition? := by
  unfold inPlain
  rw [List.map_append, List.filterMap_append]
  rfl

theorem definitions_mergedItems : (inPlain (mergedItems before description type after)).filterMap StatedItem.definition?
    = (inPlain before).filterMap StatedItem.definition?
      ++ (Source.plain, description, mergedType before type after)
      :: (inPlain after).filterMap StatedItem.definition? := by
  have hothers : ∀ items, (inPlain (Item.others type.name type.contents.kind items)).filterMap StatedItem.definition?
      = (inPlain items).filterMap StatedItem.definition? := fun _ => filterMap_others fun _ => rfl
  rw [← hothers before, ← hothers after]
  unfold mergedItems inPlain
  rw [List.map_append, List.filterMap_append]
  rfl

variable {draft draft' : Draft} {schema : Schema}

/-- What is built from a definition and its extensions is built from them as one, -/
theorem exists_build_mergedItems
    (hposition : ∀ e ∈ pending (before ++ after), e.source = Source.plain ∧ e.type.position = type.position)
    (hloaded : Draft.empty.Loaded (inPlain (before ++ .typeDefinition description type :: after)) draft)
    (hbuild : draft.build = .ok schema) :
    ∃ draft', Draft.empty.Loaded (inPlain (mergedItems before description type after)) draft' ∧
      draft'.build = .ok schema := by
  obtain ⟨types, hextend, -⟩ := Draft.build_eq_ok_iff.mp hbuild
  have htypes := hloaded.types
  rw [definitions_written] at htypes
  obtain ⟨t, ht, hfound, hexchange⟩ := htypes.exchange
  have hunreserved : Builtin.isReserved t.name = false := ht.name ▸ ht.unreserved
  have hextensions : draft.extensions = pending (before ++ after) := hloaded.extensions.trans pending_written
  obtain ⟨u, hextended⟩ := hextend.exists_extended hunreserved hfound
  -- All extensions of the name are of the kind, since they have been applied.
  have hof : ∀ e ∈ pending (before ++ after), e.type.name = type.name → e.type.contents.kind = type.contents.kind := by
    intro e he hname
    refine (hextended.kinds e (List.mem_filter.mpr ⟨hextensions ▸ he, ?_⟩)).trans ht.body.kind_eq.2
    rw [hname, ht.name, beq_self_eq_true]
  obtain ⟨hmatching, hothers⟩ := filter_isOf hof
  have hmerged : Source.plain.Defines description (mergedType before type after) u := by
    refine (defines_mergedType_iff hposition).mpr ⟨t, ht, ?_⟩
    rwa [hextensions, ht.name, hmatching] at hextended
  have htypes' := hexchange (Source.plain, description, mergedType before type after) u hmerged hextended.rest.1
  rw [← definitions_mergedItems] at htypes'
  have hloaded' := hloaded.exchange (fun _ => flatMap_mergedItems) htypes'
  have habsorbs : draft.Absorbs { draft with
      types := draft.types.insert u, extensions := pending (mergedItems before description type after) } t u := by
    refine ⟨hunreserved, hfound, hextended, rfl, ?_, rfl, fun operation => ?_⟩
    · rw [hextensions, ht.name, hothers, pending_mergedItems]
    · cases operation <;> rfl
  exact ⟨_, hloaded', habsorbs.build_iff.mp hbuild⟩

/-- and the other way round. -/
theorem exists_build_written
    (hposition : ∀ e ∈ pending (before ++ after), e.source = Source.plain ∧ e.type.position = type.position)
    (hloaded : Draft.empty.Loaded (inPlain (mergedItems before description type after)) draft')
    (hbuild : draft'.build = .ok schema) :
    ∃ draft, Draft.empty.Loaded (inPlain (before ++ .typeDefinition description type :: after)) draft ∧
      draft.build = .ok schema := by
  obtain ⟨types, hextend, -⟩ := Draft.build_eq_ok_iff.mp hbuild
  have htypes := hloaded.types
  rw [definitions_mergedItems] at htypes
  obtain ⟨u, hmerged, hfound, hexchange⟩ := htypes.exchange
  obtain ⟨t, ht, hextended⟩ := (defines_mergedType_iff hposition).mp hmerged
  have hname : u.name = t.name := hextended.rest.1
  have hunreserved : Builtin.isReserved t.name = false := ht.name ▸ ht.unreserved
  have hextensions : draft'.extensions
      = (pending (before ++ after)).filter fun e => !e.isOf type.name type.contents.kind :=
    hloaded.extensions.trans pending_mergedItems
  obtain ⟨v, hlater⟩ := hextend.exists_extended (hname ▸ hunreserved) hfound
  -- Extensions of the name that have been left are of another kind, and would not have been applied.
  have hof : ∀ e ∈ pending (before ++ after), e.type.name = type.name → e.type.contents.kind = type.contents.kind := by
    intro e he hsame
    by_contra hother
    refine hother (Eq.trans ?_ ht.body.kind_eq.2)
    refine (hlater.kinds e (List.mem_filter.mpr ⟨?_, ?_⟩)).trans hextended.kind_eq
    · rw [hextensions, List.mem_filter, Bool.not_eq_true', Bool.eq_false_iff, ne_eq, isOf_eq_true_iff]
      exact ⟨he, fun h => hother h.2⟩
    · rw [hsame, hname, ht.name, beq_self_eq_true]
  obtain ⟨hmatching, hothers⟩ := filter_isOf hof
  have htypes' := hexchange (Source.plain, description, type) t ht hname.symm
  rw [← definitions_written] at htypes'
  have hloaded' := hloaded.exchange
    (fun _ hextension hdefinition => (flatMap_mergedItems hextension hdefinition).symm) htypes'
  have hsame : Named.name t = Named.name u := hname.symm
  have habsorbs : Draft.Absorbs { draft' with
      types := draft'.types.insert t, extensions := pending (before ++ .typeDefinition description type :: after) }
      draft' t u := by
    refine ⟨hunreserved, ?_, ?_, ?_, ?_, rfl, fun operation => ?_⟩
    · rw [NameTable.find?_insert]
      exact if_pos rfl
    · rwa [pending_written, ht.name, hmatching]
    · rw [NameTable.insert_insert hsame, NameTable.insert_of_find? hfound]
    · rw [pending_written, ht.name, hothers, hextensions]
    · cases operation <;> rfl
  exact ⟨_, hloaded', habsorbs.build_iff.mpr hbuild⟩

end

/-! ### Texts

From items back to texts.  Places are left out, since the merged text has its parts elsewhere, and
for the same reason descriptions have to be written as strings.
-/

/-- The item that is stated, without its places. -/
def StatedItem.bare (stated : StatedItem) : Item := stated.2.unplaced

theorem exists_unplaced_iff {texts : List SourceText} {stated : List StatedItem} (hread : ReadAs 0 texts stated)
    (hdescribed : ∀ item ∈ stated, item.Described) {u : Schema} :
    (∃ schema, buildTexts texts = .ok schema ∧ u = schema.unplaced) ↔
      ∃ draft, Draft.empty.Loaded (inPlain (stated.map StatedItem.bare)) draft ∧ draft.build = .ok u := by
  have hplain : stated.map StatedItem.unplaced = inPlain (stated.map StatedItem.bare) := (List.map_map ..).symm
  rw [← hplain, build_items_unplaced_iff hdescribed]
  simp only [buildTexts_eq_ok_iff hread]
  constructor
  · rintro ⟨schema, ⟨draft, hloaded, hbuild⟩, rfl⟩
    exact ⟨draft, hloaded, schema, hbuild, rfl⟩
  · rintro ⟨draft, hloaded, schema, hbuild, rfl⟩
    exact ⟨schema, ⟨draft, hloaded, hbuild⟩, rfl⟩

/--
**Extending a type is the same as having written one definition.**

If descriptions are written as strings, a definition and all the extensions of its type may be
replaced by one definition, whose parts are those of the definition followed by those of the
extensions in the order in which they are loaded.  A schema is built either way or in neither; but
for places it is the same, and it has the same document.
-/
theorem buildTexts_merged {texts texts' : List SourceText} {before after stated' : List StatedItem} {source : Source}
    {description : Option String} {type : TypeSyntax}
    (hread : ReadAs 0 texts (before ++ (source, .typeDefinition description type) :: after))
    (hread' : ReadAs 0 texts' stated')
    (hdescribed : ∀ item ∈ before ++ (source, .typeDefinition description type) :: after, StatedItem.Described item)
    (hdescribed' : ∀ item ∈ stated', item.Described)
    (hmerged : stated'.map StatedItem.bare
      = mergedItems (before.map StatedItem.bare) description type.unplaced (after.map StatedItem.bare)) :
    ((∃ schema, buildTexts texts = .ok schema) ↔ ∃ schema, buildTexts texts' = .ok schema) ∧
      ∀ schema schema', buildTexts texts = .ok schema → buildTexts texts' = .ok schema' →
        schema.unplaced = schema'.unplaced ∧ schema.sdl = schema'.sdl := by
  have hposition : ∀ e ∈ pending (before.map StatedItem.bare ++ after.map StatedItem.bare),
      e.source = Source.plain ∧ e.type.position = type.unplaced.position := by
    intro e he
    rw [← List.map_append] at he
    obtain ⟨item, hitem, heq⟩ := List.mem_filterMap.mp he
    obtain ⟨_, hbare, rfl⟩ := List.mem_map.mp hitem
    obtain ⟨⟨_, stated⟩, -, rfl⟩ := List.mem_map.mp hbare
    cases stated with
    | typeExtension =>
      obtain rfl := Option.some.inj heq
      exact ⟨rfl, rfl⟩
    | _ => cases heq
  have hbare : (before ++ (source, .typeDefinition description type) :: after).map StatedItem.bare
      = before.map StatedItem.bare ++ .typeDefinition description type.unplaced :: after.map StatedItem.bare :=
    List.map_append
  have hboth : ∀ u, (∃ schema, buildTexts texts = .ok schema ∧ u = schema.unplaced) ↔
      ∃ schema, buildTexts texts' = .ok schema ∧ u = schema.unplaced := by
    intro u
    rw [exists_unplaced_iff hread hdescribed, exists_unplaced_iff hread' hdescribed', hmerged, hbare]
    exact ⟨fun ⟨_, hloaded, hbuild⟩ => exists_build_mergedItems hposition hloaded hbuild,
      fun ⟨_, hloaded, hbuild⟩ => exists_build_written hposition hloaded hbuild⟩
  refine ⟨⟨fun ⟨schema, h⟩ => ?_, fun ⟨schema, h⟩ => ?_⟩, fun schema schema' h h' => ?_⟩
  · obtain ⟨schema', h', -⟩ := (hboth schema.unplaced).mp ⟨schema, h, rfl⟩
    exact ⟨schema', h'⟩
  · obtain ⟨schema', h', -⟩ := (hboth schema.unplaced).mpr ⟨schema, h, rfl⟩
    exact ⟨schema', h'⟩
  · obtain ⟨other, hother, hunplaced⟩ := (hboth schema.unplaced).mp ⟨schema, h, rfl⟩
    obtain rfl : other = schema' := Except.ok.inj (hother.symm.trans h')
    refine ⟨hunplaced, ?_⟩
    rw [← Sdl.sdl_unplaced, hunplaced, Sdl.sdl_unplaced]

/-- Two sources, the first of which extends what the second defines. -/
def writtenTexts : List SourceText :=
  [(none, "extend type Query \x7b \"later\" g: Int \x7d"),
   (none, "type Query implements I { f: Int } interface I { f: Int } extend type Query { h: ID }")]

/-- The two in one. -/
def mergedTexts : List SourceText :=
  [(none, "type Query implements I \x7b f: Int \"later\" g: Int h: ID \x7d interface I \x7b f: Int \x7d")]

theorem buildTexts_merged_texts : ∃ schema schema', buildTexts writtenTexts = .ok schema ∧
    buildTexts mergedTexts = .ok schema' ∧ schema.unplaced = schema'.unplaced ∧ schema.sdl = schema'.sdl := by
  let field (column : Nat) (description : Option String) (name type : String) : FieldSyntax :=
    ⟨⟨1, column⟩, description, name, [], .named type, []⟩
  let first : Item := .typeExtension ⟨⟨1, 8⟩, "Query", [], .object [] [field 21 (some "later") "g" "Int"]⟩
  let query : TypeSyntax := ⟨⟨1, 1⟩, "Query", [], .object ["I"] [field 27 none "f" "Int"]⟩
  let interface : Item := .typeDefinition none ⟨⟨1, 36⟩, "I", [], .interface [] [field 50 none "f" "Int"]⟩
  let last : Item := .typeExtension ⟨⟨1, 66⟩, "Query", [], .object [] [field 79 none "h" "ID"]⟩
  have hfirst : readSchemaDocument "extend type Query \x7b \"later\" g: Int \x7d" = some [first] := by cbv
  have hsecond : readSchemaDocument "type Query implements I { f: Int } interface I { f: Int } extend type Query { h: ID }"
      = some [.typeDefinition none query, interface, last] := by cbv
  have hmerged : readSchemaDocument "type Query implements I \x7b f: Int \"later\" g: Int h: ID \x7d interface I \x7b f: Int \x7d"
      = some [.typeDefinition none ⟨⟨1, 1⟩, "Query", [], .object ["I"]
            [field 27 none "f" "Int", field 34 (some "later") "g" "Int", field 49 none "h" "ID"]⟩,
          .typeDefinition none ⟨⟨1, 57⟩, "I", [], .interface [] [field 71 none "f" "Int"]⟩] := by cbv
  have hread := @ReadAs.cons 0 (none, _) _ _ _ hfirst (@ReadAs.cons _ (none, _) _ _ _ hsecond (.nil _))
  have hread' := @ReadAs.cons 0 (none, _) _ _ _ hmerged (.nil _)
  rw [List.append_nil] at hread'
  rw [List.append_nil, List.map_cons, List.map_cons] at hread
  have hmerges := @buildTexts_merged writtenTexts mergedTexts [_] [_, _] _ _ _ _ hread hread'
  obtain ⟨hbuilds, hsame⟩ :=
    hmerges (hread.described (by decide +kernel)) (hread'.described (by decide +kernel)) rfl
  obtain ⟨schema, h⟩ := exists_ok (x := buildTexts writtenTexts) (by decide +kernel)
  obtain ⟨schema', h'⟩ := hbuilds.mp ⟨schema, h⟩
  exact ⟨schema, schema', h, h', hsame schema schema' h h'⟩

end GraphSchema
