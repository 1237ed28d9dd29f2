/-
What a document can say.

The description of a schema that can be read back (`Schema.Legible`) speaks of the forms in which
defaults are written.  Here is one that speaks of the schema itself: no line of a description is
wrapped, no default holds a float or a backspace, and no string stands where an enum value is due.
Every literal of a schema that is `Expressible` is read back as it is written, so such a schema is
legible, as long as it is also `Shallow`: its directives have places, and its defaults, in their
forms, do not nest too deeply.
-/
import GraphSchema.Proofs.Decimal.Integer
import GraphSchema.Proofs.Schema.Kept
import GraphSchema.Proofs.Sdl.Canonical
import GraphSchema.Proofs.Sdl.Literals

namespace GraphSchema

open Sdl Syntax

/-! ### Parts of literals -/

namespace Literal

mutual

/-- A literal and all that it is made of. -/
def parts : Literal → List Literal
  | .list items => .list items :: itemParts items
  | .object entries => .object entries :: entryParts entries
  | v => [v]

/-- The parts of the items of a list. -/
def itemParts : List Literal → List Literal
  | [] => []
  | item :: rest => item.parts ++ itemParts rest

/-- The parts of the entries of an object. -/
def entryParts : List (String × Literal) → List Literal
  | [] => []
  | (_, v) :: rest => v.parts ++ entryParts rest

end

/-- Whether the value is a number with a point. -/
def isFloat : Literal → Bool
  | .float _ => true
  | _ => false

/-- The literal can be written at a type without enums: no part of it is a float or a string with
a backspace. -/
def Bare (v : Literal) : Prop := ∀ w ∈ v.parts, w.isFloat = false ∧ ∀ s ∈ w.string?, '\x08' ∉ s.toList

instance (v : Literal) : Decidable v.Bare := inferInstanceAs (Decidable (∀ w ∈ v.parts, _))

theorem itemParts_eq (items : List Literal) : itemParts items = items.flatMap parts := by
  induction items with
  | nil => rfl
  | cons item rest ih => rw [itemParts, ih, List.flatMap_cons]

theorem entryParts_eq (entries : List (String × Literal)) :
    entryParts entries = entries.flatMap fun entry => entry.2.parts := by
  induction entries with
  | nil => rfl
  | cons entry rest ih => rw [entryParts, ih, List.flatMap_cons]

theorem Bare.not_float {x : Float} : ¬ (Literal.float x).Bare := fun h =>
  Bool.noConfusion (h (.float x) List.mem_cons_self).1

theorem Bare.string {s : String} (h : (Literal.string s).Bare) : '\x08' ∉ s.toList :=
  (h (.string s) List.mem_cons_self).2 s rfl

theorem Bare.item {items : List Literal} (h : (Literal.list items).Bare) : ∀ item ∈ items, item.Bare := by
  intro item hitem w hw
  refine h w (List.mem_cons_of_mem _ ?_)
  rw [itemParts_eq]
  exact List.mem_flatMap.mpr ⟨item, hitem, hw⟩

theorem Bare.entry {entries : List (String × Literal)} (h : (Literal.object entries).Bare) :
    ∀ entry ∈ entries, entry.2.Bare := by
  intro entry hentry w hw
  refine h w (List.mem_cons_of_mem _ ?_)
  rw [entryParts_eq]
  exact List.mem_flatMap.mpr ⟨entry, hentry, hw⟩

/-- A constant that is bare can be told from any other literal. -/
theorem Proper.writable {v : Literal} (h : v.Proper) (hbare : v.Bare) : v.Writable := by
  induction h with
  | boolean value => exact .boolean value
  | enum hname hreserved => exact .enum hname hreserved
  | float => exact absurd hbare Bare.not_float
  | int n => exact .int n
  | list _ ih => exact .list fun item hitem => ih item hitem (hbare.item item hitem)
  | null => exact .null
  | object hsorted hkeys _ ih =>
    exact .object (List.pairwise_map.mpr (hsorted.imp fun hlt => String.ne_of_lt hlt)) hkeys
      fun entry hentry => ih entry hentry (hbare.entry entry hentry)
  | string => exact .string hbare.string

end Literal

namespace Sdl

variable {schema : Schema}

/-! ### Literals in a form -/

theorem legible_plainForm {v : Literal} (h : v.Proper) (hbare : v.Bare) : (plainForm v).Legible :=
  (h.writable hbare).legible

/-- An integer at a float type. -/
theorem legible_floatForm (n : Int64) : (floatForm (Decimal.ofInteger n)).Legible := by
  unfold floatForm
  split
  · next hname => exact List.forall_mem_singleton.mpr hname
  · exact List.forall_mem_singleton.mpr (Decimal.legible_ofInteger n)

/-! #### The text of a literal as a string -/

/-- Only the first word of a form can stand on a new line. -/
theorem gap_of_mem_words {form : Form} {gap : Gap} {word : Word} (h : word ∈ form.words gap) :
    word.gap = gap ∨ ∃ comma blanks, word.gap = .inline comma blanks := by
  have hmark : ∀ {first : Bool} {a b c d}, ∃ comma blanks,
      (if first then Gap.inline a b else Gap.inline c d) = .inline comma blanks := by
    intro first
    cases first <;> exact ⟨_, _, rfl⟩
  induction form using Form.induct generalizing gap with
  | name | int | float | string => exact Or.inl (congrArg Word.gap (List.mem_singleton.mp h))
  | varRef =>
    rw [Form.words, List.mem_pair] at h
    rcases h with rfl | rfl
    · exact Or.inl rfl
    · exact Or.inr ⟨_, _, rfl⟩
  | list items ih =>
    rw [Form.words, Form.itemWords_eq, List.mem_cons, List.mem_append, List.mem_flatMap, List.mem_singleton] at h
    rcases h with rfl | ⟨x, hx, hword⟩ | rfl
    · exact Or.inl rfl
    · rcases ih x.2 (snd_mem_of_mem_marked hx) hword with heq | hinline
      · exact Or.inr (heq ▸ hmark)
      · exact Or.inr hinline
    · exact Or.inr ⟨_, _, rfl⟩
  | object arranged entries ih =>
    rw [Form.words, Form.entryWords_eq, List.mem_cons, List.mem_append, List.mem_flatMap, List.mem_singleton] at h
    rcases h with rfl | ⟨x, hx, hword⟩ | rfl
    · exact Or.inl rfl
    · rw [Form.oneEntryWords, List.mem_cons, List.mem_cons] at hword
      rcases hword with rfl | rfl | hword
      · exact Or.inr hmark
      · exact Or.inr ⟨_, _, rfl⟩
      · rcases ih x.2 (snd_mem_of_mem_marked hx) hword with heq | hinline
        · exact Or.inr ⟨_, _, heq⟩
        · exact Or.inr hinline
    · exact Or.inr ⟨_, _, rfl⟩

/-- No control character stands in the text of a form. -/
theorem Form.le_of_mem_text {form : Form} (h : form.Legible) {c : Char} (hc : c ∈ form.text.toList) :
    0x20 ≤ c.toNat := by
  have hlayout := Form.layoutText_words form (.inline false 0)
  rw [show (Gap.inline false 0).text = [] from rfl, List.nil_append] at hlayout
  rw [← hlayout] at hc
  obtain ⟨word, hword, hc⟩ := List.mem_flatMap.mp hc
  rcases List.mem_append.mp hc with hc | hc
  · obtain ⟨comma, blanks, hgap⟩ : ∃ comma blanks, word.gap = .inline comma blanks := by
      rcases gap_of_mem_words hword with heq | hinline
      · exact ⟨_, _, heq⟩
      · exact hinline
    rw [hgap, Gap.text] at hc
    rcases List.mem_append.mp hc with hc | hc
    · split at hc
      · obtain rfl := List.mem_singleton.mp hc
        decide
      · cases hc
    · obtain rfl := (List.mem_replicate.mp hc).2
      decide
  · exact Syntax.le_of_mem_text (h word.lexeme (List.mem_map_of_mem hword)) hc

theorem legible_quotedForm {v : Literal} (h : v.Proper) (hbare : v.Bare) : (quotedForm v).Legible := by
  have htext : '\x08' ∉ v.text.toList := by
    intro hmem
    rw [← text_plainForm] at hmem
    exact absurd (Form.le_of_mem_text (legible_plainForm h hbare) hmem) (by decide)
  cases v with
  | string s => exact List.forall_mem_singleton.mpr hbare.string
  | _ => exact List.forall_mem_singleton.mpr htext

/-! ### Literals at a type

At an enum type a string is written without quotes, so it has to be a name there, and one that
stands for no other literal.
-/

mutual

/-- The parts of a value that stand where a value of a named type is due, with the names of their
types. -/
def placed (schema : Schema) : Literal → WrappedType → List (Literal × String)
  | .list items, .list inner _ => itemsPlaced schema items inner
  | .object entries, type =>
    match signature? schema type.innermostName with
    | some signature => entriesPlaced schema entries signature
    | none => [(.object entries, type.innermostName)]
  | v, type => [(v, type.innermostName)]

/-- The placed parts of the items of a list. -/
def itemsPlaced (schema : Schema) : List Literal → WrappedType → List (Literal × String)
  | [], _ => []
  | item :: rest, type => placed schema item type ++ itemsPlaced schema rest type

/-- The placed parts of the entries of an object.  An entry of no field stands at no type. -/
def entriesPlaced (schema : Schema) :
    List (String × Literal) → List (String × WrappedType) → List (Literal × String)
  | [], _ => []
  | (key, v) :: rest, signature =>
    let first := match signature.lookup key with
      | some type => placed schema v type
      | none => []
    first ++ entriesPlaced schema rest signature

end

/-- No string stands in the value where an enum value is due. -/
def EnumsNamed (schema : Schema) (v : Literal) (type : WrappedType) : Prop :=
  ∀ part ∈ placed schema v type, schema.types.kindOf? part.2 = some .enum → part.1.string? = none

instance (v : Literal) (type : WrappedType) : Decidable (EnumsNamed schema v type) :=
  inferInstanceAs (Decidable (∀ part ∈ placed schema v type, _))

theorem EnumsNamed.item {items : List Literal} {inner : WrappedType} {nullable : Bool}
    (h : EnumsNamed schema (.list items) (.list inner nullable)) :
    ∀ item ∈ items, EnumsNamed schema item inner := by
  have heq : itemsPlaced schema items inner = items.flatMap fun item => placed schema item inner := by
    clear h
    induction items with
    | nil => rfl
    | cons item rest ih => rw [itemsPlaced, ih, List.flatMap_cons]
  intro item hitem part hpart
  refine h part ?_
  rw [placed, heq]
  exact List.mem_flatMap.mpr ⟨item, hitem, hpart⟩

theorem EnumsNamed.entry {entries : List (String × Literal)} {type : WrappedType}
    {signature : List (String × WrappedType)} (h : EnumsNamed schema (.object entries) type)
    (hsignature : signature? schema type.innermostName = some signature) :
    ∀ entry ∈ entries, ∀ field ∈ signature.lookup entry.1, EnumsNamed schema entry.2 field := by
  have heq : entriesPlaced schema entries signature
      = entries.flatMap fun entry => ((signature.lookup entry.1).map (placed schema entry.2)).getD [] := by
    clear h
    induction entries with
    | nil => rfl
    | cons entry rest ih =>
      rw [entriesPlaced, ih, List.flatMap_cons]
      cases signature.lookup entry.1 <;> rfl
  intro entry hentry field hfield part hpart
  refine h part ?_
  rw [placed, hsignature]
  dsimp only
  rw [heq, List.mem_flatMap]
  refine ⟨entry, hentry, ?_⟩
  rw [Option.mem_def.mp hfield]
  exact hpart

theorem legible_atomForm {v : Literal} (h : v.Proper) (hbare : v.Bare) {type : String}
    (henum : schema.types.kindOf? type = some .enum → v.string? = none) : (atomForm schema type v).Legible := by
  have hplain := legible_plainForm h hbare
  have hquoted := legible_quotedForm h hbare
  unfold atomForm
  split
  · split
    · exact legible_floatForm _
    · exact hplain
  split
  · split
    · exact List.forall_mem_singleton.mpr trivial
    · exact hplain
  split
  · exact hplain
  split
  · exact hquoted
  split
  · next hkind =>
    split
    · cases henum hkind
    · exact hplain
  · exact hquoted
  · exact hplain

theorem legible_inListForms {form : Form} (h : form.Legible) (type : WrappedType) :
    (inListForms type form).Legible := by
  induction type with
  | named => exact h
  | list inner _ ih => exact Form.legible_list_iff.mpr (List.forall_mem_singleton.mpr ih)

/-- **A bare literal is written so that it is read back.** -/
theorem legible_valueForm {v : Literal} (h : v.Proper) (hbare : v.Bare) {type : WrappedType}
    (henums : EnumsNamed schema v type) : (valueForm schema v type).Legible := by
  have hatom : ∀ {v : Literal} (type : WrappedType), v.Proper → v.Bare →
      (v, type.innermostName) ∈ placed schema v type → EnumsNamed schema v type →
      (inListForms type (atomForm schema type.innermostName v)).Legible :=
    fun type h hbare hmem henums => legible_inListForms (legible_atomForm h hbare (henums _ hmem)) type
  induction v using Literal.induct generalizing type with
  | null =>
    rw [valueForm_null]
    exact List.forall_mem_singleton.mpr (by decide : isName _ = true)
  | boolean | enum | int | string => cases type <;> exact hatom _ h hbare List.mem_cons_self henums
  | float => exact absurd hbare Literal.Bare.not_float
  | varRef => cases h
  | list items ih =>
    cases type with
    | named name nullable => exact hatom (.named name nullable) h hbare List.mem_cons_self henums
    | list inner nullable =>
      cases h with
      | list hitems =>
        rw [valueForm, itemForms_eq, Form.legible_list_iff, List.forall_mem_map]
        exact fun item hitem => ih item hitem (hitems item hitem) (hbare.item item hitem) (henums.item item hitem)
  | object entries ih =>
    cases hsignature : signature? schema type.innermostName with
    | none =>
      rw [valueForm, hsignature]
      refine hatom type h hbare ?_ henums
      rw [placed, hsignature]
      exact List.mem_cons_self
    | some signature =>
      cases h with
      | object _ hkeys hvalues =>
        rw [valueForm_object hsignature]
        refine legible_inListForms (Form.legible_object_iff.mpr fun entry hentry => ?_) type
        have hmem := mem_of_mem_arrange hentry
        rw [entryForms_eq] at hmem
        obtain ⟨before, hbefore, rfl⟩ := List.mem_map.mp hmem
        refine ⟨hkeys before hbefore, ?_⟩
        have hbareEntry := hbare.entry before hbefore
        show (entryForm schema signature before.1 before.2).Legible
        unfold entryForm
        split
        · next field hfield =>
          exact ih before hbefore (hvalues before hbefore) hbareEntry
            (henums.entry hsignature before hbefore field hfield)
        · exact legible_plainForm (hvalues before hbefore) hbareEntry

/-! ### Schemas -/

/-- The description is written line by line at the indentation: no line of it is wrapped, and none
ends early. -/
def Unwrapped (indent : Nat) (description : Option String) : Prop :=
  ∀ d ∈ description, '\r' ∉ d.toList ∧
    ∀ line ∈ Text.cutAt '\n' d.toList, wrap (lineWidth - indent) line = [line]

instance (indent : Nat) (description : Option String) : Decidable (Unwrapped indent description) :=
  inferInstanceAs (Decidable (∀ d ∈ description, _))

theorem Unwrapped.commentable {indent : Nat} {description : Option String} (h : Unwrapped indent description) :
    Commentable description := fun d hd => (h d hd).1

/-- The arguments and input fields of what a type is made of, with the number of braces and
parentheses that they stand in. -/
def bodyParameters (body : TypeBody) : List (Nat × Parameter) :=
  body.inputFields.map (Prod.mk 1) ++ body.fields.flatMap fun f => f.parameters.toList.map (Prod.mk 2)

/-- The arguments and input fields that a schema is written with. -/
def ownParameters (schema : Schema) : List (Nat × Parameter) :=
  (ownDirectives schema).flatMap (fun d => d.parameters.toList.map (Prod.mk 1))
    ++ (ownTypes schema).flatMap fun t => bodyParameters t.body

theorem properBody_default {body : TypeBody} (h : ProperBody body) {x : Nat × Parameter}
    (hx : x ∈ bodyParameters body) : ∀ v ∈ x.2.default, v.Proper := by
  rcases List.mem_append.mp hx with hx | hx
  · obtain ⟨p, hp, rfl⟩ := List.mem_map.mp hx
    cases body with
    | inputObject fields => exact h p hp
    | _ => cases hp
  · obtain ⟨f, hf, hx⟩ := List.mem_flatMap.mp hx
    obtain ⟨p, hp, rfl⟩ := List.mem_map.mp hx
    cases body with
    | object interfaces fields | interface interfaces fields => exact h f hf p hp
    | _ => cases hf

theorem mem_ownParameters_of_directive {d : Directive} (hd : d ∈ ownDirectives schema) {p : Parameter}
    (hp : p ∈ d.parameters.toList) : (1, p) ∈ ownParameters schema :=
  List.mem_append_left _ (List.mem_flatMap.mpr ⟨d, hd, List.mem_map_of_mem hp⟩)

theorem mem_ownParameters_of_inputField {t : TypeDef} (ht : t ∈ ownTypes schema) {p : Parameter}
    (hp : p ∈ t.body.inputFields) : (1, p) ∈ ownParameters schema :=
  List.mem_append_right _ (List.mem_flatMap.mpr ⟨t, ht, List.mem_append_left _ (List.mem_map_of_mem hp)⟩)

theorem mem_ownParameters_of_field {t : TypeDef} (ht : t ∈ ownTypes schema) {f : Field} (hf : f ∈ t.body.fields)
    {p : Parameter} (hp : p ∈ f.parameters.toList) : (2, p) ∈ ownParameters schema := by
  refine List.mem_append_right _ (List.mem_flatMap.mpr ⟨t, ht, List.mem_append_right _ ?_⟩)
  exact List.mem_flatMap.mpr ⟨f, hf, List.mem_map_of_mem hp⟩

end Sdl

/-- What the schema says can be written: descriptions without wrapping, reasons without backspaces,
and defaults without floats, backspaces, and strings in the place of enum values. -/
structure Schema.Expressible (schema : Schema) : Prop where
  roots : ∀ first second name, schema.root first = some name → schema.root second = some name →
    first = second
  directives : ∀ d ∈ ownDirectives schema, Unwrapped 0 d.description
  types : ∀ t ∈ ownTypes schema, Unwrapped 0 t.description
  fields : ∀ t ∈ ownTypes schema, ∀ f ∈ t.body.fields, Unwrapped 2 f.description ∧ ReasonLegible f.deprecation
  values : ∀ t ∈ ownTypes schema, ∀ v ∈ t.body.values, Unwrapped 2 v.description ∧ ReasonLegible v.deprecation
  parameters : ∀ x ∈ ownParameters schema, Unwrapped (2 * x.1) x.2.description ∧
    ∀ v ∈ x.2.default, v.Bare ∧ EnumsNamed schema v x.2.type

/-- Every directive has a place, and no default nests more deeply, in the form that it is written
in, than is read. -/
structure Schema.Shallow (schema : Schema) : Prop where
  locations : ∀ d ∈ ownDirectives schema, d.locations ≠ []
  defaults : ∀ x ∈ ownParameters schema, ∀ v ∈ x.2.default,
    x.1 + (valueForm schema v x.2.type).depth ≤ nestingLimit

namespace Schema

variable {schema : Schema}

instance : Decidable schema.Expressible :=
  decidable_of_iff
    ((∀ first ∈ OperationKind.all, ∀ second ∈ OperationKind.all, ∀ name ∈ schema.root first,
        schema.root second = some name → first = second)
      ∧ (∀ d ∈ ownDirectives schema, Unwrapped 0 d.description)
      ∧ (∀ t ∈ ownTypes schema, Unwrapped 0 t.description)
      ∧ (∀ t ∈ ownTypes schema, ∀ f ∈ t.body.fields, Unwrapped 2 f.description ∧ ReasonLegible f.deprecation)
      ∧ (∀ t ∈ ownTypes schema, ∀ v ∈ t.body.values, Unwrapped 2 v.description ∧ ReasonLegible v.deprecation)
      ∧ ∀ x ∈ ownParameters schema, Unwrapped (2 * x.1) x.2.description ∧
        ∀ v ∈ x.2.default, v.Bare ∧ EnumsNamed schema v x.2.type)
    ⟨fun h => ⟨(roots_distinct_iff schema).mp h.1, h.2.1, h.2.2.1, h.2.2.2.1, h.2.2.2.2.1, h.2.2.2.2.2⟩,
      fun h => ⟨(roots_distinct_iff schema).mpr h.roots, h.directives, h.types, h.fields, h.values, h.parameters⟩⟩

instance : Decidable schema.Shallow :=
  decidable_of_iff
    ((∀ d ∈ ownDirectives schema, d.locations ≠ []) ∧ ∀ x ∈ ownParameters schema, ∀ v ∈ x.2.default,
      x.1 + (valueForm schema v x.2.type).depth ≤ nestingLimit)
    ⟨fun h => ⟨h.1, h.2⟩, fun h => ⟨h.1, h.2⟩⟩

theorem Sound.proper_of_mem_ownParameters (h : schema.Sound) {x : Nat × Parameter} (hx : x ∈ ownParameters schema) :
    ∀ v ∈ x.2.default, v.Proper := by
  rcases List.mem_append.mp hx with hx | hx
  · obtain ⟨d, hd, hx⟩ := List.mem_flatMap.mp hx
    obtain ⟨p, hp, rfl⟩ := List.mem_map.mp hx
    exact h.defaults d (mem_ownDirectives_iff.mp hd).1 p hp
  · obtain ⟨t, ht, hx⟩ := List.mem_flatMap.mp hx
    exact properBody_default (h.types.defaults t (mem_ownTypes_iff.mp ht).1) hx

/-- An argument or an input field can be read back. -/
theorem Expressible.parameter (h : schema.Expressible) (hshallow : schema.Shallow) (hsound : schema.Sound)
    {x : Nat × Parameter} (hx : x ∈ ownParameters schema) : x.2.Legible schema (nestingLimit - x.1) where
  description := (h.parameters x hx).1.commentable
  default := by
    intro v hv
    obtain ⟨hbare, henums⟩ := (h.parameters x hx).2 v hv
    have hdepth := hshallow.defaults x hx v hv
    exact ⟨legible_valueForm (hsound.proper_of_mem_ownParameters hx v hv) hbare henums, by omega⟩

theorem Expressible.field (h : schema.Expressible) (hshallow : schema.Shallow) (hsound : schema.Sound)
    {t : TypeDef} (ht : t ∈ ownTypes schema) {f : Field} (hf : f ∈ t.body.fields) :
    f.Legible schema (nestingLimit - 1) where
  description := (h.fields t ht f hf).1.commentable
  parameters := fun _ hp => h.parameter hshallow hsound (mem_ownParameters_of_field ht hf hp)
  deprecation := (h.fields t ht f hf).2

/-- **What can be written is read back**, if the scalar types of the language are scalar types. -/
theorem Expressible.legible (h : schema.Expressible) (hshallow : schema.Shallow) (hsound : schema.Sound)
    (hscalars : ∀ name ∈ Builtin.scalarNames, schema.types.kindOf? name = some .scalar) : schema.Legible where
  roots := h.roots
  rootNames := by
    intro operation name hname hscalar
    have hkind := hsound.roots operation name hname
    rw [hscalars name hscalar] at hkind
    cases hkind
  named := by
    intro t ht name hname hscalar
    have hlinked := (NameTable.referenceErrors_eq_nil_iff.mp hsound.references).1 t (mem_ownTypes_iff.mp ht).1
    have hkind : schema.types.kindOf? name = some .interface ∨ schema.types.kindOf? name = some .object := by
      cases hshape : t.body with
      | interface interfaces fields | object interfaces fields =>
        rw [hshape] at hname hlinked
        exact Or.inl (hlinked.1 name hname)
      | union members =>
        rw [hshape] at hname hlinked
        exact Or.inr (hlinked name hname)
      | _ =>
        rw [hshape] at hname
        cases hname
    rw [hscalars name hscalar] at hkind
    rcases hkind with hkind | hkind <;> cases hkind
  types := by
    intro t ht
    refine ⟨(h.types t ht).commentable, ?_⟩
    cases hshape : t.body with
    | enum values =>
      intro v hv
      have hvalue := h.values t ht v (hshape ▸ hv)
      exact ⟨hvalue.1.commentable, hvalue.2⟩
    | inputObject fields =>
      exact fun p hp => h.parameter hshallow hsound (mem_ownParameters_of_inputField ht (hshape ▸ hp))
    | interface interfaces fields | object interfaces fields =>
      exact fun f hf => h.field hshallow hsound ht (hshape ▸ hf)
    | scalar | union => trivial
  directives := by
    intro d hmem hother
    have hd := mem_ownDirectives_iff.mpr ⟨hmem, hother⟩
    exact ⟨(h.directives d hd).commentable,
      fun p hp => h.parameter hshallow hsound (mem_ownParameters_of_directive hd hp), hshallow.locations d hd⟩

end Schema

end GraphSchema
