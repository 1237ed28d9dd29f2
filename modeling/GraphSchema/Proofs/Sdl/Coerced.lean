/-
Defaults read back from what is written for them.

A default is written at its type, so what is read of it is not the literal that was declared but its
coercion to the type (`coerced`): a single value has become a list, an integer at `ID` a string, and
at a scalar type of the schema's own any literal but a string has become the string of its text.
All else is unchanged.  This holds of the defaults that fit their type (`suits`), and the proof goes
along the literal: what a form is good for (`Form.Gives`) carries over from the parts of a literal
to the whole.
-/
import GraphSchema.Proofs.Sdl.Expressible

namespace GraphSchema.Sdl

open Syntax

variable {schema : Schema}

/-! ### Coercion

What a default becomes by being written at a type and read back.  This is a function on literals,
so that a reader can compute it without a document.
-/

/-- A value in as many lists of one as a type has. -/
def singly : WrappedType → Literal → Literal
  | .named _ _, v => v
  | .list inner _, v => .list [singly inner v]

/-- A literal as a string: any other is replaced by its text. -/
def asString : Literal → Literal
  | .string s => .string s
  | v => .string v.text

/-- The coercion of a literal to a type of the given name, if no part of it depends on types in
turn. -/
def coercedAtom (schema : Schema) (type : String) (v : Literal) : Literal :=
  if type ∈ Builtin.scalarNames then
    match type, v with
    | "ID", .int n => .string (toString n.toInt)
    | _, v => v
  else if schema.types.kindOf? type = some .scalar then asString v
  else v

mutual

/-- The coercion of a literal to a type. -/
def coerced (schema : Schema) : Literal → WrappedType → Literal
  | .null, _ => .null
  | .list items, .list inner _ => .list (coercedItems schema items inner)
  | .object entries, type =>
    singly type <| match signature? schema type.innermostName with
      | some signature => .object (coercedEntries schema entries signature)
      | none => coercedAtom schema type.innermostName (.object entries)
  | v, type => singly type (coercedAtom schema type.innermostName v)

/-- The items of a list, each as one of its type. -/
def coercedItems (schema : Schema) : List Literal → WrappedType → List Literal
  | [], _ => []
  | item :: rest, type => coerced schema item type :: coercedItems schema rest type

/-- The entries of an object, each as its field.  An entry of no field stays as it is. -/
def coercedEntries (schema : Schema) :
    List (String × Literal) → List (String × WrappedType) → List (String × Literal)
  | [], _ => []
  | (key, v) :: rest, signature =>
    let value := match signature.lookup key with
      | some type => coerced schema v type
      | none => v
    (key, value) :: coercedEntries schema rest signature

end

/-- A single value becomes a list of one. -/
theorem coerced_single {v : Literal} (hnull : v ≠ .null) (hlist : ∀ items, v ≠ .list items)
    (inner : WrappedType) (nullable : Bool) :
    coerced schema v (.list inner nullable) = .list [coerced schema v inner] := by
  cases v with
  | null => exact absurd rfl hnull
  | list items => exact absurd rfl (hlist items)
  | _ => cases inner <;> rfl

/-! ### Literals that fit a type -/

/-- The literals of the scalar types of the language, but for those of floats. -/
def ofScalar : String → Literal → Bool
  | "Boolean", .boolean _ | "Int", .int _ | "String", .string _ | "ID", .string _ | "ID", .int _ => true
  | _, _ => false

/-- The literal fits the enum or scalar type of a name.  A type with the name of a scalar type of
the language is written as if it was that one, so it must not be another. -/
def suitsAtom (schema : Schema) (type : String) (v : Literal) : Bool :=
  match schema.types.kindOf? type, v with
  | some .enum, .enum _ => decide (type ∉ Builtin.scalarNames)
  | some .scalar, v => decide (type ∉ Builtin.scalarNames) || ofScalar type v
  | _, _ => false

mutual

/-- The literal fits the type: null fits any type, and a single value fits a list type. -/
def suits (schema : Schema) : Literal → WrappedType → Bool
  | .null, _ => true
  | .list items, .list inner _ => itemsSuit schema items inner
  | .object entries, type =>
    match signature? schema type.innermostName with
    | some signature => entriesSuit schema entries signature
    | none => suitsAtom schema type.innermostName (.object entries)
  | v, type => suitsAtom schema type.innermostName v

/-- Every item of a list suits its type. -/
def itemsSuit (schema : Schema) : List Literal → WrappedType → Bool
  | [], _ => true
  | item :: rest, type => suits schema item type && itemsSuit schema rest type

/-- Every entry of an object is of a field, and suits it. -/
def entriesSuit (schema : Schema) : List (String × Literal) → List (String × WrappedType) → Bool
  | [], _ => true
  | (key, v) :: rest, signature =>
    (match signature.lookup key with
      | some type => suits schema v type
      | none => false) && entriesSuit schema rest signature

end

theorem itemsSuit_iff {items : List Literal} {type : WrappedType} :
    itemsSuit schema items type = true ↔ ∀ item ∈ items, suits schema item type = true := by
  induction items with
  | nil => exact iff_of_true rfl nofun
  | cons item rest ih => rw [itemsSuit, Bool.and_eq_true, ih, List.forall_mem_cons]

theorem entriesSuit_iff {entries : List (String × Literal)} {signature : List (String × WrappedType)} :
    entriesSuit schema entries signature = true ↔
      ∀ entry ∈ entries, ∃ type, signature.lookup entry.1 = some type ∧ suits schema entry.2 type = true := by
  induction entries with
  | nil => exact iff_of_true rfl nofun
  | cons entry rest ih =>
    obtain ⟨key, v⟩ := entry
    rw [entriesSuit, Bool.and_eq_true, ih, List.forall_mem_cons]
    refine and_congr_left fun _ => ?_
    cases signature.lookup key <;> simp

theorem coercedItems_eq (items : List Literal) (type : WrappedType) :
    coercedItems schema items type = items.map fun item => coerced schema item type := by
  induction items with
  | nil => rfl
  | cons item rest ih => rw [coercedItems, ih, List.map_cons]

/-- The coercion of an entry. -/
def coercedEntry (schema : Schema) (signature : List (String × WrappedType))
    (entry : String × Literal) : Literal :=
  match signature.lookup entry.1 with
  | some type => coerced schema entry.2 type
  | none => entry.2

theorem coercedEntries_eq (entries : List (String × Literal)) (signature : List (String × WrappedType)) :
    coercedEntries schema entries signature
      = entries.map fun entry => (entry.1, coercedEntry schema signature entry) := by
  induction entries with
  | nil => rfl
  | cons entry rest ih =>
    rw [coercedEntries, ih, List.map_cons]
    rfl

/-! ### What forms give

A form that can be read gives one literal up to the order of entries.  The lemmas put forms of
parts together.
-/

/-- The form is read as the literal wherever there is room for the literal. -/
structure Form.Gives (form : Form) (w : Literal) : Prop where
  legible : form.Legible
  constant : form.Constant
  literal : form.literal = w
  depth : form.depth ≤ w.depth

theorem Form.entriesDepth_le {entries : List (String × Form)} {n : Nat}
    (h : ∀ entry ∈ entries, entry.2.depth ≤ n) : entriesDepth entries ≤ n := by
  induction entries with
  | nil => exact Nat.zero_le n
  | cons entry rest ih =>
    rw [List.forall_mem_cons] at h
    exact max_le h.1 (ih h.2)

namespace Form.Gives

theorem readAll_text {form : Form} {w : Literal} (h : form.Gives w) (constant : Bool) {room : Nat}
    (hdepth : w.depth ≤ room) : Reader.readAll (readLiteral constant room) form.text = some w := by
  rw [← h.literal]
  exact Form.readAll_text h.legible (fun _ => h.constant) (Nat.le_trans h.depth hdepth)

theorem name {text : String} (h : isName text.toList = true) : (Form.name text).Gives (.ofName text) where
  legible := List.forall_mem_singleton.mpr h
  constant := List.forall_mem_singleton.mpr nofun
  literal := rfl
  depth := Nat.zero_le _

theorem int (n : Int64) : (Form.int n).Gives (.int n) where
  legible := List.forall_mem_singleton.mpr trivial
  constant := List.forall_mem_singleton.mpr nofun
  literal := rfl
  depth := Nat.zero_le _

theorem string {value : String} (h : '\x08' ∉ value.toList) : (Form.string value).Gives (.string value) where
  legible := List.forall_mem_singleton.mpr h
  constant := List.forall_mem_singleton.mpr nofun
  literal := rfl
  depth := Nat.zero_le _

theorem list {α : Type} {l : List α} {f : α → Form} {g : α → Literal} (h : ∀ a ∈ l, (f a).Gives (g a)) :
    (Form.list (l.map f)).Gives (.list (l.map g)) where
  legible := legible_list_iff.mpr (List.forall_mem_map.mpr fun a ha => (h a ha).legible)
  constant := constant_list_iff.mpr (List.forall_mem_map.mpr fun a ha => (h a ha).constant)
  literal := by
    rw [Form.literal, itemLiterals_eq, List.map_map]
    exact congrArg Literal.list (List.map_congr_left fun a ha => (h a ha).literal)
  depth := by
    refine Nat.succ_le_succ ?_
    induction l with
    | nil => exact Nat.le_refl 0
    | cons a l ih =>
      rw [List.forall_mem_cons] at h
      exact max_le_max h.1.depth (ih h.2)

/-- The entries of an object may be written in any order. -/
theorem object {entries : List (String × Literal)} {forms : List (String × Form)}
    {f : String × Literal → Form} {g : String × Literal → Literal} (arranged : Bool)
    (hforms : forms.Perm (entries.map fun entry => (entry.1, f entry)))
    (hsorted : entries.Pairwise fun a b => a.1 < b.1)
    (hkeys : ∀ entry ∈ entries, isName entry.1.toList = true)
    (h : ∀ entry ∈ entries, (f entry).Gives (g entry)) :
    (Form.object arranged forms).Gives (.object (entries.map fun entry => (entry.1, g entry))) := by
  have hmem : ∀ e ∈ forms, ∃ entry ∈ entries, (entry.1, f entry) = e := fun e he =>
    List.mem_map.mp (hforms.mem_iff.mp he)
  refine ⟨legible_object_iff.mpr fun e he => ?_, constant_object_iff.mpr fun e he => ?_, ?_,
    Nat.succ_le_succ (entriesDepth_le fun e he => ?_)⟩
  · obtain ⟨entry, hentry, rfl⟩ := hmem e he
    exact ⟨hkeys entry hentry, (h entry hentry).legible⟩
  · obtain ⟨entry, hentry, rfl⟩ := hmem e he
    exact (h entry hentry).constant
  · have hperm := hforms.map fun e : String × Form => (e.1, e.2.literal)
    have hread : (entries.map fun entry => (entry.1, f entry)).map (fun e => (e.1, e.2.literal))
        = entries.map fun entry => (entry.1, g entry) := by
      rw [List.map_map]
      exact List.map_congr_left fun entry hentry => congrArg (entry.1, ·) (h entry hentry).literal
    rw [hread] at hperm
    rw [Form.literal, entryLiterals_eq]
    exact Literal.ofEntries_of_perm hperm (List.pairwise_map.mpr hsorted)
  · obtain ⟨entry, hentry, rfl⟩ := hmem e he
    have hentry' : (entry.1, g entry) ∈ entries.map fun entry => (entry.1, g entry) :=
      List.mem_map_of_mem hentry
    exact Nat.le_trans (h entry hentry).depth (Literal.depth_le_of_mem_entries hentry')

/-- In as many lists of one as a type has. -/
theorem singly {form : Form} {w : Literal} (h : form.Gives w) (type : WrappedType) :
    (inListForms type form).Gives (Sdl.singly type w) := by
  induction type with
  | named => exact h
  | list inner _ ih =>
    have hone : ∀ x ∈ [()], (inListForms inner form).Gives (Sdl.singly inner w) := fun _ _ => ih
    exact list hone

end Form.Gives

/-! ### Defaults -/

theorem gives_quotedForm {v : Literal} (h : v.Proper) (hbare : v.Bare) :
    (quotedForm v).Gives (asString v) where
  legible := legible_quotedForm h hbare
  constant := constant_quotedForm v
  literal := by cases v <;> rfl
  depth := by cases v <;> exact Nat.zero_le _

/-- A literal of a scalar type of the language. -/
theorem gives_ofScalar {v : Literal} (hbare : v.Bare) {type : String}
    (hscalar : type ∈ Builtin.scalarNames) (hv : ofScalar type v = true) :
    (atomForm schema type v).Gives (coercedAtom schema type v) := by
  unfold coercedAtom
  rw [if_pos hscalar]
  unfold ofScalar at hv
  split at hv
  · next value =>
    cases value with
    | true => exact Form.Gives.name (by decide)
    | false => exact Form.Gives.name (by decide)
  · exact Form.Gives.int _
  · exact Form.Gives.string hbare.string
  · exact Form.Gives.string hbare.string
  · next n => exact gives_quotedForm (.int n) hbare
  · cases hv

theorem gives_atomForm {v : Literal} (h : v.Proper) (hbare : v.Bare) {type : String}
    (hsuits : suitsAtom schema type v = true) :
    (atomForm schema type v).Gives (coercedAtom schema type v) := by
  by_cases hscalar : type ∈ Builtin.scalarNames
  · refine gives_ofScalar hbare hscalar ?_
    unfold suitsAtom at hsuits
    split at hsuits
    · exact absurd hscalar (of_decide_eq_true hsuits)
    · simpa [hscalar] using hsuits
    · cases hsuits
  · unfold coercedAtom
    rw [if_neg hscalar, atomForm_of_not_mem hscalar]
    unfold suitsAtom at hsuits
    split at hsuits
    · next name hkind =>
      cases h with
      | enum hname hreserved =>
        have hgives := Form.Gives.name hname
        rw [Literal.ofName_of_not_mem hreserved] at hgives
        rw [hkind, if_neg nofun]
        exact hgives
    · next hkind =>
      rw [hkind, if_pos rfl]
      exact gives_quotedForm h hbare
    · cases hsuits

theorem coerced_object {type : WrappedType} {signature : List (String × WrappedType)}
    (h : signature? schema type.innermostName = some signature) (entries : List (String × Literal)) :
    coerced schema (.object entries) type
      = singly type (.object (entries.map fun entry => (entry.1, coercedEntry schema signature entry))) := by
  rw [coerced, h, ← coercedEntries_eq]

/-- **A value is written as its coercion.** -/
theorem gives_valueForm {v : Literal} (h : v.Proper) (hbare : v.Bare) {type : WrappedType}
    (hsuits : suits schema v type = true) : (valueForm schema v type).Gives (coerced schema v type) := by
  induction v using Literal.induct generalizing type with
  | null =>
    rw [valueForm_null]
    cases type <;> exact Form.Gives.name (by decide)
  | boolean | enum | float | int | string =>
    cases type <;> exact (gives_atomForm h hbare hsuits).singly _
  | varRef => cases h
  | list items ih =>
    cases type with
    | named name nullable => exact gives_atomForm h hbare hsuits
    | list inner nullable =>
      cases h with
      | list hitems =>
        rw [suits, itemsSuit_iff] at hsuits
        rw [valueForm, itemForms_eq, coerced, coercedItems_eq]
        exact Form.Gives.list fun item hitem =>
          ih item hitem (hitems item hitem) (hbare.item item hitem) (hsuits item hitem)
  | object entries ih =>
    rw [suits] at hsuits
    cases hsignature : signature? schema type.innermostName with
    | none =>
      rw [hsignature] at hsuits
      rw [valueForm, coerced, hsignature]
      exact (gives_atomForm h hbare hsuits).singly type
    | some signature =>
      cases h with
      | object hsorted hkeys hvalues =>
        rw [hsignature] at hsuits
        rw [entriesSuit_iff] at hsuits
        have hnodup : ((entryForms schema entries signature).map Prod.fst).Nodup := by
          rw [entryForms_eq, List.map_map]
          exact List.pairwise_map.mpr (hsorted.imp fun hlt => String.ne_of_lt hlt)
        have hperm : (arrange signature (entryForms schema entries signature)).Perm
            (entries.map fun entry => (entry.1, entryForm schema signature entry.1 entry.2)) := by
          rw [← entryForms_eq]
          exact arrange_perm (signature_nodup hsignature) hnodup
        rw [valueForm_object hsignature, coerced_object hsignature]
        refine Form.Gives.singly (Form.Gives.object true hperm hsorted hkeys fun entry hentry => ?_) type
        obtain ⟨field, hfield, hfits⟩ := hsuits entry hentry
        unfold entryForm coercedEntry
        rw [hfield]
        exact ih entry hentry (hvalues entry hentry) (hbare.entry entry hentry) hfits

end GraphSchema.Sdl

namespace GraphSchema

open Sdl Syntax

/-- The arguments and input fields of a schema, those of its directives first. -/
def Schema.parameters (schema : Schema) : List Parameter :=
  schema.directives.toList.flatMap (fun d => d.parameters.toList)
    ++ schema.types.toList.flatMap fun t => (bodyParameters t.body).map Prod.snd

theorem Schema.Sound.proper_of_mem_parameters {schema : Schema} (h : schema.Sound) {p : Parameter}
    (hp : p ∈ schema.parameters) : ∀ v ∈ p.default, v.Proper := by
  rcases List.mem_append.mp hp with hp | hp
  · obtain ⟨d, hd, hp⟩ := List.mem_flatMap.mp hp
    exact h.defaults d hd p hp
  · obtain ⟨t, ht, hp⟩ := List.mem_flatMap.mp hp
    obtain ⟨x, hx, rfl⟩ := List.mem_map.mp hp
    exact properBody_default (h.types.defaults t ht) hx

/-- **What is written for a default is read as its coercion**, wherever there is room for the
coercion. -/
theorem readAll_valueText {texts : List SourceText} {schema : Schema} (hbuild : buildTexts texts = .ok schema)
    {p : Parameter} (hp : p ∈ schema.parameters) {v : Literal} (hv : v ∈ p.default) (hbare : v.Bare)
    (hsuits : suits schema v p.type = true) (constant : Bool) {room : Nat}
    (hdepth : (coerced schema v p.type).depth ≤ room) :
    Reader.readAll (readLiteral constant room) (valueText schema v p.type)
      = some (coerced schema v p.type) := by
  have hproper := (sound_of_buildTexts hbuild).proper_of_mem_parameters hp v hv
  rw [← text_valueForm]
  exact (gives_valueForm hproper hbare hsuits).readAll_text constant hdepth

/-- A text with a default of many kinds. -/
def mixedDefault : SourceText :=
  (none, "enum E \x7b A \x7d scalar S input I \x7b i: [ID] e: [E!]! s: S \x7d "
    ++ "type Query \x7b f(x: [I] = \x7b i: [1, null], e: A, s: [2] \x7d): Int \x7d")

theorem readAll_valueText_mixed : ∃ schema, buildTexts [mixedDefault] = .ok schema ∧
    ∃ p ∈ schema.parameters, ∃ v ∈ p.default, v.Bare ∧ suits schema v p.type = true ∧
      (coerced schema v p.type).depth ≤ nestingLimit ∧
      (coerced schema v p.type).text = "[\x7b e: [A], i: [\"1\", null], s: \"[2]\" \x7d]" ∧
      Reader.readAll (readLiteral true nestingLimit) (valueText schema v p.type)
        = some (coerced schema v p.type) := by
  obtain ⟨schema, hbuild, hcheck⟩ := exists_buildTexts [mixedDefault]
    (p := fun schema => decide (∃ p ∈ schema.parameters, ∃ v ∈ p.default, v.Bare ∧
      suits schema v p.type = true ∧ (coerced schema v p.type).depth ≤ nestingLimit ∧
      (coerced schema v p.type).text = "[\x7b e: [A], i: [\"1\", null], s: \"[2]\" \x7d]"))
    (by decide +kernel)
  obtain ⟨p, hp, v, hv, hbare, hsuits, hdepth, htext⟩ := of_decide_eq_true hcheck
  exact ⟨schema, hbuild, p, hp, v, hv, hbare, hsuits, hdepth, htext,
    readAll_valueText hbuild hp hv hbare hsuits true hdepth⟩

/-! ### Defaults that do not come back -/

/-- A text builds a schema with a default of the first text, and what is written for it is read as
a literal of the second one, or as none. -/
def DefaultBecomes (text : SourceText) (before : String) (after : Option String) : Prop :=
  ∃ schema, buildTexts [text] = .ok schema ∧ ∃ p ∈ schema.parameters, ∃ v ∈ p.default, v.text = before ∧
    (Reader.readAll (readLiteral true nestingLimit) (valueText schema v p.type)).map Literal.text = after

theorem defaultBecomes_of_check {text : SourceText} {before : String} {after : Option String}
    (h : (buildTexts [text]).toOption.any (fun schema => decide (∃ p ∈ schema.parameters,
      ∃ v ∈ p.default, v.text = before ∧ (Reader.readAll (readLiteral true nestingLimit)
        (valueText schema v p.type)).map Literal.text = after)) = true) :
    DefaultBecomes text before after := by
  obtain ⟨schema, hbuild, hcheck⟩ := exists_buildTexts [text] h
  exact ⟨schema, hbuild, of_decide_eq_true hcheck⟩

/-- An integer at a scalar type of the schema's own. -/
def scalarDefault : SourceText := (none, "scalar S type Query \x7b f(a: S = 5): Int \x7d")

/-- An enum value at a type with the name of a scalar type of the language. -/
def renamedDefault : SourceText :=
  (none, "enum String \x7b A \x7d type Query \x7b f(a: String = A): Int \x7d")

/-- A schema with a default that is a backspace. -/
def backspaceDefault : SourceText := (none, "type Query \x7b f(a: String = \"\\u0008\"): Int \x7d")

/-- Two objects in one another, at one list less than can be read. -/
def enclosedDefault : SourceText :=
  (none, "type Query \x7b f: Int \x7d input J \x7b a: J b: Int \x7d input I \x7b x: "
    ++ String.ofList (List.replicate 49 '[') ++ "J" ++ String.ofList (List.replicate 49 ']')
    ++ " = \x7b a: \x7b b: 1 \x7d \x7d \x7d")

/-- None of these defaults is read as the literal that it was, in the lists of its type. -/
theorem defaultBecomes_other :
    DefaultBecomes scalarDefault "5" (some "\"5\"") ∧ DefaultBecomes renamedDefault "A" (some "\"A\"") ∧
      DefaultBecomes backspaceDefault "\"\\b\"" (some "\"\\u0010\"") ∧
      DefaultBecomes enclosedDefault "\x7b a: \x7b b: 1 \x7d \x7d" none :=
  ⟨defaultBecomes_of_check (by decide +kernel), defaultBecomes_of_check (by decide +kernel),
    defaultBecomes_of_check (by decide +kernel), defaultBecomes_of_check (by decide +kernel)⟩

end GraphSchema
