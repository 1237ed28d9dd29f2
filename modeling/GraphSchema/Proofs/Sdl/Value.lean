/-
The form of a value.

`valueForm` is the form that a value is written in at a type, so that the text of a value is
the text of its form.  What is read from the page is the literal of the form, and that need not
be the value: a single value has become a list, and a number may have become a string.  But
written again at the same type it takes the same form (`valueForm_literal`), and that is all
that printing a second time needs.
-/
import GraphSchema.Proofs.Literal
import GraphSchema.Proofs.Sdl.Form
import GraphSchema.Sdl.Value

namespace GraphSchema.Sdl

open Syntax

/-! ### Values without a type -/

/-- The form of a float.  An infinite one is written as a word, which is a name. -/
def floatForm (x : Float) : Form :=
  if isName (Decimal.floatText x).toList then .name (Decimal.floatText x) else .float x

mutual

/-- The form of a literal whose type does not matter. -/
def plainForm : Literal → Form
  | .boolean true => .name "true"
  | .boolean false => .name "false"
  | .enum name => .name name
  | .float x => floatForm x
  | .int n => .int n
  | .list items => .list (plainItems items)
  | .null => .name "null"
  | .object entries => .object false (plainEntries entries)
  | .string value => .string value
  | .varRef name => .varRef name

/-- The forms of the items of a list of no known type. -/
def plainItems : List Literal → List Form
  | [] => []
  | item :: rest => plainForm item :: plainItems rest

/-- The forms of the entries of an object of no known type. -/
def plainEntries : List (String × Literal) → List (String × Form)
  | [] => []
  | (key, value) :: rest => (key, plainForm value) :: plainEntries rest

end

theorem plainItems_eq (items : List Literal) : plainItems items = items.map plainForm := by
  induction items with
  | nil => rfl
  | cons item rest ih => rw [plainItems, ih, List.map_cons]

theorem plainEntries_eq (entries : List (String × Literal)) :
    plainEntries entries = entries.map fun entry => (entry.1, plainForm entry.2) := by
  induction entries with
  | nil => rfl
  | cons entry rest ih => rw [plainEntries, ih, List.map_cons]

theorem text_floatForm (x : Float) : (floatForm x).text = Decimal.floatText x := by
  unfold floatForm
  split <;> rfl

theorem itemTexts_eq (items : List Form) : Form.itemTexts items = items.map Form.text := by
  induction items with
  | nil => rfl
  | cons item rest ih => rw [Form.itemTexts, ih, List.map_cons]

theorem entryTexts_eq (entries : List (String × Form)) :
    Form.entryTexts entries = entries.map fun entry => entry.1 ++ ": " ++ entry.2.text := by
  induction entries with
  | nil => rfl
  | cons entry rest ih => rw [Form.entryTexts, ih, List.map_cons]

theorem literal_itemTexts_eq (items : List Literal) :
    Literal.itemTexts items = items.map Literal.text := by
  induction items with
  | nil => rfl
  | cons item rest ih => rw [Literal.itemTexts, ih, List.map_cons]

theorem literal_entryTexts_eq (entries : List (String × Literal)) :
    Literal.entryTexts entries = entries.map fun entry => entry.1 ++ ": " ++ entry.2.text := by
  induction entries with
  | nil => rfl
  | cons entry rest ih => rw [Literal.entryTexts, ih, List.map_cons]

/-- A literal is written in its form. -/
theorem text_plainForm (v : Literal) : (plainForm v).text = v.text := by
  induction v using Literal.induct with
  | boolean value => cases value <;> rfl
  | float x => exact text_floatForm x
  | enum | int | null | string | varRef => rfl
  | list items ih =>
    have hitems : (items.map plainForm).map Form.text = items.map Literal.text := by
      rw [List.map_map]
      exact List.map_congr_left ih
    rw [plainForm, Form.text, Literal.text, itemTexts_eq, literal_itemTexts_eq, plainItems_eq, hitems]
  | object entries ih =>
    cases entries with
    | nil => rfl
    | cons entry rest =>
      have hentries : (plainEntries (entry :: rest)).map (fun e => e.1 ++ ": " ++ e.2.text)
          = (entry :: rest).map fun e => e.1 ++ ": " ++ e.2.text := by
        rw [plainEntries_eq, List.map_map]
        refine List.map_congr_left fun e he => ?_
        show e.1 ++ ": " ++ (plainForm e.2).text = _
        rw [ih e he]
      rw [plainForm, Form.text, Literal.text, entryTexts_eq, literal_entryTexts_eq, hentries]
      · exact List.cons_ne_nil _ _
      · exact fun _ => List.cons_ne_nil _ _

theorem plainForm_ofName (name : String) : plainForm (.ofName name) = .name name := by
  unfold Literal.ofName
  split <;> rfl

/-- Sorted entries keep their order when they are read. -/
theorem literal_object {arranged : Bool} {entries : List (String × Form)}
    (h : entries.Pairwise fun a b => a.1 < b.1) :
    (Form.object arranged entries).literal
      = .object (entries.map fun entry => (entry.1, entry.2.literal)) := by
  rw [Form.literal, Form.entryLiterals_eq]
  exact Literal.ofEntries_of_perm (List.Perm.refl _) (List.pairwise_map.mpr h)

theorem floatForm_literal (x : Float) : plainForm (floatForm x).literal = floatForm x := by
  unfold floatForm
  split
  · exact plainForm_ofName _
  · next hname =>
    show floatForm x = _
    rw [floatForm, if_neg hname]

/-- **A literal that is read back is written the same.** -/
theorem plainForm_literal {v : Literal} (h : v.Proper) :
    plainForm (plainForm v).literal = plainForm v := by
  induction v using Literal.induct with
  | boolean value => cases value <;> rfl
  | enum name => exact plainForm_ofName name
  | float x => exact floatForm_literal x
  | int | null | string => rfl
  | varRef => cases h
  | list items ih =>
    cases h with
    | list hitems =>
      rw [plainForm, Form.literal, plainForm, plainItems_eq, plainItems_eq, Form.itemLiterals_eq,
        List.map_map, List.map_map]
      refine congrArg Form.list (List.map_congr_left fun item hitem => ?_)
      exact ih item hitem (hitems item hitem)
  | object entries ih =>
    cases h with
    | object hsorted hkeys hvalues =>
      have hplain : (plainEntries entries).Pairwise fun a b => a.1 < b.1 := by
        rw [plainEntries_eq]
        exact List.pairwise_map.mpr hsorted
      rw [plainForm, literal_object hplain, plainForm, plainEntries_eq, plainEntries_eq,
        List.map_map, List.map_map]
      refine congrArg (Form.object false) (List.map_congr_left fun entry hentry => ?_)
      exact congrArg (entry.1, ·) (ih entry hentry (hvalues entry hentry))

/-! ### Values at a type -/

/-- A form in as many brackets as a type has lists. -/
def inListForms : WrappedType → Form → Form
  | .named _ _, form => form
  | .list inner _, form => .list [inListForms inner form]

/-- The form of a value that is written as a string. -/
def quotedForm : Literal → Form
  | .string value => .string value
  | v => .string v.text

/-- The form of a value at a type of the given name, if no part of it depends on types in
turn. -/
def atomForm (schema : Schema) (type : String) (v : Literal) : Form :=
  if type = "Float" then
    match v with
    | .int n => floatForm (Decimal.ofInteger n)
    | v => plainForm v
  else if type = "Int" then
    match v with
    | .float x => .int x.toInt64
    | v => plainForm v
  else if type = "Boolean" then plainForm v
  else if type = "ID" ∨ type = "String" then quotedForm v
  else
    match schema.types.kindOf? type with
    | some .enum =>
      match v with
      | .string name => .name name
      | v => plainForm v
    | some .scalar => quotedForm v
    | _ => plainForm v

/-- The names and types of the fields of an input object type. -/
def signature? (schema : Schema) (type : String) : Option (List (String × WrappedType)) :=
  (inputFields? schema type).map fun fields => fields.toList.map fun f => (f.name, f.type)

/-- Entries in the order of the fields, then the others. -/
def arrange (signature : List (String × WrappedType)) (entries : List (String × Form)) :
    List (String × Form) :=
  (signature.filterMap fun field => (entries.lookup field.1).map fun form => (field.1, form))
    ++ entries.filter fun entry => (signature.lookup entry.1).isNone

mutual

/-- The form of a value at a type. -/
def valueForm (schema : Schema) : Literal → WrappedType → Form
  | .null, _ => .name "null"
  | .list items, .list inner _ => .list (itemForms schema items inner)
  | .object entries, type =>
    inListForms type <| match signature? schema type.innermostName with
      | some signature => .object true (arrange signature (entryForms schema entries signature))
      | none => atomForm schema type.innermostName (.object entries)
  | v, type => inListForms type (atomForm schema type.innermostName v)

/-- The forms of the items of a list. -/
def itemForms (schema : Schema) : List Literal → WrappedType → List Form
  | [], _ => []
  | item :: rest, type => valueForm schema item type :: itemForms schema rest type

/-- The forms of the entries of an object, each by the type of its field. -/
def entryForms (schema : Schema) :
    List (String × Literal) → List (String × WrappedType) → List (String × Form)
  | [], _ => []
  | (key, v) :: rest, signature =>
    let form := match signature.lookup key with
      | some type => valueForm schema v type
      | none => plainForm v
    (key, form) :: entryForms schema rest signature

end

/-- The form of an entry. -/
def entryForm (schema : Schema) (signature : List (String × WrappedType)) (key : String)
    (v : Literal) : Form :=
  match signature.lookup key with
  | some type => valueForm schema v type
  | none => plainForm v

theorem itemForms_eq (schema : Schema) (items : List Literal) (type : WrappedType) :
    itemForms schema items type = items.map fun item => valueForm schema item type := by
  induction items with
  | nil => rfl
  | cons item rest ih => rw [itemForms, ih, List.map_cons]

theorem entryForms_eq (schema : Schema) (entries : List (String × Literal))
    (signature : List (String × WrappedType)) :
    entryForms schema entries signature
      = entries.map fun entry => (entry.1, entryForm schema signature entry.1 entry.2) := by
  induction entries with
  | nil => rfl
  | cons entry rest ih =>
    rw [entryForms, ih, List.map_cons]
    rfl

/-! ### Texts -/

theorem text_inListForms (type : WrappedType) (form : Form) :
    (inListForms type form).text = inLists type form.text := by
  induction type with
  | named => rfl
  | list inner _ ih =>
    rw [inListForms, Form.text, Form.itemTexts, Form.itemTexts, ih, inLists,
      String.intercalate_singleton]

/-- The text of a value at a type that is none of the language's own. -/
theorem plainText_of_not_mem (schema : Schema) {type : String} (v : Literal)
    (h : type ∉ Builtin.scalarNames) :
    plainText schema type v = match schema.types.kindOf? type, v with
      | some .enum, .string name => name
      | some .scalar, .string s => quoted s
      | some .scalar, v => quoted v.text
      | _, v => v.text := by
  simp only [Builtin.scalarNames, List.mem_cons, List.not_mem_nil, or_false, not_or] at h
  unfold plainText
  split
  all_goals first | rfl | simp_all

theorem text_atomForm (schema : Schema) (type : String) (v : Literal) :
    (atomForm schema type v).text = plainText schema type v := by
  by_cases hfloat : type = "Float"
  · subst hfloat
    cases v with
    | int n => exact text_floatForm (Decimal.ofInteger n)
    | _ => exact text_plainForm _
  by_cases hint : type = "Int"
  · subst hint
    cases v with
    | float x => rfl
    | _ => exact text_plainForm _
  by_cases hboolean : type = "Boolean"
  · subst hboolean
    cases v <;> exact text_plainForm _
  by_cases hstring : type = "ID" ∨ type = "String"
  · rcases hstring with rfl | rfl <;> cases v <;> rfl
  have hother : type ∉ Builtin.scalarNames := by
    simp only [Builtin.scalarNames, List.mem_cons, List.not_mem_nil, or_false]
    tauto
  rw [plainText_of_not_mem schema v hother]
  unfold atomForm
  rw [if_neg hfloat, if_neg hint, if_neg hboolean, if_neg hstring]
  cases schema.types.kindOf? type with
  | none => exact text_plainForm v
  | some kind =>
    cases kind with
    | enum => cases v <;> first | rfl | exact text_plainForm _
    | scalar => cases v <;> rfl
    | _ => exact text_plainForm v

/-! #### Entries -/

/-- Looking up the text of an entry. -/
theorem lookup_entryTexts {texts : List (String × String)} {forms : List (String × Form)}
    (h : texts = forms.map fun entry => (entry.1, entry.1 ++ ": " ++ entry.2.text))
    (name : String) :
    texts.lookup name = (forms.lookup name).map fun form => name ++ ": " ++ form.text := by
  subst h
  induction forms with
  | nil => rfl
  | cons entry rest ih =>
    obtain ⟨key, form⟩ := entry
    rw [List.map_cons, List.lookup_cons, List.lookup_cons, ih]
    cases hkey : name == key with
    | true =>
      rw [beq_iff_eq] at hkey
      subst hkey
      rfl
    | false => rfl

/-- The type of a field, found by its name. -/
theorem lookup_signature (fields : NameTable Parameter) (name : String) :
    (fields.toList.map fun f => (f.name, f.type)).lookup name
      = (fields.find? name).map Parameter.type := by
  obtain ⟨entries, distinct⟩ := fields
  simp only [NameTable.find?]
  clear distinct
  induction entries with
  | nil => rfl
  | cons f rest ih =>
    rw [List.map_cons, List.lookup_cons, ih]
    by_cases hname : f.name = name
    · subst hname
      rw [beq_self_eq_true, List.find?_cons_of_pos (by exact beq_self_eq_true f.name)]
      rfl
    · have hne : (name == f.name) = false := beq_eq_false_iff_ne.mpr (Ne.symm hname)
      rw [hne, List.find?_cons_of_neg]
      exact fun heq => hname (eq_of_beq heq)

/-- The entries of an object are written as they are arranged. -/
theorem text_arrange (fields : NameTable Parameter) {texts : List (String × String)}
    {forms : List (String × Form)}
    (h : texts = forms.map fun entry => (entry.1, entry.1 ++ ": " ++ entry.2.text)) :
    (Form.object true (arrange (fields.toList.map fun f => (f.name, f.type)) forms)).text
      = arrangeEntries fields texts := by
  have hdeclared : ((fields.toList.map fun f => (f.name, f.type)).filterMap fun field =>
        (forms.lookup field.1).map fun form => (field.1, form)).map
        (fun entry => entry.1 ++ ": " ++ entry.2.text)
      = fields.toList.filterMap fun f => texts.lookup f.name := by
    rw [List.filterMap_map, List.map_filterMap]
    refine List.filterMap_congr fun f _ => ?_
    rw [lookup_entryTexts h, Function.comp_apply, Option.map_map]
    rfl
  have hothers : (forms.filter fun entry =>
        ((fields.toList.map fun f => (f.name, f.type)).lookup entry.1).isNone).map
        (fun entry => entry.1 ++ ": " ++ entry.2.text)
      = (texts.filter fun entry => !fields.contains entry.1).map Prod.snd := by
    rw [h, List.filter_map, List.map_map]
    have hkeys : (fun entry : String × Form =>
          ((fields.toList.map fun f => (f.name, f.type)).lookup entry.1).isNone)
        = (fun entry => !fields.contains entry.1) ∘
          fun entry => (entry.1, entry.1 ++ ": " ++ entry.2.text) := by
      funext entry
      rw [lookup_signature, Option.isNone_map, Function.comp_apply, NameTable.contains,
        Option.not_isSome]
    rw [hkeys]
    rfl
  have hobject : (Form.object true (arrange (fields.toList.map fun f => (f.name, f.type)) forms)).text
      = "\x7b " ++ ", ".intercalate (Form.entryTexts
          (arrange (fields.toList.map fun f => (f.name, f.type)) forms)) ++ " \x7d" := by
    rw [Form.text]
    exact fun h => Bool.noConfusion h
  rw [hobject, entryTexts_eq, arrange, List.map_append, hdeclared, hothers]
  rfl

theorem text_itemForms {schema : Schema} {items : List Literal} {type : WrappedType}
    (h : ∀ item ∈ items, (valueForm schema item type).text = valueText schema item type) :
    Form.itemTexts (itemForms schema items type) = itemTexts schema items type := by
  induction items with
  | nil => rfl
  | cons item rest ih =>
    rw [List.forall_mem_cons] at h
    rw [itemForms, Form.itemTexts, itemTexts, h.1, ih h.2]

/-- The texts of entries, each with the key that it is arranged by. -/
theorem text_entryForms {schema : Schema} {entries : List (String × Literal)} (fields : NameTable Parameter)
    (h : ∀ entry ∈ entries, ∀ type, (valueForm schema entry.2 type).text = valueText schema entry.2 type) :
    entryTexts schema entries fields
      = (entryForms schema entries (fields.toList.map fun f => (f.name, f.type))).map
          fun entry => (entry.1, entry.1 ++ ": " ++ entry.2.text) := by
  rw [entryForms_eq, List.map_map]
  induction entries with
  | nil => rfl
  | cons entry rest ih =>
    rw [List.forall_mem_cons] at h
    rw [entryTexts, ih h.2, List.map_cons]
    refine congrArg (· :: _) ?_
    refine congrArg (fun text => (entry.1, entry.1 ++ ": " ++ text)) ?_
    show _ = (entryForm schema _ entry.1 entry.2).text
    unfold entryForm
    rw [lookup_signature]
    cases fields.find? entry.1 with
    | none => exact (text_plainForm entry.2).symm
    | some f => exact (h.1 f.type).symm

theorem text_valueForm (schema : Schema) (v : Literal) (type : WrappedType) :
    (valueForm schema v type).text = valueText schema v type := by
  induction v using Literal.induct generalizing type with
  | null => cases type <;> rfl
  | boolean | enum | float | int | string | varRef =>
    cases type <;> exact (text_inListForms _ _).trans (congrArg _ (text_atomForm schema _ _))
  | list items ih =>
    cases type with
    | named => exact text_atomForm schema _ _
    | list inner nullable =>
      rw [valueForm, Form.text, valueText, text_itemForms fun item hitem => ih item hitem inner]
  | object entries ih =>
    rw [valueForm, valueText, text_inListForms]
    · refine congrArg (inLists type) ?_
      unfold signature?
      cases inputFields? schema type.innermostName with
      | none => exact text_atomForm schema _ _
      | some fields => exact text_arrange fields (text_entryForms fields ih)

/-! ### Writing again

A form is read as a literal that may not be the one it came from.  The cases go by scalar type, and
in each the second form is the first.
-/

theorem literal_eq_null {form : Form} (h : form.literal = .null) : form = .name "null" := by
  cases form with
  | name text =>
    have hname : Literal.ofName text = .null := h
    unfold Literal.ofName at hname
    split at hname
    · cases hname
    · cases hname
    · rfl
    · cases hname
  | _ => cases h

/-- Forms of lists of one are written again if what they hold is. -/
theorem valueForm_inListForms {schema : Schema} {form : Form} {type : WrappedType}
    (h : ∀ nullable, valueForm schema form.literal (.named type.innermostName nullable) = form) :
    valueForm schema (inListForms type form).literal type = inListForms type form := by
  induction type with
  | named name nullable => exact h nullable
  | list inner nullable ih =>
    rw [inListForms, Form.literal, Form.itemLiterals, Form.itemLiterals, valueForm, itemForms,
      itemForms, ih h]

theorem ofName_cases (name : String) :
    (∃ value, Literal.ofName name = .boolean value) ∨ Literal.ofName name = .null ∨
      Literal.ofName name = .enum name := by
  unfold Literal.ofName
  split
  · exact Or.inl ⟨true, rfl⟩
  · exact Or.inl ⟨false, rfl⟩
  · exact Or.inr (Or.inl rfl)
  · exact Or.inr (Or.inr rfl)

/-- What a form is read as that is written for a number, a string or an object is one only if
it was one before. -/
inductive KeepsKind : Literal → Literal → Prop
  | float (x : Float) : KeepsKind (.float x) (.float x)
  | int (n : Int64) : KeepsKind (.int n) (.int n)
  | string (value : String) : KeepsKind (.string value) (.string value)
  | object (entries entries' : List (String × Literal)) :
      KeepsKind (.object entries) (.object entries')
  | other {v w : Literal} (hfloat : ∀ x, w ≠ .float x) (hint : ∀ n, w ≠ .int n)
      (hstring : ∀ s, w ≠ .string s) (hobject : ∀ entries, w ≠ .object entries) : KeepsKind v w

theorem keepsKind_ofName (v : Literal) (name : String) : KeepsKind v (.ofName name) := by
  rcases ofName_cases name with ⟨value, h⟩ | h | h <;> rw [h] <;>
    exact .other nofun nofun nofun nofun

theorem keepsKind_plainForm (v : Literal) : KeepsKind v (plainForm v).literal := by
  cases v with
  | boolean value =>
    cases value with
    | true => exact keepsKind_ofName _ "true"
    | false => exact keepsKind_ofName _ "false"
  | enum name => exact keepsKind_ofName _ name
  | null => exact keepsKind_ofName _ "null"
  | float x =>
    rw [plainForm]
    unfold floatForm
    split
    · exact keepsKind_ofName _ _
    · exact .float x
  | int n => exact .int n
  | string value => exact .string value
  | list | varRef => exact .other nofun nofun nofun nofun
  | object entries => exact .object entries _

theorem literal_plainForm_ne_float {v : Literal} (h : ∀ x, v ≠ .float x) (x : Float) :
    (plainForm v).literal ≠ .float x := by
  intro heq
  have hkind := keepsKind_plainForm v
  rw [heq] at hkind
  cases hkind with
  | float => exact h x rfl
  | other hfloat _ _ _ => exact hfloat x rfl

theorem literal_plainForm_ne_int {v : Literal} (h : ∀ n, v ≠ .int n) (n : Int64) :
    (plainForm v).literal ≠ .int n := by
  intro heq
  have hkind := keepsKind_plainForm v
  rw [heq] at hkind
  cases hkind with
  | int => exact h n rfl
  | other _ hint _ _ => exact hint n rfl

theorem literal_plainForm_ne_string {v : Literal} (h : ∀ s, v ≠ .string s) (s : String) :
    (plainForm v).literal ≠ .string s := by
  intro heq
  have hkind := keepsKind_plainForm v
  rw [heq] at hkind
  cases hkind with
  | string => exact h s rfl
  | other _ _ hstring _ => exact hstring s rfl

theorem atomForm_float {schema : Schema} {v : Literal} (h : ∀ n, v ≠ .int n) :
    atomForm schema "Float" v = plainForm v := by
  cases v with
  | int n => exact absurd rfl (h n)
  | _ => rfl

theorem atomForm_int {schema : Schema} {v : Literal} (h : ∀ x, v ≠ .float x) :
    atomForm schema "Int" v = plainForm v := by
  cases v with
  | float x => exact absurd rfl (h x)
  | _ => rfl

theorem atomForm_float_int {schema : Schema} (n : Int64) :
    atomForm schema "Float" (.int n) = floatForm (Decimal.ofInteger n) := by
  simp [atomForm]

theorem atomForm_int_float {schema : Schema} (x : Float) :
    atomForm schema "Int" (.float x) = .int x.toInt64 := by
  simp [atomForm]

theorem atomForm_boolean {schema : Schema} (v : Literal) : atomForm schema "Boolean" v = plainForm v := by
  simp [atomForm]

theorem atomForm_quoted {schema : Schema} {type : String} (h : type = "ID" ∨ type = "String") (v : Literal) :
    atomForm schema type v = quotedForm v := by
  rcases h with rfl | rfl <;> simp [atomForm]

theorem quotedForm_literal (v : Literal) : quotedForm (quotedForm v).literal = quotedForm v := by
  cases v <;> rfl

/-- The form of a value at an enum type. -/
def enumForm : Literal → Form
  | .string name => .name name
  | v => plainForm v

theorem enumForm_of_ne {v : Literal} (h : ∀ s, v ≠ .string s) : enumForm v = plainForm v := by
  cases v with
  | string s => exact absurd rfl (h s)
  | _ => rfl

theorem enumForm_literal {v : Literal} (h : v.Proper) :
    enumForm (enumForm v).literal = enumForm v := by
  by_cases hstring : ∃ s, v = .string s
  · obtain ⟨s, rfl⟩ := hstring
    show enumForm (.ofName s) = .name s
    have hne : ∀ t, Literal.ofName s ≠ .string t := by
      intro t heq
      rcases ofName_cases s with ⟨value, h⟩ | h | h <;> rw [h] at heq <;> cases heq
    rw [enumForm_of_ne hne, plainForm_ofName]
  · rw [not_exists] at hstring
    rw [enumForm_of_ne hstring, enumForm_of_ne (literal_plainForm_ne_string hstring), plainForm_literal h]

/-- The form of a value at a type that is none of the language's own. -/
theorem atomForm_of_not_mem {schema : Schema} {type : String} (h : type ∉ Builtin.scalarNames)
    (v : Literal) :
    atomForm schema type v = match schema.types.kindOf? type with
      | some .enum => enumForm v
      | some .scalar => quotedForm v
      | _ => plainForm v := by
  simp only [Builtin.scalarNames, List.mem_cons, List.not_mem_nil, or_false, not_or] at h
  unfold atomForm
  rw [if_neg h.2.2.2.1, if_neg h.2.2.1, if_neg h.2.1, if_neg (not_or.mpr ⟨h.2.2.2.2, h.1⟩)]
  cases schema.types.kindOf? type with
  | none => rfl
  | some kind =>
    cases kind with
    | enum => cases v <;> rfl
    | _ => rfl

/-- A float at the type of integers has been cut to one, which stays. -/
theorem atomForm_int_literal {schema : Schema} {v : Literal} (h : v.Proper) :
    atomForm schema "Int" (atomForm schema "Int" v).literal = atomForm schema "Int" v := by
  by_cases hfloat : ∃ x, v = .float x
  · obtain ⟨x, rfl⟩ := hfloat
    rw [atomForm_int_float]
    exact atomForm_int nofun
  · rw [not_exists] at hfloat
    rw [atomForm_int hfloat, atomForm_int (literal_plainForm_ne_float hfloat), plainForm_literal h]

/-- An integer at the type of floats has been made one, which stays. -/
theorem atomForm_float_literal {schema : Schema} {v : Literal} (h : v.Proper) :
    atomForm schema "Float" (atomForm schema "Float" v).literal = atomForm schema "Float" v := by
  by_cases hint : ∃ n, v = .int n
  · obtain ⟨n, rfl⟩ := hint
    have hstays : ∀ m, (floatForm (Decimal.ofInteger n)).literal ≠ .int m :=
      literal_plainForm_ne_int (v := .float (Decimal.ofInteger n)) nofun
    rw [atomForm_float_int, atomForm_float hstays, floatForm_literal]
  · rw [not_exists] at hint
    rw [atomForm_float hint, atomForm_float (literal_plainForm_ne_int hint), plainForm_literal h]

theorem atomForm_literal {schema : Schema} {type : String} {v : Literal} (h : v.Proper) :
    atomForm schema type (atomForm schema type v).literal = atomForm schema type v := by
  by_cases hscalar : type ∈ Builtin.scalarNames
  · simp only [Builtin.scalarNames, List.mem_cons, List.not_mem_nil, or_false] at hscalar
    rcases hscalar with rfl | rfl | rfl | rfl | rfl
    · rw [atomForm_quoted (Or.inr rfl), atomForm_quoted (Or.inr rfl), quotedForm_literal]
    · rw [atomForm_boolean, atomForm_boolean, plainForm_literal h]
    · exact atomForm_int_literal h
    · exact atomForm_float_literal h
    · rw [atomForm_quoted (Or.inl rfl), atomForm_quoted (Or.inl rfl), quotedForm_literal]
  · rw [atomForm_of_not_mem hscalar, atomForm_of_not_mem hscalar]
    cases schema.types.kindOf? type with
    | none => exact plainForm_literal h
    | some kind =>
      cases kind with
      | enum => exact enumForm_literal h
      | scalar => exact quotedForm_literal v
      | _ => exact plainForm_literal h

/-- The declared entries keep the order of the fields. -/
theorem declared_keys_sublist (signature : List (String × WrappedType))
    (entries : List (String × Form)) :
    ((signature.filterMap fun field =>
      (entries.lookup field.1).map fun form => (field.1, form)).map Prod.fst).Sublist
        (signature.map Prod.fst) := by
  induction signature with
  | nil => exact List.Sublist.slnil
  | cons field rest ih =>
    rw [List.filterMap_cons]
    cases entries.lookup field.1 with
    | none => exact ih.cons _
    | some form => exact ih.cons_cons _

/-- The arranged entries are the same entries. -/
theorem arrange_perm {signature : List (String × WrappedType)} {entries : List (String × Form)}
    (hsignature : (signature.map Prod.fst).Nodup) (hentries : (entries.map Prod.fst).Nodup) :
    (arrange signature entries).Perm entries := by
  have hdeclared : ∀ e : String × Form,
      (e ∈ signature.filterMap fun field =>
          (entries.lookup field.1).map fun form => (field.1, form))
        ↔ e ∈ entries ∧ (signature.lookup e.1).isSome = true := by
    intro e
    rw [List.mem_filterMap, List.lookup_isSome_iff]
    constructor
    · rintro ⟨field, hfield, heq⟩
      obtain ⟨form, hform, rfl⟩ := Option.map_eq_some_iff.mp heq
      exact ⟨(lookup_eq_some_iff_mem hentries).mp hform, field, hfield, beq_self_eq_true _⟩
    · rintro ⟨hmem, field, hfield, hkey⟩
      refine ⟨field, hfield, ?_⟩
      rw [← eq_of_beq hkey, (lookup_eq_some_iff_mem hentries).mpr hmem]
      rfl
  have hkeys := hsignature.sublist (declared_keys_sublist signature entries)
  have hnodup : (arrange signature entries).Nodup := by
    refine List.nodup_append.mpr ⟨hkeys.of_map, hentries.of_map.filter _, ?_⟩
    intro e he e' he' heq
    subst heq
    have hsome := ((hdeclared e).mp he).2
    rw [List.mem_filter, Option.isNone_iff_eq_none] at he'
    rw [he'.2] at hsome
    cases hsome
  refine (List.perm_ext_iff_of_nodup hnodup hentries.of_map).mpr fun e => ?_
  rw [arrange, List.mem_append, hdeclared, List.mem_filter]
  cases signature.lookup e.1 <;> simp

/-- Only an input object type has a signature. -/
theorem kindOf?_of_signature? {schema : Schema} {type : String}
    {signature : List (String × WrappedType)} (h : signature? schema type = some signature) :
    type ∉ Builtin.scalarNames ∧ schema.types.kindOf? type = some .inputObject := by
  unfold signature? inputFields? at h
  obtain ⟨fields, hfields, -⟩ := Option.map_eq_some_iff.mp h
  split at hfields
  · cases hfields
  · next hscalar =>
    refine ⟨fun hmem => hscalar (List.contains_iff_mem.mpr hmem), ?_⟩
    obtain ⟨t, ht, hbody⟩ := Option.bind_eq_some_iff.mp hfields
    have hkind : t.kind = .inputObject := by
      unfold TypeDef.inputFields? at hbody
      unfold TypeDef.kind
      split at hbody
      · next hobject => rw [hobject]; rfl
      · cases hbody
    rw [NameTable.kindOf?, show schema.types.find? type = some t from ht, Option.map_some, hkind]

theorem signature_nodup {schema : Schema} {type : String}
    {signature : List (String × WrappedType)} (h : signature? schema type = some signature) :
    (signature.map Prod.fst).Nodup := by
  obtain ⟨fields, -, rfl⟩ := Option.map_eq_some_iff.mp h
  rw [List.map_map]
  exact fields.names_nodup

/-- A value at a named type, unless it is null or an input object. -/
theorem valueForm_named {schema : Schema} {v : Literal} {name : String} (nullable : Bool)
    (hnull : v ≠ .null)
    (hobject : ∀ entries, v = .object entries → signature? schema name = none) :
    valueForm schema v (.named name nullable) = atomForm schema name v := by
  cases v with
  | null => exact absurd rfl hnull
  | object entries =>
    rw [valueForm, WrappedType.innermostName, hobject entries rfl]
    rfl
  | _ => rfl

/-- A value that is no input object is written again at its innermost type. -/
theorem valueForm_atomForm {schema : Schema} {v : Literal} (h : v.Proper) {name : String}
    (hobject : ∀ entries, v = .object entries → signature? schema name = none) (nullable : Bool) :
    valueForm schema (atomForm schema name v).literal (.named name nullable)
      = atomForm schema name v := by
  by_cases hnull : (atomForm schema name v).literal = .null
  · rw [hnull, literal_eq_null hnull]
    rfl
  · rw [valueForm_named nullable hnull, atomForm_literal h]
    intro entries hentries
    rw [Option.eq_none_iff_forall_ne_some]
    intro signature hsignature
    obtain ⟨hscalar, hkind⟩ := kindOf?_of_signature? hsignature
    have hplain : atomForm schema name v = plainForm v := by
      rw [atomForm_of_not_mem hscalar, hkind]
    have hkeeps := keepsKind_plainForm v
    rw [← hplain, hentries] at hkeeps
    cases hkeeps with
    | object before => exact absurd (hobject before rfl) (by rw [hsignature]; nofun)
    | other _ _ _ hother => exact hother entries rfl

theorem valueForm_null (schema : Schema) (type : WrappedType) :
    valueForm schema .null type = .name "null" := by
  cases type <;> rfl

theorem valueForm_object {schema : Schema} {type : WrappedType}
    {signature : List (String × WrappedType)}
    (h : signature? schema type.innermostName = some signature)
    (entries : List (String × Literal)) :
    valueForm schema (.object entries) type
      = inListForms type (.object true (arrange signature (entryForms schema entries signature))) := by
  rw [valueForm, h]

/-- The entries of an input object are sorted again when they are read. -/
theorem literal_arrange {schema : Schema} {type : String}
    {signature : List (String × WrappedType)} (h : signature? schema type = some signature)
    {entries : List (String × Literal)} (hsorted : entries.Pairwise fun a b => a.1 < b.1) :
    (Form.object true (arrange signature (entryForms schema entries signature))).literal
      = .object (entries.map fun entry =>
          (entry.1, (entryForm schema signature entry.1 entry.2).literal)) := by
  have hforms : (entryForms schema entries signature).Pairwise fun a b => a.1 < b.1 := by
    rw [entryForms_eq]
    exact List.pairwise_map.mpr hsorted
  have hnodup : ((entryForms schema entries signature).map Prod.fst).Nodup := by
    refine List.pairwise_map.mpr (hforms.imp fun hlt heq => ?_)
    rw [heq] at hlt
    exact String.lt_irrefl _ hlt
  have hperm := (arrange_perm (signature_nodup h) hnodup).map
    fun entry : String × Form => (entry.1, entry.2.literal)
  rw [entryForms_eq, List.map_map, ← entryForms_eq] at hperm
  rw [Form.literal, Form.entryLiterals_eq]
  exact Literal.ofEntries_of_perm hperm (List.pairwise_map.mpr hsorted)

/-- **A value that is read back is written the same at its type.** -/
theorem valueForm_literal {schema : Schema} {v : Literal} (h : v.Proper) (type : WrappedType) :
    valueForm schema (valueForm schema v type).literal type = valueForm schema v type := by
  induction v using Literal.induct generalizing type with
  | null => rw [valueForm_null]; exact valueForm_null schema type
  | boolean | enum | float | int | string =>
    cases type <;> exact valueForm_inListForms (valueForm_atomForm h nofun)
  | varRef => cases h
  | list items ih =>
    cases type with
    | named name nullable => exact valueForm_atomForm h nofun nullable
    | list inner nullable =>
      cases h with
      | list hitems =>
        rw [valueForm, Form.literal, valueForm, itemForms_eq, itemForms_eq, Form.itemLiterals_eq,
          List.map_map, List.map_map]
        refine congrArg Form.list (List.map_congr_left fun item hitem => ?_)
        exact ih item hitem (hitems item hitem) inner
  | object entries ih =>
    cases hsignature : signature? schema type.innermostName with
    | none =>
      rw [valueForm, hsignature]
      exact valueForm_inListForms (valueForm_atomForm h fun _ _ => hsignature)
    | some signature =>
      cases h with
      | object hsorted hkeys hvalues =>
        have hentry : ∀ entry ∈ entries,
            entryForm schema signature entry.1 (entryForm schema signature entry.1 entry.2).literal
              = entryForm schema signature entry.1 entry.2 := by
          intro entry hentry
          unfold entryForm
          cases signature.lookup entry.1 with
          | none => exact plainForm_literal (hvalues entry hentry)
          | some type => exact ih entry hentry (hvalues entry hentry) type
        have hagain : entryForms schema (entries.map fun entry =>
              (entry.1, (entryForm schema signature entry.1 entry.2).literal)) signature
            = entryForms schema entries signature := by
          rw [entryForms_eq, entryForms_eq, List.map_map]
          exact List.map_congr_left fun entry hmem => congrArg (entry.1, ·) (hentry entry hmem)
        rw [valueForm_object hsignature]
        refine valueForm_inListForms fun nullable => ?_
        have hobject : ∀ nullable, signature? schema (WrappedType.named type.innermostName nullable).innermostName
            = some signature := fun _ => hsignature
        rw [literal_arrange hsignature hsorted, valueForm_object (hobject nullable), hagain]
        rfl

/-! ### Constants -/

theorem constant_floatForm (x : Float) : (floatForm x).Constant := by
  unfold floatForm
  split <;> exact List.forall_mem_singleton.mpr nofun

theorem constant_plainForm {v : Literal} (h : v.Proper) : (plainForm v).Constant := by
  induction v using Literal.induct with
  | boolean value => cases value <;> exact List.forall_mem_singleton.mpr nofun
  | float x => exact constant_floatForm x
  | enum | int | null | string => exact List.forall_mem_singleton.mpr nofun
  | varRef => cases h
  | list items ih =>
    cases h with
    | list hitems =>
      rw [plainForm, plainItems_eq, Form.constant_list_iff, List.forall_mem_map]
      exact fun item hitem => ih item hitem (hitems item hitem)
  | object entries ih =>
    cases h with
    | object _ _ hvalues =>
      rw [plainForm, plainEntries_eq, Form.constant_object_iff, List.forall_mem_map]
      exact fun entry hentry => ih entry hentry (hvalues entry hentry)

theorem constant_quotedForm (v : Literal) : (quotedForm v).Constant := by
  cases v <;> exact List.forall_mem_singleton.mpr nofun

theorem constant_atomForm {schema : Schema} {v : Literal} (h : v.Proper) (type : String) :
    (atomForm schema type v).Constant := by
  have hplain := constant_plainForm h
  unfold atomForm
  split
  · split
    · exact constant_floatForm _
    · exact hplain
  split
  · split
    · exact List.forall_mem_singleton.mpr nofun
    · exact hplain
  split
  · exact hplain
  split
  · exact constant_quotedForm v
  split
  · split
    · exact List.forall_mem_singleton.mpr nofun
    · exact hplain
  · exact constant_quotedForm v
  · exact hplain

theorem constant_inListForms {form : Form} (h : form.Constant) (type : WrappedType) :
    (inListForms type form).Constant := by
  induction type with
  | named => exact h
  | list inner _ ih => exact Form.constant_list_iff.mpr (List.forall_mem_singleton.mpr ih)

theorem mem_of_mem_arrange {signature : List (String × WrappedType)}
    {entries : List (String × Form)} {entry : String × Form} (h : entry ∈ arrange signature entries) :
    entry ∈ entries := by
  rcases List.mem_append.mp h with h | h
  · obtain ⟨field, -, heq⟩ := List.mem_filterMap.mp h
    obtain ⟨form, hform, rfl⟩ := Option.map_eq_some_iff.mp heq
    obtain ⟨before, after, rfl, -⟩ := List.lookup_eq_some_iff.mp hform
    exact List.mem_append_right _ List.mem_cons_self
  · exact List.mem_of_mem_filter h

/-- A constant is written without variables. -/
theorem constant_valueForm {schema : Schema} {v : Literal} (h : v.Proper) (type : WrappedType) :
    (valueForm schema v type).Constant := by
  induction v using Literal.induct generalizing type with
  | null => rw [valueForm_null]; exact List.forall_mem_singleton.mpr nofun
  | boolean | enum | float | int | string =>
    cases type <;> exact constant_inListForms (constant_atomForm h _) _
  | varRef => cases h
  | list items ih =>
    cases type with
    | named name nullable => exact constant_atomForm h name
    | list inner nullable =>
      cases h with
      | list hitems =>
        rw [valueForm, itemForms_eq, Form.constant_list_iff, List.forall_mem_map]
        exact fun item hitem => ih item hitem (hitems item hitem) inner
  | object entries ih =>
    rw [valueForm]
    refine constant_inListForms ?_ type
    split
    · next signature _ =>
      cases h with
      | object _ _ hvalues =>
        rw [Form.constant_object_iff]
        intro entry hentry
        have hmem := mem_of_mem_arrange hentry
        rw [entryForms_eq] at hmem
        obtain ⟨before, hbefore, rfl⟩ := List.mem_map.mp hmem
        show (entryForm schema signature before.1 before.2).Constant
        unfold entryForm
        split
        · exact ih before hbefore (hvalues before hbefore) _
        · exact constant_plainForm (hvalues before hbefore)
    · exact constant_atomForm h _

/-! ### Other schemas

The form of a value depends on a schema through the kinds of types and the fields of input objects.
-/

/-- Two schemas say the same about the types that values depend on. -/
structure Agree (schema other : Schema) : Prop where
  kind : ∀ name ∉ Builtin.scalarNames, schema.types.kindOf? name = other.types.kindOf? name
  signature : ∀ name, signature? schema name = signature? other name

theorem Agree.atomForm {schema other : Schema} (h : Agree schema other) (type : String)
    (v : Literal) : atomForm schema type v = atomForm other type v := by
  by_cases hscalar : type ∈ Builtin.scalarNames
  · simp only [Builtin.scalarNames, List.mem_cons, List.not_mem_nil, or_false] at hscalar
    rcases hscalar with rfl | rfl | rfl | rfl | rfl <;> rfl
  · rw [atomForm_of_not_mem hscalar, atomForm_of_not_mem hscalar, h.kind type hscalar]

/-- A value is written the same in schemas that agree. -/
theorem Agree.valueForm {schema other : Schema} (h : Agree schema other) (v : Literal)
    (type : WrappedType) : valueForm schema v type = valueForm other v type := by
  induction v using Literal.induct generalizing type with
  | null => rw [valueForm_null, valueForm_null]
  | boolean | enum | float | int | string | varRef =>
    cases type <;> exact congrArg (inListForms _) (h.atomForm _ _)
  | list items ih =>
    cases type with
    | named name nullable => exact h.atomForm name _
    | list inner nullable =>
      rw [Sdl.valueForm, Sdl.valueForm, itemForms_eq, itemForms_eq]
      exact congrArg Form.list (List.map_congr_left fun item hitem => ih item hitem inner)
  | object entries ih =>
    rw [Sdl.valueForm, Sdl.valueForm, h.signature]
    refine congrArg (inListForms type) ?_
    split
    · next signature _ =>
      rw [entryForms_eq, entryForms_eq]
      refine congrArg (fun forms => Form.object true (arrange signature forms)) ?_
      refine List.map_congr_left fun entry hentry => congrArg (entry.1, ·) ?_
      unfold entryForm
      split
      · exact ih entry hentry _
      · rfl
    · exact h.atomForm _ _

end GraphSchema.Sdl
