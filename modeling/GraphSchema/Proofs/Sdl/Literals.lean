/-
Literals read back from their own text.

The text of a literal depends on no type, so it can be read wherever a literal may stand.  What is
read is the literal again, but for the order of object entries (`Writable.same_literal`): they come
back sorted.  Hence literals with the same text are the same, however deeply they nest.  In a query
a literal comes back as long as no more brackets are open at once than a reader puts up with; the
brace and the parenthesis around it are two of them.
-/
import GraphSchema.Proofs.Merge.Arguments
import GraphSchema.Proofs.Sdl.Member
import GraphSchema.Syntax.Query.Reader

namespace GraphSchema

open Syntax

namespace Literal

mutual

/-- How deeply a literal nests lists and objects. -/
def depth : Literal → Nat
  | .list items => itemsDepth items + 1
  | .object entries => entriesDepth entries + 1
  | _ => 0

/-- The depth of the deepest item. -/
def itemsDepth : List Literal → Nat
  | [] => 0
  | item :: rest => max item.depth (itemsDepth rest)

/-- The depth of the deepest entry. -/
def entriesDepth : List (String × Literal) → Nat
  | [] => 0
  | (_, value) :: rest => max value.depth (entriesDepth rest)

end

theorem depth_le_of_mem_entries {entries : List (String × Literal)} {entry : String × Literal}
    (h : entry ∈ entries) : entry.2.depth ≤ entriesDepth entries := by
  induction entries with
  | nil => cases h
  | cons first rest ih =>
    rw [entriesDepth]
    rcases List.mem_cons.mp h with rfl | h
    · exact Nat.le_max_left _ _
    · exact Nat.le_trans (ih h) (Nat.le_max_right _ _)

/-- The literal can be written and told from any other: its names are names, and those of enum
values do not stand for another literal, its objects have distinct keys, and U+0008 is in no
string.  Floats are left out. -/
inductive Writable : Literal → Prop
  | boolean (value : Bool) : Writable (.boolean value)
  | enum {name : String} (hname : isName name.toList = true)
      (hreserved : name ∉ reservedNames) : Writable (.enum name)
  | int (n : Int64) : Writable (.int n)
  | list {items : List Literal} (h : ∀ item ∈ items, Writable item) : Writable (.list items)
  | null : Writable .null
  | object {entries : List (String × Literal)} (hkeys : (entries.map Prod.fst).Nodup)
      (hnames : ∀ entry ∈ entries, isName entry.1.toList = true)
      (h : ∀ entry ∈ entries, Writable entry.2) : Writable (.object entries)
  | string {value : String} (h : '\x08' ∉ value.toList) : Writable (.string value)
  | varRef {name : String} (h : isName name.toList = true) : Writable (.varRef name)

theorem Writable.keyed {v : Literal} (h : v.Writable) : v.Keyed := by
  induction h with
  | boolean value => exact .boolean value
  | enum => exact .enum _
  | int n => exact .int n
  | list _ ih => exact .list ih
  | null => exact .null
  | object hkeys _ _ ih => exact .object hkeys ih
  | string => exact .string _
  | varRef => exact .varRef _

/-! ### Sameness -/

/-- An object is read with its entries sorted, and with each value changed: it is the same if the
values are. -/
theorem same_ofEntries {entries : List (String × Literal)} (hkeys : (entries.map Prod.fst).Nodup)
    {f : Literal → Literal} (h : ∀ entry ∈ entries, same (f entry.2) entry.2 = true) :
    same (ofEntries (entries.map fun entry => (entry.1, f entry.2))) (.object entries) = true := by
  have hchanged : ((entries.map fun entry : String × Literal => (entry.1, f entry.2)).map Prod.fst).Nodup := by
    rw [List.map_map]
    exact hkeys
  obtain ⟨sorted, heq, hperm, -⟩ := exists_ofEntries_perm hchanged
  rw [heq, same, Bool.and_eq_true, beq_iff_eq, entriesAmong_iff]
  refine ⟨by rw [hperm.length_eq, List.length_map], fun found hfound => ?_⟩
  obtain ⟨entry, hentry, rfl⟩ := List.mem_map.mp (hperm.mem_iff.mp hfound)
  exact ⟨entry.2, (lookup_eq_some_iff_mem hkeys).mpr hentry, h entry hentry⟩

/-- Sameness goes on from a literal without floats. -/
theorem Writable.same_trans {a b c : Literal} (ha : a.Writable) (hb : b.Keyed)
    (hab : same a b = true) (hbc : same b c = true) : same a c = true := by
  induction a using Literal.induct generalizing b c with
  | boolean | enum | int | string | varRef | null => cases b <;> cases c <;> simp_all [same]
  | float => cases ha
  | list items ih =>
    cases b with
    | list others =>
      cases c with
      | list more =>
        cases ha with | list hitems =>
        cases hb with | list hothers =>
        rw [same, sameItems_iff] at hab hbc ⊢
        induction hab generalizing more with
        | nil => exact hbc
        | cons hxy _ ihRest =>
          rw [List.forall_mem_cons] at ih hitems hothers
          cases hbc with
          | cons hyz hrest =>
            exact .cons (ih.1 hitems.1 hothers.1 hxy hyz) (ihRest ih.2 _ hrest hitems.2 hothers.2)
      | _ => simp [same] at hbc
    | _ => simp [same] at hab
  | object entries ih =>
    cases b with
    | object others =>
      cases c with
      | object more =>
        cases ha with | object _ _ hvalues =>
        cases hb with | object hkeys hothers =>
        rw [same, Bool.and_eq_true, beq_iff_eq, entriesAmong_iff] at hab hbc ⊢
        refine ⟨hab.1.trans hbc.1, fun entry hentry => ?_⟩
        obtain ⟨y, hy, hxy⟩ := hab.2 entry hentry
        have hmem := (lookup_eq_some_iff_mem hkeys).mp hy
        obtain ⟨z, hz, hyz⟩ := hbc.2 _ hmem
        exact ⟨z, hz, ih entry hentry (hvalues entry hentry) (hothers _ hmem) hxy hyz⟩
      | _ => simp [same] at hbc
    | _ => simp [same] at hab

end Literal

namespace Sdl

/-! ### Forms -/

theorem depth_plainForm (v : Literal) : (plainForm v).depth = v.depth := by
  induction v using Literal.induct with
  | boolean value => cases value <;> rfl
  | float x => unfold plainForm floatForm; split <;> rfl
  | enum | int | null | string | varRef => rfl
  | list items ih =>
    have hitems : Form.itemsDepth (plainItems items) = Literal.itemsDepth items := by
      induction items with
      | nil => rfl
      | cons item rest ihRest =>
        rw [List.forall_mem_cons] at ih
        rw [plainItems, Form.itemsDepth, Literal.itemsDepth, ih.1, ihRest ih.2]
    rw [plainForm, Form.depth, Literal.depth, hitems]
  | object entries ih =>
    have hentries : Form.entriesDepth (plainEntries entries) = Literal.entriesDepth entries := by
      induction entries with
      | nil => rfl
      | cons entry rest ihRest =>
        rw [List.forall_mem_cons] at ih
        rw [plainEntries, Form.entriesDepth, Literal.entriesDepth, ih.1, ihRest ih.2]
    rw [plainForm, Form.depth, Literal.depth, hentries]

end Sdl

namespace Literal.Writable

open Sdl

variable {v w : Literal}

theorem legible (h : v.Writable) : (plainForm v).Legible := by
  induction v using Literal.induct with
  | boolean value => cases value <;> exact List.forall_mem_singleton.mpr (by decide : isName _ = true)
  | enum name => cases h with | enum hname _ => exact List.forall_mem_singleton.mpr hname
  | float => cases h
  | int n => exact List.forall_mem_singleton.mpr trivial
  | null => exact List.forall_mem_singleton.mpr (by decide : isName _ = true)
  | string value => cases h with | string hvalue => exact List.forall_mem_singleton.mpr hvalue
  | varRef name =>
    cases h with
    | varRef hname => exact List.forall_mem_cons.mpr ⟨trivial, List.forall_mem_singleton.mpr hname⟩
  | list items ih =>
    cases h with
    | list hitems =>
      rw [plainForm, plainItems_eq, Form.legible_list_iff, List.forall_mem_map]
      exact fun item hitem => ih item hitem (hitems item hitem)
  | object entries ih =>
    cases h with
    | object _ hnames hvalues =>
      rw [plainForm, plainEntries_eq, Form.legible_object_iff, List.forall_mem_map]
      exact fun entry hentry => ⟨hnames entry hentry, ih entry hentry (hvalues entry hentry)⟩

/-- **A literal is what its own form is read as**, up to the order of object entries. -/
theorem same_literal (h : v.Writable) : (plainForm v).literal.same v = true := by
  induction v using Literal.induct with
  | boolean value => cases value <;> rfl
  | enum name =>
    cases h with
    | enum _ hreserved =>
      show (Literal.ofName name).same (.enum name) = true
      rw [ofName_of_not_mem hreserved]
      exact beq_self_eq_true name
  | float => cases h
  | int n => exact beq_self_eq_true n
  | null => rfl
  | string value => exact beq_self_eq_true value
  | varRef name => exact beq_self_eq_true name
  | list items ih =>
    cases h with
    | list hitems =>
      rw [plainForm, plainItems_eq, Form.literal, Form.itemLiterals_eq, List.map_map, same,
        sameItems_iff, List.forall₂_map_left_iff]
      exact List.forall₂_same.mpr fun item hitem => ih item hitem (hitems item hitem)
  | object entries ih =>
    cases h with
    | object hkeys _ hvalues =>
      rw [plainForm, plainEntries_eq, Form.literal, Form.entryLiterals_eq, List.map_map]
      exact same_ofEntries (f := fun v => (plainForm v).literal) hkeys fun entry hentry =>
        ih entry hentry (hvalues entry hentry)

end Literal.Writable

namespace Sdl

/-! ### Reading on its own -/

/-- What is laid out is read if nothing has to follow it. -/
theorem Reads.readAll {α : Type} {reader : Reader α} {words : List Word} {content : String}
    {follow : Option Lexeme → Prop} {Q : α → Prop} (h : ∀ source, Reads source reader words follow Q)
    (hlaid : Laid true words) (hcontent : content.toList = layoutText words) (hend : follow none) :
    ∃ a, Reader.readAll reader content = some a ∧ Q a := by
  obtain ⟨read, hread, hplaced⟩ : ∃ read, tokens content = some read ∧
      List.Forall₂ (Placed (Source.ofText default content)) words read :=
    tokens_of_layout hlaid hcontent
  obtain ⟨a, ha, hQ⟩ := h _ read [] hplaced hend
  refine ⟨a, ?_, hQ⟩
  rw [List.append_nil] at ha
  rw [Reader.readAll, hread, Option.bind_eq_bind, Option.bind_some, ha]
  rfl

/-- **The text of a form is read as its literal**, with as much room as it needs. -/
theorem Form.readAll_text {form : Form} (hlegible : form.Legible) {constant : Bool}
    (hconstant : constant = true → form.Constant) {room : Nat} (hdepth : form.depth ≤ room) :
    Reader.readAll (readLiteral constant room) form.text = some form.literal := by
  obtain ⟨v, hread, rfl⟩ := Reads.readAll
    (fun _ => Form.reads form hdepth hconstant (.inline false 0))
    (Form.laid_words hlegible (Gap.legible_inline _ _) (Or.inl rfl))
    (Form.layoutText_words form (.inline false 0)).symm trivial
  exact hread

/-! ### Reading in a query -/

variable {source : Source} {room : Nat} {field argument : String} {form : Form}

/-- The words of one argument. -/
def argumentWords (argument : String) (form : Form) : List Word :=
  ⟨.inline false 0, .name argument⟩ :: ⟨.inline false 0, .punctuator .colon⟩
    :: form.words (.inline false 1)

/-- The words of a field with one argument. -/
def selectionWords (field argument : String) (form : Form) : List Word :=
  ⟨.inline false 1, .name field⟩ :: ⟨.inline false 0, .punctuator .parenOpen⟩
    :: (argumentWords argument form ++ [⟨.inline false 0, .punctuator .parenClose⟩])

/-- The words of a query that selects one field. -/
def queryWords (field argument : String) (form : Form) : List Word :=
  ⟨.inline false 0, .punctuator .braceOpen⟩
    :: (selectionWords field argument form ++ [⟨.inline false 1, .punctuator .braceClose⟩])

/-- A query that passes a literal to a field. -/
def queryText (field argument : String) (v : Literal) : String :=
  "\x7b " ++ field ++ "(" ++ argument ++ ": " ++ v.text ++ ") \x7d"

theorem layoutText_queryWords (field argument : String) (v : Literal) :
    layoutText (queryWords field argument (plainForm v)) = (queryText field argument v).toList := by
  simp only [queryWords, selectionWords, argumentWords, List.cons_append, Form.layoutText_cons,
    Form.layoutText_append, Form.layoutText_words, text_plainForm, queryText, String.toList_append]
  simp [layoutText, Gap.text, spaces, Lexeme.text, Punctuator.text]

theorem laid_queryWords (hfield : isName field.toList = true) (hargument : isName argument.toList = true)
    (hform : form.Legible) : Laid true (queryWords field argument form) := by
  have hvalue : Laid true (form.words (.inline false 1)) :=
    Form.laid_words hform (Gap.legible_inline _ _) (Or.inl rfl)
  have hpassed : Laid true (form.words (.inline false 1) ++ [⟨.inline false 0, .punctuator .parenClose⟩]) :=
    hvalue.append ⟨⟨trivial, trivial⟩, Or.inr (Or.inr rfl), trivial⟩
  have hargument : Laid true (argumentWords argument form ++ [⟨.inline false 0, .punctuator .parenClose⟩]) :=
    ⟨⟨trivial, hargument⟩, Or.inl rfl, ⟨trivial, trivial⟩, Or.inr (Or.inr rfl), hpassed⟩
  have hselection : Laid true (selectionWords field argument form) :=
    ⟨⟨trivial, hfield⟩, Or.inl rfl, ⟨trivial, trivial⟩, Or.inr (Or.inr rfl), hargument⟩
  refine ⟨⟨trivial, trivial⟩, Or.inl rfl, hselection.append ?_⟩
  exact ⟨⟨trivial, trivial⟩, Or.inr (Or.inl rfl), trivial⟩

/-- An argument is read in its parentheses. -/
theorem reads_passed (hdepth : form.depth ≤ room) :
    Reads source (readArguments (room + 1))
      (⟨.inline false 0, .punctuator .parenOpen⟩
        :: (argumentWords argument form ++ [⟨.inline false 0, .punctuator .parenClose⟩]))
      (fun _ => True) (· = [(argument, form.literal)]) := by
  have hitem : Reads source (Form.readEntry false room) (argumentWords argument form)
      (fun _ => True) (· = (argument, form.literal)) := by
    refine Reads.name_bind (Reads.punctuator_bind ?_)
    exact Reads.bind_last (Form.reads form hdepth (fun h => absurd h Bool.false_ne_true) _)
      fun _ heq => Reads.pure (congrArg (argument, ·) heq)
  refine Reads.ifOpened ((Reads.someUntil_single rfl trivial trivial hitem).mono (fun _ h => h) ?_)
  rintro _ ⟨a, rfl, rfl⟩
  rfl

/-- What may follow a field: neither directives nor selections of its own. -/
def EndsField (next : Option Lexeme) : Prop :=
  NotNext (Lexeme.isPunctuator .at) next ∧ NotNext (Lexeme.isPunctuator .braceOpen) next

/-- A field is read with its argument. -/
theorem reads_selection (hdepth : form.depth ≤ room) :
    Reads source (Selection.read (room + 1)) (selectionWords field argument form) EndsField
      (fun s => ∃ position, s = .field position none field [(argument, form.literal)] []) := by
  rw [Selection.read]
  refine Reads.here_bind fun position _ => Reads.next_bind ?_
  have hname : Reads source (readFieldName field) [] (NotNext (Lexeme.isPunctuator .colon))
      (· = (none, field)) :=
    Reads.accept_bind_of_false (fun _ hnext => hnext) (Reads.pure rfl)
  refine Reads.bind hname ?_ fun _ _ => notNext_some rfl
  rintro _ rfl
  refine Reads.bind_last ((reads_passed hdepth).mono (fun _ _ => trivial) fun _ h => h) ?_
  rintro _ rfl
  have hdirectives : Reads source (readDirectives (room + 1)) [] EndsField (fun _ => True) :=
    Reads.many_nil.mono (fun _ hnext => hnext.1) fun _ _ => trivial
  refine Reads.bind_last hdirectives fun _ _ => ?_
  exact Reads.accept_bind_of_false (fun _ hnext => hnext.2) (Reads.pure ⟨position, rfl⟩)

/-- **A query is read back**: a reader with room for the brackets of the literal needs room for
the brace and the parenthesis around them. -/
theorem reads_query (hdepth : form.depth + 2 ≤ room) :
    Reads source (Executable.read room) (queryWords field argument form) (fun _ => True)
      (fun e => ∃ position,
        e = .operation ⟨.query, [.field position none field [(argument, form.literal)] []]⟩) := by
  obtain ⟨inner, rfl⟩ : ∃ inner, room = inner + 2 := ⟨room - 2, by omega⟩
  have hselections : Reads source (readSelections (inner + 2)) (queryWords field argument form)
      (fun _ => True)
      (fun ss => ∃ position, ss = [.field position none field [(argument, form.literal)] []]) := by
    refine Reads.punctuator_bind ((Reads.someUntil_single rfl ?_ ?_
      (reads_selection (show form.depth ≤ inner by omega))).mono (fun _ h => h) ?_)
    · exact ⟨notNext_some rfl, notNext_some rfl⟩
    · exact ⟨notNext_some rfl, notNext_some rfl⟩
    · rintro _ ⟨_, rfl, position, rfl⟩
      exact ⟨position, rfl⟩
  refine Reads.nextIs_bind_of_true rfl (Reads.bind_last hselections ?_)
  rintro _ ⟨position, rfl⟩
  exact Reads.pure ⟨position, rfl⟩

/-- The document of a query that passes a literal to a field. -/
theorem exists_readQueryDocument (hfield : isName field.toList = true)
    (hargument : isName argument.toList = true) {v : Literal} (hlegible : (plainForm v).Legible)
    (hdepth : v.depth + 2 ≤ nestingLimit) :
    ∃ position, readQueryDocument (queryText field argument v)
      = some ⟨[.operation ⟨.query,
          [.field position none field [(argument, (plainForm v).literal)] []]⟩]⟩ := by
  rw [← depth_plainForm] at hdepth
  have hdocument : ∀ source, Reads source
      (do
        let definitions ← Reader.many (fun _ => true) (Executable.read nestingLimit)
        if definitions.isEmpty then failure else return (⟨definitions⟩ : QueryDocument))
      (queryWords field argument (plainForm v)) (fun next => NotNext (fun _ => true) next ∧ True)
      (fun document => ∃ position, document = ⟨[.operation ⟨.query,
        [.field position none field [(argument, (plainForm v).literal)] []]⟩]⟩) := by
    intro source
    refine Reads.bind_last (Reads.many_single rfl trivial (reads_query hdepth)) ?_
    rintro _ ⟨_, rfl, position, rfl⟩
    exact Reads.pure ⟨position, rfl⟩
  obtain ⟨_, hread, position, rfl⟩ := Reads.readAll hdocument
    (laid_queryWords hfield hargument hlegible) (layoutText_queryWords field argument v).symm
    ⟨nofun, trivial⟩
  exact ⟨position, hread⟩

theorem keyed_literal (form : Form) : form.literal.Keyed := by
  induction form using Form.induct with
  | name text => exact keyed_ofName text
  | int n => exact .int n
  | float x => exact .float x
  | string value => exact .string value
  | varRef name => exact .varRef name
  | list items ih =>
    rw [Form.literal, Form.itemLiterals_eq]
    exact .list (List.forall_mem_map.mpr ih)
  | object arranged entries ih =>
    rw [Form.literal, Form.entryLiterals_eq]
    exact keyed_ofEntries (List.forall_mem_map.mpr ih)

end Sdl

namespace Literal

open Sdl

/-- **Literals come back from their text**: in a query whose brackets nest no deeper than a reader
puts up with, up to the order of object entries.  At any depth, only one literal up to that order
has a text. -/
theorem same_of_text :
    (∀ v : Literal, v.Writable → v.depth + 2 ≤ nestingLimit →
      ∀ field argument : String, isName field.toList = true → isName argument.toList = true →
        ∃ position w, readQueryDocument (queryText field argument v)
            = some ⟨[.operation ⟨.query, [.field position none field [(argument, w)] []]⟩]⟩ ∧
          (w == v) = true) ∧
      ∀ v w : Literal, v.Writable → w.Writable → v.text = w.text → (v == w) = true := by
  constructor
  · intro v h hdepth field argument hfield hargument
    obtain ⟨position, hread⟩ := exists_readQueryDocument hfield hargument h.legible hdepth
    exact ⟨position, _, hread, h.same_literal⟩
  · intro v w hv hw htext
    have hread : ∀ {u : Literal}, u.Writable → ∀ {room : Nat}, u.depth ≤ room →
        Reader.readAll (readLiteral false room) u.text = some (plainForm u).literal := by
      intro u hu room hdepth
      rw [← depth_plainForm] at hdepth
      rw [← text_plainForm]
      exact Form.readAll_text hu.legible (fun h => absurd h Bool.false_ne_true) hdepth
    -- one text, so one literal is read of it: it is the same as each of the two
    have hone : (plainForm v).literal = (plainForm w).literal := by
      have hv' := hread hv (Nat.le_max_left v.depth w.depth)
      rw [htext, hread hw (Nat.le_max_right v.depth w.depth)] at hv'
      exact (Option.some.inj hv').symm
    have hsame : v.same (plainForm v).literal = true :=
      same_symm (keyed_literal _) hv.keyed hv.same_literal
    refine hv.same_trans (keyed_literal _) hsame ?_
    rw [hone]
    exact hw.same_literal

/-- Lists and objects in one another, with a variable in the midst. -/
def nested : Literal :=
  .object [("b", .list [.int (-1), .varRef "x"]), ("a", .object [("c", .string "\\\"")])]

theorem writable_nested : nested.Writable :=
  .object (by decide)
    (List.forall_mem_cons.mpr ⟨by decide, List.forall_mem_singleton.mpr (by decide)⟩)
    (List.forall_mem_cons.mpr ⟨.list (List.forall_mem_cons.mpr ⟨.int _, List.forall_mem_singleton.mpr (.varRef (by decide))⟩),
      List.forall_mem_singleton.mpr (.object (by decide) (List.forall_mem_singleton.mpr (by decide))
        (List.forall_mem_singleton.mpr (.string (by decide))))⟩)

theorem same_of_text_nested :
    nested.Writable ∧ nested.depth + 2 ≤ nestingLimit ∧
      (∃ position w, readQueryDocument (queryText "f" "a" nested)
          = some ⟨[.operation ⟨.query, [.field position none "f" [("a", w)] []]⟩]⟩ ∧
        (w == nested) = true) ∧
      (nested == nested) = true := by
  have hdepth : nested.depth + 2 ≤ nestingLimit := by decide
  exact ⟨writable_nested, hdepth,
    same_of_text.1 nested writable_nested hdepth "f" "a" (by decide) (by decide),
    same_of_text.2 nested nested writable_nested writable_nested rfl⟩

/-- The empty list inside of so many others. -/
def enclosed : Nat → Literal
  | 0 => .list []
  | n + 1 => .list [enclosed n]

theorem writable_enclosed (n : Nat) : (enclosed n).Writable := by
  induction n with
  | zero => exact .list nofun
  | succ n ih => exact .list (List.forall_mem_singleton.mpr ih)

/-- A literal can nest deeper than a reader puts up with. -/
theorem not_forall_readQueryDocument :
    ¬ ∀ v : Literal, v.Writable → (readQueryDocument (queryText "f" "a" v)).isSome = true := by
  intro h
  have hsome := h (enclosed 48) (writable_enclosed 48)
  have hnone : (readQueryDocument (queryText "f" "a" (enclosed 48))).isSome = false := by
    decide +kernel
  rw [hnone] at hsome
  cases hsome

end Literal

end GraphSchema
