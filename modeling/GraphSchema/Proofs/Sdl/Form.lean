/-
Values as they are written.

A `Form` is what stands on the page for a value: names, numbers and strings in brackets and
braces.  It says how a value is laid out and nothing about its type.  Reading a form gives its
literal, in which the entries of objects are sorted, and a form that nests no deeper than the
reader allows is always read.

The text of a form, its words and its literal are three recursions over it, and the lemmas tie
them together: the words are laid out as the text, and they are read as the literal
(`Form.reads`).
-/
import GraphSchema.Proofs.Sdl.Reads
import GraphSchema.Syntax.Parts

namespace GraphSchema.Sdl

open Syntax

/-- A value as it is written down.  It tells more than the value: a string and an enum value of the
same text are apart in it, and so are the two layouts of an object. -/
inductive Form where
  | name (text : String)
  | int (n : Int64)
  | float (x : Float)
  | string (value : String)
  | varRef (name : String)
  | list (items : List Form)
  /-- An object.  One that is arranged by the fields of its type has two blanks in its braces
  if it is empty, and any other has none. -/
  | object (arranged : Bool) (entries : List (String × Form))
  deriving Inhabited

namespace Form

/-- Induction over a form: its items and the values of its entries are smaller. -/
theorem induct {P : Form → Prop} (name : ∀ text, P (.name text)) (int : ∀ n, P (.int n))
    (float : ∀ x, P (.float x)) (string : ∀ value, P (.string value))
    (varRef : ∀ name, P (.varRef name))
    (list : ∀ items, (∀ item ∈ items, P item) → P (.list items))
    (object : ∀ arranged entries, (∀ entry ∈ entries, P entry.2) → P (.object arranged entries))
    (form : Form) : P form :=
  @Form.rec P (fun items => ∀ item ∈ items, P item) (fun entries => ∀ entry ∈ entries, P entry.2)
    (fun entry => P entry.2) name int float string varRef list object
    (fun _ h => nomatch h) (fun _ _ hfirst hrest => List.forall_mem_cons.mpr ⟨hfirst, hrest⟩)
    (fun _ h => nomatch h) (fun _ _ hfirst hrest => List.forall_mem_cons.mpr ⟨hfirst, hrest⟩)
    (fun _ _ h => h) form

/-! ### Layout -/

/-- The gap in front of an item of a list. -/
def itemGap (first : Bool) : Gap := if first then .inline false 0 else .inline true 1

/-- The gap in front of an entry of an object. -/
def entryGap (first : Bool) : Gap := if first then .inline false 1 else .inline true 1

/-- The gap in front of the closing brace of an object. -/
def closingGap (arranged : Bool) (entries : List (String × Form)) : Gap :=
  .inline false (if entries.isEmpty then if arranged then 2 else 0 else 1)

mutual

/-- The words of a form, the first of them behind the given gap. -/
def words : Form → Gap → List Word
  | .name text, gap => [⟨gap, .name text⟩]
  | .int n, gap => [⟨gap, .int n⟩]
  | .float x, gap => [⟨gap, .float x⟩]
  | .string value, gap => [⟨gap, .string value⟩]
  | .varRef target, gap => [⟨gap, .punctuator .dollar⟩, ⟨.inline false 0, .name target⟩]
  | .list items, gap =>
    ⟨gap, .punctuator .bracketOpen⟩
      :: (itemWords items true ++ [⟨.inline false 0, .punctuator .bracketClose⟩])
  | .object arranged entries, gap =>
    ⟨gap, .punctuator .braceOpen⟩
      :: (entryWords entries true ++ [⟨closingGap arranged entries, .punctuator .braceClose⟩])

/-- The words of the items, the first of which may have no comma. -/
def itemWords : List Form → Bool → List Word
  | [], _ => []
  | item :: rest, first => item.words (itemGap first) ++ itemWords rest false

/-- The words of the entries, each key with its colon. -/
def entryWords : List (String × Form) → Bool → List Word
  | [], _ => []
  | (key, value) :: rest, first =>
    ⟨entryGap first, .name key⟩ :: ⟨.inline false 0, .punctuator .colon⟩
      :: (value.words (.inline false 1) ++ entryWords rest false)

end

mutual

/-- A form as a text. -/
def text : Form → String
  | .name text => text
  | .int n => toString n.toInt
  | .float x => Decimal.floatText x
  | .string value => quoted value
  | .varRef target => "$" ++ target
  | .list items => "[" ++ ", ".intercalate (itemTexts items) ++ "]"
  | .object false [] => "\x7b\x7d"
  | .object _ entries => "\x7b " ++ ", ".intercalate (entryTexts entries) ++ " \x7d"

/-- The texts of the items. -/
def itemTexts : List Form → List String
  | [] => []
  | item :: rest => item.text :: itemTexts rest

/-- The texts of the entries. -/
def entryTexts : List (String × Form) → List String
  | [] => []
  | (key, value) :: rest => (key ++ ": " ++ value.text) :: entryTexts rest

end

mutual

/-- The literal that a form is read as. -/
def literal : Form → Literal
  | .name text => .ofName text
  | .int n => .int n
  | .float x => .float x
  | .string value => .string value
  | .varRef target => .varRef target
  | .list items => .list (itemLiterals items)
  | .object _ entries => Literal.ofEntries (entryLiterals entries)

/-- What the items read back as. -/
def itemLiterals : List Form → List Literal
  | [] => []
  | item :: rest => item.literal :: itemLiterals rest

/-- What the entries read back as. -/
def entryLiterals : List (String × Form) → List (String × Literal)
  | [] => []
  | (key, value) :: rest => (key, value.literal) :: entryLiterals rest

end

mutual

/-- How deeply a form nests brackets and braces. -/
def depth : Form → Nat
  | .list items => itemsDepth items + 1
  | .object _ entries => entriesDepth entries + 1
  | _ => 0

/-- The depth of the deepest item. -/
def itemsDepth : List Form → Nat
  | [] => 0
  | item :: rest => max item.depth (itemsDepth rest)

/-- The depth of the deepest entry. -/
def entriesDepth : List (String × Form) → Nat
  | [] => 0
  | (_, value) :: rest => max value.depth (entriesDepth rest)

end

/-- The lexemes of a form. -/
def lexemes (form : Form) : List Lexeme := (form.words (.inline false 0)).map Word.lexeme

/-- Every lexeme of the form is read as it is. -/
def Legible (form : Form) : Prop := ∀ lexeme ∈ form.lexemes, lexeme.Legible

/-- No variable occurs in the form. -/
def Constant (form : Form) : Prop := ∀ lexeme ∈ form.lexemes, lexeme ≠ .punctuator .dollar

/-! ### Lexemes

Whether a form can be read back is a matter of its lexemes alone, and these are the lexemes of its
parts between marks.
-/

/-- The gap in front changes no lexeme. -/
theorem map_lexeme_words (form : Form) (gap : Gap) :
    (form.words gap).map Word.lexeme = form.lexemes := by
  cases form <;> rfl

theorem map_lexeme_itemWords (items : List Form) (first : Bool) :
    (itemWords items first).map Word.lexeme = items.flatMap lexemes := by
  induction items generalizing first with
  | nil => rfl
  | cons item rest ih =>
    rw [itemWords, List.map_append, map_lexeme_words, ih, List.flatMap_cons]

theorem map_lexeme_entryWords (entries : List (String × Form)) (first : Bool) :
    (entryWords entries first).map Word.lexeme
      = entries.flatMap fun entry => .name entry.1 :: .punctuator .colon :: entry.2.lexemes := by
  induction entries generalizing first with
  | nil => rfl
  | cons entry rest ih =>
    rw [entryWords, List.map_cons, List.map_cons, List.map_append, map_lexeme_words, ih,
      List.flatMap_cons]
    rfl

theorem lexemes_list (items : List Form) :
    (list items).lexemes
      = .punctuator .bracketOpen :: (items.flatMap lexemes ++ [.punctuator .bracketClose]) := by
  rw [lexemes, words, List.map_cons, List.map_append, map_lexeme_itemWords]
  rfl

theorem lexemes_object (arranged : Bool) (entries : List (String × Form)) :
    (object arranged entries).lexemes
      = .punctuator .braceOpen
        :: ((entries.flatMap fun entry => .name entry.1 :: .punctuator .colon :: entry.2.lexemes)
          ++ [.punctuator .braceClose]) := by
  rw [lexemes, words, List.map_cons, List.map_append, map_lexeme_entryWords]
  rfl

/-- A property of the lexemes of a list is one of its items. -/
theorem forall_lexemes_list_iff {P : Lexeme → Prop} (hmarks : ∀ p, p ≠ .dollar → P (.punctuator p))
    {items : List Form} :
    (∀ lexeme ∈ (list items).lexemes, P lexeme)
      ↔ ∀ item ∈ items, ∀ lexeme ∈ item.lexemes, P lexeme := by
  rw [lexemes_list]
  constructor
  · intro h item hitem lexeme hlexeme
    refine h lexeme (List.mem_cons_of_mem _ (List.mem_append_left _ ?_))
    exact List.mem_flatMap.mpr ⟨item, hitem, hlexeme⟩
  · intro h lexeme hlexeme
    rcases List.mem_cons.mp hlexeme with rfl | hlexeme
    · exact hmarks _ nofun
    · rcases List.mem_append.mp hlexeme with hlexeme | hlexeme
      · obtain ⟨item, hitem, hmem⟩ := List.mem_flatMap.mp hlexeme
        exact h item hitem lexeme hmem
      · obtain rfl := List.mem_singleton.mp hlexeme
        exact hmarks _ nofun

/-- A property of the lexemes of an object is one of its keys and values. -/
theorem forall_lexemes_object_iff {P : Lexeme → Prop}
    (hmarks : ∀ p, p ≠ .dollar → P (.punctuator p)) {arranged : Bool}
    {entries : List (String × Form)} :
    (∀ lexeme ∈ (object arranged entries).lexemes, P lexeme)
      ↔ ∀ entry ∈ entries, P (.name entry.1) ∧ ∀ lexeme ∈ entry.2.lexemes, P lexeme := by
  rw [lexemes_object]
  constructor
  · intro h entry hentry
    have hmem : ∀ lexeme ∈ Lexeme.name entry.1 :: .punctuator .colon :: entry.2.lexemes,
        P lexeme := by
      intro lexeme hlexeme
      refine h lexeme (List.mem_cons_of_mem _ (List.mem_append_left _ ?_))
      exact List.mem_flatMap.mpr ⟨entry, hentry, hlexeme⟩
    rw [List.forall_mem_cons, List.forall_mem_cons] at hmem
    exact ⟨hmem.1, hmem.2.2⟩
  · intro h lexeme hlexeme
    rcases List.mem_cons.mp hlexeme with rfl | hlexeme
    · exact hmarks _ nofun
    · rcases List.mem_append.mp hlexeme with hlexeme | hlexeme
      · obtain ⟨entry, hentry, hmem⟩ := List.mem_flatMap.mp hlexeme
        obtain ⟨hkey, hvalue⟩ := h entry hentry
        rcases List.mem_cons.mp hmem with rfl | hmem
        · exact hkey
        · rcases List.mem_cons.mp hmem with rfl | hmem
          · exact hmarks _ nofun
          · exact hvalue lexeme hmem
      · obtain rfl := List.mem_singleton.mp hlexeme
        exact hmarks _ nofun

theorem legible_list_iff {items : List Form} :
    (list items).Legible ↔ ∀ item ∈ items, item.Legible :=
  forall_lexemes_list_iff fun _ _ => trivial

theorem legible_object_iff {arranged : Bool} {entries : List (String × Form)} :
    (object arranged entries).Legible
      ↔ ∀ entry ∈ entries, isName entry.1.toList = true ∧ entry.2.Legible :=
  forall_lexemes_object_iff fun _ _ => trivial

theorem constant_list_iff {items : List Form} :
    (list items).Constant ↔ ∀ item ∈ items, item.Constant :=
  forall_lexemes_list_iff fun _ hne heq => hne (Lexeme.punctuator.inj heq)

theorem constant_object_iff {arranged : Bool} {entries : List (String × Form)} :
    (object arranged entries).Constant ↔ ∀ entry ∈ entries, entry.2.Constant := by
  unfold Constant
  rw [forall_lexemes_object_iff fun _ hne heq => hne (Lexeme.punctuator.inj heq)]
  exact forall_congr' fun entry => forall_congr' fun _ => and_iff_right nofun

/-! ### Layout -/

theorem layoutText_cons (word : Word) (words : List Word) :
    layoutText (word :: words) = word.gap.text ++ (word.lexeme.text ++ layoutText words) :=
  List.append_assoc _ _ _

theorem layoutText_singleton (gap : Gap) (lexeme : Lexeme) :
    layoutText [⟨gap, lexeme⟩] = gap.text ++ lexeme.text := List.append_nil _

theorem layoutText_append (words more : List Word) :
    layoutText (words ++ more) = layoutText words ++ layoutText more := List.flatMap_append

/-- The layout of items behind the first one. -/
theorem layoutText_itemWords_false {items : List Form}
    (h : ∀ item ∈ items, ∀ gap : Gap, layoutText (item.words gap) = gap.text ++ item.text.toList) :
    layoutText (itemWords items false)
      = ((itemTexts items).map String.toList).flatMap (", ".toList ++ ·) := by
  induction items with
  | nil => rfl
  | cons item rest ih =>
    rw [List.forall_mem_cons] at h
    rw [itemWords, layoutText_append, h.1, ih h.2]
    rfl

theorem layoutText_itemWords {items : List Form}
    (h : ∀ item ∈ items, ∀ gap : Gap, layoutText (item.words gap) = gap.text ++ item.text.toList) :
    layoutText (itemWords items true) = (", ".intercalate (itemTexts items)).toList := by
  rw [String.toList_intercalate]
  cases items with
  | nil => rfl
  | cons item rest =>
    rw [List.forall_mem_cons] at h
    rw [itemWords, layoutText_append, h.1, layoutText_itemWords_false h.2, itemTexts, List.map_cons,
      Text.intercalate_cons]
    rfl

/-- The layout of an entry. -/
theorem layoutText_entry {value : Form}
    (h : ∀ gap : Gap, layoutText (value.words gap) = gap.text ++ value.text.toList) (gap : Gap)
    (key : String) (rest : List Word) :
    layoutText (⟨gap, .name key⟩ :: ⟨.inline false 0, .punctuator .colon⟩
        :: (value.words (.inline false 1) ++ rest))
      = gap.text ++ ((key ++ ": " ++ value.text).toList ++ layoutText rest) := by
  rw [layoutText_cons, layoutText_cons, layoutText_append, h]
  simp [Gap.text, spaces, Lexeme.text, Punctuator.text, String.toList_append]

theorem layoutText_entryWords_false {entries : List (String × Form)}
    (h : ∀ entry ∈ entries, ∀ gap : Gap,
      layoutText (entry.2.words gap) = gap.text ++ entry.2.text.toList) :
    layoutText (entryWords entries false)
      = ((entryTexts entries).map String.toList).flatMap (", ".toList ++ ·) := by
  induction entries with
  | nil => rfl
  | cons entry rest ih =>
    rw [List.forall_mem_cons] at h
    rw [entryWords, layoutText_entry h.1, ih h.2]
    rfl

theorem layoutText_entryWords {entries : List (String × Form)} (hne : entries ≠ [])
    (h : ∀ entry ∈ entries, ∀ gap : Gap,
      layoutText (entry.2.words gap) = gap.text ++ entry.2.text.toList) :
    layoutText (entryWords entries true) = ' ' :: (", ".intercalate (entryTexts entries)).toList := by
  rw [String.toList_intercalate]
  cases entries with
  | nil => exact absurd rfl hne
  | cons entry rest =>
    rw [List.forall_mem_cons] at h
    rw [entryWords, layoutText_entry h.1, layoutText_entryWords_false h.2, entryTexts, List.map_cons,
      Text.intercalate_cons]
    rfl

/-- The words of a form are written as its text. -/
theorem layoutText_words (form : Form) (gap : Gap) :
    layoutText (form.words gap) = gap.text ++ form.text.toList := by
  induction form using induct generalizing gap with
  | name word => exact layoutText_singleton gap (.name word)
  | int n => exact layoutText_singleton gap (.int n)
  | float x => exact layoutText_singleton gap (.float x)
  | string value =>
    rw [text, quoted, String.toList_ofList]
    exact layoutText_singleton gap (.string value)
  | varRef target =>
    rw [words, layoutText_cons, layoutText_cons, text, String.toList_append]
    exact congrArg (fun rest => gap.text ++ '$' :: rest) (List.append_nil _)
  | list items ih =>
    rw [words, layoutText_cons, layoutText_append, layoutText_itemWords ih, text,
      String.toList_append, String.toList_append]
    rfl
  | object arranged entries ih =>
    rw [words, layoutText_cons, layoutText_append]
    cases entries with
    | nil => cases arranged <;> rfl
    | cons entry rest =>
      rw [layoutText_entryWords (List.cons_ne_nil _ _) ih, text, String.toList_append,
        String.toList_append]
      · rfl
      · nofun

/-- The items of a list can be told apart, the first of them from the bracket in front. -/
theorem laid_itemWords {items : List Form}
    (h : ∀ item ∈ items, ∀ (gap : Gap) (loose : Bool), gap.Legible →
      (loose = true ∨ gap.separates = true) → Laid loose (item.words gap))
    {first loose : Bool} (hfirst : first = true → loose = true) :
    Laid loose (itemWords items first) := by
  induction items generalizing first loose with
  | nil => trivial
  | cons item rest ih =>
    rw [List.forall_mem_cons] at h
    refine Laid.append (h.1 _ _ ?_ ?_) (ih h.2 nofun)
    · cases first <;> trivial
    · cases first with
      | true => exact Or.inl (hfirst rfl)
      | false => exact Or.inr rfl

theorem laid_entryWords {entries : List (String × Form)}
    (hkeys : ∀ entry ∈ entries, isName entry.1.toList = true)
    (h : ∀ entry ∈ entries, ∀ (gap : Gap) (loose : Bool), gap.Legible →
      (loose = true ∨ gap.separates = true) → Laid loose (entry.2.words gap))
    (first loose : Bool) : Laid loose (entryWords entries first) := by
  induction entries generalizing first loose with
  | nil => trivial
  | cons entry rest ih =>
    rw [List.forall_mem_cons] at h hkeys
    refine ⟨⟨?_, hkeys.1⟩, Or.inr (Or.inl ?_), ⟨trivial, trivial⟩, Or.inr (Or.inr rfl), ?_⟩
    · cases first <;> trivial
    · cases first <;> rfl
    · exact Laid.append (h.1 _ _ trivial (Or.inr rfl)) (ih hkeys.2 h.2 false false)

/-- The words of a form can be told apart. -/
theorem laid_words {form : Form} (h : form.Legible) {gap : Gap} (hgap : gap.Legible) {loose : Bool}
    (hloose : loose = true ∨ gap.separates = true) : Laid loose (form.words gap) := by
  induction form using induct generalizing gap loose with
  | name | int | float | string =>
    exact ⟨⟨hgap, h _ List.mem_cons_self⟩, hloose.imp_right Or.inl, trivial⟩
  | varRef target =>
    exact ⟨⟨hgap, trivial⟩, hloose.imp_right Or.inl,
      ⟨trivial, h _ (List.mem_cons_of_mem _ List.mem_cons_self)⟩, Or.inl rfl, trivial⟩
  | list items ih =>
    rw [legible_list_iff] at h
    refine ⟨⟨hgap, trivial⟩, hloose.imp_right Or.inl, ?_⟩
    refine Laid.append (laid_itemWords (fun item hitem gap loose hgap hloose => ?_) fun _ => rfl) ?_
    · exact ih item hitem (h item hitem) hgap hloose
    · exact ⟨⟨trivial, trivial⟩, Or.inr (Or.inr rfl), trivial⟩
  | object arranged entries ih =>
    rw [legible_object_iff] at h
    refine ⟨⟨hgap, trivial⟩, hloose.imp_right Or.inl, ?_⟩
    refine Laid.append (laid_entryWords (fun entry hentry => (h entry hentry).1)
      (fun entry hentry gap loose hgap hloose => ?_) true _) ?_
    · exact ih entry hentry (h entry hentry).2 hgap hloose
    · exact ⟨⟨trivial, trivial⟩, Or.inr (Or.inr rfl), trivial⟩

/-! ### Reading -/

theorem itemLiterals_eq (items : List Form) : itemLiterals items = items.map literal := by
  induction items with
  | nil => rfl
  | cons item rest ih => rw [itemLiterals, ih, List.map_cons]

theorem entryLiterals_eq (entries : List (String × Form)) :
    entryLiterals entries = entries.map fun entry => (entry.1, entry.2.literal) := by
  induction entries with
  | nil => rfl
  | cons entry rest ih =>
    rw [entryLiterals, ih, List.map_cons]

/-- The words of the items of a list, item by item. -/
theorem itemWords_eq (items : List Form) :
    itemWords items true = (marked items).flatMap fun x => x.2.words (itemGap x.1) := by
  have hothers : ∀ items : List Form, itemWords items false
      = (items.map fun item => (false, item)).flatMap fun x => x.2.words (itemGap x.1) := by
    intro items
    induction items with
    | nil => rfl
    | cons item rest ih =>
      rw [itemWords, ih]
      rfl
  cases items with
  | nil => rfl
  | cons item rest =>
    rw [itemWords, hothers]
    rfl

/-- The words of one entry of an object. -/
def oneEntryWords (x : Bool × String × Form) : List Word :=
  ⟨entryGap x.1, .name x.2.1⟩ :: ⟨.inline false 0, .punctuator .colon⟩
    :: x.2.2.words (.inline false 1)

theorem entryWords_eq (entries : List (String × Form)) :
    entryWords entries true = (marked entries).flatMap oneEntryWords := by
  have hothers : ∀ entries : List (String × Form), entryWords entries false
      = (entries.map fun entry => (false, entry)).flatMap oneEntryWords := by
    intro entries
    induction entries with
    | nil => rfl
    | cons entry rest ih =>
      rw [entryWords, ih]
      rfl
  cases entries with
  | nil => rfl
  | cons entry rest =>
    rw [entryWords, hothers]
    rfl

/-- A form begins with a lexeme that closes nothing. -/
theorem exists_words_eq (form : Form) (gap : Gap) :
    ∃ word rest, form.words gap = word :: rest ∧
      word.lexeme.isPunctuator .bracketClose = false ∧
      word.lexeme.isPunctuator .braceClose = false := by
  cases form <;> exact ⟨_, _, rfl, rfl, rfl⟩

theorem depth_le_of_mem_items {items : List Form} {item : Form} (h : item ∈ items) :
    item.depth ≤ itemsDepth items := by
  induction items with
  | nil => cases h
  | cons first rest ih =>
    rw [itemsDepth]
    rcases List.mem_cons.mp h with rfl | h
    · exact Nat.le_max_left _ _
    · exact Nat.le_trans (ih h) (Nat.le_max_right _ _)

theorem depth_le_of_mem_entries {entries : List (String × Form)} {entry : String × Form}
    (h : entry ∈ entries) : entry.2.depth ≤ entriesDepth entries := by
  induction entries with
  | nil => cases h
  | cons first rest ih =>
    rw [entriesDepth]
    rcases List.mem_cons.mp h with rfl | h
    · exact Nat.le_max_left _ _
    · exact Nat.le_trans (ih h) (Nat.le_max_right _ _)

/-- The reader of one entry of an object. -/
def readEntry (constant : Bool) (room : Nat) : Reader (String × Literal) := do
  let key ← Reader.name
  Reader.punctuator .colon
  return (key, ← readLiteral constant room)

/-- **A form is read as its literal.** -/
theorem reads {source : Source} {constant : Bool} (form : Form) {room : Nat}
    (hdepth : form.depth ≤ room)
    (hconstant : constant = true → form.Constant) (gap : Gap) :
    Reads source (readLiteral constant room) (form.words gap) (fun _ => True)
      (· = form.literal) := by
  induction form using induct generalizing room gap with
  | name word | int n | float x | string value =>
    rw [readLiteral.eq_def]
    exact Reads.next_bind (Reads.pure rfl)
  | varRef target =>
    rw [readLiteral.eq_def]
    refine Reads.next_bind ?_
    cases constant with
    | true => exact absurd rfl (hconstant rfl _ List.mem_cons_self)
    | false => exact Reads.name_bind (Reads.pure rfl)
  | list items ih =>
    obtain ⟨inner, rfl⟩ : ∃ inner, room = inner + 1 := ⟨room - 1, by rw [depth] at hdepth; omega⟩
    have hitem : ∀ x ∈ marked items, Reads source (readLiteral constant inner)
        (x.2.words (itemGap x.1)) (fun _ => True) (· = x.2.literal) := by
      intro x hx
      have hmem := snd_mem_of_mem_marked hx
      have hle := depth_le_of_mem_items hmem
      rw [depth] at hdepth
      exact ih x.2 hmem (by omega) (fun hc => constant_list_iff.mp (hconstant hc) x.2 hmem) _
    rw [readLiteral.eq_def]
    refine Reads.next_bind ?_
    rw [itemWords_eq]
    refine Reads.bind_last (Reads.manyUntil (fun x _ => ?_) trivial hitem)
      fun literals hliterals => Reads.pure ?_
    · obtain ⟨word, rest, heq, hword, -⟩ := exists_words_eq x.2 (itemGap x.1)
      exact ⟨word, rest, heq, hword, trivial⟩
    · rw [literal, itemLiterals_eq, eq_map_of_forall₂_marked hliterals]
  | object arranged entries ih =>
    obtain ⟨inner, rfl⟩ : ∃ inner, room = inner + 1 := ⟨room - 1, by rw [depth] at hdepth; omega⟩
    have hentry : ∀ x ∈ marked entries, Reads source (readEntry constant inner) (oneEntryWords x)
        (fun _ => True) (· = (x.2.1, x.2.2.literal)) := by
      intro x hx
      have hmem := snd_mem_of_mem_marked hx
      have hle := depth_le_of_mem_entries hmem
      rw [depth] at hdepth
      have hvalue := ih x.2 hmem (show x.2.2.depth ≤ inner by omega)
        (fun hc => constant_object_iff.mp (hconstant hc) x.2 hmem) (.inline false 1)
      refine Reads.name_bind (Reads.punctuator_bind ?_)
      exact Reads.bind_last hvalue fun _ heq => Reads.pure (congrArg (x.2.1, ·) heq)
    rw [readLiteral.eq_def]
    refine Reads.next_bind ?_
    rw [entryWords_eq]
    refine Reads.bind_last (Reads.manyUntil (fun x _ => ?_) trivial hentry)
      fun literals hliterals => Reads.pure ?_
    · exact ⟨_, _, rfl, rfl, trivial⟩
    · rw [literal, entryLiterals_eq,
        eq_map_of_forall₂_marked (f := fun entry : String × Form => (entry.1, entry.2.literal)) hliterals]

end Form

end GraphSchema.Sdl
