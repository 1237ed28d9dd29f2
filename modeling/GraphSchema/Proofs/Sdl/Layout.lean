/-
Words on a page.

A document is laid out as words, each a lexeme with a gap in front of it.  A gap is a few
blanks on the line, or a new line, which may be set off by a blank one and may carry a comment.
Reading a layout gives its lexemes back, and above each of them the description that its gap
carries, rewrapped (`tokens_of_layout`).

The proof goes along the words.  What it keeps is that the last line holds more than blanks and
is no comment (`Place.Settled`): so a comment above a word is that of the word's own gap.
-/
import Mathlib.Data.List.Forall2
import GraphSchema.Proofs.Schema.Place
import GraphSchema.Proofs.Sdl.Description
import GraphSchema.Proofs.Syntax.Lexemes

namespace GraphSchema.Sdl

open Syntax

/-! ### Gaps

All that a writer puts between lexemes.  Only a gap that begins a line can carry a description, and
nothing but blanks, commas, comments and ends of lines stands in a gap.
-/

/-- What is written in front of a lexeme. -/
inductive Gap where
  /-- Blanks on the line, perhaps behind a comma. -/
  | inline (comma : Bool) (blanks : Nat)
  /-- A new line, perhaps behind a blank one, below the comment for a description. -/
  | fresh (blankLine : Bool) (indent : Nat) (description : Option String)

namespace Gap

/-- The comment that a gap holds. -/
def commentText (indent : Nat) : Option String → List Char
  | none => []
  | some description => comment (spaces indent) description.toList

/-- What stands above a lexeme and in front of it on its line. -/
def lead (blankLine : Bool) (indent : Nat) (description : Option String) : List Char :=
  (if blankLine then ['\n'] else []) ++ (commentText indent description ++ spaces indent)

/-- The characters of a gap. -/
def text : Gap → List Char
  | inline comma blanks => (if comma then [','] else []) ++ spaces blanks
  | fresh blankLine indent description =>
    '\n' :: ((if blankLine then ['\n'] else []) ++ (commentText indent description ++ spaces indent))

/-- The description that is read above the gap's lexeme. -/
def description : Gap → Option String
  | inline _ _ => none
  | fresh _ indent description =>
    description.map fun d => String.ofList (rewrapped indent d.toList)

/-- Whether the gap keeps two lexemes apart. -/
def separates : Gap → Bool
  | inline comma blanks => comma || blanks != 0
  | fresh _ _ _ => true

/-- The comment holds no carriage return, which would end its line. -/
def Legible : Gap → Prop
  | inline _ _ => True
  | fresh _ _ description => ∀ d ∈ description, '\r' ∉ d.toList

theorem legible_inline (comma : Bool) (blanks : Nat) : (inline comma blanks).Legible := trivial

end Gap

/-! ### Skipping gaps

The reader skips a gap and keeps its position.  Along with it, the place that the position stands
for is kept.
-/

/-- The characters that are skipped one by one. -/
theorem dropIgnored_cons {p q : Position} {c : Char} (hc : c ≠ '#')
    (h : p.pastIgnored c = some q) (s : List Char) :
    dropIgnored false p (c :: s) = dropIgnored false q s := by
  rw [dropIgnored, if_neg Bool.false_ne_true, if_neg hc, h]

theorem dropIgnored_spaces (n : Nat) (p : Position) (s : List Char) :
    dropIgnored false p (spaces n ++ s) = dropIgnored false (p.past (spaces n)) s := by
  induction n generalizing p with
  | zero => rfl
  | succ n ih =>
    show dropIgnored false p (' ' :: (spaces n ++ s)) = _
    rw [dropIgnored_cons (by decide) rfl, ih]
    rfl

theorem dropIgnored_newline (p : Position) (s : List Char) :
    dropIgnored false p ('\n' :: s) = dropIgnored false (p.past ['\n']) s := by
  rw [dropIgnored_cons (by decide) rfl]
  rfl

/-- A comment is skipped up to the end of its line. -/
theorem dropIgnored_comment {text : List Char} (h : ∀ c ∈ text, Text.InLine c) (p : Position)
    (s : List Char) : dropIgnored true p (text ++ '\n' :: s) = dropIgnored false p.nextLine s := by
  induction text with
  | nil => rw [List.nil_append, dropIgnored, if_pos rfl, if_pos (Or.inl rfl)]
  | cons c text ih =>
    rw [List.forall_mem_cons] at h
    obtain ⟨hc, htext⟩ := h
    have hinside : ¬ (c = '\n' ∨ c = '\r') := not_or.mpr hc
    rw [List.cons_append, dropIgnored, if_pos rfl, if_neg hinside, ih htext]

theorem past_append (p : Position) (text more : List Char) :
    p.past (text ++ more) = (p.past text).past more := List.foldl_append

theorem line_past {text : List Char} (h : '\n' ∉ text) (p : Position) :
    (p.past text).line = p.line := by
  rw [Place.line_position_past, List.count_eq_zero.mpr h, Nat.add_zero]

/-- The next line begins in its first column, wherever the line ends. -/
theorem nextLine_past {text : List Char} (h : '\n' ∉ text) (p : Position) :
    (p.past text).nextLine = p.nextLine := by
  unfold Position.nextLine
  rw [line_past h]

theorem inLine_of_mem_spaces {n : Nat} {c : Char} (h : c ∈ spaces n) : Text.InLine c := by
  obtain rfl := List.eq_of_mem_replicate h
  exact ⟨by decide, by decide⟩

/-- What stands behind `#`. -/
theorem exists_commentLine_eq (indent : Nat) (piece : List Char) :
    ∃ text, commentLine indent piece = spaces indent ++ '#' :: text ∧
      ∀ c ∈ text, c = ' ' ∨ c ∈ piece := by
  unfold commentLine
  split
  · exact ⟨[], rfl, by simp⟩
  · exact ⟨' ' :: piece, rfl, by simp⟩

theorem inLine_of_mem_commentLine {indent : Nat} {piece : List Char}
    (h : ∀ c ∈ piece, Text.InLine c) {c : Char} (hc : c ∈ commentLine indent piece) :
    Text.InLine c := by
  obtain ⟨text, heq, htext⟩ := exists_commentLine_eq indent piece
  rw [heq, List.mem_append, List.mem_cons] at hc
  rcases hc with hc | rfl | hc
  · exact inLine_of_mem_spaces hc
  · exact ⟨by decide, by decide⟩
  · rcases htext c hc with rfl | hc
    · exact ⟨by decide, by decide⟩
    · exact h c hc

theorem dropIgnored_commentLine (indent : Nat) {piece : List Char}
    (h : ∀ c ∈ piece, Text.InLine c) (p : Position) (s : List Char) :
    dropIgnored false p ((commentLine indent piece ++ ['\n']) ++ s)
      = dropIgnored false (p.past (commentLine indent piece ++ ['\n'])) s := by
  have hline : '\n' ∉ commentLine indent piece := fun hc => (inLine_of_mem_commentLine h hc).1 rfl
  have hpast : p.past (commentLine indent piece ++ ['\n']) = p.nextLine := by
    rw [past_append]
    exact nextLine_past hline p
  obtain ⟨text, heq, htext⟩ := exists_commentLine_eq indent piece
  have hinside : ∀ c ∈ text, Text.InLine c := by
    intro c hc
    have hmem : c ∈ commentLine indent piece := by
      rw [heq]
      exact List.mem_append_right _ (List.mem_cons_of_mem _ hc)
    exact inLine_of_mem_commentLine h hmem
  have hspaces : '\n' ∉ spaces indent := fun hc => (inLine_of_mem_spaces hc).1 rfl
  rw [hpast, heq]
  have happend : spaces indent ++ '#' :: text ++ ['\n'] ++ s
      = spaces indent ++ '#' :: (text ++ '\n' :: s) := by simp
  rw [happend, dropIgnored_spaces, dropIgnored, if_neg Bool.false_ne_true, if_pos rfl,
    dropIgnored_comment hinside, nextLine_past hspaces]

theorem inLine_of_mem_descriptionPieces {indent : Nat} {d piece : List Char} (h : '\r' ∉ d)
    (hpiece : piece ∈ descriptionPieces indent d) {c : Char} (hc : c ∈ piece) :
    Text.InLine c := by
  obtain ⟨hmem, hnewline⟩ := mem_of_mem_descriptionPieces hpiece hc
  exact ⟨hnewline, fun hreturn => h (hreturn ▸ hmem)⟩

theorem dropIgnored_pieces (indent : Nat) {pieces : List (List Char)}
    (h : ∀ piece ∈ pieces, ∀ c ∈ piece, Text.InLine c) (p : Position) (s : List Char) :
    dropIgnored false p ((pieces.flatMap fun piece => commentLine indent piece ++ ['\n']) ++ s)
      = dropIgnored false
          (p.past (pieces.flatMap fun piece => commentLine indent piece ++ ['\n'])) s := by
  induction pieces generalizing p with
  | nil => rfl
  | cons piece pieces ih =>
    rw [List.forall_mem_cons] at h
    rw [List.flatMap_cons, List.append_assoc _ _ s, dropIgnored_commentLine indent h.1, ih h.2,
      ← past_append]

/-- The comment lines that a gap holds, as pieces. -/
theorem exists_commentText_eq (indent : Nat) {description : Option String}
    (h : ∀ d ∈ description, '\r' ∉ d.toList) :
    ∃ pieces : List (List Char), Gap.commentText indent description
        = (pieces.flatMap fun piece => commentLine indent piece ++ ['\n']) ∧
      (∀ piece ∈ pieces, ∀ c ∈ piece, Text.InLine c) ∧
      (description.map fun d => String.ofList (rewrapped indent d.toList))
        = Place.joinComments pieces := by
  cases description with
  | none => exact ⟨[], rfl, by simp, rfl⟩
  | some d =>
    refine ⟨descriptionPieces indent d.toList, comment_eq indent d.toList, ?_, ?_⟩
    · intro piece hpiece c hc
      exact inLine_of_mem_descriptionPieces (h d rfl) hpiece hc
    · obtain ⟨piece, pieces, heq⟩ :=
        List.exists_cons_of_ne_nil (descriptionPieces_ne_nil indent d.toList)
      rw [Option.map_some, rewrapped, heq]
      rfl

theorem dropIgnored_lead (blankLine : Bool) (indent : Nat) {description : Option String}
    (h : ∀ d ∈ description, '\r' ∉ d.toList) (p : Position) (s : List Char) :
    dropIgnored false p (Gap.lead blankLine indent description ++ s)
      = dropIgnored false (p.past (Gap.lead blankLine indent description)) s := by
  obtain ⟨pieces, htext, hpieces, -⟩ := exists_commentText_eq indent h
  have hblank : ∀ (q : Position) (s : List Char),
      dropIgnored false q ((if blankLine then ['\n'] else []) ++ s)
        = dropIgnored false (q.past (if blankLine then ['\n'] else [])) s := by
    intro q s
    cases blankLine with
    | false => rfl
    | true => exact dropIgnored_newline q s
  rw [Gap.lead, List.append_assoc, hblank, List.append_assoc, htext,
    dropIgnored_pieces indent hpieces, dropIgnored_spaces, ← past_append, ← past_append]

/-- **A gap is skipped, and the position moves past it.** -/
theorem dropIgnored_gap {gap : Gap} (h : gap.Legible) (p : Position) (s : List Char) :
    dropIgnored false p (gap.text ++ s) = dropIgnored false (p.past gap.text) s := by
  cases gap with
  | inline comma blanks =>
    cases comma with
    | false => exact dropIgnored_spaces blanks p s
    | true =>
      show dropIgnored false p (',' :: (spaces blanks ++ s)) = _
      rw [dropIgnored_cons (by decide) rfl, dropIgnored_spaces]
      rfl
  | fresh blankLine indent description =>
    show dropIgnored false p ('\n' :: (Gap.lead blankLine indent description ++ s)) = _
    rw [dropIgnored_newline, dropIgnored_lead blankLine indent h]
    rfl

/-- A lexeme is not skipped. -/
theorem dropIgnored_stop {c : Char} (h : beginsLexeme c = true) (p : Position) (s : List Char) :
    dropIgnored false p (c :: s) = (p, c :: s) := by
  have hhash : c ≠ '#' := by
    rintro rfl
    exact absurd h (by decide)
  have hkept : p.pastIgnored c = none := by
    unfold Position.pastIgnored
    split <;> first | rfl | exact absurd h (by decide)
  rw [dropIgnored, if_neg Bool.false_ne_true, if_neg hhash, hkept]

end GraphSchema.Sdl

namespace GraphSchema.Place

open Sdl Syntax

/-- What is read next on the line has nothing above it that counts: the line is code, or the
text only begins. -/
def Settled (place : Place) : Prop := place = start ∨ IsCode place.current

theorem past_spaces (place : Place) (n : Nat) :
    place.past (spaces n) = ⟨place.above, place.current ++ spaces n⟩ :=
  past_of_not_mem (fun h => (inLine_of_mem_spaces h).1 rfl) place

/-- Comment lines are put above, the last one nearest. -/
theorem past_pieces (indent : Nat) {pieces : List (List Char)}
    (h : ∀ piece ∈ pieces, ∀ c ∈ piece, Text.InLine c) (above : List (List Char)) :
    past ⟨above, []⟩ (pieces.flatMap fun piece => commentLine indent piece ++ ['\n'])
      = ⟨(pieces.map (commentLine indent)).reverse ++ above, []⟩ := by
  induction pieces generalizing above with
  | nil => rfl
  | cons piece pieces ih =>
    rw [List.forall_mem_cons] at h
    have hline : '\n' ∉ commentLine indent piece :=
      fun hc => (inLine_of_mem_commentLine h.1 hc).1 rfl
    rw [List.flatMap_cons, List.append_assoc, List.singleton_append, past_line hline, ih h.2]
    simp

/-- The comment above a place on a line of blanks. -/
theorem comment_of_blanks {above : List (List Char)} {current : List Char}
    (hcurrent : ∀ c ∈ current, (Text.isBlank c || c == ',') = true) :
    comment ⟨above, current⟩ = joinComments (Source.leadingComments above).reverse := by
  unfold comment
  rw [if_pos (List.all_eq_true.mpr hcurrent)]

theorem comment_of_isCode {place : Place} (h : IsCode place.current) : place.comment = none := by
  obtain ⟨c, hc, hsolid⟩ := h.solid
  unfold comment
  rw [if_neg]
  intro hall
  rw [List.all_eq_true.mp hall c hc] at hsolid
  cases hsolid

theorem isBlank_of_mem_spaces {n : Nat} {c : Char} (h : c ∈ spaces n) :
    (Text.isBlank c || c == ',') = true := by
  obtain rfl := List.eq_of_mem_replicate h
  decide

theorem isBlank_of_mem_inline {comma : Bool} {blanks : Nat} {c : Char}
    (h : c ∈ (Gap.inline comma blanks).text) : (Text.isBlank c || c == ',') = true := by
  rcases List.mem_append.mp h with h | h
  · cases comma with
    | false => cases h
    | true =>
      obtain rfl := List.mem_singleton.mp h
      decide
  · exact isBlank_of_mem_spaces h

/-- Behind a settled place, no comment stands above the next line. -/
theorem Settled.leadingComments {place : Place} (h : place.Settled) :
    Source.leadingComments (place.current :: place.above) = [] := by
  have hnone : Source.commentText? place.current = none := by
    rcases h with rfl | h
    · rfl
    · exact h.noComment
  rw [Source.leadingComments, hnone]

/-- What a line looks like whose lead begins below a line that is no comment. -/
theorem exists_past_lead (blankLine : Bool) (indent : Nat) {description : Option String}
    (h : ∀ d ∈ description, '\r' ∉ d.toList) {above : List (List Char)}
    (habove : Source.leadingComments above = []) :
    ∃ lines, past ⟨above, []⟩ (Gap.lead blankLine indent description) = ⟨lines, spaces indent⟩ ∧
      comment ⟨lines, spaces indent⟩
        = description.map fun d => String.ofList (rewrapped indent d.toList) := by
  obtain ⟨pieces, htext, hpieces, hread⟩ := exists_commentText_eq indent h
  obtain ⟨upper, hupper, hnone⟩ : ∃ upper,
      past ⟨above, []⟩ (if blankLine then ['\n'] else []) = ⟨upper, []⟩ ∧
        Source.leadingComments upper = [] := by
    cases blankLine with
    | false => exact ⟨_, rfl, habove⟩
    | true => exact ⟨_, rfl, rfl⟩
  refine ⟨(pieces.map (commentLine indent)).reverse ++ upper, ?_, ?_⟩
  · rw [Gap.lead, past_append, past_append, hupper, htext, past_pieces indent hpieces,
      past_spaces, List.nil_append]
  · have hreturn : ∀ piece ∈ pieces.reverse, '\r' ∉ piece := by
      intro piece hpiece hc
      exact (hpieces piece (List.mem_reverse.mp hpiece) _ hc).2 rfl
    rw [comment_of_blanks fun c hc => isBlank_of_mem_spaces hc, ← List.map_reverse,
      leadingComments_append indent hreturn hnone, List.reverse_reverse]
    exact hread.symm

/-- What a fresh line looks like from a settled place. -/
theorem past_fresh (place : Place) {gap : Gap} (h : gap.Legible) {blankLine : Bool} {indent : Nat}
    {description : Option String} (hgap : gap = .fresh blankLine indent description)
    (hsettled : place.Settled) :
    ∃ above, place.past gap.text = ⟨above, spaces indent⟩ ∧
      comment ⟨above, spaces indent⟩ = gap.description := by
  subst hgap
  exact exists_past_lead blankLine indent h hsettled.leadingComments

/-- **The comment above a lexeme is that of its gap.** -/
theorem comment_past_gap {place : Place} (hsettled : place.Settled) {gap : Gap} (h : gap.Legible) :
    (place.past gap.text).comment = gap.description := by
  cases hgap : gap with
  | inline comma blanks =>
    have hline : '\n' ∉ (Gap.inline comma blanks).text := by
      cases comma <;> simp [Gap.text, spaces]
    rw [past_of_not_mem hline]
    rcases hsettled with rfl | hcode
    · exact comment_of_blanks fun c hc => isBlank_of_mem_inline hc
    · exact comment_of_isCode (hcode.append _)
  | fresh blankLine indent description =>
    obtain ⟨above, hpast, hcomment⟩ := past_fresh place h hgap hsettled
    rw [← hgap, hpast, hcomment]

/-- A place behind a lexeme is settled. -/
theorem settled_past {place : Place} (hsettled : place.Settled) {gap : Gap} (h : gap.Legible)
    {lexeme : Lexeme} (hlexeme : lexeme.Legible) :
    ((place.past gap.text).past lexeme.text).Settled := by
  have hline : '\n' ∉ lexeme.text := fun hc => (inLine_of_mem_text hlexeme hc).1 rfl
  obtain ⟨c, rest, heq, hc⟩ := exists_text_eq hlexeme
  refine Or.inr ?_
  rw [past_of_not_mem hline, heq]
  cases hgap : gap with
  | inline comma blanks =>
    have hinline : '\n' ∉ (Gap.inline comma blanks).text := by
      cases comma <;> simp [Gap.text, spaces]
    rw [past_of_not_mem hinline]
    rcases hsettled with rfl | hcode
    · exact isCode_append (fun h => absurd (isBlank_of_mem_inline h) (by decide)) hc rest
    · exact (hcode.append _).append _
  | fresh blankLine indent description =>
    obtain ⟨above, hpast, -⟩ := past_fresh place h hgap hsettled
    rw [← hgap, hpast]
    exact isCode_append (fun h => absurd (isBlank_of_mem_spaces h) (by decide)) hc rest

end GraphSchema.Place

namespace GraphSchema.Sdl

open Syntax

/-! ### Words

Two lexemes without a gap must not run into each other.  `Laid` asks for that, and then each lexeme
is scanned for itself.
-/

/-- A lexeme with the gap in front of it. -/
structure Word where
  gap : Gap
  lexeme : Lexeme

/-- The characters of a word, those of its gap first. -/
def Word.text (word : Word) : List Char := word.gap.text ++ word.lexeme.text

/-- Both parts of a word can be read back. -/
def Word.Legible (word : Word) : Prop := word.gap.Legible ∧ word.lexeme.Legible

/-- Whether anything may follow the lexeme directly: it is a punctuator of one character. -/
def isMark : Lexeme → Bool
  | .punctuator p => p != .spread
  | _ => false

/-- The text of a layout. -/
def layoutText (words : List Word) : List Char := words.flatMap Word.text

/-- The words can be told apart: of two neighbours without a gap one is a mark.  `loose` says
that the first word may follow directly what is in front of it. -/
def Laid (loose : Bool) : List Word → Prop
  | [] => True
  | word :: words =>
    word.Legible ∧ (loose = true ∨ word.gap.separates = true ∨ isMark word.lexeme = true) ∧
      Laid (isMark word.lexeme) words

theorem Laid.loosen {loose : Bool} {words : List Word} (h : Laid false words) :
    Laid loose words := by
  cases words with
  | nil => trivial
  | cons word words =>
    obtain ⟨hlegible, hapart, hrest⟩ := h
    exact ⟨hlegible, Or.inr (hapart.resolve_left Bool.false_ne_true), hrest⟩

theorem Laid.append {loose : Bool} {words more : List Word} (h : Laid loose words)
    (hmore : Laid false more) : Laid loose (words ++ more) := by
  induction words generalizing loose with
  | nil => exact hmore.loosen
  | cons word words ih =>
    obtain ⟨hlegible, hapart, hrest⟩ := h
    exact ⟨hlegible, hapart, ih hrest⟩

theorem exists_of_isMark {lexeme : Lexeme} (h : isMark lexeme = true) :
    ∃ p, lexeme = .punctuator p := by
  unfold isMark at h
  split at h
  · next p => exact ⟨p, rfl⟩
  · cases h

theorem isDelimiter_of_isMark {lexeme : Lexeme} (h : isMark lexeme = true) {rest : List Char}
    {c : Char} (hc : c ∈ (lexeme.text ++ rest).head?) : isDelimiter c = true := by
  unfold isMark at h
  split at h
  · next p =>
    have hall : ∀ c ∈ (p.text ++ rest).head?, isDelimiter c = true := by
      cases p with
      | spread => cases h
      | _ =>
        intro c hc
        obtain rfl := Option.some.inj hc
        decide
    exact hall c hc
  · cases h

/-- What follows a lexeme that is no mark does not go on with it. -/
theorem Laid.delimits {words : List Word} (h : Laid false words) : Delimits (layoutText words) := by
  intro c hc
  cases words with
  | nil => cases hc
  | cons word words =>
    obtain ⟨gap, lexeme⟩ := word
    obtain ⟨hlegible, hapart, -⟩ := h
    have htext : layoutText (⟨gap, lexeme⟩ :: words)
        = gap.text ++ (lexeme.text ++ layoutText words) := List.append_assoc _ _ _
    rw [htext] at hc
    have happart := hapart.resolve_left Bool.false_ne_true
    cases gap with
    | fresh blankLine indent description =>
      obtain rfl := Option.some.inj hc
      decide
    | inline comma blanks =>
      cases comma with
      | true =>
        obtain rfl := Option.some.inj hc
        decide
      | false =>
        cases blanks with
        | succ n =>
          obtain rfl := Option.some.inj hc
          decide
        | zero => exact isDelimiter_of_isMark (happart.resolve_left Bool.false_ne_true) hc

/-- The token is where the word is, and has the word's comment above it. -/
structure Placed (source : Source) (word : Word) (token : Token) : Prop where
  lexeme : token.lexeme = word.lexeme
  comment : source.commentAbove token.position = word.gap.description

/-- The tokens of a layout, read from its start or on from a settled place. -/
theorem tokensFrom_layout (file : FilePath) {content : String} {words : List Word} {loose : Bool}
    (hlaid : Laid loose words) (before : List Char)
    (hcontent : content.toList = before ++ layoutText words)
    (hsettled : (Place.start.past before).Settled) :
    ∃ tokens, tokensFrom (Place.start.past before).position (layoutText words) = some tokens ∧
      List.Forall₂ (Placed (Source.ofText file content)) words tokens := by
  induction words generalizing loose before with
  | nil => exact ⟨[], tokensFrom_of_end rfl, .nil⟩
  | cons word words ih =>
    obtain ⟨gap, lexeme⟩ := word
    obtain ⟨⟨hgap, hlexeme⟩, hapart, hrest⟩ := hlaid
    have htext : layoutText (⟨gap, lexeme⟩ :: words)
        = gap.text ++ (lexeme.text ++ layoutText words) := List.append_assoc _ _ _
    obtain ⟨c, more, heq, hc⟩ := exists_text_eq hlexeme
    have hline : Text.InLine c := inLine_of_mem_text hlexeme (heq ▸ List.mem_cons_self)
    have hskip : dropIgnored false (Place.start.past before).position (layoutText (⟨gap, lexeme⟩ :: words))
        = ((Place.start.past (before ++ gap.text)).position, c :: (more ++ layoutText words)) := by
      rw [htext, dropIgnored_gap hgap, heq, List.cons_append, dropIgnored_stop hc,
        Place.position_past, Place.past_append]
    have hscan : Scan.ofText? (c :: (more ++ layoutText words))
        = some ⟨lexeme, lexeme.text, layoutText words⟩ := by
      rw [← List.cons_append, ← heq]
      refine scan_text hlexeme ?_
      cases hmark : isMark lexeme with
      | true => exact Or.inr (exists_of_isMark hmark)
      | false =>
        rw [hmark] at hrest
        exact Or.inl hrest.delimits
    have hcontent' : content.toList = (before ++ gap.text ++ lexeme.text) ++ layoutText words := by
      rw [hcontent, htext]
      simp only [List.append_assoc]
    have hsettled' : (Place.start.past (before ++ gap.text ++ lexeme.text)).Settled := by
      rw [Place.past_append, Place.past_append]
      exact Place.settled_past hsettled hgap hlexeme
    obtain ⟨tokens, htokens, hplaced⟩ := ih hrest _ hcontent' hsettled'
    refine ⟨⟨(Place.start.past (before ++ gap.text)).position, lexeme⟩ :: tokens, ?_, ?_⟩
    · rw [tokensFrom_of_scan hskip hscan]
      rw [Place.past_append, ← Place.position_past] at htokens
      rw [htokens]
      rfl
    · refine .cons ⟨rfl, ?_⟩ hplaced
      show (Source.ofText file content).commentAbove _ = gap.description
      have hplace : content.toList = (before ++ gap.text) ++ c :: (more ++ layoutText words) := by
        rw [hcontent, htext, heq]
        simp only [List.append_assoc, List.cons_append]
      rw [Place.commentAbove_position hplace hline, Place.past_append,
        Place.comment_past_gap hsettled hgap]

/-- **A layout is read back**: its lexemes, and above each the description of its gap. -/
theorem tokens_of_layout {file : FilePath} {content : String} {words : List Word}
    (hlaid : Laid true words) (hcontent : content.toList = layoutText words) :
    ∃ read, tokens content = some read ∧
      List.Forall₂ (Placed (Source.ofText file content)) words read := by
  obtain ⟨read, hread, hplaced⟩ := tokensFrom_layout file hlaid []
    hcontent (Or.inl rfl)
  refine ⟨read, ?_, hplaced⟩
  rw [tokens, hcontent]
  exact hread

end GraphSchema.Sdl
