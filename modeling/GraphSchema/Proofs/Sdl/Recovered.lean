/-
Descriptions from comments.

What is written for a description is read back, wherever in a text it stands: above an element
on its line, below a line that is no comment.  Long lines come back in their pieces, and a
description that has been read once is written the same again (`description_descriptionText`).

Two things have to be shown of what is written.  The reader skips it step by step and comes to
the element, wherever it has come from (`ReadTo.skip_lead`): so the position for which the
description is looked up is the reader's own.  And above the place of the element stands what the
description was written as (`Place.exists_past_lead`).

The two meet only if the reader's lines are those of the text.  Behind a comment that a carriage
return has ended they are not: the reader has counted a line twice, looks below the element, and
the description is lost (`overlooks_descriptionText`).
-/
import GraphSchema.Proofs.Schema.CommentsAbove
import GraphSchema.Proofs.Sdl.Layout

namespace GraphSchema.Sdl

open Syntax

/-! ### Broken lines

What comes back is not the description but what its lines have been broken into.  That costs
nothing in the long run: pieces are short enough not to be broken again.
-/

/-- A description, each line of it replaced by the pieces that it is broken into at an
indentation. -/
def broken (indent : Nat) (description : String) : String :=
  String.ofList (['\n'].intercalate
    ((Text.cutAt '\n' description.toList).map fun line =>
      ['\n'].intercalate (wrap (lineWidth - indent) line)))

/-- What is read back is the description with its lines broken. -/
theorem ofList_rewrapped (indent : Nat) (description : String) :
    String.ofList (rewrapped indent description.toList) = broken indent description := by
  rw [rewrapped, descriptionPieces, linePieces_eq, Text.intercalate_flatMap (wrap_ne_nil _)]
  rfl

theorem broken_of_short {indent : Nat} {description : String}
    (h : ∀ line ∈ Text.cutAt '\n' description.toList,
      line.length < lineWidth - indent + tolerance) : broken indent description = description := by
  have hself : ((Text.cutAt '\n' description.toList).map fun line =>
      ['\n'].intercalate (wrap (lineWidth - indent) line)) = Text.cutAt '\n' description.toList := by
    refine (List.map_congr_left fun line hline => ?_).trans (List.map_id _)
    rw [wrap_of_length_lt (h line hline), List.intercalate_singleton]
    rfl
  rw [broken, hself, Text.intercalate_cutAt, String.ofList_toList]

/-- **A description that has been read is written the same.** -/
theorem descriptionText_broken (indent : Nat) (description : String) (firstInBlock : Bool) :
    descriptionText (some (broken indent description)) (String.ofList (spaces indent)) firstInBlock
      = descriptionText (some description) (String.ofList (spaces indent)) firstInBlock := by
  simp only [descriptionText, ← ofList_rewrapped, String.toList_ofList, comment_rewrapped]

/-! ### Reading over a comment

The steps of the reader through what stands in front of an element.  Beside the position, what they
keep is the number of lines that have been counted twice, and that the line begins with nothing but
blanks, which they even bring about with every line that ends.
-/

end GraphSchema.Sdl

namespace GraphSchema.Syntax

open Sdl

/-- The reader has gone on over a text: its position has moved past the text, and no line of it has
been counted twice. -/
structure Skips (s before text rest : List Char) (reading read : Reading) : Prop where
  readTo : ReadTo s (before ++ text) rest read
  position : read.position = reading.position.past text
  returns : read.returns = reading.returns

namespace Skips

variable {s before text more rest : List Char} {reading middle read : Reading}

theorem refl (h : ReadTo s before rest reading) : Skips s before [] rest reading reading :=
  ⟨(List.append_nil before).symm ▸ h, rfl, rfl⟩

theorem trans (h : Skips s before text (more ++ rest) reading middle)
    (h' : Skips s (before ++ text) more rest middle read) :
    Skips s before (text ++ more) rest reading read := by
  refine ⟨List.append_assoc .. ▸ h'.readTo, ?_, h'.returns.trans h.returns⟩
  rw [h'.position, h.position, past_append]

end Skips

namespace ReadTo

variable {s before rest : List Char} {reading : Reading}

theorem skip_spaces (n : Nat) (h : ReadTo s before (spaces n ++ rest) reading) :
    ∃ read, Skips s before (spaces n) rest reading read ∧ read.margin = reading.margin := by
  induction n generalizing before reading with
  | zero => exact ⟨reading, .refl h, rfl⟩
  | succ n ih =>
    have hstep : ReadTo s before (' ' :: (spaces n ++ rest)) reading := h
    obtain ⟨read, hrest, hmargin⟩ := ih (hstep.ignored rfl)
    have hfirst : Skips s before [' '] (spaces n ++ rest) reading _ := ⟨hstep.ignored rfl, rfl, rfl⟩
    exact ⟨read, hfirst.trans hrest, hmargin⟩

theorem skip_newline (h : ReadTo s before ('\n' :: rest) reading) :
    ∃ read, Skips s before ['\n'] rest reading read :=
  ⟨_, h.ignored rfl, rfl, rfl⟩

/-- The line behind a comment line is blank. -/
theorem skip_commentLine (indent : Nat) {piece : List Char} (hpiece : ∀ c ∈ piece, Text.InLine c)
    (h : ReadTo s before ((commentLine indent piece ++ ['\n']) ++ rest) reading) :
    ∃ read, Skips s before (commentLine indent piece ++ ['\n']) rest reading read ∧
      read.margin.line = .blank := by
  have hline : '\n' ∉ commentLine indent piece :=
    fun hc => (inLine_of_mem_commentLine hpiece hc).1 rfl
  have hpast : reading.position.past (commentLine indent piece ++ ['\n'])
      = reading.position.nextLine := by
    rw [past_append]
    exact nextLine_past hline reading.position
  obtain ⟨text, heq, htext⟩ := exists_commentLine_eq indent piece
  have hinside : ∀ c ∈ text, Text.InLine c := by
    intro c hc
    rcases htext c hc with rfl | hc
    · exact ⟨by decide, by decide⟩
    · exact hpiece c hc
  have hspaces : '\n' ∉ spaces indent := fun hc => (inLine_of_mem_spaces hc).1 rfl
  have happend : ∀ tail : List Char, (commentLine indent piece ++ ['\n']) ++ tail
      = spaces indent ++ '#' :: (text ++ '\n' :: tail) := by
    intro tail
    rw [heq]
    simp
  rw [happend] at h
  obtain ⟨read, hskips, -⟩ := h.skip_spaces indent
  have hcomment := hskips.readTo.comment hinside (Or.inl rfl)
  have hbefore := happend []
  rw [List.append_nil] at hbefore
  rw [List.append_assoc, ← hbefore] at hcomment
  refine ⟨_, ⟨hcomment, ?_, hskips.returns⟩, rfl⟩
  show read.position.nextLine = _
  rw [hskips.position, nextLine_past hspaces, hpast]

/-- Comment lines, of which the last one leaves a blank line behind. -/
theorem skip_pieces (indent : Nat) {pieces : List (List Char)}
    (hpieces : ∀ piece ∈ pieces, ∀ c ∈ piece, Text.InLine c)
    (h : ReadTo s before
      ((pieces.flatMap fun piece => commentLine indent piece ++ ['\n']) ++ rest) reading) :
    ∃ read, Skips s before (pieces.flatMap fun piece => commentLine indent piece ++ ['\n']) rest
      reading read ∧ (pieces ≠ [] ∨ reading.margin.line = .blank → read.margin.line = .blank) := by
  induction pieces generalizing before reading with
  | nil => exact ⟨reading, .refl h, fun hline => hline.resolve_left fun hne => hne rfl⟩
  | cons piece pieces ih =>
    rw [List.forall_mem_cons] at hpieces
    rw [List.flatMap_cons, List.append_assoc] at h
    obtain ⟨middle, hfirst, hblank⟩ := h.skip_commentLine indent hpieces.1
    obtain ⟨read, hrest, hline⟩ := ih hpieces.2 hfirst.readTo
    exact ⟨read, hfirst.trans hrest, fun _ => hline (Or.inr hblank)⟩

/-- **The reader goes over what is written for a description**, to the element below it. -/
theorem skip_lead (blankLine : Bool) (indent : Nat) {description : String}
    (hreturn : '\r' ∉ description.toList)
    (h : ReadTo s before (Gap.lead blankLine indent (some description) ++ rest) reading) :
    ∃ read, Skips s before (Gap.lead blankLine indent (some description)) rest reading read ∧
      read.margin.line = .blank := by
  have hpieces : ∀ piece ∈ descriptionPieces indent description.toList, ∀ c ∈ piece, Text.InLine c :=
    fun piece hpiece c hc => inLine_of_mem_descriptionPieces hreturn hpiece hc
  have hne := descriptionPieces_ne_nil indent description.toList
  rw [Gap.lead, Gap.commentText, comment_eq] at h ⊢
  rw [List.append_assoc] at h
  obtain ⟨first, hfirst⟩ : ∃ first,
      Skips s before (if blankLine then ['\n'] else []) (_ ++ rest) reading first := by
    cases blankLine with
    | false => exact ⟨reading, .refl h⟩
    | true => exact h.skip_newline
  have hcomment := hfirst.readTo
  rw [List.append_assoc _ (spaces indent) rest] at hcomment
  obtain ⟨second, hsecond, hline⟩ := hcomment.skip_pieces indent hpieces
  obtain ⟨read, hlast, hmargin⟩ := hsecond.readTo.skip_spaces indent
  refine ⟨read, hfirst.trans (hsecond.trans hlast), ?_⟩
  rw [hmargin]
  exact hline (Or.inl hne)

end ReadTo

end GraphSchema.Syntax

namespace GraphSchema.Sdl

open Syntax

/-! ### The place of the element

Where nothing but spaces stands in front of the element, its column is the true one.  So is its line,
as long as the reader has counted none twice, and the description is looked for where it stands.
-/

/-- What is written for a description and for the indentation of its element is a lead. -/
theorem exists_descriptionText_eq (indent : Nat) (description : String) (firstInBlock : Bool) :
    ∃ blankLine,
      (descriptionText (some description) (String.ofList (spaces indent)) firstInBlock).toList
        ++ spaces indent = Gap.lead blankLine indent (some description) := by
  refine ⟨!((String.ofList (spaces indent)).isEmpty || firstInBlock), ?_⟩
  unfold descriptionText Gap.lead
  cases (String.ofList (spaces indent)).isEmpty || firstInBlock <;>
    simp [Gap.commentText]

theorem position_eq_of_spaces {content : String} {position : Position} {before rest : List Char}
    {reading : Reading} (h : StandsAt content position before rest reading)
    (hblank : reading.margin.line = .blank) (hreturns : reading.returns = 0) {indent : Nat}
    (hspaces : (Place.start.past before).current = spaces indent) :
    position = (Place.start.past before).position := by
  have hline := h.readTo.line_eq
  have hcolumn := (h.readTo.column_eq hblank).2
  have hwidth : ((spaces indent).map ignoredWidth).sum = indent := by
    simp [spaces, ignoredWidth]
  rw [hreturns, Nat.add_zero] at hline
  rw [hspaces, hwidth] at hcolumn
  rw [← h.position, Place.position, hspaces, length_spaces, ← hline, Nat.add_comm indent, ← hcolumn]

/--
**What is written for a description is read back**, with its long lines broken, if no comment in
front of it has ended with a carriage return.

The text in front may be any whose last line has ended and is no comment.  From there the reader
goes over what is written, to the element, which is the first token of its line.  Wherever the
reader takes the element to be, its description is found.  A description without long lines comes
back as it was, and the one that comes back is written the same.
-/
theorem description_descriptionText (file : FilePath) (content : String) {before rest : List Char}
    (hbefore : (Place.start.past before).current = [])
    (habove : ∀ line ∈ (Place.start.past before).above.head?, NoRemark line) (indent : Nat)
    {description : String} (hreturn : '\r' ∉ description.toList) (firstInBlock : Bool)
    (hbegins : (Scan.ofText? rest).isSome = true) :
    let indentation := String.ofList (spaces indent)
    let lead := (descriptionText (some description) indentation firstInBlock).toList ++ spaces indent
    (∀ reading, ReadTo content.toList before (lead ++ rest) reading →
      ∃ read, StandsAt content (reading.position.past lead) (before ++ lead) rest read ∧
        read.margin.line = .blank ∧ read.returns = reading.returns) ∧
      (∀ position read, StandsAt content position (before ++ lead) rest read →
        read.margin.line = .blank → read.returns = 0 →
        (Source.ofText file content).description none position = some (broken indent description)) ∧
      ((∀ line ∈ Text.cutAt '\n' description.toList,
          line.length < lineWidth - indent + tolerance) → broken indent description = description) ∧
      descriptionText (some (broken indent description)) indentation firstInBlock
        = descriptionText (some description) indentation firstInBlock := by
  intro indentation lead
  obtain ⟨blankLine, hlead⟩ : ∃ blankLine, lead = Gap.lead blankLine indent (some description) :=
    exists_descriptionText_eq indent description firstInBlock
  refine ⟨?_, ?_, broken_of_short, descriptionText_broken indent description firstInBlock⟩
  · intro reading h
    rw [hlead] at h ⊢
    obtain ⟨read, hskips, hblank⟩ := h.skip_lead blankLine indent hreturn
    exact ⟨read, ⟨hskips.readTo, hskips.position, hbegins⟩, hblank, hskips.returns⟩
  · intro position read h hblank hreturns
    have hlegible : ∀ d ∈ some description, '\r' ∉ d.toList := by
      intro d hd
      obtain rfl := Option.some.inj hd
      exact hreturn
    obtain ⟨lines, hpast, hcomment⟩ :=
      Place.exists_past_lead blankLine indent hlegible (leadingComments_of_noRemark habove)
    have hplace : Place.start.past (before ++ lead) = ⟨lines, spaces indent⟩ := by
      rw [Place.past_append, hlead, ← hpast, ← hbefore]
    have hposition := position_eq_of_spaces h hblank hreturns (congrArg Place.current hplace)
    obtain ⟨scan, hscan⟩ := Option.isSome_iff_exists.mp hbegins
    obtain ⟨c, more, htext, hc⟩ := exists_text_of_scan hscan
    have hcontent : content.toList = (before ++ lead) ++ c :: (more ++ scan.rest) := by
      rw [h.readTo.eq_append, ← Scan.text_append_rest hscan, htext, List.cons_append]
    show (Source.ofText file content).commentAbove position = _
    rw [hposition, Place.commentAbove_position hcontent (inLine_of_beginsLexeme hc), hplace, hcomment,
      Option.map_some, ofList_rewrapped]

/-- A block with a described field.  The description has an empty line, and one that begins with a
space and a `#`. -/
def describedField : String := "type Query \x7b\n  #\n  #  # not a comment\n  b: Int\n\x7d"

/-- The steps to the end of the line that opens the block. -/
theorem readTo_describedField :
    ReadTo describedField.toList "type Query \x7b\n".toList
      "  #\n  #  # not a comment\n  b: Int\n\x7d".toList ⟨⟨2, 1⟩, ⟨[.code], .blank⟩, 0⟩ := by
  have hkeyword := ReadTo.start.lexeme (show Scan.ofText? describedField.toList
    = some ⟨.name "type", "type".toList, _⟩ from rfl)
  have hname := (hkeyword.ignored rfl).lexeme (show Scan.ofText? _
    = some ⟨.name "Query", "Query".toList, _⟩ from rfl)
  have hbrace := (hname.ignored rfl).lexeme (show Scan.ofText? _
    = some ⟨.punctuator .braceOpen, "\x7b".toList, _⟩ from rfl)
  exact hbrace.ignored rfl

/-- The description comes back as it was. -/
theorem description_descriptionText_block :
    descriptionText (some "\n # not a comment") "  " true = "  #\n  #  # not a comment\n" ∧
      ∃ items element, readSchemaDocument describedField = some items ∧
        element ∈ items.flatMap Item.elements ∧ element.written = none ∧ element.position = ⟨4, 3⟩ ∧
        (Source.ofText ⟨"a.graphql"⟩ describedField).description element.written element.position
          = some "\n # not a comment" := by
  obtain ⟨items, element, hread, helement, hwritten, hposition⟩ :=
    exists_element describedField ⟨4, 3⟩ (by decide +kernel)
  have hbefore : (Place.start.past "type Query \x7b\n".toList).current = [] := by decide
  have habove : ∀ line ∈ (Place.start.past "type Query \x7b\n".toList).above.head?, NoRemark line := by
    decide
  have hreturn : '\r' ∉ "\n # not a comment".toList := by decide
  have hbegins : (Scan.ofText? "b: Int\n\x7d".toList).isSome = true := by decide +kernel
  obtain ⟨hskips, hdescribed, hshort, -⟩ := description_descriptionText ⟨"a.graphql"⟩ describedField
    hbefore habove 2 hreturn true hbegins
  obtain ⟨read, hstands, hblank, hreturns⟩ := hskips _ readTo_describedField
  have hdescription := hdescribed ⟨4, 3⟩ read hstands hblank hreturns
  rw [hshort (by decide)] at hdescription
  refine ⟨by decide, items, element, hread, helement, hwritten, hposition, ?_⟩
  rw [hwritten, hposition]
  exact hdescription

/-- A described type behind a comment that ends with a carriage return and is that of no element. -/
def lostDescription : String := "# h\r\n\nscalar A\n# d\ntype Query \x7b f: Int \x7d"

theorem readTo_lostDescription :
    ReadTo lostDescription.toList "# h\r\n\nscalar A\n".toList "# d\ntype Query \x7b f: Int \x7d".toList
      ⟨⟨5, 1⟩, ⟨[.code, .blank, .comment [] " h".toList], .blank⟩, 1⟩ := by
  have hstart : ReadTo lostDescription.toList []
      ('#' :: (" h".toList ++ '\r' :: "\n\nscalar A\n# d\ntype Query \x7b f: Int \x7d".toList))
      ⟨.start, .start, 0⟩ := .start
  have hcomment := hstart.comment (forall_mem_of_all (by decide)) (Or.inr rfl)
  have hkeyword := ((hcomment.ignored rfl).ignored rfl).lexeme (show Scan.ofText? _
    = some ⟨.name "scalar", "scalar".toList, _⟩ from rfl)
  have hname := (hkeyword.ignored rfl).lexeme (show Scan.ofText? _
    = some ⟨.name "A", "A".toList, _⟩ from rfl)
  exact hname.ignored rfl

/-- Behind a comment that a carriage return has ended, what is written for a description is lost. -/
theorem overlooks_descriptionText : ∃ items element before rest read,
    readSchemaDocument lostDescription = some items ∧ element ∈ items.flatMap Item.elements ∧
      element.written = none ∧ (Place.start.past before).current = [] ∧
      (∀ line ∈ (Place.start.past before).above.head?, NoRemark line) ∧
      StandsAt lostDescription element.position
        (before ++ (descriptionText (some "d") "" true).toList) rest read ∧
      read.margin.line = .blank ∧
      (Source.ofText ⟨"a.graphql"⟩ lostDescription).description element.written element.position
        = none := by
  obtain ⟨items, element, hread, helement, hwritten, hposition⟩ :=
    exists_element lostDescription ⟨6, 1⟩ (by decide +kernel)
  have hpiece : ∀ c ∈ ['d'], Text.InLine c := forall_mem_of_all (by decide)
  obtain ⟨read, hskips, hblank⟩ := readTo_lostDescription.skip_commentLine 0 hpiece
  refine ⟨items, element, "# h\r\n\nscalar A\n".toList, "type Query \x7b f: Int \x7d".toList, read,
    hread, helement, hwritten, by decide, by decide,
    ⟨hskips.readTo, hskips.position.trans hposition.symm, by decide +kernel⟩, hblank, ?_⟩
  rw [hwritten, hposition]
  decide +kernel

end GraphSchema.Sdl
