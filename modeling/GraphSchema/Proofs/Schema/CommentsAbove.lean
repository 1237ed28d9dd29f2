/-
The comment lines above an element.

The description of an element is looked for by the reader's line and column in the lines of the
whole text, and there a line counts as a comment if `#` is what it begins with.  What should be
found are the comments that the document was read with: the lines directly above the element
whose first token is a comment (`remarks`).

As long as each comment has ended with a newline alone, a line that begins between lexemes is
taken for a comment if it is one, but for what may stand in front of its `#`; a line inside of a
string may be taken for one (`ReadTo.agrees`).  So the element is described by the comments above
it, if each of them begins as a comment should and the line above them is no such line of a string
(`Candid`), and if neither a tabulator nor a byte-order mark stands in front of it.  With a
tabulator it is not described at all, since this counts for eight columns and the element itself
is taken for what stands in front of it (`description_of_element`).
-/
import GraphSchema.Proofs.Syntax.Elements
import GraphSchema.Proofs.Syntax.Reading

namespace GraphSchema

open Syntax

/-! ### What should be found

From the record of the lines above: the comments directly above the element, and which of them the
search can be trusted to find.
-/

/-- The texts of the comments that stand directly above each other, the nearest one first. -/
def remarks : List Opening → List (List Char)
  | .comment _ text :: above => withoutSpace text :: remarks above
  | _ => []

/-- Only blanks stand in front of the comments directly above, and if the line above them is one
inside of a string, it does not look like a comment. -/
def Candid : List Opening → List (List Char) → Prop
  | .comment front _ :: openings, _ :: lines =>
    (∀ c ∈ front, Text.isBlank c = true) ∧ Candid openings lines
  | .inside :: _, line :: _ => NoRemark line
  | _, _ => True

/-! ### Lines -/

/-- How a line is taken that begins as it does.  Nothing is said of a line inside of a string, nor
of a comment with more than blanks in front. -/
def Fits : Opening → List Char → Prop
  | .blank, line | .code, line => Source.commentText? line = none
  | .comment front text, line =>
    (∀ c ∈ front, Text.isBlank c = true) → Source.commentText? line = some (withoutSpace text)
  | .inside, _ => True

/-- The lines of a place begin with what the margin says. -/
structure Agrees (margin : Margin) (place : Place) : Prop where
  above : List.Forall₂ Fits margin.above place.above
  code : margin.line = .code → IsCode place.current
  /-- A comment is read up to the end of its line. -/
  ended : ∀ front text, margin.line ≠ .comment front text

/-- In front of candid lines the comments are found. -/
theorem leadingComments_eq_remarks {openings : List Opening} {lines : List (List Char)}
    (h : List.Forall₂ Fits openings lines) (hcandid : Candid openings lines) :
    Source.leadingComments lines = remarks openings := by
  induction h with
  | nil => rfl
  | @cons opening line openings lines hline _ ih =>
    have hnone : Source.commentText? line = none →
        Source.leadingComments (line :: lines) = [] := by
      intro hnone
      rw [Source.leadingComments, hnone]
    cases opening with
    | blank => exact hnone hline
    | code => exact hnone hline
    | inside => exact hnone (commentText?_of_noRemark hcandid)
    | comment front text =>
      rw [Source.leadingComments, hline hcandid.1, remarks, ih hcandid.2]

/-- A line without `#` is no comment. -/
theorem noRemark_of_hash_not_mem {line : List Char} (h : '#' ∉ line) : NoRemark line := by
  intro hhead
  exact h ((List.dropWhile_sublist Text.isBlank).mem (List.mem_of_mem_head? hhead))

theorem hash_not_mem_of_skipped {front : List Char} (h : ∀ c ∈ front, c ∈ skippedInLine) :
    '#' ∉ front := fun hmem => absurd (h _ hmem) (by decide)

/-! ### Steps

Each step of the reader keeps the record and the text in agreement.  Within a string nothing is
said, since a line there may look like anything.
-/

namespace Agrees

variable {margin : Margin} {place : Place}

/-- A line that ends here is put above. -/
theorem newline (h : Agrees margin place)
    (hblank : margin.line = .blank → ∀ c ∈ place.current, c ∈ skippedInLine) {opening : Opening}
    (hopening : opening = .blank ∨ opening = .inside) :
    Agrees (margin.newline opening) ⟨place.current :: place.above, []⟩ := by
  refine ⟨.cons ?_ h.above, ?_, ?_⟩
  · cases hline : margin.line with
    | blank =>
      exact commentText?_of_noRemark
        (noRemark_of_hash_not_mem (hash_not_mem_of_skipped (hblank hline)))
    | comment front text => exact absurd hline (h.ended front text)
    | code => exact (h.code hline).noComment
    | inside => trivial
  · rcases hopening with rfl | rfl <;> exact nofun
  · rcases hopening with rfl | rfl <;> exact nofun

/-- The first line of a lexeme. -/
theorem put_code (h : Agrees margin place)
    (hblank : margin.line = .blank → ∀ c ∈ place.current, c ∈ skippedInLine) {c : Char}
    (hc : beginsLexeme c = true) (more : List Char) :
    Agrees (margin.put .code) ⟨place.above, place.current ++ c :: more⟩ := by
  obtain ⟨openings, line⟩ := margin
  cases line with
  | blank =>
    have hcode := isCode_append (hash_not_mem_of_skipped (hblank rfl)) hc more
    exact ⟨h.above, fun _ => hcode, nofun⟩
  | comment front text => exact absurd rfl (h.ended front text)
  | code => exact ⟨h.above, fun _ => (h.code rfl).append _, nofun⟩
  | inside => exact ⟨h.above, nofun, nofun⟩

/-- Inside of a string nothing is to be shown of a line. -/
theorem pastCode_inside (h : Agrees margin place) (hline : margin.line = .inside)
    (text : List Char) : Agrees (margin.pastCode text) (place.past text) := by
  induction text generalizing margin place with
  | nil => exact h
  | cons c text ih =>
    show Agrees ((if c = '\n' then margin.newline .inside else margin).pastCode text)
      ((place.step c).past text)
    unfold Place.step
    by_cases hc : c = '\n'
    · rw [if_pos hc, if_pos hc]
      have hblank : margin.line = .blank → ∀ c ∈ place.current, c ∈ skippedInLine := by
        rw [hline]
        exact nofun
      exact ih (h.newline hblank (Or.inr rfl)) rfl
    · rw [if_neg hc, if_neg hc]
      refine ih ⟨h.above, ?_, h.ended⟩ hline
      rw [hline]
      exact nofun

/-- Behind a lexeme. -/
theorem pastLexeme (h : Agrees margin place)
    (hblank : margin.line = .blank → ∀ c ∈ place.current, c ∈ skippedInLine)
    {s : List Char} {scan : Scan} (hscan : Scan.ofText? s = some scan) :
    Agrees (margin.pastLexeme scan.text) (place.past scan.text) := by
  obtain ⟨c, more, htext, hc⟩ := exists_text_of_scan hscan
  rw [htext, Margin.pastLexeme]
  by_cases hnewline : '\n' ∈ c :: more
  · obtain ⟨line, rest, heq, hline⟩ := List.eq_append_cons_of_mem hnewline
    cases line with
    | nil => exact absurd (List.cons.inj heq).1 (inLine_of_beginsLexeme hc).1
    | cons d line =>
      obtain rfl : c = d := (List.cons.inj heq).1
      rw [heq, Margin.pastCode_line hline, Place.past_line hline]
      have hput := h.put_code hblank hc line
      refine (hput.newline ?_ (Or.inr rfl)).pastCode_inside rfl rest
      exact fun hline => absurd hline (Margin.put_line_ne_blank nofun)
  · rw [Margin.pastCode_of_not_mem hnewline, Place.past_of_not_mem hnewline]
    exact h.put_code hblank hc more

/-- Behind a comment, which is what its line begins with if nothing stands in front of it. -/
theorem pastComment (h : Agrees margin place) {text : List Char}
    (htext : ∀ c ∈ text, Text.InLine c) :
    Agrees ((margin.put (.comment place.current text)).newline .blank)
      (place.past ('#' :: (text ++ ['\n']))) := by
  have hline : '\n' ∉ '#' :: text := by
    rw [List.mem_cons, not_or]
    exact ⟨by decide, fun hmem => (htext _ hmem).1 rfl⟩
  have hpast : place.past ('#' :: (text ++ ['\n']))
      = ⟨(place.current ++ '#' :: text) :: place.above, []⟩ := Place.past_line hline place []
  rw [hpast]
  obtain ⟨openings, line⟩ := margin
  cases line with
  | blank =>
    have hreturn : '\r' ∉ text := fun hmem => (htext _ hmem).2 rfl
    exact ⟨.cons (fun hfront => commentText?_append hfront hreturn) h.above, nofun, nofun⟩
  | comment front other => exact absurd rfl (h.ended front other)
  | code => exact ⟨.cons ((h.code rfl).append _).noComment h.above, nofun, nofun⟩
  | inside => exact ⟨.cons trivial h.above, nofun, nofun⟩

end Agrees

/-- **The lines that have been read are taken for what they are**, if no comment has ended with a
carriage return. -/
theorem Syntax.ReadTo.agrees {s before rest : List Char} {reading : Reading}
    (h : ReadTo s before rest reading) (hreturns : reading.returns = 0) :
    Agrees reading.margin (Place.start.past before) := by
  induction h with
  | start => exact ⟨.nil, nofun, nofun⟩
  | @ignored before rest reading c position h hc ih =>
    have hagrees := ih hreturns
    rw [Place.past_concat, Place.step]
    show Agrees (if c = '\n' then reading.margin.newline .blank else reading.margin) _
    split
    · exact hagrees.newline (fun hblank => (h.column_eq hblank).1) (Or.inl rfl)
    · exact ⟨hagrees.above, fun hcode => (hagrees.code hcode).append [c], hagrees.ended⟩
  | @comment before text rest reading ending h htext hending ih =>
    rcases hending with rfl | rfl
    · rw [Place.past_append]
      exact (ih hreturns).pastComment htext
    · exact absurd hreturns (Nat.succ_ne_zero reading.returns)
  | @lexeme before rest reading scan h hscan ih =>
    rw [Place.past_append]
    exact (ih hreturns).pastLexeme (fun hblank => (h.column_eq hblank).1) hscan

/-! ### Elements

At the first token of an element the reader's own position is that of the text, under the
conditions that `Candid` and the columns ask for.  So what is found is what should be.
-/

/-- The steps of the reader lead to the position, and a lexeme begins there. -/
structure StandsAt (content : String) (position : Position) (before rest : List Char)
    (reading : Reading) : Prop where
  readTo : ReadTo content.toList before rest reading
  position : reading.position = position
  begins : (Scan.ofText? rest).isSome = true

namespace StandsAt

variable (file : FilePath) {content : String} {position : Position} {before rest : List Char}
  {reading : Reading}

/-- What the position is taken for, if no line has been counted twice: a column of the line that
the element is on.  `c` is what the element begins with. -/
theorem exists_commentAbove_eq (h : StandsAt content position before rest reading)
    (hreturns : reading.returns = 0) (hblank : reading.margin.line = .blank) :
    ∃ c tail, beginsLexeme c = true ∧ (Source.ofText file content).commentAbove position
      = if (((Place.start.past before).current ++ c :: tail).take
            ((Place.start.past before).current.map ignoredWidth).sum).all
            (fun c => Text.isBlank c || c == ',') then
          Place.joinComments (Source.leadingComments (Place.start.past before).above).reverse
        else
          none := by
  obtain ⟨scan, hscan⟩ := Option.isSome_iff_exists.mp h.begins
  obtain ⟨c, more, htext, hc⟩ := exists_text_of_scan hscan
  have hcontent : content.toList = before ++ c :: (more ++ scan.rest) := by
    rw [h.readTo.eq_append, ← Scan.text_append_rest hscan, htext, List.cons_append]
  obtain ⟨tail, hcomment⟩ :=
    Place.exists_commentAbove_eq file hcontent (inLine_of_beginsLexeme hc)
  have hline := h.readTo.line_eq
  have hcolumn := (h.readTo.column_eq hblank).2
  rw [hreturns, Nat.add_zero] at hline
  refine ⟨c, tail, hc, ?_⟩
  have heq : position = ⟨(Place.start.past before).above.length + 1,
      1 + ((Place.start.past before).current.map ignoredWidth).sum⟩ := by
    rw [← h.position, ← hline, ← hcolumn]
  rw [heq, hcomment, Nat.add_sub_cancel_left]

/-- An element is described by the comments directly above it, if there are any. -/
theorem commentAbove_eq (h : StandsAt content position before rest reading)
    (hreturns : reading.returns = 0) (hblank : reading.margin.line = .blank)
    (hcandid : Candid reading.margin.above (Place.start.past before).above)
    (hfront : remarks reading.margin.above ≠ [] → '\t' ∉ (Place.start.past before).current ∧
      '\ufeff' ∉ (Place.start.past before).current) :
    (Source.ofText file content).commentAbove position
      = Place.joinComments (remarks reading.margin.above).reverse := by
  obtain ⟨c, tail, -, hcomment⟩ := h.exists_commentAbove_eq file hreturns hblank
  rw [hcomment, leadingComments_eq_remarks (h.readTo.agrees hreturns).above hcandid]
  by_cases hnone : remarks reading.margin.above = []
  · rw [hnone, List.reverse_nil]
    exact ite_self _
  · obtain ⟨htab, hmark⟩ := hfront hnone
    have hskipped := (h.readTo.column_eq hblank).1
    have hall : ∀ d ∈ skippedInLine, d ≠ '\ufeff' → (Text.isBlank d || d == ',') = true :=
      forall_mem_of_all (by decide)
    rw [if_pos]
    rw [List.take_append_of_le_length (sum_ignoredWidth_le hskipped htab), List.all_eq_true]
    intro d hd
    have hmem := List.mem_of_mem_take hd
    exact hall d (hskipped d hmem) fun heq => hmark (heq ▸ hmem)

/-- An element that a tabulator indents is not described: what is taken for its indentation
goes on into the element. -/
theorem commentAbove_of_tab (h : StandsAt content position before rest reading)
    (hreturns : reading.returns = 0) (hblank : reading.margin.line = .blank)
    (htab : '\t' ∈ (Place.start.past before).current)
    (hreturn : '\r' ∉ (Place.start.past before).current)
    (hmark : '\ufeff' ∉ (Place.start.past before).current) :
    (Source.ofText file content).commentAbove position = none := by
  obtain ⟨c, tail, hc, hcomment⟩ := h.exists_commentAbove_eq file hreturns hblank
  have hlong := length_lt_sum_ignoredWidth (h.readTo.column_eq hblank).1 hreturn hmark htab
  rw [hcomment, if_neg]
  intro hall
  have hmem : c ∈ ((Place.start.past before).current ++ c :: tail).take
      ((Place.start.past before).current.map ignoredWidth).sum := by
    rw [List.take_append, List.mem_append]
    refine Or.inr ?_
    obtain ⟨n, hn⟩ := Nat.exists_eq_add_of_lt hlong
    rw [hn]
    have hsub : (Place.start.past before).current.length + n + 1
        - (Place.start.past before).current.length = n + 1 := by omega
    rw [hsub, List.take_succ_cons]
    exact List.mem_cons_self
  have hsolid := List.all_eq_true.mp hall c hmem
  rw [isBlank_of_beginsLexeme hc] at hsolid
  cases hsolid

end StandsAt

/-- Every element of a document stands where the steps lead. -/
theorem exists_standsAt {content : String} {items : List Item}
    (h : readSchemaDocument content = some items) {element : Element}
    (helement : element ∈ items.flatMap Item.elements) :
    ∃ before rest reading, StandsAt content element.position before rest reading := by
  have htokens : ∀ read, tokens content = some read → ∀ token ∈ read, token.WellFormed ∧
      ∃ before rest reading, StandsAt content token.position before rest reading := by
    intro read hread token htoken
    obtain ⟨before, rest, reading, hreadTo, hposition, scan, hscan, -⟩ := exists_readTo hread htoken
    exact ⟨wellFormed_of_tokensFrom hread token htoken,
      before, rest, reading, hreadTo, hposition, Option.isSome_of_mem hscan⟩
  obtain ⟨token, ⟨-, hstands⟩, hposition⟩ :=
    standing_of_readSchemaDocument (fun _ => And.left) h htokens element helement
  rw [← hposition]
  exact hstands

/-- **An element without a string is described by the comments directly above it**, if it is the
first token of its line, no comment in front of it has ended with a carriage return, and the lines
above are candid: by all comments down from the nearest line that is none, and by none if the line
above is none.  Where there are comments, no tabulator and no byte-order mark may indent the
element; one that a tabulator indents has no description. -/
theorem description_of_element (file : FilePath) {content : String} {items : List Item}
    (h : readSchemaDocument content = some items) {element : Element}
    (helement : element ∈ items.flatMap Item.elements) (hwritten : element.written = none) :
    (∃ before rest reading, StandsAt content element.position before rest reading) ∧
      ∀ before rest reading, StandsAt content element.position before rest reading →
        reading.margin.line = .blank → reading.returns = 0 →
        (Candid reading.margin.above (Place.start.past before).above →
          (remarks reading.margin.above ≠ [] → '\t' ∉ (Place.start.past before).current ∧
            '\ufeff' ∉ (Place.start.past before).current) →
          (Source.ofText file content).description element.written element.position
            = Place.joinComments (remarks reading.margin.above).reverse) ∧
        ('\t' ∈ (Place.start.past before).current → '\r' ∉ (Place.start.past before).current →
          '\ufeff' ∉ (Place.start.past before).current →
          (Source.ofText file content).description element.written element.position = none) := by
  refine ⟨exists_standsAt h helement, ?_⟩
  intro before rest reading hstands hblank hreturns
  rw [hwritten]
  constructor
  · intro hcandid hfront
    exact hstands.commentAbove_eq file hreturns hblank hcandid hfront
  · intro htab hreturn hmark
    exact hstands.commentAbove_of_tab file hreturns hblank htab hreturn hmark

/-- A document in which an element without a string is at the position. -/
theorem exists_element (content : String) (position : Position)
    (h : (readSchemaDocument content).any (fun items => (items.flatMap Item.elements).any
      fun element => element.written.isNone && element.position == position) = true) :
    ∃ items element, readSchemaDocument content = some items ∧
      element ∈ items.flatMap Item.elements ∧ element.written = none ∧
        element.position = position := by
  obtain ⟨items, hread, hany⟩ := (Option.any_eq_true _ _).mp h
  obtain ⟨element, helement, hboth⟩ := List.any_eq_true.mp hany
  rw [Bool.and_eq_true, Option.isNone_iff_eq_none, beq_iff_eq] at hboth
  exact ⟨items, element, hread, helement, hboth.1, hboth.2⟩

/-- Two comment lines above an indented type. -/
def describedType : String := "# The root\n#of all\n  type Query \x7b f: Int \x7d"

/-- The steps to the type, and what its lines begin with. -/
theorem standsAt_describedType :
    StandsAt describedType ⟨3, 3⟩ "# The root\n#of all\n  ".toList "type Query \x7b f: Int \x7d".toList
      ⟨⟨3, 3⟩, ⟨[.comment [] "of all".toList, .comment [] " The root".toList], .blank⟩, 0⟩ := by
  have hstart : ReadTo describedType.toList []
      ('#' :: (" The root".toList ++ '\n' :: "#of all\n  type Query \x7b f: Int \x7d".toList))
      ⟨.start, .start, 0⟩ := .start
  have hfirst : ReadTo describedType.toList ('#' :: (" The root".toList ++ ['\n']))
      ('#' :: ("of all".toList ++ '\n' :: "  type Query \x7b f: Int \x7d".toList))
      ⟨⟨2, 1⟩, ⟨[.comment [] " The root".toList], .blank⟩, 0⟩ :=
    hstart.comment (forall_mem_of_all (by decide)) (Or.inl rfl)
  have hsecond : ReadTo describedType.toList "# The root\n#of all\n".toList
      (' ' :: ' ' :: "type Query \x7b f: Int \x7d".toList)
      ⟨⟨3, 1⟩, ⟨[.comment [] "of all".toList, .comment [] " The root".toList], .blank⟩, 0⟩ :=
    hfirst.comment (forall_mem_of_all (by decide)) (Or.inl rfl)
  exact ⟨(hsecond.ignored rfl).ignored rfl, rfl, by decide +kernel⟩

theorem description_of_element_indented : ∃ items element,
    readSchemaDocument describedType = some items ∧ element ∈ items.flatMap Item.elements ∧
      element.written = none ∧ element.position = ⟨3, 3⟩ ∧
      (Source.ofText ⟨"a.graphql"⟩ describedType).description none ⟨3, 3⟩
        = some "The root\nof all" := by
  obtain ⟨items, element, hread, helement, hwritten, hposition⟩ :=
    exists_element describedType ⟨3, 3⟩ (by decide +kernel)
  obtain ⟨-, hdescribed⟩ := description_of_element ⟨"a.graphql"⟩ hread helement hwritten
  rw [hposition] at hdescribed
  obtain ⟨hcomments, -⟩ := hdescribed _ _ _ standsAt_describedType rfl rfl
  have hdescription := hcomments ⟨nofun, nofun, trivial⟩ fun _ => by decide
  rw [hwritten] at hdescription
  exact ⟨items, element, hread, helement, hwritten, hposition, hdescription⟩

/-- The only comment above an element that begins its line is not found. -/
def Overlooks (content : String) : Prop :=
  ∃ items element before rest reading, readSchemaDocument content = some items ∧
    element ∈ items.flatMap Item.elements ∧ element.written = none ∧
    StandsAt content element.position before rest reading ∧ reading.margin.line = .blank ∧
    remarks reading.margin.above = ["c".toList] ∧
    (Source.ofText ⟨"a.graphql"⟩ content).description element.written element.position = none

/-- A tabulator in front of the element, and a carriage return at the end of the comment. -/
theorem overlooks_comment : Overlooks "# c\n\ttype Query \x7b f: Int \x7d" ∧
    Overlooks "# c\r\ntype Query \x7b f: Int \x7d" := by
  constructor
  · obtain ⟨items, element, hread, helement, hwritten, hposition⟩ :=
      exists_element "# c\n\ttype Query \x7b f: Int \x7d" ⟨2, 9⟩ (by decide +kernel)
    have hstart : ReadTo "# c\n\ttype Query \x7b f: Int \x7d".toList []
        ('#' :: (" c".toList ++ '\n' :: '\t' :: "type Query \x7b f: Int \x7d".toList))
        ⟨.start, .start, 0⟩ := .start
    have hcomment : ReadTo "# c\n\ttype Query \x7b f: Int \x7d".toList "# c\n".toList
        ('\t' :: "type Query \x7b f: Int \x7d".toList)
        ⟨⟨2, 1⟩, ⟨[.comment [] " c".toList], .blank⟩, 0⟩ :=
      hstart.comment (forall_mem_of_all (by decide)) (Or.inl rfl)
    refine ⟨items, element, _, _, _, hread, helement, hwritten,
      ⟨hcomment.ignored rfl, hposition.symm, by decide +kernel⟩, rfl, rfl, ?_⟩
    rw [hwritten, hposition]
    decide +kernel
  · obtain ⟨items, element, hread, helement, hwritten, hposition⟩ :=
      exists_element "# c\r\ntype Query \x7b f: Int \x7d" ⟨3, 1⟩ (by decide +kernel)
    have hstart : ReadTo "# c\r\ntype Query \x7b f: Int \x7d".toList []
        ('#' :: (" c".toList ++ '\r' :: '\n' :: "type Query \x7b f: Int \x7d".toList))
        ⟨.start, .start, 0⟩ := .start
    have hcomment : ReadTo "# c\r\ntype Query \x7b f: Int \x7d".toList "# c\r".toList
        ('\n' :: "type Query \x7b f: Int \x7d".toList)
        ⟨⟨2, 1⟩, ⟨[], .comment [] " c".toList⟩, 1⟩ :=
      hstart.comment (forall_mem_of_all (by decide)) (Or.inr rfl)
    refine ⟨items, element, _, _, _, hread, helement, hwritten,
      ⟨hcomment.ignored rfl, hposition.symm, by decide +kernel⟩, rfl, rfl, ?_⟩
    rw [hwritten, hposition]
    decide +kernel

end GraphSchema
