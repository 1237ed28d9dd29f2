/-
Places in a text, and the comments above them.

A position is two numbers, and a comment is looked for in the lines of the whole text.  A
`Place` is what these numbers stand for: the lines that have been read, and what has been read
of the line that comes next.  So the comment above a place can be told from what has been
read, whatever follows.

The search for comments is a function of a place (`Place.comment`), and `commentAbove_position`
says when it is the one that the program does by line and column.
-/
import GraphSchema.Proofs.Schema.CommentLine

namespace GraphSchema

open Syntax (Position)
open Text (InLine)

/-- How far a text has been read: the lines above, the nearest one first, and what stands in
front on the line itself. -/
structure Place where
  above : List (List Char)
  current : List Char

namespace Place

/-- The place in front of a text. -/
def start : Place := ⟨[], []⟩

/-- The place behind one more character.  Only a line feed starts a line. -/
def step (place : Place) (c : Char) : Place :=
  if c = '\n' then ⟨place.current :: place.above, []⟩ else ⟨place.above, place.current ++ [c]⟩

/-- The place behind a text that begins here. -/
def past (place : Place) (text : List Char) : Place := text.foldl step place

/-- The position that the place is at, both counted from one. -/
def position (place : Place) : Position := ⟨place.above.length + 1, place.current.length + 1⟩

/-- The description that comment lines make, if there are any. -/
def joinComments : List (List Char) → Option String
  | [] => none
  | comments => some (String.ofList (['\n'].intercalate comments))

/-- The comment that describes an element at the place. -/
def comment (place : Place) : Option String :=
  if place.current.all fun c => Text.isBlank c || c == ',' then
    joinComments (Source.leadingComments place.above).reverse
  else
    none

theorem past_append (place : Place) (text more : List Char) :
    place.past (text ++ more) = (place.past text).past more := List.foldl_append

theorem past_newline (place : Place) (rest : List Char) :
    place.past ('\n' :: rest) = past ⟨place.current :: place.above, []⟩ rest := rfl

theorem past_of_not_mem {text : List Char} (h : '\n' ∉ text) (place : Place) :
    place.past text = ⟨place.above, place.current ++ text⟩ := by
  induction text generalizing place with
  | nil => rw [List.append_nil]; rfl
  | cons c text ih =>
    rw [List.mem_cons, not_or] at h
    have hstep : place.step c = ⟨place.above, place.current ++ [c]⟩ := if_neg (Ne.symm h.1)
    show (place.step c).past text = _
    rw [hstep, ih h.2, List.append_assoc, List.singleton_append]

theorem past_line {line : List Char} (h : '\n' ∉ line) (place : Place) (rest : List Char) :
    place.past (line ++ '\n' :: rest) = past ⟨(place.current ++ line) :: place.above, []⟩ rest := by
  rw [past_append, past_of_not_mem h, past_newline]

theorem past_concat (place : Place) (text : List Char) (c : Char) :
    place.past (text ++ [c]) = (place.past text).step c := past_append place text [c]

/-- A line is put above with each newline. -/
theorem length_above_past (place : Place) (text : List Char) :
    (place.past text).above.length = place.above.length + text.count '\n' := by
  induction text generalizing place with
  | nil => rfl
  | cons c text ih =>
    show ((place.step c).past text).above.length = _
    rw [ih, List.count_cons, step]
    by_cases hc : c = '\n'
    · simp only [List.length_cons, hc, beq_self_eq_true, if_true]
      omega
    · simp only [if_neg hc, beq_iff_eq]
      omega

/-! ### Positions -/

theorem line_position_past (p : Position) (text : List Char) :
    (p.past text).line = p.line + text.count '\n' := by
  induction text generalizing p with
  | nil => rfl
  | cons c text ih =>
    show ((if c = '\n' then p.nextLine else { p with column := p.column + 1 }).past text).line = _
    rw [ih, List.count_cons]
    by_cases hc : c = '\n'
    · simp only [hc, Position.nextLine, beq_self_eq_true, if_true]
      omega
    · simp only [if_neg hc, beq_iff_eq]
      omega

theorem position_step (place : Place) (c : Char) :
    place.position.past [c] = (place.step c).position := by
  show (if c = '\n' then _ else _) = _
  unfold step
  split
  · rfl
  · simp [position]

/-- Positions move as places do. -/
theorem position_past (place : Place) (text : List Char) :
    place.position.past text = (place.past text).position := by
  induction text generalizing place with
  | nil => rfl
  | cons c text ih =>
    show (place.position.past [c]).past text = ((place.step c).past text).position
    rw [position_step, ih]

/-! ### Lines

The lines above a place are lines of the whole text, and no longer change as the text goes on.
-/

/-- The lines of a text, seen from a place in it. -/
theorem lines_past (place : Place) (hcurrent : '\n' ∉ place.current) (before : List Char)
    {c : Char} (hc : InLine c) (rest : List Char) :
    ∃ tail more, (place.above.map Text.dropReturn).reverse
        ++ Text.lines (place.current ++ (before ++ c :: rest))
      = ((place.past before).above.map Text.dropReturn).reverse
        ++ ((place.past before).current ++ c :: tail) :: more := by
  induction before generalizing place with
  | nil =>
    obtain ⟨tail, more, hlines⟩ := Text.lines_append_of_inLine hcurrent hc rest
    exact ⟨tail, more, congrArg ((place.above.map Text.dropReturn).reverse ++ ·) hlines⟩
  | cons d before ih =>
    by_cases hd : d = '\n'
    · subst hd
      obtain ⟨tail, more, hlines⟩ := ih ⟨place.current :: place.above, []⟩ List.not_mem_nil
      refine ⟨tail, more, ?_⟩
      rw [past_newline, ← hlines, List.cons_append, Text.lines_append hcurrent]
      simp
    · have hline : '\n' ∉ place.current ++ [d] := by
        simp only [List.mem_append, List.mem_singleton, not_or]
        exact ⟨hcurrent, Ne.symm hd⟩
      obtain ⟨tail, more, hlines⟩ := ih ⟨place.above, place.current ++ [d]⟩ hline
      refine ⟨tail, more, ?_⟩
      have hstep : place.step d = ⟨place.above, place.current ++ [d]⟩ := if_neg hd
      show _ = (((place.step d).past before).above.map Text.dropReturn).reverse
        ++ (((place.step d).past before).current ++ c :: tail) :: more
      rw [hstep, ← hlines, List.append_assoc]
      rfl

/-- The comment above a column of the line, whichever column it is.  `tail` is what follows on
the line. -/
theorem exists_commentAbove_eq (file : FilePath) {content : String} {before rest : List Char}
    {c : Char} (hcontent : content.toList = before ++ c :: rest) (hc : InLine c) :
    ∃ tail, ∀ column,
      (Source.ofText file content).commentAbove ⟨(start.past before).above.length + 1, column⟩
        = if (((start.past before).current ++ c :: tail).take (column - 1)).all
              (fun c => Text.isBlank c || c == ',') then
            joinComments (Source.leadingComments (start.past before).above).reverse
          else
            none := by
  obtain ⟨tail, more, hlines⟩ := lines_past start List.not_mem_nil before hc rest
  refine ⟨tail, fun column => ?_⟩
  have hsource : (Source.ofText file content).lines
      = ((start.past before).above.map Text.dropReturn).reverse
        ++ ((start.past before).current ++ c :: tail) :: more := by
    rw [← hlines]
    show Text.lines content.toList = _
    rw [hcontent]
    rfl
  unfold Source.commentAbove
  rw [hsource]
  generalize start.past before = place
  have hline : ((place.above.map Text.dropReturn).reverse
      ++ (place.current ++ c :: tail) :: more)[place.above.length + 1 - 1]?
        = some (place.current ++ c :: tail) := by
    rw [Nat.add_sub_cancel, List.getElem?_append_right (by simp)]
    simp
  have habove : (((place.above.map Text.dropReturn).reverse
      ++ (place.current ++ c :: tail) :: more).take (place.above.length + 1 - 1)).reverse
        = place.above.map Text.dropReturn := by
    rw [Nat.add_sub_cancel, List.take_left' (by simp), List.reverse_reverse]
  rw [hline]
  simp only [habove, leadingComments_dropReturn]
  rfl

/-- **The comment above an element is the one above its place.** -/
theorem commentAbove_position {file : FilePath} {content : String} {before rest : List Char}
    {c : Char} (hcontent : content.toList = before ++ c :: rest) (hc : InLine c) :
    (Source.ofText file content).commentAbove (start.past before).position
      = (start.past before).comment := by
  obtain ⟨tail, hcomment⟩ := exists_commentAbove_eq file hcontent hc
  have hfront : ((start.past before).current ++ c :: tail).take
      ((start.past before).current.length + 1 - 1) = (start.past before).current := by
    rw [Nat.add_sub_cancel, List.take_left]
  show (Source.ofText file content).commentAbove ⟨_, (start.past before).current.length + 1⟩ = _
  rw [hcomment, hfront]
  rfl

end Place

end GraphSchema
