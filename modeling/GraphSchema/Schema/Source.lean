/-
Sources: the texts that a schema is read from.

Comments are no tokens, so a description that is written as comment lines is recovered
from the text: the comment lines directly above an element that begins its line.  A
description that is written as a string always wins.
-/
import GraphSchema.Schema.Location
import GraphSchema.Text.Classes
import GraphSchema.Text.Lines

namespace GraphSchema

/-- A source of definitions, with the lines in which comments are looked up. -/
structure Source where
  file : FilePath
  lines : List (List Char)

namespace Source

/-- The source with a text. -/
def ofText (file : FilePath) (content : String) : Source := ⟨file, Text.lines content.toList⟩

/-- A position in the source. -/
def location (source : Source) (position : Syntax.Position) : Location :=
  .source source.file position

/-- The text of a comment line: what follows `#`, without one space behind it and without
carriage returns at its end. -/
def commentText? (line : List Char) : Option (List Char) :=
  match Text.trimStart line with
  | '#' :: comment =>
    let comment := (comment.reverse.dropWhile (· == '\r')).reverse
    match comment with
    | ' ' :: rest => some rest
    | _ => some comment
  | _ => none

/-- The texts of the comment lines that a list of lines begins with. -/
def leadingComments : List (List Char) → List (List Char)
  | [] => []
  | line :: rest =>
    match commentText? line with
    | some comment => comment :: leadingComments rest
    | none => []

/-- Whether an element at a position begins its line: only blanks and commas stand in the
columns in front of it. -/
def beginsLine (line : List Char) (position : Syntax.Position) : Bool :=
  (line.take (position.column - 1)).all fun c => Text.isBlank c || c == ','

/-- The comment lines directly above an element that begins its line. -/
def commentAbove (source : Source) (position : Syntax.Position) : Option String :=
  match source.lines[position.line - 1]? with
  | none => none
  | some line =>
    if beginsLine line position then
      match (leadingComments (source.lines.take (position.line - 1)).reverse).reverse with
      | [] => none
      | comments => some (String.ofList (['\n'].intercalate comments))
    else
      none

/-- The description of an element: the string in front of it, or the comment above it. -/
def description (source : Source) (written : Option String) (position : Syntax.Position) :
    Option String :=
  written.or (source.commentAbove position)

end Source

end GraphSchema
