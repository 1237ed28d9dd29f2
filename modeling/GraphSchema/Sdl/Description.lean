/-
Descriptions as comments.

Each line of a description becomes comment lines at some indentation, wrapped to fit into
120 columns.  Inside of a block, a described element is set off by a blank line from the
one in front of it.
-/
import GraphSchema.Sdl.Wrapping
import GraphSchema.Text.Lines

namespace GraphSchema.Sdl

/-- The columns that a comment line should not exceed. -/
def lineWidth : Nat := 120

/-- The comment lines for one line of a description. -/
def commentLines (indent line : List Char) : List (List Char) :=
  if line.isEmpty then
    [indent ++ ['#']]
  else
    (wrap (lineWidth - indent.length) line).map fun piece => indent ++ '#' :: ' ' :: piece

/-- The comment for a description. -/
def comment (indent description : List Char) : List Char :=
  ((Text.cutAt '\n' description).flatMap (commentLines indent)).flatMap (· ++ ['\n'])

/-- What is put in front of an element for its description. -/
def descriptionText (description : Option String) (indent : String) (firstInBlock : Bool) :
    String :=
  match description with
  | none => ""
  | some description =>
    (if indent.isEmpty || firstInBlock then "" else "\n")
      ++ String.ofList (comment indent.toList description.toList)

end GraphSchema.Sdl
