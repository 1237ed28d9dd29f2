/-
Wrapping of long lines.

A line that is longer than its width allows is cut at spaces.  The cuts are chosen so that
a piece begins with a chunk: the longest run of characters of an allowed length that ends
at a space or at the end of the line.  Text that begins no chunk stays with the piece in
front of it, so that nothing but the spaces at the cuts is lost.
-/
namespace GraphSchema.Sdl

/-- The least length of a chunk. -/
def leastChunk : Nat := 15

/-- By how much a line may exceed its width without being wrapped. -/
def tolerance : Nat := 5

/-- By how much a chunk falls short of the width. -/
def chunkMargin : Nat := 40

/-- Whether a text is empty or begins with a space. -/
def endsChunk : List Char → Bool
  | [] => true
  | c :: _ => c == ' '

/-- The length of the longest chunk that a text begins with, of at most `most` characters. -/
def chunkLength? (most : Nat) (s : List Char) : Option Nat :=
  (List.range (min most s.length + 1)).reverse.find? fun n =>
    leastChunk ≤ n && endsChunk (s.drop n)

theorem leastChunk_le_of_chunkLength? {most n : Nat} {s : List Char}
    (h : chunkLength? most s = some n) : leastChunk ≤ n := by
  have := List.find?_some h
  simp only [Bool.and_eq_true, decide_eq_true_eq] at this
  exact this.1

/-- Cuts what follows a chunk at every space that a chunk follows: the text in front of the
first cut and the pieces behind the cuts. -/
def cutPieces (most : Nat) (s : List Char) : List Char × List (List Char) :=
  match s with
  | [] => ([], [])
  | c :: rest =>
    match if c = ' ' then chunkLength? most rest else none with
    | some n =>
      let (text, pieces) := cutPieces most (rest.drop n)
      ([], (rest.take n ++ text) :: pieces)
    | none =>
      let (text, pieces) := cutPieces most rest
      (c :: text, pieces)
termination_by s.length
decreasing_by
  · simp only [List.length_drop, List.length_cons]
    omega
  · simp

/-- The pieces of a line from its first chunk on, which begins at a space. -/
def piecesFromSpace (most : Nat) : List Char → List Char × List (List Char)
  | [] => ([], [])
  | c :: rest =>
    match if c = ' ' then chunkLength? most rest else none with
    | some n =>
      let (text, pieces) := cutPieces most (rest.drop n)
      (c :: rest.take n ++ text, pieces)
    | none =>
      let (text, pieces) := piecesFromSpace most rest
      (c :: text, pieces)

/-- The pieces of a line; its first chunk may also be what it begins with. -/
def pieces (most : Nat) (line : List Char) : List Char × List (List Char) :=
  let spaced := match line with
    | ' ' :: rest => (chunkLength? most rest).isSome
    | _ => false
  match if spaced then none else chunkLength? most line with
  | some n =>
    let (text, pieces) := cutPieces most (line.drop n)
    (line.take n ++ text, pieces)
  | none => piecesFromSpace most line

/-- Wraps a line to a width. -/
def wrap (width : Nat) (line : List Char) : List (List Char) :=
  if line.length < width + tolerance ∨ width < chunkMargin + leastChunk then
    [line]
  else
    let (first, others) := pieces (width - chunkMargin) line
    first :: others

end GraphSchema.Sdl
