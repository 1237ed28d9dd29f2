/-
A description that is written as a comment is read back, wrapped.

Each line of a description becomes pieces, and each piece a comment line.  Reading takes the
pieces back and joins them with newlines, so what is read is the description `rewrapped`: its
long lines are broken for good.  Since wrapping is stable, the rewrapped description is
written as the same comment again.

A carriage return at the end of a line would be lost, since the end of a comment line takes it
away.  Descriptions that hold one are left out throughout.
-/
import Mathlib.Data.List.TakeWhile
import GraphSchema.Proofs.Schema.CommentLine
import GraphSchema.Proofs.Sdl.Wrapping
import GraphSchema.Proofs.Text.Lines
import GraphSchema.Sdl.Description

namespace GraphSchema.Sdl

/-- An indentation of `n` columns. -/
def spaces (n : Nat) : List Char := List.replicate n ' '

@[simp] theorem length_spaces (n : Nat) : (spaces n).length = n := List.length_replicate

/-! ### Pieces of a description -/

/-- The pieces that a line of a description is written as. -/
def linePieces (indent : Nat) (line : List Char) : List (List Char) :=
  if line.isEmpty then [[]] else wrap (lineWidth - indent) line

/-- The pieces that a description is written as, each on a line of its own. -/
def descriptionPieces (indent : Nat) (description : List Char) : List (List Char) :=
  (Text.cutAt '\n' description).flatMap (linePieces indent)

/-- A description as it is read back. -/
def rewrapped (indent : Nat) (description : List Char) : List Char :=
  ['\n'].intercalate (descriptionPieces indent description)

/-- The comment line of a piece. -/
def commentLine (indent : Nat) (piece : List Char) : List Char :=
  spaces indent ++ '#' :: if piece.isEmpty then [] else ' ' :: piece

/-- An empty line is the one piece of itself, too. -/
theorem linePieces_eq (indent : Nat) : linePieces indent = wrap (lineWidth - indent) := by
  funext line
  unfold linePieces
  split
  · next hempty =>
    rw [List.isEmpty_iff] at hempty
    subst hempty
    exact (wrap_of_length_lt (Nat.lt_add_left _ (by decide))).symm
  · rfl

theorem commentLines_eq (indent : Nat) (line : List Char) :
    commentLines (spaces indent) line = (linePieces indent line).map (commentLine indent) := by
  unfold commentLines linePieces
  split
  · rfl
  · next hline =>
    rw [length_spaces]
    refine List.map_congr_left fun piece hpiece => ?_
    have hne : piece ≠ [] := by
      refine ne_nil_of_mem_wrap ?_ hpiece
      rwa [List.isEmpty_iff] at hline
    rw [commentLine, if_neg (by rwa [List.isEmpty_iff])]

theorem comment_eq (indent : Nat) (description : List Char) :
    comment (spaces indent) description
      = (descriptionPieces indent description).flatMap fun piece =>
          commentLine indent piece ++ ['\n'] := by
  have hlines : commentLines (spaces indent)
      = fun line => (linePieces indent line).map (commentLine indent) :=
    funext (commentLines_eq indent)
  rw [comment, descriptionPieces, hlines, ← List.map_flatMap, List.flatMap_map]

/-- A piece is written as itself. -/
theorem linePieces_of_mem {indent : Nat} {line piece : List Char}
    (h : piece ∈ linePieces indent line) : linePieces indent piece = [piece] := by
  rw [linePieces_eq] at h ⊢
  exact wrap_of_mem_wrap h

/-- The pieces of a line hold characters of the line only. -/
theorem mem_of_mem_linePieces {indent : Nat} {line piece : List Char} {c : Char}
    (h : piece ∈ linePieces indent line) (hc : c ∈ piece) : c ∈ line := by
  rw [linePieces_eq] at h
  rw [← intercalate_wrap (lineWidth - indent) line]
  exact Text.mem_intercalate h hc

theorem mem_of_mem_descriptionPieces {indent : Nat} {description piece : List Char} {c : Char}
    (h : piece ∈ descriptionPieces indent description) (hc : c ∈ piece) :
    c ∈ description ∧ c ≠ '\n' := by
  obtain ⟨line, hline, hpiece⟩ := List.mem_flatMap.mp h
  have hmem := mem_of_mem_linePieces hpiece hc
  refine ⟨Text.mem_of_mem_cutAt hline hmem, fun heq => ?_⟩
  exact Text.not_mem_of_mem_cutAt hline (heq ▸ hmem)

theorem linePieces_ne_nil (indent : Nat) (line : List Char) : linePieces indent line ≠ [] := by
  rw [linePieces_eq]
  exact wrap_ne_nil (lineWidth - indent) line

theorem descriptionPieces_ne_nil (indent : Nat) (description : List Char) :
    descriptionPieces indent description ≠ [] := by
  obtain ⟨line, more, hcut⟩ : ∃ line more, Text.cutAt '\n' description = line :: more :=
    List.exists_cons_of_ne_nil (Text.cutAt_ne_nil '\n' description)
  rw [descriptionPieces, hcut, List.flatMap_cons]
  exact List.append_ne_nil_of_left_ne_nil (linePieces_ne_nil indent line) _

/-- Wrapping a description again changes nothing. -/
theorem descriptionPieces_rewrapped (indent : Nat) (description : List Char) :
    descriptionPieces indent (rewrapped indent description)
      = descriptionPieces indent description := by
  have hcut : Text.cutAt '\n' (rewrapped indent description)
      = descriptionPieces indent description := by
    refine Text.cutAt_intercalate (descriptionPieces_ne_nil indent description) ?_
    intro piece hpiece hnewline
    exact (mem_of_mem_descriptionPieces hpiece hnewline).2 rfl
  have hself : ∀ piece ∈ descriptionPieces indent description,
      linePieces indent piece = [piece] := by
    intro piece hpiece
    obtain ⟨line, _, hmem⟩ := List.mem_flatMap.mp hpiece
    exact linePieces_of_mem hmem
  rw [descriptionPieces, hcut, List.flatMap_def, List.map_congr_left hself, ← List.flatMap_def,
    List.flatMap_singleton']

/-- **What is read back is written the same.** -/
theorem comment_rewrapped (indent : Nat) (description : List Char) :
    comment (spaces indent) (rewrapped indent description)
      = comment (spaces indent) description := by
  rw [comment_eq, comment_eq, descriptionPieces_rewrapped]

/-! ### Reading comment lines -/

/-- A comment line is read as its piece. -/
theorem commentText?_commentLine (indent : Nat) {piece : List Char} (h : '\r' ∉ piece) :
    Source.commentText? (commentLine indent piece) = some piece := by
  have hspaces : ∀ c ∈ spaces indent, Text.isBlank c = true := by
    intro c hc
    obtain rfl := List.eq_of_mem_replicate hc
    decide
  unfold commentLine
  cases piece with
  | nil => exact commentText?_append hspaces h
  | cons c piece =>
    have hspace : '\r' ∉ ' ' :: c :: piece := by
      rw [List.mem_cons, not_or]
      exact ⟨by decide, h⟩
    exact commentText?_append hspaces hspace

/-- The comment lines above are those down from the first line that is none. -/
theorem leadingComments_append {pieces : List (List Char)} (indent : Nat)
    (h : ∀ piece ∈ pieces, '\r' ∉ piece) {above : List (List Char)}
    (habove : Source.leadingComments above = []) :
    Source.leadingComments (pieces.map (commentLine indent) ++ above) = pieces := by
  induction pieces with
  | nil => exact habove
  | cons piece pieces ih =>
    rw [List.forall_mem_cons] at h
    rw [List.map_cons, List.cons_append, Source.leadingComments,
      commentText?_commentLine indent h.1, ih h.2]

end GraphSchema.Sdl
