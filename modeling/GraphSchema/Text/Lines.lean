/-
Lines of a text.

There are two ways to cut a text at its newlines, and both are needed.  `lines` is how
a source is numbered: a line ends at `\n` or at `\r\n`, and a newline at the very end
begins no further line.  `cutAt` keeps every piece, so that joining the pieces with
the separator gives the text back.
-/
namespace GraphSchema.Text

/-- The lines of a text, without their ends. -/
def lines : List Char → List (List Char)
  | [] => []
  | '\n' :: rest => [] :: lines rest
  | '\r' :: '\n' :: rest => [] :: lines rest
  | c :: rest =>
    match lines rest with
    | [] => [[c]]
    | line :: more => (c :: line) :: more

/-- The pieces of a text between the occurrences of a separator; there is always one. -/
def cutAt (separator : Char) : List Char → List (List Char)
  | [] => [[]]
  | c :: rest =>
    if c = separator then
      [] :: cutAt separator rest
    else
      match cutAt separator rest with
      | [] => [[c]]
      | piece :: more => (c :: piece) :: more

theorem cutAt_ne_nil (separator : Char) (s : List Char) : cutAt separator s ≠ [] := by
  cases s with
  | nil => simp [cutAt]
  | cons c rest =>
    simp only [cutAt]
    split
    · simp
    · split <;> simp

/-- Joining the pieces with the separator gives the text back. -/
theorem intercalate_cutAt (separator : Char) (s : List Char) :
    [separator].intercalate (cutAt separator s) = s := by
  induction s with
  | nil => rfl
  | cons c rest ih =>
    simp only [cutAt]
    obtain ⟨piece, more, hcut⟩ : ∃ piece more, cutAt separator rest = piece :: more :=
      List.exists_cons_of_ne_nil (cutAt_ne_nil separator rest)
    rw [hcut] at ih ⊢
    split
    · next h => subst h; simpa [List.intercalate] using ih
    · cases more <;> simpa [List.intercalate] using ih

end GraphSchema.Text
