/-
Cutting a text undoes joining.

Pieces in which the separator does not occur are found again after they are joined with it,
and a line is found again in a text of several lines, without the carriage return that
belongs to its end.

Comments that describe elements are found among the lines of the whole text, so what is
written as a comment has to come out of `lines` again.  Paths are cut at their slashes, and
the same lemmas serve there.
-/
import GraphSchema.Text.Lines

namespace GraphSchema.Text

/-- A character of a piece is one of the joined text. -/
theorem mem_intercalate {separator c : Char} {pieces : List (List Char)} {piece : List Char}
    (h : piece ∈ pieces) (hc : c ∈ piece) : c ∈ [separator].intercalate pieces := by
  induction pieces with
  | nil => cases h
  | cons first pieces ih =>
    cases pieces with
    | nil =>
      obtain rfl := List.mem_singleton.mp h
      rwa [List.intercalate_singleton]
    | cons next more =>
      rw [List.intercalate_cons_cons, List.mem_append, List.mem_append]
      rcases List.mem_cons.mp h with rfl | h
      · exact Or.inl (Or.inl hc)
      · exact Or.inr (ih h)

/-- A joined text is its first piece, and each other one behind a separator. -/
theorem intercalate_cons (separator first : List Char) (others : List (List Char)) :
    separator.intercalate (first :: others) = first ++ others.flatMap (separator ++ ·) := by
  induction others generalizing first with
  | nil => simp
  | cons second others ih =>
    rw [List.intercalate_cons_cons, ih, List.flatMap_cons]
    simp only [List.append_assoc]

theorem intercalate_append {separator : List Char} {pieces more : List (List Char)}
    (h : pieces ≠ []) (hmore : more ≠ []) :
    separator.intercalate (pieces ++ more)
      = separator.intercalate pieces ++ (separator ++ separator.intercalate more) := by
  obtain ⟨first, others, rfl⟩ := List.exists_cons_of_ne_nil h
  obtain ⟨next, rest, rfl⟩ := List.exists_cons_of_ne_nil hmore
  rw [List.cons_append, intercalate_cons, intercalate_cons, intercalate_cons, List.flatMap_append,
    List.flatMap_cons]
  simp only [List.append_assoc]

/-- Joining what was joined before is joining all of it. -/
theorem intercalate_flatMap {separator : List Char} {pieces : List Char → List (List Char)}
    (h : ∀ line, pieces line ≠ []) (lines : List (List Char)) :
    separator.intercalate (lines.flatMap pieces)
      = separator.intercalate (lines.map fun line => separator.intercalate (pieces line)) := by
  induction lines with
  | nil => rfl
  | cons line lines ih =>
    cases lines with
    | nil => simp
    | cons next lines =>
      have hnext : (next :: lines).flatMap pieces ≠ [] :=
        List.append_ne_nil_of_left_ne_nil (h next) _
      rw [List.flatMap_cons, intercalate_append (h line) hnext, ih]
      simp only [List.map_cons, List.intercalate_cons_cons, List.append_assoc]

/-! ### Cutting at a separator -/

theorem cutAt_cons_of_ne {separator c : Char} (h : c ≠ separator) {rest piece : List Char}
    {more : List (List Char)} (hcut : cutAt separator rest = piece :: more) :
    cutAt separator (c :: rest) = (c :: piece) :: more := by
  rw [cutAt, if_neg h, hcut]

/-- A text without the separator is one piece. -/
theorem cutAt_of_not_mem {separator : Char} {s : List Char} (h : separator ∉ s) :
    cutAt separator s = [s] := by
  induction s with
  | nil => rfl
  | cons c rest ih =>
    rw [List.mem_cons, not_or] at h
    exact cutAt_cons_of_ne (Ne.symm h.1) (ih h.2)

/-- A piece ends at the first separator behind it. -/
theorem cutAt_append {separator : Char} {piece : List Char} (h : separator ∉ piece)
    (rest : List Char) :
    cutAt separator (piece ++ separator :: rest) = piece :: cutAt separator rest := by
  induction piece with
  | nil =>
    show cutAt separator (separator :: rest) = _
    rw [cutAt, if_pos rfl]
  | cons c piece ih =>
    rw [List.mem_cons, not_or] at h
    exact cutAt_cons_of_ne (Ne.symm h.1) (ih h.2)

/-- A text and a further one behind a separator are cut each on its own. -/
theorem cutAt_append_cons (separator : Char) (s rest : List Char) :
    cutAt separator (s ++ separator :: rest) = cutAt separator s ++ cutAt separator rest := by
  induction s with
  | nil => exact cutAt_append List.not_mem_nil rest
  | cons c s ih =>
    obtain ⟨piece, more, hcut⟩ : ∃ piece more, cutAt separator s = piece :: more :=
      List.exists_cons_of_ne_nil (cutAt_ne_nil separator s)
    by_cases hc : c = separator
    · rw [List.cons_append, cutAt, if_pos hc, ih, cutAt, if_pos hc, List.cons_append]
    · rw [hcut, List.cons_append] at ih
      rw [List.cons_append, cutAt_cons_of_ne hc ih, cutAt_cons_of_ne hc hcut, List.cons_append]

theorem cutAt_intercalate {separator : Char} {pieces : List (List Char)} (hne : pieces ≠ [])
    (hfree : ∀ piece ∈ pieces, separator ∉ piece) :
    cutAt separator ([separator].intercalate pieces) = pieces := by
  induction pieces with
  | nil => exact absurd rfl hne
  | cons piece pieces ih =>
    rw [List.forall_mem_cons] at hfree
    cases pieces with
    | nil =>
      rw [List.intercalate_singleton]
      exact cutAt_of_not_mem hfree.1
    | cons next more =>
      rw [List.intercalate_cons_cons, List.append_assoc, List.singleton_append,
        cutAt_append hfree.1, ih (List.cons_ne_nil _ _) hfree.2]

/-- No piece holds the separator. -/
theorem not_mem_of_mem_cutAt {separator : Char} {s piece : List Char}
    (h : piece ∈ cutAt separator s) : separator ∉ piece := by
  induction s generalizing piece with
  | nil =>
    obtain rfl := List.mem_singleton.mp h
    exact List.not_mem_nil
  | cons c rest ih =>
    obtain ⟨first, more, hcut⟩ : ∃ first more, cutAt separator rest = first :: more :=
      List.exists_cons_of_ne_nil (cutAt_ne_nil separator rest)
    by_cases hc : c = separator
    · rw [cutAt, if_pos hc] at h
      rcases List.mem_cons.mp h with rfl | h
      · exact List.not_mem_nil
      · exact ih h
    · rw [cutAt_cons_of_ne hc hcut] at h
      rw [hcut] at ih
      rcases List.mem_cons.mp h with rfl | h
      · rw [List.mem_cons, not_or]
        exact ⟨Ne.symm hc, ih List.mem_cons_self⟩
      · exact ih (List.mem_cons_of_mem _ h)

/-- A character of a piece is one of the text. -/
theorem mem_of_mem_cutAt {separator c : Char} {s piece : List Char}
    (h : piece ∈ cutAt separator s) (hc : c ∈ piece) : c ∈ s := by
  rw [← intercalate_cutAt separator s]
  exact mem_intercalate h hc

/-- A piece is no longer than the text. -/
theorem length_le_of_mem_cutAt {separator : Char} {s piece : List Char}
    (h : piece ∈ cutAt separator s) : piece.length ≤ s.length := by
  induction s generalizing piece with
  | nil =>
    obtain rfl := List.mem_singleton.mp h
    exact Nat.le_refl _
  | cons c rest ih =>
    obtain ⟨first, more, hcut⟩ : ∃ first more, cutAt separator rest = first :: more :=
      List.exists_cons_of_ne_nil (cutAt_ne_nil separator rest)
    rw [hcut] at ih
    by_cases hc : c = separator
    · rw [cutAt, if_pos hc, hcut] at h
      rcases List.mem_cons.mp h with rfl | h
      · exact Nat.zero_le _
      · exact Nat.le_succ_of_le (ih h)
    · rw [cutAt_cons_of_ne hc hcut] at h
      rcases List.mem_cons.mp h with rfl | h
      · exact Nat.succ_le_succ (ih List.mem_cons_self)
      · exact Nat.le_succ_of_le (ih (List.mem_cons_of_mem _ h))

/-! ### Lines

A line ends at a newline, and a carriage return in front of that belongs to the end.  So a line
that is joined and cut again loses at most that one character.
-/

/-- A character that is in a line and does not end it. -/
def InLine (c : Char) : Prop := c ≠ '\n' ∧ c ≠ '\r'

instance (c : Char) : Decidable (InLine c) :=
  inferInstanceAs (Decidable (c ≠ '\n' ∧ c ≠ '\r'))

/-- A line without the carriage return that belongs to its end. -/
def dropReturn : List Char → List Char
  | [] => []
  | ['\r'] => []
  | c :: rest => c :: dropReturn rest

theorem dropReturn_or (line : List Char) :
    dropReturn line = line ∨ line = dropReturn line ++ ['\r'] := by
  fun_induction dropReturn line with
  | case1 => exact Or.inl rfl
  | case2 => exact Or.inr rfl
  | case3 c rest _ ih =>
    rcases ih with ih | ih
    · exact Or.inl (by rw [ih])
    · exact Or.inr (by rw [List.cons_append, ← ih])

theorem lines_cons {c : Char} {rest : List Char} (hnewline : c ≠ '\n')
    (hreturn : c = '\r' → rest.head? ≠ some '\n') :
    lines (c :: rest) = match lines rest with
      | [] => [[c]]
      | line :: more => (c :: line) :: more := by
  refine lines.eq_4 c rest hnewline ?_
  intro more hc hrest
  rw [hrest] at hreturn
  exact hreturn hc rfl

/-- A line ends at the first newline behind it. -/
theorem lines_append {line : List Char} (h : '\n' ∉ line) (rest : List Char) :
    lines (line ++ '\n' :: rest) = dropReturn line :: lines rest := by
  fun_induction dropReturn line with
  | case1 => rfl
  | case2 => rfl
  | case3 c line hlast ih =>
    rw [List.mem_cons, not_or] at h
    have hreturn : c = '\r' → (line ++ '\n' :: rest).head? ≠ some '\n' := by
      intro hc
      cases line with
      | nil => exact absurd rfl (hlast hc)
      | cons d line =>
        intro hd
        exact h.2 (Option.some.inj hd ▸ List.mem_cons_self)
    rw [List.cons_append, lines_cons (Ne.symm h.1) hreturn, ih h.2]

/-- What a text begins with, up to a character that ends no line, begins its first line. -/
theorem lines_append_of_inLine {line : List Char} (h : '\n' ∉ line) {c : Char}
    (hc : InLine c) (rest : List Char) :
    ∃ tail more, lines (line ++ c :: rest) = (line ++ c :: tail) :: more := by
  induction line with
  | nil =>
    rw [List.nil_append, lines_cons hc.1 fun hreturn => absurd hreturn hc.2]
    cases lines rest with
    | nil => exact ⟨[], [], rfl⟩
    | cons line more => exact ⟨line, more, rfl⟩
  | cons d line ih =>
    rw [List.mem_cons, not_or] at h
    have hreturn : d = '\r' → (line ++ c :: rest).head? ≠ some '\n' := by
      intro _
      cases line with
      | nil => exact fun hnewline => hc.1 (Option.some.inj hnewline)
      | cons e line => exact fun hnewline => h.2 (Option.some.inj hnewline ▸ List.mem_cons_self)
    obtain ⟨tail, more, hlines⟩ := ih h.2
    exact ⟨tail, more, by rw [List.cons_append, lines_cons (Ne.symm h.1) hreturn, hlines]; rfl⟩

end GraphSchema.Text
