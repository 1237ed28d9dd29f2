/-
Which lines are comments.

A line is a comment if `#` is the first that stands on it behind its blanks.  A line that
begins otherwise stays none, whatever is written behind it, and so does one on which a lexeme
has begun.  How a line ends makes no difference.

So a comment behind code on the same line describes nothing, and one that stands on a line of
its own does so however far it is indented.
-/
import GraphSchema.Proofs.Syntax.Lexemes
import GraphSchema.Schema.Source

namespace GraphSchema

open Syntax

/-! ### Comments -/

/-- The text of a comment, without a space behind its `#`. -/
def withoutSpace : List Char → List Char
  | ' ' :: text => text
  | text => text

/-- A comment is read as its text. -/
theorem commentText?_append {front text : List Char} (hfront : ∀ c ∈ front, Text.isBlank c = true)
    (htext : '\r' ∉ text) :
    Source.commentText? (front ++ '#' :: text) = some (withoutSpace text) := by
  have htrim : Text.trimStart (front ++ '#' :: text) = '#' :: text := by
    unfold Text.trimStart
    rw [List.dropWhile_append_of_pos hfront, List.dropWhile_cons_of_neg (by decide)]
  have hkept : (text.reverse.dropWhile (· == '\r')).reverse = text := by
    rw [List.dropWhile_eq_self_iff.mpr, List.reverse_reverse]
    intro hlength hreturn
    refine htext ?_
    rw [← eq_of_beq hreturn]
    exact List.mem_reverse.mp (List.getElem_mem hlength)
  unfold Source.commentText?
  rw [htrim]
  simp only [hkept]
  split
  · rfl
  · next hspace => rw [withoutSpace.eq_2 text hspace]

/-! ### Lines that are none

The search for comments goes up from the line above an element and stops at the first line of this
kind.
-/

/-- A line that is no comment: what it begins with, behind its blanks, is no `#`. -/
def NoRemark (line : List Char) : Prop := (Text.trimStart line).head? ≠ some '#'

instance (line : List Char) : Decidable (NoRemark line) :=
  inferInstanceAs (Decidable ((Text.trimStart line).head? ≠ some '#'))

theorem commentText?_of_noRemark {line : List Char} (h : NoRemark line) :
    Source.commentText? line = none := by
  unfold NoRemark at h
  unfold Source.commentText?
  cases hline : Text.trimStart line with
  | nil => rfl
  | cons c rest =>
    rw [hline] at h
    have hc : c ≠ '#' := fun heq => h (congrArg some heq)
    simp [hc]

theorem commentText?_ne_none {line rest : List Char} (h : Text.trimStart line = '#' :: rest) :
    Source.commentText? line ≠ none := by
  unfold Source.commentText?
  rw [h]
  split
  · dsimp only
    split <;> exact Option.some_ne_none _
  · next hne => exact absurd rfl (hne rest)

/-- No comment stands above a line if the nearest line above it is none. -/
theorem leadingComments_of_noRemark {above : List (List Char)}
    (h : ∀ line ∈ above.head?, NoRemark line) : Source.leadingComments above = [] := by
  cases above with
  | nil => rfl
  | cons line above => rw [Source.leadingComments, commentText?_of_noRemark (h line rfl)]

/-! ### Lines of code -/

/-- The line holds more than blanks and commas, and is no comment. -/
structure IsCode (line : List Char) : Prop where
  solid : ∃ c ∈ line, (Text.isBlank c || c == ',') = false
  noComment : Source.commentText? line = none

theorem trimStart_ne_nil {line : List Char} {c : Char} (hc : c ∈ line)
    (hsolid : Text.isBlank c = false) : Text.trimStart line ≠ [] := by
  intro hnil
  have hblank := List.dropWhile_eq_nil_iff.mp hnil c hc
  rw [hsolid] at hblank
  cases hblank

/-- A line of code stays one, whatever is written behind it. -/
theorem IsCode.append {line : List Char} (h : IsCode line) (more : List Char) :
    IsCode (line ++ more) := by
  obtain ⟨c, hc, hsolid⟩ := h.solid
  refine ⟨⟨c, List.mem_append_left _ hc, hsolid⟩, ?_⟩
  obtain ⟨d, rest, htrim⟩ := List.exists_cons_of_ne_nil
    (trimStart_ne_nil hc (Bool.or_eq_false_iff.mp hsolid).1)
  have hd : d ≠ '#' := by
    rintro rfl
    exact commentText?_ne_none htrim h.noComment
  refine commentText?_of_noRemark ?_
  unfold NoRemark
  unfold Text.trimStart at htrim ⊢
  rw [List.dropWhile_append, htrim]
  exact fun heq => hd (Option.some.inj heq)

theorem isBlank_of_beginsLexeme {c : Char} (h : beginsLexeme c = true) :
    (Text.isBlank c || c == ',') = false := by
  simp only [beginsLexeme, Bool.and_eq_true, decide_eq_true_eq, bne_iff_ne] at h
  obtain ⟨⟨⟨hlow, hhigh⟩, -⟩, hcomma⟩ := h
  rw [Bool.or_eq_false_iff, beq_eq_false_iff_ne]
  refine ⟨?_, hcomma⟩
  -- every blank is a control character, the space or beyond ASCII
  have houtside : ∀ range ∈ Text.blankRanges, range.2 ≤ 0x20 ∨ 0x85 ≤ range.1 := by decide
  rw [← Bool.not_eq_true]
  intro hblank
  simp only [Text.isBlank, Text.CodeRanges.holds, List.any_eq_true, Bool.and_eq_true,
    decide_eq_true_eq] at hblank
  obtain ⟨range, hmem, hinside⟩ := hblank
  have hrange := houtside range hmem
  omega

theorem inLine_of_beginsLexeme {c : Char} (h : beginsLexeme c = true) : Text.InLine c := by
  constructor
  · rintro rfl
    exact absurd h (by decide)
  · rintro rfl
    exact absurd h (by decide)

/-- A line is code from its first lexeme on. -/
theorem isCode_append {front : List Char} (hfront : '#' ∉ front) {c : Char}
    (hc : beginsLexeme c = true) (rest : List Char) : IsCode (front ++ c :: rest) := by
  have hsolid := isBlank_of_beginsLexeme hc
  have hblank : Text.isBlank c = false := (Bool.or_eq_false_iff.mp hsolid).1
  refine ⟨⟨c, by simp, hsolid⟩, commentText?_of_noRemark ?_⟩
  unfold NoRemark Text.trimStart
  rw [List.dropWhile_append]
  cases hdrop : front.dropWhile Text.isBlank with
  | nil =>
    have hcons : (c :: rest).dropWhile Text.isBlank = c :: rest :=
      List.dropWhile_cons_of_neg (by rw [hblank]; exact Bool.false_ne_true)
    show ((c :: rest).dropWhile Text.isBlank).head? ≠ _
    rw [hcons]
    intro heq
    obtain rfl := Option.some.inj heq
    exact absurd hc (by decide)
  | cons d more =>
    intro heq
    obtain rfl := Option.some.inj heq
    refine hfront ((List.dropWhile_sublist Text.isBlank).mem ?_)
    rw [hdrop]
    exact List.mem_cons_self

/-! ### The ends of lines -/

/-- A comment line reads the same whichever way it ends. -/
theorem commentText?_dropReturn (line : List Char) :
    Source.commentText? (Text.dropReturn line) = Source.commentText? line := by
  rcases Text.dropReturn_or line with h | h
  · rw [h]
  · generalize Text.dropReturn line = bare at h
    subst h
    cases hbare : Text.trimStart bare with
    | nil =>
      have hblank : Text.trimStart (bare ++ ['\r']) = [] := by
        unfold Text.trimStart at hbare ⊢
        rw [List.dropWhile_append, hbare]
        rfl
      unfold Source.commentText?
      rw [hbare, hblank]
    | cons c comment =>
      have htrim : Text.trimStart (bare ++ ['\r']) = c :: (comment ++ ['\r']) := by
        unfold Text.trimStart at hbare ⊢
        rw [List.dropWhile_append, hbare]
        rfl
      unfold Source.commentText?
      rw [hbare, htrim]
      by_cases hc : c = '#'
      · subst hc
        have hstrip : ((comment ++ ['\r']).reverse.dropWhile (· == '\r')).reverse
            = (comment.reverse.dropWhile (· == '\r')).reverse := by
          rw [List.reverse_append]
          rfl
        simp only [hstrip]
      · simp [hc]

theorem leadingComments_dropReturn (above : List (List Char)) :
    Source.leadingComments (above.map Text.dropReturn) = Source.leadingComments above := by
  induction above with
  | nil => rfl
  | cons line above ih =>
    rw [List.map_cons, Source.leadingComments, Source.leadingComments, commentText?_dropReturn, ih]

end GraphSchema
