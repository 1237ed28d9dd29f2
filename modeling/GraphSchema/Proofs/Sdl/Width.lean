/-
How wide the pieces of a line get.

A chunk ends at a space, and the lengths that it may have leave a window for that space.  If no
word is longer than the window, a chunk is found wherever there is room for the least one, so
that a line is cut again right behind each chunk.  Only behind the last chunk something is left:
less than a space and a least chunk.

Hence the pieces are bounded by the width, and so are the comment lines of a description.
-/
import GraphSchema.Proofs.Sdl.Wrapping
import GraphSchema.Sdl.Description

namespace GraphSchema.Sdl

variable {most longest : Nat}

/-! ### Words -/

/-- No word of the text is longer than that: what stands between its spaces. -/
def WordsWithin (longest : Nat) (s : List Char) : Prop :=
  ∀ word ∈ Text.cutAt ' ' s, word.length ≤ longest

instance (s : List Char) : Decidable (WordsWithin longest s) :=
  inferInstanceAs (Decidable (∀ word ∈ Text.cutAt ' ' s, word.length ≤ longest))

theorem WordsWithin.tail {c : Char} {s : List Char} (h : WordsWithin longest (c :: s)) :
    WordsWithin longest s := by
  obtain ⟨first, more, hcut⟩ : ∃ first more, Text.cutAt ' ' s = first :: more :=
    List.exists_cons_of_ne_nil (Text.cutAt_ne_nil ' ' s)
  unfold WordsWithin at h ⊢
  by_cases hc : c = ' '
  · rw [Text.cutAt, if_pos hc, List.forall_mem_cons] at h
    exact h.2
  · rw [Text.cutAt_cons_of_ne hc hcut, List.forall_mem_cons, List.length_cons] at h
    rw [hcut, List.forall_mem_cons]
    exact ⟨Nat.le_of_succ_le h.1, h.2⟩

theorem WordsWithin.drop {s : List Char} (h : WordsWithin longest s) (n : Nat) :
    WordsWithin longest (s.drop n) := by
  induction n generalizing s with
  | zero => exact h
  | succ n ih =>
    cases s with
    | nil => exact h
    | cons c rest => exact ih h.tail

/-- The first word is where a chunk could end. -/
theorem WordsWithin.exists_endsChunk {s : List Char} (h : WordsWithin longest s) :
    ∃ n, n ≤ longest ∧ n ≤ s.length ∧ endsChunk (s.drop n) = true := by
  obtain ⟨word, more, hcut⟩ : ∃ word more, Text.cutAt ' ' s = word :: more :=
    List.exists_cons_of_ne_nil (Text.cutAt_ne_nil ' ' s)
  have hs : word ++ spaced more = s := by
    rw [← intercalate_cons_spaced, ← hcut, Text.intercalate_cutAt]
  refine ⟨word.length, h word (hcut ▸ List.mem_cons_self), ?_, ?_⟩
  · rw [← hs, List.length_append]
    exact Nat.le_add_right _ _
  · rw [← hs, List.drop_left]
    exact endsChunk_spaced more

/-- **A chunk is found wherever there is room for the least one**, if the window for its end
takes the longest word. -/
theorem WordsWithin.exists_chunkLength? (hroom : leastChunk + longest ≤ most) {s : List Char}
    (h : WordsWithin longest s) (hlength : leastChunk ≤ s.length) :
    ∃ n, chunkLength? most s = some n := by
  obtain ⟨n, hn, hdrop, hends⟩ := (h.drop leastChunk).exists_endsChunk
  rw [List.drop_drop] at hends
  rw [List.length_drop] at hdrop
  have hchunk : IsChunk most s (leastChunk + n) :=
    ⟨Nat.le_add_right _ _, by omega, by omega, hends⟩
  cases hfound : chunkLength? most s with
  | none => exact absurd hchunk (chunkLength?_eq_none_iff.mp hfound _)
  | some m => exact ⟨m, rfl⟩

/-! ### Cutting behind a chunk

The cut leaves a space and then a remainder that is again without long words, so the argument
repeats.
-/

/-- A text that is no longer than a least chunk is not cut. -/
theorem uncut_of_length_le {s : List Char} (h : s.length ≤ leastChunk) : Uncut most s := by
  have hle := mul_length_cutPieces_le most s
  have hnil : (cutPieces most s).2 = [] := by
    rw [← List.length_eq_zero_iff]
    unfold leastChunk at h hle
    omega
  have happend := cutPieces_append most s
  rw [hnil] at happend
  exact Prod.ext ((List.append_nil _).symm.trans happend) hnil

/-- A longer one, at a space, is cut at once. -/
theorem exists_cutHere (hroom : leastChunk + longest ≤ most) {s : List Char}
    (hwords : WordsWithin longest s) (hends : endsChunk s = true) (hlong : leastChunk < s.length) :
    ∃ rest n, s = ' ' :: rest ∧ cutHere most ' ' rest = some n := by
  cases s with
  | nil => cases hlong
  | cons c rest =>
    obtain rfl : c = ' ' := eq_of_beq hends
    obtain ⟨n, hn⟩ := hwords.tail.exists_chunkLength? hroom (Nat.le_of_lt_succ hlong)
    exact ⟨rest, n, rfl, (if_pos rfl).trans hn⟩

/-- Behind a chunk, no more text is left than a least chunk has, and each piece is a chunk with
such a rest at most. -/
theorem cutPieces_within (hroom : leastChunk + longest ≤ most) {s : List Char}
    (hwords : WordsWithin longest s) (hends : endsChunk s = true) :
    (cutPieces most s).1.length ≤ leastChunk ∧
      ∀ p ∈ (cutPieces most s).2, p.length ≤ most + leastChunk := by
  induction hlength : s.length using Nat.strongRecOn generalizing s with
  | ind length ih =>
    by_cases hlong : leastChunk < s.length
    · obtain ⟨rest, n, rfl, hcut⟩ := exists_cutHere hroom hwords hends hlong
      have hchunk : IsChunk most rest n := isChunk_of_chunkLength? ((if_pos rfl).symm.trans hcut)
      have hshorter : (rest.drop n).length < length := by
        rw [← hlength, List.length_drop, List.length_cons]
        omega
      obtain ⟨htext, hpieces⟩ := ih _ hshorter (hwords.tail.drop n) hchunk.ends rfl
      rw [cutPieces_cons_of_some hcut, List.forall_mem_cons, List.length_append,
        List.length_take_of_le hchunk.length]
      exact ⟨Nat.zero_le _, Nat.add_le_add hchunk.most htext, hpieces⟩
    · have huncut : Uncut most s := uncut_of_length_le (Nat.le_of_not_lt hlong)
      rw [huncut]
      exact ⟨Nat.le_of_not_lt hlong, nofun⟩

/-- A line that is long enough for a second chunk is cut behind its first. -/
theorem pieces_within (hroom : leastChunk + longest ≤ most) {line : List Char}
    (hwords : WordsWithin longest line) (hlong : most + leastChunk + 1 < line.length) :
    (pieces most line).2 ≠ [] ∧
      ∀ p ∈ (pieces most line).1 :: (pieces most line).2, p.length ≤ most + leastChunk := by
  -- What stands behind the first chunk is cut at once, so that nothing follows that chunk.
  have hbehind : ∀ {s : List Char} {n : Nat}, WordsWithin longest s → IsChunk most s n →
      most + leastChunk < s.length → (cutPieces most (s.drop n)).1 = [] ∧
        (cutPieces most (s.drop n)).2 ≠ [] ∧
        ∀ p ∈ (cutPieces most (s.drop n)).2, p.length ≤ most + leastChunk := by
    intro s n hs hchunk hlength
    have hrest : leastChunk < (s.drop n).length := by
      have := hchunk.most
      rw [List.length_drop]
      omega
    obtain ⟨rest, m, heq, hcut⟩ := exists_cutHere hroom (hs.drop n) hchunk.ends hrest
    have hpieces := (cutPieces_within hroom (hs.drop n) hchunk.ends).2
    rw [heq, cutPieces_cons_of_some hcut] at hpieces ⊢
    exact ⟨rfl, List.cons_ne_nil _ _, hpieces⟩
  cases hspaced : beginsSpaced most line with
  | true =>
    rw [pieces_of_beginsSpaced hspaced]
    unfold beginsSpaced at hspaced
    split at hspaced
    · next rest =>
      obtain ⟨n, hn⟩ := Option.isSome_iff_exists.mp hspaced
      have hchunk := isChunk_of_chunkLength? hn
      obtain ⟨htext, hne, hpieces⟩ := hbehind hwords.tail hchunk (Nat.lt_of_succ_lt_succ hlong)
      rw [piecesFromSpace_cons_of_some ((if_pos rfl).trans hn), htext, List.forall_mem_cons,
        List.append_nil, List.length_cons, List.length_take_of_le hchunk.length]
      refine ⟨hne, ?_, hpieces⟩
      have := hchunk.most
      unfold leastChunk
      omega
    · cases hspaced
  | false =>
    obtain ⟨n, hn⟩ := hwords.exists_chunkLength? hroom (by omega : leastChunk ≤ line.length)
    have hchunk := isChunk_of_chunkLength? hn
    obtain ⟨htext, hne, hpieces⟩ := hbehind hwords hchunk (Nat.lt_of_succ_lt hlong)
    rw [pieces_of_chunkLength? hspaced hn, htext, List.forall_mem_cons, List.append_nil,
      List.length_take_of_le hchunk.length]
    exact ⟨hne, Nat.le_add_right_of_le hchunk.most, hpieces⟩

/-! ### Wrapping -/

theorem wrap_of_length_le {width : Nat} (hwidth : chunkMargin + leastChunk ≤ width)
    {line : List Char} (hlong : width + tolerance ≤ line.length) :
    wrap width line
      = (pieces (width - chunkMargin) line).1 :: (pieces (width - chunkMargin) line).2 := by
  unfold wrap
  rw [if_neg (not_or.mpr ⟨Nat.not_lt.mpr hlong, Nat.not_lt.mpr hwidth⟩)]

/-- A line that is wrapped becomes several pieces, each of them a chunk with a rest at most. -/
theorem wrap_within {width : Nat} (hwidth : 55 ≤ width) {line : List Char}
    (hwords : WordsWithin (width - 55) line) (hlong : width + 5 ≤ line.length) :
    2 ≤ (wrap width line).length ∧ ∀ p ∈ wrap width line, p.length ≤ width - 25 := by
  have hroom : leastChunk + (width - 55) ≤ width - chunkMargin := by
    unfold leastChunk chunkMargin
    omega
  have hsecond : width - chunkMargin + leastChunk + 1 < line.length := by
    unfold leastChunk chunkMargin
    omega
  obtain ⟨hne, hpieces⟩ := pieces_within hroom hwords hsecond
  have hbound : width - chunkMargin + leastChunk = width - 25 := by
    unfold leastChunk chunkMargin
    omega
  rw [hbound] at hpieces
  rw [wrap_of_length_le hwidth hlong]
  exact ⟨Nat.succ_le_succ (List.length_pos_iff.mpr hne), hpieces⟩

/-- No piece exceeds the width by more than a line may that is not wrapped. -/
theorem length_le_of_mem_wrap {width : Nat} (hwidth : 55 ≤ width) {line : List Char}
    (hwords : WordsWithin (width - 55) line) {p : List Char} (hp : p ∈ wrap width line) :
    p.length ≤ width + 4 := by
  by_cases hlong : width + 5 ≤ line.length
  · have := (wrap_within hwidth hwords hlong).2 p hp
    omega
  · have hshort : line.length < width + tolerance := Nat.lt_of_not_le hlong
    rw [wrap_of_length_lt hshort] at hp
    obtain rfl := List.mem_singleton.mp hp
    exact Nat.le_of_lt_succ hshort

/-! ### Comment lines

The marks in front of a comment take up what the width leaves for them.
-/

/-- The bound of the pieces, behind the indentation and the `# ` of a comment line. -/
theorem length_le_of_mem_commentLines {indent line : List Char} (hindent : indent.length ≤ 65)
    (hwords : WordsWithin (65 - indent.length) line) {row : List Char}
    (hrow : row ∈ commentLines indent line) : row.length ≤ 126 := by
  unfold commentLines at hrow
  split at hrow
  · obtain rfl := List.mem_singleton.mp hrow
    rw [List.length_append, List.length_singleton]
    omega
  · obtain ⟨piece, hpiece, rfl⟩ := List.mem_map.mp hrow
    have hwidth : 55 ≤ lineWidth - indent.length := by
      unfold lineWidth
      omega
    have hlongest : 65 - indent.length = lineWidth - indent.length - 55 := by
      unfold lineWidth
      omega
    rw [hlongest] at hwords
    have hlength := length_le_of_mem_wrap hwidth hwords hpiece
    unfold lineWidth at hlength
    rw [List.length_append, List.length_cons, List.length_cons]
    omega

/-- The lines of a text are no longer than the rows that it is made of, each with its newline. -/
theorem length_le_of_mem_cutAt_rows {bound : Nat} {rows : List (List Char)}
    (hrows : ∀ row ∈ rows, row.length ≤ bound) {line : List Char}
    (hline : line ∈ Text.cutAt '\n' (rows.flatMap (· ++ ['\n']))) : line.length ≤ bound := by
  induction rows with
  | nil =>
    obtain rfl := List.mem_singleton.mp hline
    exact Nat.zero_le _
  | cons row rows ih =>
    rw [List.forall_mem_cons] at hrows
    rw [List.flatMap_cons, List.append_assoc, List.singleton_append, Text.cutAt_append_cons,
      List.mem_append] at hline
    rcases hline with hline | hline
    · exact Nat.le_trans (Text.length_le_of_mem_cutAt hline) hrows.1
    · exact ih hrows.2 hline

theorem length_le_of_mem_comment {indent description : List Char} (hindent : indent.length ≤ 65)
    (hwords : ∀ line ∈ Text.cutAt '\n' description, WordsWithin (65 - indent.length) line)
    {line : List Char} (hline : line ∈ Text.cutAt '\n' (comment indent description)) :
    line.length ≤ 126 := by
  refine length_le_of_mem_cutAt_rows (fun row hrow => ?_) hline
  obtain ⟨written, hwritten, hrow⟩ := List.mem_flatMap.mp hrow
  exact length_le_of_mem_commentLines hindent (hwords written hwritten) hrow

/--
**What is wrapped keeps to its width.**  If no word is too long for the window in which a chunk may
end, no piece exceeds the width by five characters, and a line that does is cut into pieces that
fall short of the width by twenty-five.  So the comment for a description of such lines, at an
indentation that leaves room for chunks, has no line of more than 126 columns.
-/
theorem wrapped_width :
    (∀ (width : Nat) (line : List Char), 55 ≤ width → WordsWithin (width - 55) line →
      (∀ p ∈ wrap width line, p.length ≤ width + 4) ∧
      (width + 5 ≤ line.length →
        2 ≤ (wrap width line).length ∧ ∀ p ∈ wrap width line, p.length ≤ width - 25)) ∧
    ∀ (description : Option String) (indent : String) (firstInBlock : Bool), indent.length ≤ 65 →
      (∀ text ∈ description, ∀ line ∈ Text.cutAt '\n' text.toList,
        WordsWithin (65 - indent.length) line) →
      ∀ line ∈ Text.cutAt '\n' (descriptionText description indent firstInBlock).toList,
        line.length ≤ 126 := by
  constructor
  · intro width line hwidth hwords
    exact ⟨fun p hp => length_le_of_mem_wrap hwidth hwords hp, wrap_within hwidth hwords⟩
  · intro description indent firstInBlock hindent hwords line hline
    cases description with
    | none =>
      obtain rfl := List.mem_singleton.mp hline
      exact Nat.zero_le _
    | some text =>
      rw [← String.length_toList] at hindent hwords
      have hcomment : ∀ line ∈ Text.cutAt '\n' (comment indent.toList text.toList),
          line.length ≤ 126 :=
        fun line hline => length_le_of_mem_comment hindent (hwords text rfl) hline
      rw [descriptionText, String.toList_append, String.toList_ofList] at hline
      split at hline
      · exact hcomment line hline
      · -- The newline in front of a described element ends an empty line.
        rcases List.mem_cons.mp hline with rfl | hline
        · exact Nat.zero_le _
        · exact hcomment line hline

/-- A line of words with five letters each. -/
def fiveLetterWords : List Char := (List.replicate 24 ['w', 'o', 'r', 'd', 's', ' ']).flatten

/-- A width of 60 takes words of five letters; a description of several lines is indented by one
level. -/
theorem wrapped_width_words :
    WordsWithin (60 - 55) fiveLetterWords ∧ 60 + 5 ≤ fiveLetterWords.length ∧
      2 ≤ (wrap 60 fiveLetterWords).length ∧
      (∀ p ∈ wrap 60 fiveLetterWords, p.length ≤ 60 - 25) ∧
      ∀ line ∈ Text.cutAt '\n' (descriptionText
        (some (String.ofList (fiveLetterWords ++ '\n' :: '\n' :: fiveLetterWords))) "  "
        false).toList, line.length ≤ 126 := by
  have hwords : WordsWithin (60 - 55) fiveLetterWords := by decide
  have hlong : 60 + 5 ≤ fiveLetterWords.length := by decide +kernel
  have hlines : ∀ line ∈ Text.cutAt '\n' (fiveLetterWords ++ '\n' :: '\n' :: fiveLetterWords),
      WordsWithin (65 - 2) line := by decide +kernel
  obtain ⟨hseveral, hpieces⟩ := (wrapped_width.1 60 _ (by decide) hwords).2 hlong
  refine ⟨hwords, hlong, hseveral, hpieces, wrapped_width.2 _ "  " false (by decide) ?_⟩
  intro text htext line hline
  obtain rfl := Option.some.inj htext
  rw [String.toList_ofList] at hline
  exact hlines line hline

end GraphSchema.Sdl
