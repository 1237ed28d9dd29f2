/-
Wrapping loses nothing, and what is wrapped stays as it is.

The pieces of a line, joined with spaces, give the line back, so that it is cut at spaces
only; and a piece that is wrapped again is not cut.  Both come from what one cut does.

For the second, a piece has to be looked at in two ways: as a part of the line, in which it
is followed by the end or by the space of the next cut, and on its own, in which nothing
follows.  A chunk ends at either, so a chunk inside of the piece is the same in both
(`chunkLength?_of_append`).
-/
import GraphSchema.Proofs.Text.Lines
import GraphSchema.Sdl.Wrapping

namespace GraphSchema.Sdl

variable {most : Nat}

/-! ### Chunks

A chunk is as long as possible, and ends at a space or at the end of the text.  What is behind its
end does not matter to it.
-/

/-- The first `n` characters of the text are a chunk. -/
structure IsChunk (most : Nat) (s : List Char) (n : Nat) : Prop where
  least : leastChunk ≤ n
  most : n ≤ most
  length : n ≤ s.length
  ends : endsChunk (s.drop n) = true

theorem isChunk_of_chunkLength? {s : List Char} {n : Nat} (h : chunkLength? most s = some n) :
    IsChunk most s n := by
  have hmem := List.mem_of_find?_eq_some h
  have hchunk := List.find?_some h
  rw [List.mem_reverse, List.mem_range] at hmem
  rw [Bool.and_eq_true, decide_eq_true_eq] at hchunk
  exact ⟨hchunk.1, by omega, by omega, hchunk.2⟩

theorem chunkLength?_eq_none_iff {s : List Char} :
    chunkLength? most s = none ↔ ∀ n, ¬ IsChunk most s n := by
  rw [chunkLength?, List.find?_eq_none]
  constructor
  · intro h n hchunk
    have hmem : n ∈ (List.range (min most s.length + 1)).reverse := by
      rw [List.mem_reverse, List.mem_range]
      have := hchunk.most
      have := hchunk.length
      omega
    refine h n hmem ?_
    rw [Bool.and_eq_true, decide_eq_true_eq]
    exact ⟨hchunk.least, hchunk.ends⟩
  · intro h n hmem htrue
    rw [List.mem_reverse, List.mem_range] at hmem
    rw [Bool.and_eq_true, decide_eq_true_eq] at htrue
    exact h n ⟨htrue.1, by omega, by omega, htrue.2⟩

/-- What is found first from the end is the greatest. -/
theorem le_of_find?_reverse_range {p : Nat → Bool} {k n m : Nat}
    (h : (List.range k).reverse.find? p = some n) (hm : m < k) (hp : p m = true) : m ≤ n := by
  induction k with
  | zero => omega
  | succ k ih =>
    rw [List.range_succ, List.reverse_append, List.reverse_singleton, List.singleton_append] at h
    by_cases hk : p k = true
    · rw [List.find?_cons_of_pos hk] at h
      obtain rfl := Option.some.inj h
      omega
    · rw [List.find?_cons_of_neg hk] at h
      have hne : m ≠ k := fun heq => hk (heq ▸ hp)
      exact ih h (by omega)

/-- The chunk that is found is the longest. -/
theorem chunkLength?_eq_some_iff {s : List Char} {n : Nat} :
    chunkLength? most s = some n ↔ IsChunk most s n ∧ ∀ m, IsChunk most s m → m ≤ n := by
  constructor
  · intro h
    refine ⟨isChunk_of_chunkLength? h, fun m hm => ?_⟩
    refine le_of_find?_reverse_range h ?_ ?_
    · have := hm.most
      have := hm.length
      omega
    · rw [Bool.and_eq_true, decide_eq_true_eq]
      exact ⟨hm.least, hm.ends⟩
  · intro ⟨hchunk, hlongest⟩
    cases hfound : chunkLength? most s with
    | none => exact absurd hchunk (chunkLength?_eq_none_iff.mp hfound n)
    | some m =>
      have hm := isChunk_of_chunkLength? hfound
      have hle : n ≤ m := by
        refine le_of_find?_reverse_range hfound ?_ ?_
        · have := hchunk.most
          have := hchunk.length
          omega
        · rw [Bool.and_eq_true, decide_eq_true_eq]
          exact ⟨hchunk.least, hchunk.ends⟩
      have := hlongest m hm
      rw [Nat.le_antisymm hle this]

/-- Where a chunk may end does not depend on what follows a space or the end. -/
theorem endsChunk_drop_append {p q : List Char} (hq : endsChunk q = true) {n : Nat}
    (hn : n ≤ p.length) : endsChunk ((p ++ q).drop n) = endsChunk (p.drop n) := by
  rw [List.drop_append_of_le_length hn]
  cases hdrop : p.drop n with
  | nil => rw [List.nil_append, hq]; rfl
  | cons c rest => rfl

theorem isChunk_append_iff {p q : List Char} (hq : endsChunk q = true) {n : Nat}
    (hn : n ≤ p.length) : IsChunk most (p ++ q) n ↔ IsChunk most p n := by
  have hends := endsChunk_drop_append hq hn
  constructor
  · intro h
    exact ⟨h.least, h.most, hn, hends ▸ h.ends⟩
  · intro h
    refine ⟨h.least, h.most, ?_, hends ▸ h.ends⟩
    rw [List.length_append]
    omega

/-- A chunk of a text that lies in a part of it is the chunk of the part. -/
theorem chunkLength?_of_append {p q : List Char} (hq : endsChunk q = true) {n : Nat}
    (h : chunkLength? most (p ++ q) = some n) (hn : n ≤ p.length) :
    chunkLength? most p = some n := by
  obtain ⟨hchunk, hlongest⟩ := chunkLength?_eq_some_iff.mp h
  refine chunkLength?_eq_some_iff.mpr ⟨(isChunk_append_iff hq hn).mp hchunk, fun m hm => ?_⟩
  exact hlongest m ((isChunk_append_iff hq hm.length).mpr hm)

/-- A text without a chunk has no part with one. -/
theorem chunkLength?_eq_none_of_append {p q : List Char} (hq : endsChunk q = true)
    (h : chunkLength? most (p ++ q) = none) : chunkLength? most p = none := by
  rw [chunkLength?_eq_none_iff] at h ⊢
  intro n hchunk
  exact h n ((isChunk_append_iff hq hchunk.length).mpr hchunk)

/-! ### Cutting -/

/-- Pieces with a space in front of each. -/
def spaced (pieces : List (List Char)) : List Char := pieces.flatMap (' ' :: ·)

theorem endsChunk_spaced (pieces : List (List Char)) : endsChunk (spaced pieces) = true := by
  cases pieces <;> rfl

/-- Where text is cut: at a space in front of a chunk. -/
def cutHere (most : Nat) (c : Char) (rest : List Char) : Option Nat :=
  if c = ' ' then chunkLength? most rest else none

theorem cutPieces_cons_of_some {c : Char} {rest : List Char} {n : Nat}
    (h : cutHere most c rest = some n) :
    cutPieces most (c :: rest)
      = ([], (rest.take n ++ (cutPieces most (rest.drop n)).1)
          :: (cutPieces most (rest.drop n)).2) := by
  rw [cutPieces]
  unfold cutHere at h
  simp only [h]

theorem cutPieces_cons_of_none {c : Char} {rest : List Char} (h : cutHere most c rest = none) :
    cutPieces most (c :: rest) = (c :: (cutPieces most rest).1, (cutPieces most rest).2) := by
  rw [cutPieces]
  unfold cutHere at h
  simp only [h]

theorem piecesFromSpace_cons_of_some {c : Char} {rest : List Char} {n : Nat}
    (h : cutHere most c rest = some n) :
    piecesFromSpace most (c :: rest)
      = (c :: rest.take n ++ (cutPieces most (rest.drop n)).1,
          (cutPieces most (rest.drop n)).2) := by
  rw [piecesFromSpace]
  unfold cutHere at h
  simp only [h]

theorem piecesFromSpace_cons_of_none {c : Char} {rest : List Char}
    (h : cutHere most c rest = none) :
    piecesFromSpace most (c :: rest)
      = (c :: (piecesFromSpace most rest).1, (piecesFromSpace most rest).2) := by
  rw [piecesFromSpace]
  unfold cutHere at h
  simp only [h]

/-- What is not cut in a text is not cut in the part up to the next cut. -/
theorem cutHere_eq_none_of_append {c : Char} {p q : List Char} (hq : endsChunk q = true)
    (h : cutHere most c (p ++ q) = none) : cutHere most c p = none := by
  unfold cutHere at h ⊢
  split
  · next hc =>
    rw [if_pos hc] at h
    exact chunkLength?_eq_none_of_append hq h
  · rfl

theorem length_of_cutHere {c : Char} {rest : List Char} {n : Nat}
    (h : cutHere most c rest = some n) : n ≤ rest.length := by
  unfold cutHere at h
  split at h
  · exact (isChunk_of_chunkLength? h).length
  · cases h

/-- Nothing is cut in the text. -/
def Uncut (most : Nat) (s : List Char) : Prop := cutPieces most s = (s, [])

theorem uncut_nil : Uncut most [] := by
  unfold Uncut
  rw [cutPieces]

theorem uncut_cons_iff {c : Char} {rest : List Char} :
    Uncut most (c :: rest) ↔ cutHere most c rest = none ∧ Uncut most rest := by
  unfold Uncut
  cases h : cutHere most c rest with
  | none =>
    rw [cutPieces_cons_of_none h]
    constructor
    · intro heq
      obtain ⟨htext, hpieces⟩ := Prod.mk.inj heq
      exact ⟨rfl, Prod.ext (List.cons.inj htext).2 hpieces⟩
    · intro ⟨_, heq⟩
      rw [heq]
  | some n =>
    rw [cutPieces_cons_of_some h]
    simp

theorem Uncut.drop {s : List Char} (h : Uncut most s) (n : Nat) : Uncut most (s.drop n) := by
  induction n generalizing s with
  | zero => exact h
  | succ n ih =>
    cases s with
    | nil => exact h
    | cons c rest => exact ih (uncut_cons_iff.mp h).2

/-! ### Pieces -/

/-- The text is one piece. -/
def IsPiece (most : Nat) (p : List Char) : Prop := pieces most p = (p, [])

/-- The text begins with a space that a chunk follows. -/
def beginsSpaced (most : Nat) : List Char → Bool
  | ' ' :: rest => (chunkLength? most rest).isSome
  | _ => false

theorem pieces_eq (s : List Char) :
    pieces most s = match if beginsSpaced most s then none else chunkLength? most s with
      | some n => (s.take n ++ (cutPieces most (s.drop n)).1, (cutPieces most (s.drop n)).2)
      | none => piecesFromSpace most s := rfl

theorem pieces_of_beginsSpaced {s : List Char} (h : beginsSpaced most s = true) :
    pieces most s = piecesFromSpace most s := by
  rw [pieces_eq, if_pos h]

theorem pieces_of_chunkLength? {s : List Char} {n : Nat} (h : beginsSpaced most s = false)
    (hchunk : chunkLength? most s = some n) :
    pieces most s = (s.take n ++ (cutPieces most (s.drop n)).1, (cutPieces most (s.drop n)).2) := by
  rw [pieces_eq, h, if_neg Bool.false_ne_true, hchunk]

theorem pieces_of_chunkLength?_eq_none {s : List Char} (h : chunkLength? most s = none) :
    pieces most s = piecesFromSpace most s := by
  cases hspaced : beginsSpaced most s with
  | true => exact pieces_of_beginsSpaced hspaced
  | false => rw [pieces_eq, hspaced, if_neg Bool.false_ne_true, h]

/-- A text that begins with a chunk, and is not cut behind it, is one piece.  If it begins
with a space, the chunk behind the space reaches at least as far. -/
theorem isPiece_of_chunk {p : List Char} {n : Nat} (h : chunkLength? most p = some n)
    (huncut : Uncut most (p.drop n)) : IsPiece most p := by
  unfold IsPiece
  cases hspaced : beginsSpaced most p with
  | false =>
    rw [pieces_of_chunkLength? hspaced h, huncut]
    simp
  | true =>
    rw [pieces_of_beginsSpaced hspaced]
    unfold beginsSpaced at hspaced
    split at hspaced
    · next rest =>
      obtain ⟨m, hm⟩ := Option.isSome_iff_exists.mp hspaced
      have hchunk := isChunk_of_chunkLength? h
      have hlongest := (chunkLength?_eq_some_iff.mp hm).2
      have hreach : n - 1 ≤ m := by
        by_cases hleast : leastChunk ≤ n - 1
        · refine hlongest (n - 1) ⟨hleast, ?_, ?_, ?_⟩
          · have := hchunk.most
            omega
          · have hlength := hchunk.length
            rw [List.length_cons] at hlength
            omega
          · have hends := hchunk.ends
            obtain ⟨k, rfl⟩ : ∃ k, n = k + 1 := ⟨n - 1, by have := hchunk.least; unfold leastChunk at this; omega⟩
            exact hends
        · have := leastChunk_le_of_chunkLength? hm
          omega
      have hrest : Uncut most (rest.drop m) := by
        have hdrop := huncut.drop (m - (n - 1))
        obtain ⟨k, rfl⟩ : ∃ k, n = k + 1 :=
          ⟨n - 1, by have := hchunk.least; unfold leastChunk at this; omega⟩
        rw [List.drop_succ_cons, List.drop_drop] at hdrop
        rwa [show k + (m - (k + 1 - 1)) = m by omega] at hdrop
      have hhere : cutHere most ' ' rest = some m := by
        unfold cutHere
        rw [if_pos rfl, hm]
      rw [piecesFromSpace_cons_of_some hhere, hrest]
      simp
    · cases hspaced

/-! ### What cutting gives

The pieces of a line are what stands in front of the first cut and one piece for each cut.
-/

/-- The text of a chunk of `n` characters up to the next cut. -/
def headPiece (most : Nat) (s : List Char) (n : Nat) : List Char :=
  s.take n ++ (cutPieces most (s.drop n)).1

/-- Cutting loses nothing but the spaces in front of the pieces. -/
theorem cutPieces_append (most : Nat) (s : List Char) :
    (cutPieces most s).1 ++ spaced (cutPieces most s).2 = s := by
  fun_induction cutPieces most s with
  | case1 => rfl
  | case2 c rest n hcut text more heq ih =>
    rw [heq] at ih
    split at hcut
    · next hspace =>
      show ' ' :: ((rest.take n ++ text) ++ spaced more) = c :: rest
      rw [List.append_assoc, ih, List.take_append_drop, hspace]
    · cases hcut
  | case3 c rest hcut text more heq ih =>
    rw [heq] at ih
    exact congrArg (c :: ·) ih

theorem headPiece_append (most : Nat) (s : List Char) (n : Nat) :
    headPiece most s n ++ spaced (cutPieces most (s.drop n)).2 = s := by
  rw [headPiece, List.append_assoc, cutPieces_append, List.take_append_drop]

theorem drop_headPiece {s : List Char} {n : Nat} (h : n ≤ s.length) :
    (headPiece most s n).drop n = (cutPieces most (s.drop n)).1 :=
  List.drop_left' (List.length_take_of_le h)

theorem take_headPiece {s : List Char} {n : Nat} (h : n ≤ s.length) :
    (headPiece most s n).take n = s.take n :=
  List.take_left' (List.length_take_of_le h)

theorem le_length_headPiece (most : Nat) {s : List Char} {n : Nat} (h : n ≤ s.length) :
    n ≤ (headPiece most s n).length := by
  rw [headPiece, List.length_append, List.length_take_of_le h]
  omega

/-- The chunk is still the longest when nothing follows the next cut. -/
theorem chunkLength?_headPiece {s : List Char} {n : Nat} (h : chunkLength? most s = some n) :
    chunkLength? most (headPiece most s n) = some n := by
  have hn := (isChunk_of_chunkLength? h).length
  rw [← headPiece_append most s n] at h
  exact chunkLength?_of_append (endsChunk_spaced _) h (le_length_headPiece most hn)

theorem cutHere_headPiece {c : Char} {s : List Char} {n : Nat} (h : cutHere most c s = some n) :
    cutHere most c (headPiece most s n) = some n := by
  unfold cutHere at h ⊢
  split
  · next hc =>
    rw [if_pos hc] at h
    exact chunkLength?_headPiece h
  · next hc => rw [if_neg hc] at h; exact h

theorem uncut_cutPieces (s : List Char) : Uncut most (cutPieces most s).1 := by
  induction s with
  | nil =>
    rw [cutPieces]
    exact uncut_nil
  | cons c rest ih =>
    cases hcut : cutHere most c rest with
    | some n =>
      rw [cutPieces_cons_of_some hcut]
      exact uncut_nil
    | none =>
      rw [cutPieces_cons_of_none hcut]
      rw [← cutPieces_append most rest] at hcut
      exact uncut_cons_iff.mpr ⟨cutHere_eq_none_of_append (endsChunk_spaced _) hcut, ih⟩

theorem isPiece_headPiece {s : List Char} {n : Nat} (h : chunkLength? most s = some n) :
    IsPiece most (headPiece most s n) := by
  refine isPiece_of_chunk (chunkLength?_headPiece h) ?_
  rw [drop_headPiece (isChunk_of_chunkLength? h).length]
  exact uncut_cutPieces _

/-- What is cut off behind a space begins a text with a chunk. -/
theorem exists_headPiece_of_mem_cutPieces {s p : List Char} (hp : p ∈ (cutPieces most s).2) :
    ∃ rest n, chunkLength? most rest = some n ∧ p = headPiece most rest n := by
  fun_induction cutPieces most s with
  | case1 => cases hp
  | case2 c rest n hcut text more heq ih =>
    rw [heq] at ih
    rcases List.mem_cons.mp hp with rfl | hp
    · split at hcut
      · exact ⟨rest, n, hcut, by rw [headPiece, heq]⟩
      · cases hcut
    · exact ih hp
  | case3 c rest hcut text more heq ih =>
    rw [heq] at ih
    exact ih hp

theorem isPiece_of_mem_cutPieces {s p : List Char} (hp : p ∈ (cutPieces most s).2) :
    IsPiece most p := by
  obtain ⟨rest, n, hcut, rfl⟩ := exists_headPiece_of_mem_cutPieces hp
  exact isPiece_headPiece hcut

theorem headPiece_ne_nil {s : List Char} {n : Nat} (h : chunkLength? most s = some n) :
    headPiece most s n ≠ [] := by
  have hleast := leastChunk_le_of_chunkLength? h
  have hlength := le_length_headPiece most (isChunk_of_chunkLength? h).length
  intro hnil
  rw [hnil, List.length_nil] at hlength
  unfold leastChunk at hleast
  omega

theorem ne_nil_of_mem_cutPieces {s p : List Char} (hp : p ∈ (cutPieces most s).2) : p ≠ [] := by
  obtain ⟨rest, n, hcut, rfl⟩ := exists_headPiece_of_mem_cutPieces hp
  exact headPiece_ne_nil hcut

theorem piecesFromSpace_append (most : Nat) (s : List Char) :
    (piecesFromSpace most s).1 ++ spaced (piecesFromSpace most s).2 = s := by
  induction s with
  | nil => rfl
  | cons c rest ih =>
    cases hcut : cutHere most c rest with
    | some n =>
      rw [piecesFromSpace_cons_of_some hcut]
      exact congrArg (c :: ·) (headPiece_append most rest n)
    | none =>
      rw [piecesFromSpace_cons_of_none hcut]
      exact congrArg (c :: ·) ih

/-- The text up to the second chunk keeps its first. -/
theorem piecesFromSpace_first (s : List Char) :
    piecesFromSpace most (piecesFromSpace most s).1 = ((piecesFromSpace most s).1, []) := by
  induction s with
  | nil => rfl
  | cons c rest ih =>
    cases hcut : cutHere most c rest with
    | some n =>
      have hn := length_of_cutHere hcut
      have hfirst : (piecesFromSpace most (c :: rest)).1 = c :: headPiece most rest n := by
        rw [piecesFromSpace_cons_of_some hcut]
        rfl
      rw [hfirst, piecesFromSpace_cons_of_some (cutHere_headPiece hcut), drop_headPiece hn,
        take_headPiece hn, uncut_cutPieces]
      rfl
    | none =>
      have hfirst : (piecesFromSpace most (c :: rest)).1 = c :: (piecesFromSpace most rest).1 := by
        rw [piecesFromSpace_cons_of_none hcut]
      rw [← piecesFromSpace_append most rest] at hcut
      rw [hfirst, piecesFromSpace_cons_of_none
        (cutHere_eq_none_of_append (endsChunk_spaced _) hcut), ih]

theorem isPiece_of_mem_piecesFromSpace {s p : List Char} (hp : p ∈ (piecesFromSpace most s).2) :
    IsPiece most p := by
  induction s with
  | nil => cases hp
  | cons c rest ih =>
    cases hcut : cutHere most c rest with
    | some n =>
      rw [piecesFromSpace_cons_of_some hcut] at hp
      exact isPiece_of_mem_cutPieces hp
    | none =>
      rw [piecesFromSpace_cons_of_none hcut] at hp
      exact ih hp

theorem ne_nil_of_mem_piecesFromSpace {s p : List Char} (hs : s ≠ [])
    (hp : p ∈ (piecesFromSpace most s).1 :: (piecesFromSpace most s).2) : p ≠ [] := by
  induction s with
  | nil => exact absurd rfl hs
  | cons c rest ih =>
    cases hcut : cutHere most c rest with
    | some n =>
      rw [piecesFromSpace_cons_of_some hcut] at hp
      rcases List.mem_cons.mp hp with rfl | hp
      · exact List.cons_ne_nil _ _
      · exact ne_nil_of_mem_cutPieces hp
    | none =>
      rw [piecesFromSpace_cons_of_none hcut] at hp
      rcases List.mem_cons.mp hp with rfl | hp
      · exact List.cons_ne_nil _ _
      · refine ih ?_ (List.mem_cons_of_mem _ hp)
        rintro rfl
        cases hp

/-! ### Whole lines -/

theorem pieces_append (line : List Char) :
    (pieces most line).1 ++ spaced (pieces most line).2 = line := by
  rw [pieces_eq]
  split
  · next n _ => exact headPiece_append most line n
  · exact piecesFromSpace_append most line

theorem isPiece_first (line : List Char) : IsPiece most (pieces most line).1 := by
  cases hspaced : beginsSpaced most line with
  | true =>
    rw [pieces_of_beginsSpaced hspaced]
    suffices hagain : beginsSpaced most (piecesFromSpace most line).1 = true by
      unfold IsPiece
      rw [pieces_of_beginsSpaced hagain, piecesFromSpace_first]
    unfold beginsSpaced at hspaced
    split at hspaced
    · next rest =>
      obtain ⟨n, hn⟩ := Option.isSome_iff_exists.mp hspaced
      have hhere : cutHere most ' ' rest = some n := by
        unfold cutHere
        rw [if_pos rfl, hn]
      rw [piecesFromSpace_cons_of_some hhere]
      show (chunkLength? most (headPiece most rest n)).isSome = true
      rw [chunkLength?_headPiece hn]
      rfl
    · cases hspaced
  | false =>
    cases hchunk : chunkLength? most line with
    | some n =>
      rw [pieces_of_chunkLength? hspaced hchunk]
      exact isPiece_headPiece hchunk
    | none =>
      rw [pieces_of_chunkLength?_eq_none hchunk]
      have happend := piecesFromSpace_append most line
      rw [← happend] at hchunk
      unfold IsPiece
      rw [pieces_of_chunkLength?_eq_none
        (chunkLength?_eq_none_of_append (endsChunk_spaced _) hchunk), piecesFromSpace_first]

theorem isPiece_of_mem_pieces {line p : List Char}
    (hp : p ∈ (pieces most line).1 :: (pieces most line).2) : IsPiece most p := by
  rcases List.mem_cons.mp hp with rfl | hp
  · exact isPiece_first line
  · rw [pieces_eq] at hp
    split at hp
    · exact isPiece_of_mem_cutPieces hp
    · exact isPiece_of_mem_piecesFromSpace hp

theorem ne_nil_of_mem_pieces {line p : List Char} (hline : line ≠ [])
    (hp : p ∈ (pieces most line).1 :: (pieces most line).2) : p ≠ [] := by
  rw [pieces_eq] at hp
  split at hp
  · next n hn =>
    split at hn
    · cases hn
    · rcases List.mem_cons.mp hp with rfl | hp
      · exact headPiece_ne_nil hn
      · exact ne_nil_of_mem_cutPieces hp
  · exact ne_nil_of_mem_piecesFromSpace hline hp

/-! ### Wrapping -/

theorem intercalate_cons_spaced (first : List Char) (others : List (List Char)) :
    [' '].intercalate (first :: others) = first ++ spaced others :=
  Text.intercalate_cons [' '] first others

theorem wrap_ne_nil (width : Nat) (line : List Char) : wrap width line ≠ [] := by
  unfold wrap
  split <;> simp

/-- A line that is hardly too long is not wrapped. -/
theorem wrap_of_length_lt {width : Nat} {line : List Char} (h : line.length < width + tolerance) :
    wrap width line = [line] := if_pos (Or.inl h)

/-- **Wrapping loses nothing.**  The pieces joined with spaces are the line, so that it is
cut at spaces only. -/
theorem intercalate_wrap (width : Nat) (line : List Char) :
    [' '].intercalate (wrap width line) = line := by
  unfold wrap
  split
  · simp
  · show [' '].intercalate ((pieces (width - chunkMargin) line).1
      :: (pieces (width - chunkMargin) line).2) = line
    rw [intercalate_cons_spaced, pieces_append]

/-- **Wrapping is stable.**  A piece that is wrapped again stays as it is. -/
theorem wrap_of_mem_wrap {width : Nat} {line p : List Char} (hp : p ∈ wrap width line) :
    wrap width p = [p] := by
  unfold wrap at hp
  split at hp
  · next hshort =>
    obtain rfl := List.mem_singleton.mp hp
    unfold wrap
    rw [if_pos hshort]
  · have hpiece : IsPiece (width - chunkMargin) p := isPiece_of_mem_pieces hp
    unfold wrap
    split
    · rfl
    · rw [hpiece]

/-- Only an empty line has an empty piece. -/
theorem ne_nil_of_mem_wrap {width : Nat} {line p : List Char} (hline : line ≠ [])
    (hp : p ∈ wrap width line) : p ≠ [] := by
  unfold wrap at hp
  split at hp
  · obtain rfl := List.mem_singleton.mp hp
    exact hline
  · exact ne_nil_of_mem_pieces hline hp

/-! ### How often a line is cut

Each cut takes at least a least chunk, so there are no more of them than fit into the line.
-/

/-- In front of each piece there is a space, and a piece is no shorter than a chunk. -/
theorem mul_length_cutPieces_le (most : Nat) (s : List Char) :
    (cutPieces most s).2.length * (leastChunk + 1) ≤ s.length := by
  fun_induction cutPieces most s with
  | case1 => simp
  | case2 c rest n hcut text more heq ih =>
    have hn : leastChunk ≤ n ∧ n ≤ rest.length := by
      split at hcut
      · exact ⟨leastChunk_le_of_chunkLength? hcut, (isChunk_of_chunkLength? hcut).length⟩
      · cases hcut
    have ih : more.length * (leastChunk + 1) ≤ rest.length - n := by rwa [heq, List.length_drop] at ih
    show (more.length + 1) * (leastChunk + 1) ≤ rest.length + 1
    rw [Nat.succ_mul]
    omega
  | case3 c rest hcut text more heq ih =>
    rw [heq] at ih
    exact Nat.le_succ_of_le ih

theorem mul_length_piecesFromSpace_le (most : Nat) (s : List Char) :
    (piecesFromSpace most s).2.length * (leastChunk + 1) ≤ s.length := by
  induction s with
  | nil => simp [piecesFromSpace]
  | cons c rest ih =>
    cases hcut : cutHere most c rest with
    | some n =>
      rw [piecesFromSpace_cons_of_some hcut]
      have hle := mul_length_cutPieces_le most (rest.drop n)
      rw [List.length_drop] at hle
      exact Nat.le_succ_of_le (Nat.le_trans hle (Nat.sub_le _ _))
    | none =>
      rw [piecesFromSpace_cons_of_none hcut]
      exact Nat.le_succ_of_le ih

theorem mul_length_pieces_le (most : Nat) (line : List Char) :
    (pieces most line).2.length * (leastChunk + 1) ≤ line.length := by
  rw [pieces_eq]
  split
  · next n _ =>
    have hle := mul_length_cutPieces_le most (line.drop n)
    rw [List.length_drop] at hle
    exact Nat.le_trans hle (Nat.sub_le _ _)
  · exact mul_length_piecesFromSpace_le most line

/-- A line is cut at most once for each least chunk, with its space, that it has room for. -/
theorem mul_length_wrap_le (width : Nat) (line : List Char) :
    (wrap width line).length * (leastChunk + 1) ≤ line.length + (leastChunk + 1) := by
  unfold wrap
  split
  · simp
  · have hle := mul_length_pieces_le (width - chunkMargin) line
    show ((pieces (width - chunkMargin) line).2.length + 1) * (leastChunk + 1) ≤ _
    rw [Nat.succ_mul]
    omega

/--
**Wrapping loses nothing, and what has been wrapped stays as it is.**  Wrapping ends, after no more
cuts than the line has room for.  The pieces joined with single spaces are the line, whatever spaces
it has, so between the pieces in front of a cut and those behind it there is one space of the line;
and wrapping a piece to the same width gives that piece alone.
-/
theorem wrap_lossless (width : Nat) (line : List Char) :
    (wrap width line ≠ [] ∧
      (wrap width line).length * (leastChunk + 1) ≤ line.length + (leastChunk + 1)) ∧
    [' '].intercalate (wrap width line) = line ∧
    (∀ before after, before ≠ [] → after ≠ [] → wrap width line = before ++ after →
      line = [' '].intercalate before ++ ' ' :: [' '].intercalate after) ∧
    ∀ p ∈ wrap width line, wrap width p = [p] := by
  refine ⟨⟨wrap_ne_nil width line, mul_length_wrap_le width line⟩, intercalate_wrap width line, ?_,
    fun p hp => wrap_of_mem_wrap hp⟩
  intro before after hbefore hafter hpieces
  have hline := intercalate_wrap width line
  rw [hpieces, Text.intercalate_append hbefore hafter] at hline
  exact hline.symm

end GraphSchema.Sdl
