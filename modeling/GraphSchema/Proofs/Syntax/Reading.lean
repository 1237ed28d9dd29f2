/-
How far a document has been read.

A document is read in steps: an ignored character, a comment with the end of its line, or a
lexeme.  `ReadTo` says where the steps lead from the start on.  Beside the position that the
reader takes itself to be at, a `Reading` keeps what the lines really begin with: so the two can
be compared.  Every token of a document stands where some steps lead (`exists_readTo`).

The reader takes each comment for the end of a line.  A comment that a carriage return ends is
followed by the newline of its line, so that the line is counted twice; `returns` counts these
(`ReadTo.line_eq`).  A column is true as long as a line holds only spaces and commas
(`ReadTo.column_eq`).
-/
import GraphSchema.Proofs.Schema.Place

namespace GraphSchema.Syntax

/-! ### What lines begin with

The kinds of line that matter for comments, and a record of them that is kept along the steps.
-/

/-- What the first token of a line is, if a comment counts as one. -/
inductive Opening where
  /-- There is none: only ignored characters stand on the line. -/
  | blank
  /-- A comment, with what stands in front of it on the line and behind its `#`. -/
  | comment (front text : List Char)
  /-- A lexeme. -/
  | code
  /-- The inside of a lexeme, which is a string of several lines. -/
  | inside

/-- What the lines above begin with, the nearest one first, and the line itself. -/
structure Margin where
  above : List Opening
  line : Opening

namespace Margin

/-- The margin in front of a text, where nothing stands to the left. -/
def start : Margin := ⟨[], .blank⟩

/-- The line begins with what is put on it first. -/
def put (opening : Opening) (margin : Margin) : Margin :=
  match margin.line with
  | .blank => ⟨margin.above, opening⟩
  | _ => margin

/-- The line has ended, and the next one begins with what is given. -/
def newline (opening : Opening) (margin : Margin) : Margin := ⟨margin.line :: margin.above, opening⟩

/-- Behind a character between lexemes. -/
def pastIgnored (margin : Margin) (c : Char) : Margin :=
  if c = '\n' then margin.newline .blank else margin

/-- Behind a text that belongs to a lexeme. -/
def pastCode (margin : Margin) (text : List Char) : Margin :=
  text.foldl (fun margin c => if c = '\n' then margin.newline .inside else margin) margin

/-- Behind a lexeme, which is what its line begins with if nothing stands in front of it. -/
def pastLexeme (margin : Margin) (text : List Char) : Margin := (margin.put .code).pastCode text

theorem pastCode_of_not_mem {text : List Char} (h : '\n' ∉ text) (margin : Margin) :
    margin.pastCode text = margin := by
  induction text with
  | nil => rfl
  | cons c text ih =>
    rw [List.mem_cons, not_or] at h
    show (if c = '\n' then _ else margin).pastCode text = margin
    rw [if_neg (Ne.symm h.1), ih h.2]

theorem pastCode_line {line : List Char} (h : '\n' ∉ line) (margin : Margin) (rest : List Char) :
    margin.pastCode (line ++ '\n' :: rest) = (margin.newline .inside).pastCode rest := by
  have happend : margin.pastCode (line ++ '\n' :: rest)
      = (margin.pastCode line).pastCode ('\n' :: rest) := List.foldl_append
  rw [happend, pastCode_of_not_mem h]
  rfl

end Margin

/-- Where the reader is. -/
structure Reading where
  position : Position
  margin : Margin
  /-- How many comments a carriage return has ended. -/
  returns : Nat

/-- The steps of the reader lead through the text `before` and leave the rest to be read. -/
inductive ReadTo (s : List Char) : List Char → List Char → Reading → Prop
  | start : ReadTo s [] s ⟨.start, .start, 0⟩
  | ignored {before rest : List Char} {reading : Reading} {c : Char} {position : Position}
      (h : ReadTo s before (c :: rest) reading)
      (hc : reading.position.pastIgnored c = some position) :
      ReadTo s (before ++ [c]) rest
        { reading with position := position, margin := reading.margin.pastIgnored c }
  | comment {before text rest : List Char} {reading : Reading} {ending : Char}
      (h : ReadTo s before ('#' :: (text ++ ending :: rest)) reading)
      (htext : ∀ c ∈ text, Text.InLine c) (hending : ending = '\n' ∨ ending = '\r') :
      ReadTo s (before ++ '#' :: (text ++ [ending])) rest
        { reading with
          position := reading.position.nextLine
          margin := (reading.margin.put
            (.comment (Place.start.past before).current text)).pastIgnored ending
          returns := if ending = '\r' then reading.returns + 1 else reading.returns }
  | lexeme {before rest : List Char} {reading : Reading} {scan : Scan}
      (h : ReadTo s before rest reading) (hscan : Scan.ofText? rest = some scan) :
      ReadTo s (before ++ scan.text) scan.rest
        { reading with
          position := reading.position.past scan.text
          margin := reading.margin.pastLexeme scan.text }

/-! ### Lexemes as they are written -/

/-- A lexeme begins with a character that is seen, and with no `#`. -/
theorem exists_text_of_scan {s : List Char} {scan : Scan} (h : Scan.ofText? s = some scan) :
    ∃ c more, scan.text = c :: more ∧ beginsLexeme c = true := by
  cases Scan.begins_of_ofText? h with
  | block | quoted => exact ⟨'"', _, rfl, by decide⟩
  | spread => exact ⟨'.', _, rfl, by decide⟩
  | @punctuator c _ hp =>
    have hall : ∀ c ∈ ['!', '$', ':', '=', '@', '|', '&', '(', ')', '[', ']', '{', '}'],
        beginsLexeme c = true := forall_mem_of_all (by decide)
    exact ⟨c, [], rfl, hall c (Punctuator.mem_of_ofChar? hp)⟩
  | @name c hstart => exact ⟨c, _, rfl, beginsLexeme_of_isNameChar (isNameChar_of_isNameStart hstart)⟩
  | @numeral c _ _ hdigit =>
    have hnumeral : Decimal.isNumeralChar c = true := by
      unfold Decimal.isNumeralChar
      rw [Bool.or_eq_true] at hdigit
      rcases hdigit with hdigit | hdigit <;> simp [hdigit]
    exact ⟨c, _, rfl, beginsLexeme_of_isNumeralChar hnumeral⟩

/-! ### Tokens -/

/-- A comment that is skipped ends somewhere. -/
theorem exists_comment_of_dropIgnored {p start : Position} {s more : List Char} {c : Char}
    (h : dropIgnored true p s = (start, c :: more)) :
    ∃ text ending rest, s = text ++ ending :: rest ∧ (∀ d ∈ text, Text.InLine d) ∧
      (ending = '\n' ∨ ending = '\r') ∧ dropIgnored false p.nextLine rest = (start, c :: more) := by
  induction s with
  | nil =>
    rw [dropIgnored] at h
    cases h
  | cons d s ih =>
    rw [dropIgnored, if_pos rfl] at h
    by_cases hd : d = '\n' ∨ d = '\r'
    · rw [if_pos hd] at h
      exact ⟨[], d, s, rfl, nofun, hd, h⟩
    · rw [if_neg hd] at h
      obtain ⟨text, ending, rest, rfl, htext, hending, hrest⟩ := ih h
      exact ⟨d :: text, ending, rest, rfl, List.forall_mem_cons.mpr ⟨not_or.mp hd, htext⟩,
        hending, hrest⟩

/-- What is skipped in front of a lexeme is made of steps. -/
theorem ReadTo.dropIgnored {s : List Char} {start : Position} {more : List Char} {c : Char}
    {before rest : List Char} {reading : Reading} (h : ReadTo s before rest reading)
    (hskip : dropIgnored false reading.position rest = (start, c :: more)) :
    ∃ before reading, ReadTo s before (c :: more) reading ∧ reading.position = start := by
  generalize hlength : rest.length = n
  induction n using Nat.strong_induction_on generalizing before rest reading with
  | h n ih =>
    subst hlength
    cases rest with
    | nil =>
      rw [Syntax.dropIgnored] at hskip
      cases hskip
    | cons d rest =>
      rw [Syntax.dropIgnored, if_neg Bool.false_ne_true] at hskip
      by_cases hd : d = '#'
      · subst hd
        rw [if_pos rfl] at hskip
        obtain ⟨text, ending, rest, rfl, htext, hending, hskip⟩ :=
          exists_comment_of_dropIgnored hskip
        exact ih rest.length (by simp; omega) (h.comment htext hending) hskip rfl
      · rw [if_neg hd] at hskip
        cases hc : reading.position.pastIgnored d with
        | none =>
          rw [hc] at hskip
          obtain ⟨hstart, hrest⟩ := Prod.mk.inj hskip
          exact ⟨before, reading, hrest ▸ h, hstart⟩
        | some position =>
          rw [hc] at hskip
          exact ih rest.length (by simp) (h.ignored hc) hskip rfl

theorem ReadTo.exists_of_mem {s : List Char} {p : Position} {rest : List Char} {tokens : List Token}
    {before : List Char} {reading : Reading} (h : ReadTo s before rest reading)
    (hp : reading.position = p) (htokens : tokensFrom p rest = some tokens) {token : Token}
    (htoken : token ∈ tokens) :
    ∃ before rest reading, ReadTo s before rest reading ∧ reading.position = token.position ∧
      ∃ scan, Scan.ofText? rest = some scan ∧ scan.lexeme = token.lexeme := by
  induction p, rest using tokensFrom.induct generalizing tokens before reading with
  | case1 p rest start hskip =>
    rw [tokensFrom_of_end hskip] at htokens
    obtain rfl := Option.some.inj htokens
    cases htoken
  | case2 p rest start c more hskip hscan =>
    rw [tokensFrom_of_noScan hskip hscan] at htokens
    cases htokens
  | case3 p rest start c more hskip scan hscan ih =>
    rw [tokensFrom_of_scan hskip hscan] at htokens
    obtain ⟨others, hothers, rfl⟩ := Option.map_eq_some_iff.mp htokens
    subst hp
    obtain ⟨before, reading, h, rfl⟩ := h.dropIgnored hskip
    rcases List.mem_cons.mp htoken with rfl | htoken
    · exact ⟨before, c :: more, reading, h, rfl, scan, hscan, rfl⟩
    · exact ih (h.lexeme hscan) rfl hothers htoken

/-- **Every token of a document stands where some steps lead.** -/
theorem exists_readTo {content : String} {read : List Token} (h : tokens content = some read)
    {token : Token} (htoken : token ∈ read) :
    ∃ before rest reading, ReadTo content.toList before rest reading ∧
      reading.position = token.position ∧
      ∃ scan, Scan.ofText? rest = some scan ∧ scan.lexeme = token.lexeme :=
  ReadTo.start.exists_of_mem rfl h htoken

/-! ### Lines and columns

The reader counts by rules of its own.  Its line is ahead by the comments that ended in a carriage
return, and its column by the width of what it has skipped.
-/

theorem ReadTo.eq_append {s before rest : List Char} {reading : Reading}
    (h : ReadTo s before rest reading) : s = before ++ rest := by
  induction h with
  | start => rfl
  | ignored h hc ih => rw [ih, List.append_assoc, List.singleton_append]
  | comment h htext hending ih => rw [ih]; simp
  | lexeme h hscan ih => rw [ih, List.append_assoc, Scan.text_append_rest hscan]

/-- The characters that are skipped one by one and end no line. -/
def skippedInLine : List Char := [' ', ',', '\t', '\r', '\ufeff']

/-- How many columns an ignored character counts for. -/
def ignoredWidth : Char → Nat
  | ' ' | ',' => 1
  | '\t' => 8
  | _ => 0

/-- Without tabulators no more columns are counted than there are characters. -/
theorem sum_ignoredWidth_le {front : List Char} (h : ∀ c ∈ front, c ∈ skippedInLine)
    (htab : '\t' ∉ front) : (front.map ignoredWidth).sum ≤ front.length := by
  induction front with
  | nil => exact Nat.le_refl 0
  | cons c front ih =>
    rw [List.forall_mem_cons] at h
    rw [List.mem_cons, not_or] at htab
    have hall : ∀ d ∈ skippedInLine, '\t' ≠ d → ignoredWidth d ≤ 1 := forall_mem_of_all (by decide)
    have hc := hall c h.1 htab.1
    have hfront := ih h.2 htab.2
    simp only [List.map_cons, List.sum_cons, List.length_cons]
    omega

/-- Every character counts for a column if it is none of those that count for none. -/
theorem length_le_sum_ignoredWidth {front : List Char} (h : ∀ c ∈ front, c ∈ skippedInLine)
    (hreturn : '\r' ∉ front) (hmark : '\ufeff' ∉ front) :
    front.length ≤ (front.map ignoredWidth).sum := by
  induction front with
  | nil => exact Nat.le_refl 0
  | cons c front ih =>
    rw [List.forall_mem_cons] at h
    rw [List.mem_cons, not_or] at hreturn hmark
    have hall : ∀ d ∈ skippedInLine, '\r' ≠ d → '\ufeff' ≠ d → 1 ≤ ignoredWidth d :=
      forall_mem_of_all (by decide)
    have hc := hall c h.1 hreturn.1 hmark.1
    have hfront := ih h.2 hreturn.2 hmark.2
    simp only [List.map_cons, List.sum_cons, List.length_cons]
    omega

/-- With a tabulator more columns are counted than there are characters. -/
theorem length_lt_sum_ignoredWidth {front : List Char} (h : ∀ c ∈ front, c ∈ skippedInLine)
    (hreturn : '\r' ∉ front) (hmark : '\ufeff' ∉ front) (htab : '\t' ∈ front) :
    front.length < (front.map ignoredWidth).sum := by
  obtain ⟨left, right, rfl⟩ := List.append_of_mem htab
  rw [List.forall_mem_append, List.forall_mem_cons] at h
  simp only [List.mem_append, List.mem_cons, not_or] at hreturn hmark
  have hleft := length_le_sum_ignoredWidth h.1 hreturn.1 hmark.1
  have hright := length_le_sum_ignoredWidth h.2.2 hreturn.2.2 hmark.2.2
  simp only [List.map_append, List.map_cons, List.sum_append, List.sum_cons, List.length_append,
    List.length_cons, ignoredWidth]
  omega

/-- What is known of an ignored character: it moves on by its width, or to the next line. -/
theorem of_pastIgnored {p q : Position} {c : Char} (h : p.pastIgnored c = some q) :
    (c = '\n' ∨ c ∈ skippedInLine) ∧
      q = if c = '\n' then p.nextLine else { p with column := p.column + ignoredWidth c } := by
  unfold Position.pastIgnored at h
  split at h <;>
    first
    | (obtain rfl := Option.some.inj h; exact ⟨by decide, rfl⟩)
    | cases h

/-- **The reader's line is the true one, but for the comments that a carriage return ended.** -/
theorem ReadTo.line_eq {s before rest : List Char} {reading : Reading}
    (h : ReadTo s before rest reading) :
    reading.position.line = (Place.start.past before).above.length + 1 + reading.returns := by
  rw [Place.length_above_past]
  show _ = 0 + before.count '\n' + 1 + _
  induction h with
  | start => rfl
  | @ignored before rest reading c position h hc ih =>
    obtain ⟨-, rfl⟩ := of_pastIgnored hc
    rw [List.count_append, List.count_singleton]
    by_cases hnewline : c = '\n'
    · simp only [Position.nextLine, ih, hnewline, beq_self_eq_true, if_true]
      omega
    · simp only [if_neg hnewline, ih, beq_iff_eq]
      omega
  | @comment before text rest reading ending h htext hending ih =>
    have hnone : text.count '\n' = 0 :=
      List.count_eq_zero.mpr fun hmem => (htext _ hmem).1 rfl
    rcases hending with rfl | rfl
    · simp [Position.nextLine, ih, hnone]
      omega
    · simp [Position.nextLine, ih, hnone]
      omega
  | lexeme h hscan ih =>
    simp only [Place.line_position_past, ih, List.count_append]
    omega

theorem Margin.put_line_ne_blank {margin : Margin} {opening : Opening} (h : opening ≠ .blank) :
    (margin.put opening).line ≠ .blank := by
  unfold put
  split
  · exact h
  · next hne => exact hne

theorem Margin.pastLexeme_line_ne_blank (margin : Margin) (text : List Char) :
    (margin.pastLexeme text).line ≠ .blank := by
  have hput : (margin.put .code).line ≠ .blank := put_line_ne_blank nofun
  unfold pastLexeme
  generalize margin.put .code = margin at hput
  induction text generalizing margin with
  | nil => exact hput
  | cons c text ih =>
    refine ih _ ?_
    show (if c = '\n' then margin.newline .inside else margin).line ≠ .blank
    split
    · exact nofun
    · exact hput

/-- **In front of the first token of a line stand ignored characters**, and the reader's column
counts their widths. -/
theorem ReadTo.column_eq {s before rest : List Char} {reading : Reading}
    (h : ReadTo s before rest reading) (hblank : reading.margin.line = .blank) :
    (∀ c ∈ (Place.start.past before).current, c ∈ skippedInLine) ∧
      reading.position.column
        = 1 + ((Place.start.past before).current.map ignoredWidth).sum := by
  have hnone : ∀ c ∈ ([] : List Char), c ∈ skippedInLine := fun _ hc => absurd hc List.not_mem_nil
  induction h with
  | start => exact ⟨hnone, rfl⟩
  | @ignored before rest reading c position h hc ih =>
    obtain ⟨hmem, rfl⟩ := of_pastIgnored hc
    rw [Place.past_concat, Place.step]
    change (if c = '\n' then reading.margin.newline .blank else reading.margin).line = .blank at hblank
    by_cases hnewline : c = '\n'
    · rw [if_pos hnewline, if_pos hnewline]
      exact ⟨hnone, rfl⟩
    · rw [if_neg hnewline] at hblank
      obtain ⟨hignored, hcolumn⟩ := ih hblank
      rw [if_neg hnewline, if_neg hnewline]
      refine ⟨?_, ?_⟩
      · intro d hd
        rcases List.mem_append.mp hd with hd | hd
        · exact hignored d hd
        · obtain rfl := List.mem_singleton.mp hd
          exact hmem.resolve_left hnewline
      · simp only [hcolumn, List.map_append, List.sum_append, List.map_singleton,
          List.sum_singleton]
        omega
  | @comment before text rest reading ending h htext hending ih =>
    rcases hending with rfl | rfl
    · have hcurrent : (Place.start.past (before ++ '#' :: (text ++ ['\n']))).current = [] := by
        have happend : before ++ '#' :: (text ++ ['\n']) = (before ++ '#' :: text) ++ ['\n'] := by
          simp
        rw [happend, Place.past_concat]
        rfl
      rw [hcurrent]
      exact ⟨hnone, rfl⟩
    · exact absurd hblank (Margin.put_line_ne_blank Opening.noConfusion)
  | @lexeme before rest reading scan h hscan ih =>
    exact absurd hblank (Margin.pastLexeme_line_ne_blank reading.margin scan.text)

end GraphSchema.Syntax
