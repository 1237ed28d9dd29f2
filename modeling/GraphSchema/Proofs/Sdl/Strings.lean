/-
String literals as tokens.

What `quoted` writes is one token on one line, wherever it stands and whatever the text is.  Its
value is the text with U+0010 in the place of every U+0008: those two share the escape `\b`, one
for the writer and one for the reader.

So a string comes back exactly if it holds no U+0008 (`readBack_eq_iff`).
-/
import GraphSchema.Literal
import GraphSchema.Proofs.Sdl.Layout

namespace GraphSchema

open Syntax

/-- A text as it comes back from its string literal. -/
def readBack (s : String) : String := String.ofList (s.toList.map Text.Quoted.readBack)

theorem readBack_eq_iff {s : String} : readBack s = s ↔ '\x08' ∉ s.toList := by
  rw [← Text.Quoted.map_readBack_eq_iff, readBack, ← String.toList_inj, String.toList_ofList]

theorem toList_quoted (s : String) : (quoted s).toList = Text.Quoted.encode s.toList :=
  String.toList_ofList

/-- **A text is written as one token on one line, and only U+0008 does not come back.**

A token begins at the quote, since no gap takes it, and ends at the closing one (`scan_encode`);
the reading goes on right behind it. -/
theorem tokensFrom_quoted (s : String) {rest : List Char} (hrest : s = "" → rest.head? ≠ some '"')
    (p : Position) :
    (∀ c ∈ (quoted s).toList, 0x20 ≤ c.toNat) ∧
      (p.past (quoted s).toList).line = p.line ∧
      Scan.ofText? ((quoted s).toList ++ rest)
        = some ⟨.string (readBack s), (quoted s).toList, rest⟩ ∧
      tokensFrom p ((quoted s).toList ++ rest)
        = (tokensFrom (p.past (quoted s).toList) rest).map (⟨p, .string (readBack s)⟩ :: ·) ∧
      (readBack s = s ↔ '\x08' ∉ s.toList) := by
  have hprintable : ∀ c ∈ (quoted s).toList, 0x20 ≤ c.toNat := by
    intro c hc
    rw [toList_quoted] at hc
    exact Text.Quoted.le_of_mem_encode hc
  have hnewline : '\n' ∉ (quoted s).toList := fun hmem => absurd (hprintable _ hmem) (by decide)
  have hscan : Scan.ofText? ((quoted s).toList ++ rest)
      = some ⟨.string (readBack s), (quoted s).toList, rest⟩ := by
    rw [toList_quoted]
    exact scan_encode s hrest
  have hquote : (quoted s).toList ++ rest
      = '"' :: (s.toList.flatMap Text.Quoted.escape ++ ['"'] ++ rest) := by
    rw [toList_quoted, Text.Quoted.encode, List.cons_append]
  have hbegins : beginsLexeme '"' = true := by decide
  have hskip := Sdl.dropIgnored_stop hbegins p (s.toList.flatMap Text.Quoted.escape ++ ['"'] ++ rest)
  refine ⟨hprintable, Sdl.line_past hnewline p, hscan, ?_, readBack_eq_iff⟩
  rw [hquote] at hscan ⊢
  rw [tokensFrom_of_scan hskip hscan]

/-- In front of a parenthesis: the empty text, where it matters what comes next, and one with a
quote, a backslash and a newline in it. -/
theorem tokensFrom_quoted_delimited :
    ("" = "" → [')'].head? ≠ some '"') ∧
      tokensFrom .start ((quoted "").toList ++ [')'])
        = (tokensFrom ⟨1, 3⟩ [')']).map (⟨.start, .string ""⟩ :: ·) ∧
      quoted "a\"\\\n" = "\"a\\\"\\\\\\n\"" ∧
      tokensFrom .start ((quoted "a\"\\\n").toList ++ [')'])
        = (tokensFrom ⟨1, 10⟩ [')']).map (⟨.start, .string "a\"\\\n"⟩ :: ·) := by
  have hempty : "" = "" → [')'].head? ≠ some '"' := fun _ => by decide
  have hescaped : "a\"\\\n" = "" → [')'].head? ≠ some '"' := fun h => absurd h (by decide)
  exact ⟨hempty, (tokensFrom_quoted "" hempty .start).2.2.2.1, by decide,
    (tokensFrom_quoted "a\"\\\n" hescaped .start).2.2.2.1⟩

/-- U+0008 is read as U+0010. -/
theorem not_forall_scan_quoted :
    ¬ ∀ s : String, Scan.ofText? (quoted s).toList = some ⟨.string s, (quoted s).toList, []⟩ := by
  intro h
  have hread : Scan.ofText? (quoted "\x08").toList
      = some ⟨.string "\x10", (quoted "\x08").toList, []⟩ := by rfl
  rw [h "\x08"] at hread
  have hlexeme := congrArg Scan.lexeme (Option.some.inj hread)
  exact absurd (Lexeme.string.inj hlexeme) (by decide)

end GraphSchema
