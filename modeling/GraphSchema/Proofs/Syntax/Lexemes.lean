/-
A lexeme is found again where it is written.

Every lexeme has a text (`Lexeme.text`), and a text that begins with it begins with that
lexeme, if what follows cannot go on with it: a punctuator stands for itself, and any other
lexeme ends at a blank, a comma or a punctuator.

Not every lexeme comes back from its own text.  A float may be written as a name or as a
numeral that is not accepted, and U+0008 in a string is read as another character;
`Lexeme.Legible` leaves these out.
-/
import Mathlib
import GraphSchema.Proofs.Decimal.ReadBack
import GraphSchema.Proofs.Text.Lines
import GraphSchema.Proofs.Text.Quoted
import GraphSchema.Syntax.Token

namespace GraphSchema.Syntax

/-! ### Texts

What a lexeme is written as, and which lexemes can be written at all: a name has to be one, a float
has to be one whose text is read back, and a string may hold no U+0008.
-/

/-- The characters of a punctuator. -/
def Punctuator.text : Punctuator → List Char
  | .bang => ['!']
  | .dollar => ['$']
  | .colon => [':']
  | .equals => ['=']
  | .at => ['@']
  | .pipe => ['|']
  | .ampersand => ['&']
  | .spread => ['.', '.', '.']
  | .parenOpen => ['(']
  | .parenClose => [')']
  | .bracketOpen => ['[']
  | .bracketClose => [']']
  | .braceOpen => ['{']
  | .braceClose => ['}']

/-- A lexeme as it is written. -/
def Lexeme.text : Lexeme → List Char
  | .punctuator p => p.text
  | .name text => text.toList
  | .int n => (toString n.toInt).toList
  | .float x => (Decimal.floatText x).toList
  | .string value => Text.Quoted.encode value.toList

/-- The text is a name. -/
def isName (text : List Char) : Bool :=
  match text with
  | [] => false
  | c :: rest => isNameStart c && rest.all isNameChar

/-- What is written for the lexeme is read as the lexeme. -/
def Lexeme.Legible : Lexeme → Prop
  | .punctuator _ | .int _ => True
  | .name text => Syntax.isName text.toList = true
  | .float x => Decimal.Legible x
  | .string value => '\x08' ∉ value.toList

instance : (lexeme : Lexeme) → Decidable lexeme.Legible
  | .punctuator _ => inferInstanceAs (Decidable True)
  | .int _ => inferInstanceAs (Decidable True)
  | .name text => inferInstanceAs (Decidable (Syntax.isName text.toList = true))
  | .float x => inferInstanceAs (Decidable (Decimal.Legible x))
  | .string value => inferInstanceAs (Decidable ('\x08' ∉ value.toList))

/-- The character ends every lexeme but a string. -/
def isDelimiter (c : Char) : Bool :=
  c == ' ' || c == ',' || c == '\n' || (Punctuator.ofChar? c).isSome

/-- Nothing of the text belongs to a lexeme in front of it. -/
def Delimits (rest : List Char) : Prop := ∀ c ∈ rest.head?, isDelimiter c = true

/-! ### Kinds of characters -/

theorem Punctuator.text_of_ofChar? {c : Char} {p : Punctuator} (h : ofChar? c = some p) :
    p.text = [c] := by
  unfold ofChar? at h
  split at h <;> first | (obtain rfl := Option.some.inj h; rfl) | cases h

/-- The characters that are punctuators. -/
theorem Punctuator.mem_of_ofChar? {c : Char} {p : Punctuator} (h : ofChar? c = some p) :
    c ∈ ['!', '$', ':', '=', '@', '|', '&', '(', ')', '[', ']', '{', '}'] := by
  have htext := text_of_ofChar? h
  cases p with
  | spread => cases (List.cons.inj htext).2
  | _ => rw [← (List.cons.inj htext).1]; decide

/-- What is found of all entries of a list holds of them.  (There are too many characters to go
through all of them.) -/
theorem forall_mem_of_all {α : Type} {l : List α} {p : α → Prop} [DecidablePred p]
    (h : (l.all fun a => decide (p a)) = true) : ∀ a ∈ l, p a :=
  fun a ha => of_decide_eq_true (List.all_eq_true.mp h a ha)

/-- The characters that delimit. -/
def delimiters : List Char :=
  [' ', ',', '\n', '!', '$', ':', '=', '@', '|', '&', '(', ')', '[', ']', '{', '}']

theorem isDelimiter_iff {c : Char} : isDelimiter c = true ↔ c ∈ delimiters := by
  unfold isDelimiter
  constructor
  · intro h
    simp only [Bool.or_eq_true, beq_iff_eq] at h
    rcases h with ((rfl | rfl) | rfl) | h
    · decide
    · decide
    · decide
    · obtain ⟨p, hp⟩ := Option.isSome_iff_exists.mp h
      have hmem := Punctuator.mem_of_ofChar? hp
      unfold delimiters
      exact List.mem_append_right [' ', ',', '\n'] hmem
  · have hall : ∀ c ∈ delimiters, (c == ' ' || c == ',' || c == '\n'
        || (Punctuator.ofChar? c).isSome) = true := forall_mem_of_all (by decide)
    exact hall c

/-- No delimiter goes on with a name or a numeral. -/
theorem of_isDelimiter {c : Char} (h : isDelimiter c = true) :
    isNameChar c = false ∧ endsNumber c = true ∧ c ≠ '"' := by
  have hall : ∀ c ∈ delimiters, isNameChar c = false ∧ endsNumber c = true ∧ c ≠ '"' :=
    forall_mem_of_all (by decide)
  exact hall c (isDelimiter_iff.mp h)

/-- A delimiter is none of the characters that a predicate holds for. -/
theorem isDelimiter_eq_false {p : Char → Bool} (hp : ∀ d ∈ delimiters, p d = false) {c : Char}
    (h : p c = true) : isDelimiter c = false := by
  rw [← Bool.not_eq_true]
  intro hdelimiter
  rw [hp c (isDelimiter_iff.mp hdelimiter)] at h
  cases h

theorem ofChar?_of_isDelimiter_eq_false {c : Char} (h : isDelimiter c = false) :
    Punctuator.ofChar? c = none := by
  unfold isDelimiter at h
  rw [Bool.or_eq_false_iff] at h
  rw [← Option.not_isSome_iff_eq_none, h.2]
  exact Bool.false_ne_true

/-! ### Scanning

One lemma for each kind of lexeme.  The scanner decides by the first character, so each lemma
begins by ruling out the branches of the others.
-/

theorem takeWhile_append_of_boundary {p : Char → Bool} {text rest : List Char}
    (hinside : ∀ c ∈ text, p c = true) (hboundary : ∀ c ∈ rest.head?, p c = false) :
    (text ++ rest).takeWhile p = text ∧ (text ++ rest).dropWhile p = rest := by
  rw [List.takeWhile_append_of_pos hinside, List.dropWhile_append_of_pos hinside]
  cases rest with
  | nil => simp
  | cons c rest =>
    have hc : p c = false := hboundary c rfl
    rw [List.takeWhile_cons_of_neg (by simp [hc]), List.dropWhile_cons_of_neg (by simp [hc])]
    simp

theorem scan_punctuator (p : Punctuator) (rest : List Char) :
    Scan.ofText? (p.text ++ rest) = some ⟨.punctuator p, p.text, rest⟩ := by
  cases p <;> rfl

/-- The scan of a character that begins neither a string nor a punctuator. -/
theorem scan_cons {c : Char} (hquote : c ≠ '"') (hdot : c ≠ '.')
    (hdelimiter : isDelimiter c = false) (rest : List Char) :
    Scan.ofText? (c :: rest) =
      if isNameStart c then
        some ⟨.name (String.ofList (c :: rest.takeWhile isNameChar)),
          c :: rest.takeWhile isNameChar, rest.dropWhile isNameChar⟩
      else if c.isDigit || c == '-' then
        (Decimal.Numeral.read (c :: rest.takeWhile (!endsNumber ·))).map fun n =>
          ⟨.ofNumeral n, c :: rest.takeWhile (!endsNumber ·), rest.dropWhile (!endsNumber ·)⟩
      else
        none := by
  rw [Scan.ofText?]
  · rw [ofChar?_of_isDelimiter_eq_false hdelimiter]
  · intro _ hc _
    exact hquote hc
  · exact hquote
  · intro _ hc _
    exact hdot hc

theorem isDelimiter_of_isNameStart {c : Char} (h : isNameStart c = true) :
    isDelimiter c = false :=
  isDelimiter_eq_false (forall_mem_of_all (by decide)) h

theorem scan_name {text : String} (h : isName text.toList = true) {rest : List Char}
    (hrest : Delimits rest) :
    Scan.ofText? (text.toList ++ rest) = some ⟨.name text, text.toList, rest⟩ := by
  unfold isName at h
  split at h
  · cases h
  · next c more heq =>
    rw [Bool.and_eq_true, List.all_eq_true] at h
    obtain ⟨hstart, hmore⟩ := h
    have hquote : c ≠ '"' := by
      rintro rfl
      exact absurd hstart (by decide)
    have hdot : c ≠ '.' := by
      rintro rfl
      exact absurd hstart (by decide)
    obtain ⟨htake, hdrop⟩ := takeWhile_append_of_boundary hmore
      fun d hd => (of_isDelimiter (hrest d hd)).1
    rw [heq, List.cons_append, scan_cons hquote hdot (isDelimiter_of_isNameStart hstart),
      if_pos hstart, htake, hdrop, ← heq, String.ofList_toList]

theorem isNameStart_eq_false {c : Char} (h : (c.isDigit || c == '-') = true) :
    isNameStart c = false := by
  rw [Bool.or_eq_true, beq_iff_eq] at h
  rcases h with h | rfl
  · have hne : c ≠ '_' := by
      rintro rfl
      exact absurd h (by decide)
    simp only [Char.isDigit, Bool.and_eq_true, decide_eq_true_eq, UInt32.le_iff_toNat_le,
      ge_iff_le] at h
    simp only [isNameStart, Char.isAlpha, Char.isUpper, Char.isLower, Bool.or_eq_false_iff,
      Bool.and_eq_false_iff, decide_eq_false_iff_not, UInt32.le_iff_toNat_le, ge_iff_le,
      beq_eq_false_iff_ne]
    have hle : c.val.toNat ≤ 57 := h.2
    refine ⟨⟨fun hupper => ?_, Or.inl fun hlower => ?_⟩, hne⟩
    · have hge : 65 ≤ c.val.toNat := hupper.1
      omega
    · have hge : 97 ≤ c.val.toNat := hlower
      omega
  · decide

theorem scan_numeral {c : Char} {text rest : List Char} {n : Decimal.Numeral}
    (hfirst : (c.isDigit || c == '-') = true) (htext : ∀ d ∈ text, endsNumber d = false)
    (hread : Decimal.Numeral.read (c :: text) = some n) (hrest : Delimits rest) :
    Scan.ofText? (c :: text ++ rest) = some ⟨.ofNumeral n, c :: text, rest⟩ := by
  have hquote : c ≠ '"' := by
    rintro rfl
    exact absurd hfirst (by decide)
  have hdot : c ≠ '.' := by
    rintro rfl
    exact absurd hfirst (by decide)
  have hdelimiter : isDelimiter c = false :=
    isDelimiter_eq_false (p := fun c => c.isDigit || c == '-') (forall_mem_of_all (by decide)) hfirst
  have hname : isNameStart c = false := isNameStart_eq_false hfirst
  obtain ⟨htake, hdrop⟩ := takeWhile_append_of_boundary (p := (!endsNumber ·))
    (fun d hd => by rw [htext d hd]; rfl)
    (fun d hd => by rw [(of_isDelimiter (hrest d hd)).2.1]; rfl)
  rw [List.cons_append, scan_cons hquote hdot hdelimiter, hname, if_neg Bool.false_ne_true,
    if_pos hfirst, htake, hdrop, hread]
  rfl

/-- A literal that is not empty does not begin with a quote inside. -/
theorem exists_escape_eq (c : Char) : ∃ d more, Text.Quoted.escape c = d :: more ∧ d ≠ '"' := by
  have hescaped := Text.Quoted.escaped_escape c
  generalize Text.Quoted.escape c = text at hescaped
  cases hescaped with
  | plain hplain _ => exact ⟨c, [], rfl, hplain.1⟩
  | letter _ _ _ _ => exact ⟨'\\', _, rfl, by decide⟩
  | unicode _ _ _ => exact ⟨'\\', _, rfl, by decide⟩

/-- A quote that no second one follows twice begins a string on one line. -/
theorem scan_quote {s : List Char} (h : ∀ rest, s ≠ '"' :: '"' :: rest) :
    Scan.ofText? ('"' :: s) = Scan.quoted? s := by
  rw [Scan.ofText?]
  intro rest hs
  exact h rest hs

/-- **A string literal is one lexeme.**  Only behind the literal of the empty text a further quote
would open a block string. -/
theorem scan_encode (value : String) {rest : List Char} (hrest : value = "" → rest.head? ≠ some '"') :
    Scan.ofText? (Text.Quoted.encode value.toList ++ rest)
      = some ⟨.string (String.ofList (value.toList.map Text.Quoted.readBack)),
          Text.Quoted.encode value.toList, rest⟩ := by
  have happend : Text.Quoted.encode value.toList ++ rest
      = '"' :: (value.toList.flatMap Text.Quoted.escape ++ '"' :: rest) := by
    rw [Text.Quoted.encode, List.cons_append, List.append_assoc, List.singleton_append]
  rw [happend, scan_quote, Scan.quoted?, Text.Quoted.cut_encode]
  · simp only [bind, Option.bind_some, Text.Quoted.decode_encode, pure]
    rfl
  · intro more heq
    cases hvalue : value.toList with
    | nil =>
      rw [hvalue] at heq
      obtain rfl : rest = '"' :: more := (List.cons.inj heq).2
      exact hrest (String.toList_eq_nil_iff.mp hvalue) rfl
    | cons c others =>
      obtain ⟨d, escaped, hescape, hd⟩ := exists_escape_eq c
      rw [hvalue, List.flatMap_cons, hescape] at heq
      exact hd (List.cons.inj heq).1

theorem head?_ne_quote {rest : List Char} (h : Delimits rest) : rest.head? ≠ some '"' :=
  fun hquote => (of_isDelimiter (h '"' hquote)).2.2 rfl

theorem scan_string {value : String} (h : '\x08' ∉ value.toList) {rest : List Char}
    (hrest : Delimits rest) :
    Scan.ofText? (Text.Quoted.encode value.toList ++ rest)
      = some ⟨.string value, Text.Quoted.encode value.toList, rest⟩ := by
  rw [scan_encode value fun _ => head?_ne_quote hrest, Text.Quoted.map_readBack h,
    String.ofList_toList]

/-- The characters that end a number. -/
theorem mem_of_endsNumber {c : Char} (h : endsNumber c = true) :
    c ∈ '#' :: '\t' :: '\r' :: delimiters := by
  unfold endsNumber at h
  simp only [Bool.and_eq_true, Bool.or_eq_true, beq_iff_eq, bne_iff_ne] at h
  obtain ⟨hmark, (rfl | hignored) | hpunctuator⟩ := h
  · decide
  · unfold Position.pastIgnored at hignored
    split at hignored <;> simp_all [delimiters]
  · obtain ⟨p, hp⟩ := Option.isSome_iff_exists.mp hpunctuator
    exact List.mem_append_right ['#', '\t', '\r', ' ', ',', '\n'] (Punctuator.mem_of_ofChar? hp)

theorem endsNumber_of_isNumeralChar {c : Char} (h : Decimal.isNumeralChar c = true) :
    endsNumber c = false := by
  have hall : ∀ d ∈ '#' :: '\t' :: '\r' :: delimiters, Decimal.isNumeralChar d = false :=
    forall_mem_of_all (by decide)
  rw [← Bool.not_eq_true]
  intro hends
  rw [hall c (mem_of_endsNumber hends)] at h
  cases h

theorem scan_numeralText {text rest : List Char} {n : Decimal.Numeral}
    (hfirst : ∃ c more, text = c :: more ∧ (c.isDigit || c == '-') = true)
    (htext : ∀ c ∈ text, Decimal.isNumeralChar c = true)
    (hread : Decimal.Numeral.read text = some n) (hrest : Delimits rest) :
    Scan.ofText? (text ++ rest) = some ⟨.ofNumeral n, text, rest⟩ := by
  obtain ⟨c, more, rfl, hc⟩ := hfirst
  refine scan_numeral hc (fun d hd => ?_) hread hrest
  exact endsNumber_of_isNumeralChar (htext d (List.mem_cons_of_mem _ hd))

/-- **A lexeme is found again.** -/
theorem scan_text {lexeme : Lexeme} (h : lexeme.Legible) {rest : List Char}
    (hrest : Delimits rest ∨ ∃ p, lexeme = .punctuator p) :
    Scan.ofText? (lexeme.text ++ rest) = some ⟨lexeme, lexeme.text, rest⟩ := by
  cases lexeme with
  | punctuator p => exact scan_punctuator p rest
  | name text => exact scan_name h (hrest.resolve_right fun ⟨p, hp⟩ => by cases hp)
  | string value => exact scan_string h (hrest.resolve_right fun ⟨p, hp⟩ => by cases hp)
  | int n =>
    obtain ⟨c, digits, heq, hc, hdigits⟩ := Decimal.Numeral.exists_toString_eq n.toInt
    exact scan_numeralText ⟨c, digits, heq, hc⟩
      (fun d hd => Decimal.isNumeralChar_of_mem_toString hd) (Decimal.Numeral.read_toString n)
      (hrest.resolve_right fun ⟨p, hp⟩ => by cases hp)
  | float x =>
    refine scan_numeralText ?_ ?_ (Decimal.read_floatText h)
      (hrest.resolve_right fun ⟨p, hp⟩ => by cases hp)
    · obtain ⟨c, more, heq, hc⟩ := Decimal.exists_floatText_eq h.finite
      exact ⟨c, more, heq, by rwa [Bool.or_eq_true, beq_iff_eq]⟩
    · intro c hc
      exact Decimal.isNumeralChar_of_mem_floatText h.finite hc

/-! ### What texts are made of

Layouts need to know of a lexeme that it begins with no blank and no comment, and that it stays on
its line.
-/

/-- The character may begin a lexeme: it is printable, and begins no comment. -/
def beginsLexeme (c : Char) : Bool :=
  decide (0x21 ≤ c.toNat) && decide (c.toNat ≤ 0x7E) && c != '#' && c != ','

theorem isAlphanum_bounds {c : Char} (h : c.isAlphanum = true) :
    0x30 ≤ c.toNat ∧ c.toNat ≤ 0x7A := by
  simp only [Char.isAlphanum, Char.isAlpha, Char.isUpper, Char.isLower, Char.isDigit,
    Bool.or_eq_true, Bool.and_eq_true, decide_eq_true_eq, UInt32.le_iff_toNat_le, ge_iff_le] at h
  have hnat : c.val.toNat = c.toNat := rfl
  rw [hnat] at h
  rcases h with (h | h) | h
  · have hlow : 0x41 ≤ c.toNat := h.1
    have hhigh : c.toNat ≤ 0x5A := h.2
    omega
  · have hlow : 0x61 ≤ c.toNat := h.1
    have hhigh : c.toNat ≤ 0x7A := h.2
    omega
  · have hlow : 0x30 ≤ c.toNat := h.1
    have hhigh : c.toNat ≤ 0x39 := h.2
    omega

/-- The characters of names and numerals. -/
theorem beginsLexeme_of_isNameChar {c : Char} (h : isNameChar c = true) :
    beginsLexeme c = true := by
  unfold isNameChar at h
  rw [Bool.or_eq_true, beq_iff_eq] at h
  rcases h with h | rfl
  · have hbounds := isAlphanum_bounds h
    have hhash : c ≠ '#' := by
      rintro rfl
      exact absurd h (by decide)
    have hcomma : c ≠ ',' := by
      rintro rfl
      exact absurd h (by decide)
    simp only [beginsLexeme, Bool.and_eq_true, decide_eq_true_eq, bne_iff_ne]
    exact ⟨⟨⟨by omega, by omega⟩, hhash⟩, hcomma⟩
  · decide

theorem isNameChar_of_isNameStart {c : Char} (h : isNameStart c = true) :
    isNameChar c = true := by
  unfold isNameStart at h
  unfold isNameChar
  rw [Bool.or_eq_true] at h ⊢
  refine h.imp_left fun halpha => ?_
  rw [Char.isAlphanum, halpha]
  rfl

theorem isNameChar_of_mem {text : List Char} (h : isName text = true) {c : Char} (hc : c ∈ text) :
    isNameChar c = true := by
  unfold isName at h
  split at h
  · cases h
  · rw [Bool.and_eq_true, List.all_eq_true] at h
    rcases List.mem_cons.mp hc with rfl | hc
    · exact isNameChar_of_isNameStart h.1
    · exact h.2 c hc

theorem beginsLexeme_of_isNumeralChar {c : Char} (h : Decimal.isNumeralChar c = true) :
    beginsLexeme c = true := by
  unfold Decimal.isNumeralChar at h
  simp only [Bool.or_eq_true, beq_iff_eq] at h
  rcases h with ((h | rfl) | rfl) | rfl
  · refine beginsLexeme_of_isNameChar ?_
    simp only [isNameChar, Char.isAlphanum, h, Bool.or_true, Bool.true_or]
  · decide
  · decide
  · decide

/-- Every character of a lexeme that is not a string is printable. -/
theorem beginsLexeme_of_mem_text {lexeme : Lexeme} (h : lexeme.Legible)
    (hstring : ∀ value, lexeme ≠ .string value) {c : Char} (hc : c ∈ lexeme.text) :
    beginsLexeme c = true := by
  cases lexeme with
  | punctuator p =>
    have hall : ∀ c ∈ p.text, beginsLexeme c = true := forall_mem_of_all (by cases p <;> decide)
    exact hall c hc
  | name text => exact beginsLexeme_of_isNameChar (isNameChar_of_mem h hc)
  | int n =>
    refine beginsLexeme_of_isNumeralChar ?_
    exact Decimal.isNumeralChar_of_mem_toString hc
  | float x =>
    exact beginsLexeme_of_isNumeralChar (Decimal.isNumeralChar_of_mem_floatText h.finite hc)
  | string value => exact absurd rfl (hstring value)

theorem text_ne_nil {lexeme : Lexeme} (h : lexeme.Legible) : lexeme.text ≠ [] := by
  cases lexeme with
  | punctuator p => cases p <;> exact List.cons_ne_nil _ _
  | name text =>
    intro hnil
    have hname : isName text.toList = true := h
    rw [show text.toList = [] from hnil] at hname
    cases hname
  | int n =>
    obtain ⟨c, digits, heq, _⟩ := Decimal.Numeral.exists_toString_eq n.toInt
    show (toString n.toInt).toList ≠ []
    rw [heq]
    exact List.cons_ne_nil _ _
  | float x =>
    obtain ⟨c, rest, heq, _⟩ := Decimal.exists_floatText_eq h.finite
    show (Decimal.floatText x).toList ≠ []
    rw [heq]
    exact List.cons_ne_nil _ _
  | string value => exact List.cons_ne_nil _ _

theorem exists_text_eq {lexeme : Lexeme} (h : lexeme.Legible) :
    ∃ c rest, lexeme.text = c :: rest ∧ beginsLexeme c = true := by
  obtain ⟨c, rest, heq⟩ := List.exists_cons_of_ne_nil (text_ne_nil h)
  refine ⟨c, rest, heq, ?_⟩
  cases lexeme with
  | string value =>
    obtain rfl : '"' = c := (List.cons.inj heq).1
    decide
  | _ => exact beginsLexeme_of_mem_text h (fun _ => nofun) (heq ▸ List.mem_cons_self)

/-- No control character stands in a lexeme. -/
theorem le_of_mem_text {lexeme : Lexeme} (h : lexeme.Legible) {c : Char} (hc : c ∈ lexeme.text) :
    0x20 ≤ c.toNat := by
  cases lexeme with
  | string value => exact Text.Quoted.le_of_mem_encode hc
  | _ =>
    have hbegins := beginsLexeme_of_mem_text h (fun _ => nofun) hc
    unfold beginsLexeme at hbegins
    simp only [Bool.and_eq_true, decide_eq_true_eq] at hbegins
    omega

/-- A lexeme stays on its line. -/
theorem inLine_of_mem_text {lexeme : Lexeme} (h : lexeme.Legible) {c : Char}
    (hc : c ∈ lexeme.text) : Text.InLine c := by
  have hle := le_of_mem_text h hc
  refine ⟨?_, ?_⟩
  · rintro rfl
    exact absurd hle (by decide)
  · rintro rfl
    exact absurd hle (by decide)

/-! ### Documents -/

/-- A document ends where nothing is left. -/
theorem tokensFrom_of_end {p start : Position} {s : List Char}
    (hskip : dropIgnored false p s = (start, [])) : tokensFrom p s = some [] := by
  rw [tokensFrom]
  split
  · rfl
  · next heq =>
    rw [hskip] at heq
    cases (Prod.mk.inj heq).2

/-- Behind what is ignored a lexeme is scanned. -/
theorem tokensFrom_of_skip {p start : Position} {s more : List Char} {c : Char}
    (hskip : dropIgnored false p s = (start, c :: more)) :
    tokensFrom p s = (Scan.ofText? (c :: more)).bind fun scan =>
      (tokensFrom (start.past scan.text) scan.rest).map fun tokens => ⟨start, scan.lexeme⟩ :: tokens := by
  rw [tokensFrom]
  split
  · next heq =>
    rw [hskip] at heq
    cases (Prod.mk.inj heq).2
  · next start' c' more' heq =>
    rw [hskip] at heq
    obtain ⟨rfl, hcons⟩ := Prod.mk.inj heq
    obtain ⟨rfl, rfl⟩ := List.cons.inj hcons
    split
    · next hscan => rw [hscan, Option.bind_none]
    · next scan hscan => rw [hscan, Option.bind_some]

theorem tokensFrom_of_scan {p start : Position} {s more : List Char} {c : Char} {scan : Scan}
    (hskip : dropIgnored false p s = (start, c :: more))
    (hscan : Scan.ofText? (c :: more) = some scan) :
    tokensFrom p s = (tokensFrom (start.past scan.text) scan.rest).map
      fun tokens => ⟨start, scan.lexeme⟩ :: tokens := by
  rw [tokensFrom_of_skip hskip, hscan, Option.bind_some]

/-- A document in which no lexeme begins is none. -/
theorem tokensFrom_of_noScan {p start : Position} {s more : List Char} {c : Char}
    (hskip : dropIgnored false p s = (start, c :: more)) (hscan : Scan.ofText? (c :: more) = none) :
    tokensFrom p s = none := by
  rw [tokensFrom_of_skip hskip, hscan, Option.bind_none]

end GraphSchema.Syntax
