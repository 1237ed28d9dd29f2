/-
Tokens: the words of a document.

A document is a sequence of punctuators, names, numbers and strings.  Blanks, commas
and comments stand between them and are dropped, but they move the position, and a
token's position is where it begins.
-/
import GraphSchema.Decimal.Numeral
import GraphSchema.Text.Block
import GraphSchema.Text.Quoted

namespace GraphSchema.Syntax

/-- A place in a document; lines and columns are counted from one. -/
structure Position where
  line : Nat
  column : Nat
  deriving DecidableEq, Inhabited, Repr

/-- The signs of the language. -/
inductive Punctuator where
  | bang | dollar | colon | equals | at | pipe | ampersand | spread
  | parenOpen | parenClose | bracketOpen | bracketClose | braceOpen | braceClose
  deriving DecidableEq, Repr

/-- What a token says. -/
inductive Lexeme where
  | punctuator (p : Punctuator)
  | name (text : String)
  | int (value : Int64)
  | float (value : Float)
  | string (value : String)

/-- A lexeme and the position of its first character. -/
structure Token where
  position : Position
  lexeme : Lexeme

/-! ### Positions -/

/-- The position of a document's first character. -/
def Position.start : Position := ⟨1, 1⟩

/-- The start of the next line. -/
def Position.nextLine (p : Position) : Position := ⟨p.line + 1, 1⟩

/-- The position behind a text that begins here. -/
def Position.past (p : Position) (text : List Char) : Position :=
  text.foldl (fun p c => if c = '\n' then p.nextLine else { p with column := p.column + 1 }) p

/-- The position behind an ignored character that begins no comment; `none` for a
character that is not ignored.  A tabulator counts for eight columns, a carriage return
and a byte-order mark for none. -/
def Position.pastIgnored (p : Position) : Char → Option Position
  | ' ' | ',' => some { p with column := p.column + 1 }
  | '\t' => some { p with column := p.column + 8 }
  | '\r' | '\ufeff' => some p
  | '\n' => some p.nextLine
  | _ => none

/-- Drops what is ignored in front of the next token.  A comment ends with the line, at
a carriage return as well as at a newline. -/
def dropIgnored (inComment : Bool) (p : Position) : List Char → Position × List Char
  | [] => (p, [])
  | c :: rest =>
    if inComment then
      if c = '\n' ∨ c = '\r' then dropIgnored false p.nextLine rest else dropIgnored true p rest
    else if c = '#' then dropIgnored true p rest
    else
      match p.pastIgnored c with
      | some p => dropIgnored false p rest
      | none => (p, c :: rest)

theorem length_dropIgnored_le (inComment : Bool) (p : Position) (s : List Char) :
    (dropIgnored inComment p s).2.length ≤ s.length := by
  fun_induction dropIgnored inComment p s <;> simp_all <;> omega

/-! ### Lexemes -/

/-- The punctuator that a character is. -/
def Punctuator.ofChar? : Char → Option Punctuator
  | '!' => some .bang
  | '$' => some .dollar
  | ':' => some .colon
  | '=' => some .equals
  | '@' => some .at
  | '|' => some .pipe
  | '&' => some .ampersand
  | '(' => some .parenOpen
  | ')' => some .parenClose
  | '[' => some .bracketOpen
  | ']' => some .bracketClose
  | '{' => some .braceOpen
  | '}' => some .braceClose
  | _ => none

/-- The characters a name starts with. -/
def isNameStart (c : Char) : Bool := c.isAlpha || c == '_'

/-- The characters a name goes on with. -/
def isNameChar (c : Char) : Bool := c.isAlphanum || c == '_'

/-- Whether a character ends a number: an ignored character or a punctuator. -/
def endsNumber (c : Char) : Bool :=
  c != '\ufeff' && (c == '#' || (Position.start.pastIgnored c).isSome
    || (Punctuator.ofChar? c).isSome)

/-- The lexeme of a numeral. -/
def Lexeme.ofNumeral : Decimal.Numeral → Lexeme
  | .integer n => .int n
  | .float x => .float x

/-- A lexeme that a text begins with, how it is written there, and what follows it. -/
structure Scan where
  lexeme : Lexeme
  text : List Char
  rest : List Char

/-- Scans a string literal behind its opening quote. -/
def Scan.quoted? (s : List Char) : Option Scan := do
  let (content, rest) ← Text.Quoted.cut s
  let value ← Text.Quoted.decode content
  return ⟨.string (String.ofList value), '"' :: content ++ ['"'], rest⟩

/-- Scans a block string behind its opening quotes. -/
def Scan.block? (s : List Char) : Option Scan := do
  let (content, rest) ← Text.Block.cut false s
  return ⟨.string (String.ofList (Text.Block.value content)),
    '"' :: '"' :: '"' :: content ++ ['"', '"', '"'], rest⟩

/-- Scans the lexeme that a text begins with. -/
def Scan.ofText? : List Char → Option Scan
  | [] => none
  | '"' :: '"' :: '"' :: rest => Scan.block? rest
  | '"' :: rest => Scan.quoted? rest
  | '.' :: '.' :: '.' :: rest => some ⟨.punctuator .spread, ['.', '.', '.'], rest⟩
  | c :: rest =>
    match Punctuator.ofChar? c with
    | some p => some ⟨.punctuator p, [c], rest⟩
    | none =>
      if isNameStart c then
        let text := c :: rest.takeWhile isNameChar
        some ⟨.name (String.ofList text), text, rest.dropWhile isNameChar⟩
      else if c.isDigit || c == '-' then
        let text := c :: rest.takeWhile (!endsNumber ·)
        (Decimal.Numeral.read text).map fun n =>
          ⟨.ofNumeral n, text, rest.dropWhile (!endsNumber ·)⟩
      else
        none

/-- What a text begins with, told by what is scanned of it. -/
inductive Scan.Begins : List Char → Scan → Prop
  | block {s content rest : List Char} (hcut : Text.Block.cut false s = some (content, rest)) :
    Begins ('"' :: '"' :: '"' :: s)
      ⟨.string (String.ofList (Text.Block.value content)), '"' :: '"' :: '"' :: content ++ ['"', '"', '"'], rest⟩
  | quoted {s content rest value : List Char} (hcut : Text.Quoted.cut s = some (content, rest))
      (hvalue : Text.Quoted.decode content = some value) :
    Begins ('"' :: s) ⟨.string (String.ofList value), '"' :: content ++ ['"'], rest⟩
  | spread (rest : List Char) :
    Begins ('.' :: '.' :: '.' :: rest) ⟨.punctuator .spread, ['.', '.', '.'], rest⟩
  | punctuator {c : Char} {p : Punctuator} (h : Punctuator.ofChar? c = some p) (rest : List Char) :
    Begins (c :: rest) ⟨.punctuator p, [c], rest⟩
  | name {c : Char} (h : isNameStart c = true) (rest : List Char) :
    Begins (c :: rest) ⟨.name (String.ofList (c :: rest.takeWhile isNameChar)), c :: rest.takeWhile isNameChar,
      rest.dropWhile isNameChar⟩
  | numeral {c : Char} {rest : List Char} {n : Decimal.Numeral} (h : (c.isDigit || c == '-') = true)
      (hread : Decimal.Numeral.read (c :: rest.takeWhile (!endsNumber ·)) = some n) :
    Begins (c :: rest) ⟨.ofNumeral n, c :: rest.takeWhile (!endsNumber ·), rest.dropWhile (!endsNumber ·)⟩

/-- A text that a lexeme is scanned from begins with it. -/
theorem Scan.begins_of_ofText? {s : List Char} {scan : Scan} (h : Scan.ofText? s = some scan) :
    Begins s scan := by
  unfold Scan.ofText? at h
  split at h
  · cases h
  · unfold Scan.block? at h
    obtain ⟨_, hcut, h⟩ := Option.bind_eq_some_iff.mp h
    obtain rfl := Option.some.inj h
    exact .block hcut
  · unfold Scan.quoted? at h
    obtain ⟨_, hcut, h⟩ := Option.bind_eq_some_iff.mp h
    obtain ⟨_, hvalue, h⟩ := Option.bind_eq_some_iff.mp h
    obtain rfl := Option.some.inj h
    exact .quoted hcut hvalue
  · obtain rfl := Option.some.inj h
    exact .spread _
  · split at h
    · next hp =>
      obtain rfl := Option.some.inj h
      exact .punctuator hp _
    · split at h
      · next hstart =>
        obtain rfl := Option.some.inj h
        exact .name hstart _
      · split at h
        · next hdigit =>
          obtain ⟨n, hread, rfl⟩ := Option.map_eq_some_iff.mp h
          exact .numeral hdigit hread
        · cases h

/-- A scan splits the text: nothing is lost. -/
theorem Scan.text_append_rest {s : List Char} {scan : Scan} (h : Scan.ofText? s = some scan) :
    scan.text ++ scan.rest = s := by
  cases begins_of_ofText? h with
  | block hcut => simp [Text.Block.eq_append_of_cut hcut]
  | quoted hcut => simp [Text.Quoted.eq_append_of_cut hcut]
  | spread | punctuator => rfl
  | name | numeral => simp

/-- A lexeme takes at least one character. -/
theorem Scan.text_ne_nil {s : List Char} {scan : Scan} (h : Scan.ofText? s = some scan) :
    scan.text ≠ [] := by
  cases begins_of_ofText? h <;> exact List.cons_ne_nil _ _

theorem Scan.length_rest_lt {s : List Char} {scan : Scan} (h : Scan.ofText? s = some scan) :
    scan.rest.length < s.length := by
  have hpos := List.length_pos_iff.mpr (Scan.text_ne_nil h)
  rw [← Scan.text_append_rest h, List.length_append]
  omega

/-! ### Whole documents -/

/-- The tokens of a text that begins at the given position, if all of it is made of
tokens. -/
def tokensFrom (p : Position) (s : List Char) : Option (List Token) :=
  match _hskip : dropIgnored false p s with
  | (_, []) => some []
  | (start, c :: more) =>
    match _hscan : Scan.ofText? (c :: more) with
    | none => none
    | some scan =>
      (tokensFrom (start.past scan.text) scan.rest).map fun tokens => ⟨start, scan.lexeme⟩ :: tokens
termination_by s.length
decreasing_by
  have hle := length_dropIgnored_le false p s
  have hlt := Scan.length_rest_lt _hscan
  rw [_hskip] at hle
  exact Nat.lt_of_lt_of_le hlt hle

/-- The tokens of a document. -/
def tokens (s : String) : Option (List Token) := tokensFrom .start s.toList

end GraphSchema.Syntax
