/-
Readers: what turns tokens into syntax.

A reader takes some tokens off the front of a sequence and gives a value, or refuses.
Every choice is made by the next token alone and is never taken back.  Brackets nest up
to a limit; a reader of something that may open one is told how much room is left.
-/
import GraphSchema.Syntax.Token

namespace GraphSchema.Syntax

/-- Reads a value off the front of a sequence of tokens. -/
abbrev Reader := StateT (List Token) Option

/-- How many brackets may be open at once. -/
def nestingLimit : Nat := 50

/-- Whether a lexeme is the given punctuator. -/
def Lexeme.isPunctuator (p : Punctuator) : Lexeme → Bool
  | .punctuator q => p == q
  | _ => false

/-- Whether a lexeme is the given name. -/
def Lexeme.isKeyword (word : String) : Lexeme → Bool
  | .name text => text == word
  | _ => false

/-- Whether a name stands there, keywords included. -/
def Lexeme.isName : Lexeme → Bool
  | .name _ => true
  | _ => false

namespace Reader

variable {α : Type}

/-- Takes the next token's lexeme. -/
def next : Reader Lexeme
  | [] => none
  | token :: rest => some (token.lexeme, rest)

/-- The position of the next token, which is not taken. -/
def here : Reader Position
  | [] => none
  | token :: rest => some (token.position, token :: rest)

/-- Whether there is a next token and it satisfies the predicate; it is not taken. -/
def nextIs (p : Lexeme → Bool) : Reader Bool
  | [] => some (false, [])
  | token :: rest => some (p token.lexeme, token :: rest)

/-- Takes the next token if it satisfies the predicate, and says whether it did. -/
def accept (p : Lexeme → Bool) : Reader Bool
  | [] => some (false, [])
  | token :: rest => if p token.lexeme then some (true, rest) else some (false, token :: rest)

/-- Takes the next token, which has to satisfy the predicate. -/
def expect (p : Lexeme → Bool) : Reader Unit
  | [] => none
  | token :: rest => if p token.lexeme then some ((), rest) else none

/-- Read past a punctuator. -/
def punctuator (p : Punctuator) : Reader Unit := expect (Lexeme.isPunctuator p)

/-- Read past a keyword. -/
def keyword (word : String) : Reader Unit := expect (Lexeme.isKeyword word)

/-- Read any name. -/
def name : Reader String
  | ⟨_, .name text⟩ :: rest => some (text, rest)
  | _ => none

/-- Reads a string if one comes next. -/
def string? : Reader (Option String)
  | ⟨_, .string value⟩ :: rest => some (some value, rest)
  | tokens => some (none, tokens)

/-- Reads items as long as the next token begins one.  An item that takes no token
refuses the whole. -/
def many (begins : Lexeme → Bool) (item : Reader α) : Reader (List α)
  | [] => some ([], [])
  | token :: rest =>
    if begins token.lexeme then
      match item (token :: rest) with
      | none => none
      | some (a, left) =>
        if _shorter : left.length < (token :: rest).length then
          (many begins item left).map fun (more, left) => (a :: more, left)
        else none
    else some ([], token :: rest)
termination_by tokens => tokens.length
decreasing_by exact _shorter

/-- Reads items up to a closing punctuator, which is taken too. -/
def manyUntil (closing : Punctuator) (item : Reader α) : Reader (List α) := do
  let items ← many (fun lexeme => !lexeme.isPunctuator closing) item
  punctuator closing
  return items

/-- Reads items up to a closing punctuator; there has to be one at least. -/
def someUntil (closing : Punctuator) (item : Reader α) : Reader (List α) := do
  let items ← manyUntil closing item
  if items.isEmpty then failure else return items

/-- Reads items that a punctuator separates. -/
def separated (separator : Punctuator) (item : Reader α) : Reader (List α) := do
  let first ← item
  let others ← many (Lexeme.isPunctuator separator) do
    punctuator separator
    item
  return first :: others

/-- Reads what an opening punctuator announces with one level of room less, or nothing. -/
def ifOpened (opening : Punctuator) (inner : Nat → Reader (List α)) :
    (room : Nat) → Reader (List α)
  | 0 => do if ← nextIs (Lexeme.isPunctuator opening) then failure else return []
  | room + 1 => do if ← accept (Lexeme.isPunctuator opening) then inner room else return []

/-- Applies a reader to a whole document. -/
def readAll (reader : Reader α) (s : String) : Option α := do
  let (a, rest) ← reader (← tokens s)
  if rest.isEmpty then some a else none

end Reader

end GraphSchema.Syntax
