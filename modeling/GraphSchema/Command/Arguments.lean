/-
Reading command lines.

A word that begins with a hyphen is an option; a single hyphen is not, and behind `--` no
word is.  An option without a value may be given once, one with a single value too, while
the values of several occurrences of a list option add up.  The first error counts.

Values that stand in words of their own, and the words of a row that are no options, are
looked at only when something else comes after them, so that an unknown option directly
behind them is the first error; a value behind `=` is looked at on the spot.
-/
import GraphSchema.Command.Basic
import GraphSchema.Text.Lines

namespace GraphSchema

/-- What an option takes. -/
inductive OptionArity where
  | flag
  /-- No value; the option ends the reading. -/
  | stop (reason : UsageError)
  /-- One value, the name of a format. -/
  | format
  /-- One value each time, made up of parts between commas. -/
  | commaList
  /-- All words up to the next option, at least one. -/
  | pathList
  deriving DecidableEq, Repr

/-- The options that a command knows, and whether it takes words that are no option. -/
structure OptionTable where
  options : List (String × OptionArity)
  takesWords : Bool

/-- The option that a letter behind a single hyphen is short for. -/
def optionOfLetter? : Char → Option String
  | 'v' => some "verbose"
  | 'h' => some "help"
  | 'V' => some "version"
  | _ => none

/-- The formats by name. -/
def formatOf? : String → Option OutputFormat
  | "text" => some .text
  | "json" => some .json
  | _ => none

namespace OptionArity

/-- Whether the word behind the option is its value. -/
def takesValue : OptionArity → Bool
  | flag | stop _ => false
  | format | commaList | pathList => true

/-- Whether the option may be given several times. -/
def isRepeatable : OptionArity → Bool
  | commaList | pathList => true
  | flag | stop _ | format => false

/-- Whether a word may be a value of the option.  A path is not empty. -/
def accepts (arity : OptionArity) (value : String) : Bool :=
  match arity with
  | format => (formatOf? value).isSome
  | pathList => !value.isEmpty
  | flag | stop _ | commaList => true

/-- The values that a word stands for. -/
def valuesOf (arity : OptionArity) (word : String) : List String :=
  match arity with
  | commaList => (Text.cutAt ',' word.toList).map String.ofList
  | _ => [word]

end OptionArity

/-- What a command line gives: options with their values, in order, and other words. -/
structure GivenArguments where
  options : List (String × List String)
  words : List String

namespace GivenArguments

/-- Whether the option is given. -/
def has (given : GivenArguments) (option : String) : Bool :=
  given.options.any fun entry => entry.1 == option

/-- All values of an option. -/
def values (given : GivenArguments) (option : String) : List String :=
  (given.options.filter fun entry => entry.1 == option).flatMap Prod.snd

/-- Adds an option with the words that are its values. -/
def addOption (given : GivenArguments) (option : String) (arity : OptionArity)
    (words : List String) : Except UsageError GivenArguments :=
  if given.has option ∧ !arity.isRepeatable then
    .error .repeatedArgument
  else if words.all arity.accepts then
    .ok { given with options := given.options ++ [(option, words.flatMap arity.valuesOf)] }
  else
    .error .badValue

/-- Adds words that are no options: paths, none of which is empty. -/
def addWords (given : GivenArguments) (words : List String) : Except UsageError GivenArguments :=
  if words.any String.isEmpty then .error .badValue
  else .ok { given with words := given.words ++ words }

end GivenArguments

/-! ### Words -/

/-- An option as it is written: its name and the value behind `=`. -/
def splitOption (word : List Char) : String × Option String :=
  match word.dropWhile (· != '=') with
  | [] => (String.ofList word, none)
  | _ :: value => (String.ofList (word.takeWhile (· != '=')), some (String.ofList value))

/-- Whether a word is a value and no option. -/
def isValue (word : String) : Bool :=
  match word.toList with
  | '-' :: _ :: _ => false
  | _ => true

/-- What has been read and not looked at. -/
inductive PendingArgument where
  | none
  /-- An option with the words behind it that are its values. -/
  | option (name : String) (arity : OptionArity) (words : List String)
  /-- A row of words that are no options. -/
  | words (row : List String)

/-- How far a command line has been read. -/
structure LineState where
  given : GivenArguments
  pending : PendingArgument
  /-- Behind `--` no word is an option. -/
  optionsEnded : Bool

namespace LineState

/-- The state in front of the first word. -/
def start : LineState := ⟨⟨[], []⟩, .none, false⟩

/-- What is given once the pending argument is looked at.  An option has to have a value. -/
def settled (state : LineState) : Except UsageError GivenArguments :=
  match state.pending with
  | .none => .ok state.given
  | .option _ _ [] => .error .badValue
  | .option name arity words => state.given.addOption name arity words
  | .words row => state.given.addWords row

/-- The pending argument that the next word belongs to, with the word added to it.  Behind
`--` a word is no value of an option. -/
def extended? (state : LineState) (word : String) : Option PendingArgument :=
  match state.pending, state.optionsEnded with
  | .words row, _ => some (.words (row ++ [word]))
  | .option name .pathList words, false => some (.option name .pathList (words ++ [word]))
  | .option name arity [], false => some (.option name arity [word])
  | _, _ => none

/-- Takes a word that is no option. -/
def takeWord (table : OptionTable) (state : LineState) (word : String) :
    Except UsageError LineState := do
  match state.extended? word with
  | some pending => return { state with pending }
  | none =>
    if !table.takesWords then throw .unknownArgument
    return { state with given := ← state.settled, pending := .words [word] }

/-- Takes an option that is written with its name. -/
def takeOption (table : OptionTable) (state : LineState) (name : String) (value : Option String) :
    Except UsageError LineState := do
  match table.options.lookup name, value with
  | none, _ => throw .unknownArgument
  | some arity, some value =>
    if !arity.takesValue then throw .superfluousValue
    let given ← (← state.settled).addOption name arity [value]
    return { state with given, pending := .none }
  | some (.stop reason), none =>
    let _ ← state.settled
    throw reason
  | some .flag, none =>
    let given ← (← state.settled).addOption name .flag []
    return { state with given, pending := .none }
  | some arity, none =>
    return { state with given := ← state.settled, pending := .option name arity [] }

/-- Takes a letter behind a single hyphen. -/
def takeLetter (table : OptionTable) (state : LineState) (letter : Char) :
    Except UsageError LineState :=
  match optionOfLetter? letter with
  | some name => state.takeOption table name none
  | none => .error .unknownArgument

/-- Takes a word. -/
def take (table : OptionTable) (state : LineState) (word : String) : Except UsageError LineState :=
  if state.optionsEnded ∨ isValue word then
    state.takeWord table word
  else if word = "--" then
    .ok { state with optionsEnded := true }
  else
    match word.toList with
    | '-' :: '-' :: option =>
      let (name, value) := splitOption option
      state.takeOption table name value
    | letters => (letters.drop 1).foldlM (takeLetter table) state

end LineState

/-- Reads words as the arguments that a table knows. -/
def readWords (table : OptionTable) (words : List String) : Except UsageError GivenArguments := do
  (← words.foldlM (LineState.take table) LineState.start).settled

/-! ### Commands -/

/-- The options that stand in front of a command as well as behind it. -/
def globalOptions : List (String × OptionArity) :=
  [("verbose", .flag), ("help", .stop .helpAsked)]

/-- The options that every command knows. -/
def commonOptions : List (String × OptionArity) :=
  ("graphql-file-exts", .commaList) :: globalOptions

/-- The extensions of files that are searched for, unless others are given. -/
def defaultExtensions : List String := ["graphql", "graphqls"]

/-- The extensions to look for: the default ones as long as the line names none. -/
def GivenArguments.extensions (given : GivenArguments) : List String :=
  if given.has "graphql-file-exts" then given.values "graphql-file-exts" else defaultExtensions

/-- The paths that an option gives; there has to be one at least. -/
def GivenArguments.paths (given : GivenArguments) (option : String) :
    Except UsageError (List FilePath) :=
  if given.has option then .ok ((given.values option).map FilePath.mk) else .error .missingArgument

/-- The words as paths; there has to be one at least. -/
def GivenArguments.wordPaths (given : GivenArguments) : Except UsageError (List FilePath) :=
  if given.words.isEmpty then .error .missingArgument else .ok (given.words.map FilePath.mk)

/-- The format that is asked for. -/
def GivenArguments.format (given : GivenArguments) : OutputFormat :=
  ((given.values "format").head?.bind formatOf?).getD .text

/-- The words behind `print`. -/
def readPrint (words : List String) : Except UsageError (Bool × Command) := do
  let given ← readWords ⟨("introspection", .flag) :: commonOptions, true⟩ words
  return (given.has "verbose",
    .print (given.has "introspection") given.extensions (← given.wordPaths))

/-- The words behind `diff`, of which none stands without an option. -/
def readDiff (words : List String) : Except UsageError (Bool × Command) := do
  let options := [("fail-on-breaking", OptionArity.flag), ("format", .format), ("old", .pathList),
    ("new", .pathList)]
  let given ← readWords ⟨options ++ commonOptions, false⟩ words
  return (given.has "verbose",
    .diff (given.has "fail-on-breaking") given.extensions given.format (← given.paths "old")
      (← given.paths "new"))

/-- The words behind `validate`: the queries stand without an option. -/
def readValidate (words : List String) : Except UsageError (Bool × Command) := do
  let options := [("format", OptionArity.format), ("schema", .pathList)]
  let given ← readWords ⟨options ++ commonOptions, true⟩ words
  return (given.has "verbose",
    .validate given.extensions given.format (← given.paths "schema") (← given.wordPaths))

/-- Whether a word is the name of a command. -/
def isCommandName (word : String) : Bool := ["print", "diff", "validate", "help"].contains word

/-- Reads the words behind the name of a command.  Help is given on one command at most. -/
def readCommand (name : String) (words : List String) : Except UsageError (Bool × Command) :=
  match name with
  | "print" => readPrint words
  | "diff" => readDiff words
  | "validate" => readValidate words
  | "help" =>
    match words with
    | [] => .error .helpAsked
    | [word] => .error (if isCommandName word then .helpAsked else .unknownCommand)
    | _ => .error .unknownCommand
  | _ => .error .unknownCommand

/-- Reads a command line, whose first word that is no option is the command. -/
def readInvocation (words : List String) : Except UsageError Invocation := do
  let table : OptionTable := ⟨("version", .stop .versionAsked) :: globalOptions, false⟩
  let leading := words.takeWhile fun word => !isValue word && word != "--"
  let given ← readWords table leading
  let verbose := given.has "verbose"
  match words.drop leading.length with
  | [] => return ⟨verbose, none⟩
  | "--" :: [] => return ⟨verbose, none⟩
  | "--" :: word :: _ => throw (if isCommandName word then .unknownArgument else .unknownCommand)
  | name :: rest =>
    let (innerVerbose, command) ← readCommand name rest
    return ⟨verbose || innerVerbose, some command⟩

end GraphSchema
