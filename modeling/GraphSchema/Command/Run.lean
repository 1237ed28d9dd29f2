/-
Running commands.

A command reads the files that it is given, and comes to what is printed and whether it
succeeded.  Findings are printed as output, failures as errors.
-/
import GraphSchema.Change.Comparison
import GraphSchema.Command.Basic
import GraphSchema.FileSystem.Search
import GraphSchema.Merge.Message
import GraphSchema.Schema.Draft
import GraphSchema.Sdl.Document
import GraphSchema.Syntax.Query.Reader

namespace GraphSchema

/-- Why a command fails. -/
inductive CommandError where
  | search (error : SearchError)
  | build (error : BuildError)
  | read (error : ReadError)
  | unparsableQuery (file : FilePath)

/-- The message of an error.  That of a query nobody can parse ends with the colon. -/
def CommandError.message : CommandError → String
  | .search error => error.message
  | .build error => error.message
  | .read error => error.message
  | .unparsableQuery file => "Error parsing " ++ file.quoted ++ ": query parse error: "

/-- What a command comes to. -/
structure Outcome where
  succeeded : Bool
  output : Option String
  error : Option String
  deriving DecidableEq, Repr

namespace Outcome

/-- A run that writes to its output and ends well. -/
def success (output : String) : Outcome := ⟨true, some output, none⟩

/-- Findings that make the command fail. -/
def findings (output : String) : Outcome := ⟨false, some output, none⟩

/-- A run that writes to its error output and fails. -/
def failure (error : String) : Outcome := ⟨false, none, some error⟩

end Outcome

namespace Command

/-- The mark of what is in order. -/
def goodMark : String := "✓"

/-- The mark of what is not. -/
def badMark : String := "✗"

/-- The outcome of a failure, told by what the command was unable to do. -/
def failed (purpose : String) (error : CommandError) : Outcome :=
  .failure (badMark ++ " " ++ purpose ++ ": " ++ error.message)

/-- Searches for files. -/
def search (fs : FileSystem) (extensions : List String) (paths : List FilePath) :
    Except CommandError FoundFiles :=
  (fs.search extensions paths).mapError .search

/-- The schema that some files make up. -/
def loadSchema (fs : FileSystem) (paths : List FilePath) : Except CommandError Schema :=
  (do (← Draft.empty.loadFiles fs paths).build).mapError .build

/-! ### Printing -/

/-- Load a schema and print it, or what every schema has in its place. -/
def runPrint (fs : FileSystem) (introspection : Bool) (extensions : List String)
    (paths : List FilePath) : Except CommandError Outcome := do
  let schema ← loadSchema fs (← search fs extensions paths).paths
  return .success (if introspection then schema.introspectionSdl else schema.sdl)

/-! ### Comparing -/

/-- A change as an object of the report. -/
def changeJson (change : Change) : JsonValue :=
  .object [("kind", .string change.label), ("description", .string change.description),
    ("breaking", .bool change.isBreaking)]

/-- A line for each change and one that counts them, or that there is none. -/
def changesText (changes : List Change) : String :=
  if changes.isEmpty then goodMark ++ " No changes."
  else
    let line (change : Change) : String :=
      (if change.isBreaking then badMark else goodMark) ++ " " ++ change.text
    let total := "\nFound " ++ toString changes.length ++ " changes ("
      ++ toString (changes.countP Change.isBreaking) ++ " breaking)."
    "\n".intercalate (changes.map line ++ [total])

/-- Compare two versions of a schema.  The run fails on a change that breaks clients only if it is
asked to. -/
def runDiff (fs : FileSystem) (failOnBreaking : Bool) (extensions : List String)
    (format : OutputFormat) (old new : List FilePath) : Except CommandError Outcome := do
  let oldFiles ← search fs extensions old
  let newFiles ← search fs extensions new
  let oldSchema ← loadSchema fs oldFiles.paths
  let newSchema ← loadSchema fs newFiles.paths
  let changes := oldSchema.changes newSchema
  let output := match format with
    | .json => (JsonValue.array (changes.map changeJson)).pretty
    | .text => changesText changes
  return if failOnBreaking && changes.any Change.isBreaking then .findings output
    else .success output

/-! ### Validating -/

/-- The conflicts in a file. -/
structure FileReport where
  file : FilePath
  conflicts : List Merge.Conflict

/-- A conflict as an object of the report, with the places of its two fields. -/
def conflictJson (conflict : Merge.Conflict) : JsonValue :=
  .object [("message", .string conflict.message),
    ("locations", .array (conflict.locations.map fun p =>
      .object [("line", .number p.line), ("column", .number p.column)])),
    ("fields", .array (conflict.path.map .string)), ("code", .string conflict.code)]

/-- What was found in one file, as an object of the report. -/
def reportJson (report : FileReport) : JsonValue :=
  .object [("file", .string report.file.text),
    ("messages", .array (report.conflicts.map conflictJson))]

/-- A line for each conflict, or how many files were looked at and left out if there is none. -/
def reportsText (reports : List FileReport) (skipped : Nat) : String :=
  if reports.all fun report => report.conflicts.isEmpty then
    goodMark ++ " All queries validated successfully:\n  * Analyzed " ++ toString reports.length
      ++ " files.\n  * Skipped " ++ toString skipped ++ " non-graphql files."
  else
    "\n".intercalate (reports.flatMap fun report => report.conflicts.map fun conflict =>
      badMark ++ " " ++ report.file.text ++ ": " ++ conflict.text)

/-- Validates the query document in a file. -/
def reportOn (fs : FileSystem) (schema : Schema) (file : FilePath) :
    Except CommandError FileReport := do
  let content ← (fs.read file).mapError .read
  match Syntax.readQueryDocument content with
  | some document => return ⟨file, Merge.conflicts schema document⟩
  | none => throw (.unparsableQuery file)

/-- Check each file of queries against a schema.  The run fails if one of them has a conflict. -/
def runValidate (fs : FileSystem) (extensions : List String) (format : OutputFormat)
    (schemaPaths queryPaths : List FilePath) : Except CommandError Outcome := do
  let schema ← loadSchema fs (← search fs extensions schemaPaths).paths
  let queries ← search fs extensions queryPaths
  let reports ← queries.paths.mapM (reportOn fs schema)
  let output := match format with
    | .json => (JsonValue.array (reports.map reportJson)).pretty
    | .text => reportsText reports queries.skipped
  return if reports.all fun report => report.conflicts.isEmpty then .success output
    else .findings output

/-! ### All commands -/

/-- Runs a command. -/
def run (fs : FileSystem) (command : Command) : Outcome :=
  let (purpose, result) := match command with
    | .print introspection extensions paths =>
      ("Unable to print the schema", runPrint fs introspection extensions paths)
    | .diff failOnBreaking extensions format old new =>
      ("Unable to compare the schemas", runDiff fs failOnBreaking extensions format old new)
    | .validate extensions format schema queries =>
      ("GraphQL validation errors", runValidate fs extensions format schema queries)
  match result with
  | .ok outcome => outcome
  | .error e => failed purpose e

end Command

end GraphSchema
