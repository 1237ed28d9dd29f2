/-
Commands: what the program can be asked to do.

A command holds what its words stand for.  Defaults have been filled in, and no path has
been looked at.
-/
import GraphSchema.FilePath

namespace GraphSchema

/-- How findings are shown. -/
inductive OutputFormat where
  | text | json
  deriving DecidableEq, Repr

/-- What the program is asked to do, after its line has been read. -/
inductive Command where
  /-- Print a schema as a document, or what every schema has. -/
  | print (introspection : Bool) (extensions : List String) (paths : List FilePath)
  /-- List the changes between two versions of a schema. -/
  | diff (failOnBreaking : Bool) (extensions : List String) (format : OutputFormat)
      (old new : List FilePath)
  /-- Check that the fields of queries can be merged. -/
  | validate (extensions : List String) (format : OutputFormat) (schema queries : List FilePath)
  deriving Repr

/-- A command line: without a command there is nothing to run. -/
structure Invocation where
  verbose : Bool
  command : Option Command
  deriving Repr

/-- Why a command line is not run. -/
inductive UsageError where
  | helpAsked
  | versionAsked
  | unknownCommand
  | unknownArgument
  | badValue
  | superfluousValue
  | missingArgument
  | repeatedArgument
  deriving DecidableEq, Repr

end GraphSchema
