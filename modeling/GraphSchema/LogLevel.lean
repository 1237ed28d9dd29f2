/-
How much is logged: decided by the command line, or else by a setting of the environment.

A setting that names no level leaves the default in place and is warned about, unless the
command line has decided already.
-/
import GraphSchema.Text.Classes

namespace GraphSchema

/-- How much the program reports about its own work. -/
inductive LogLevel where
  | debug | info | trace
  deriving DecidableEq, Repr

namespace LogLevel

/-- The name of the level in a log line. -/
def name : LogLevel → String
  | debug => "DEBUG"
  | info => "INFO"
  | trace => "TRACE"

/-- The level that a word names, in letters of either case. -/
def ofWord? (word : List Char) : Option LogLevel :=
  match String.ofList (word.map Char.toLower) with
  | "debug" | "verbose" => some debug
  | "info" => some info
  | "trace" => some trace
  | _ => none

/-- The level, and a warning if the setting names none.  Being verbose decides alone. -/
def resolve (verbose : Bool) (setting : Option String) : LogLevel × Option String :=
  if verbose then (debug, none)
  else
    match setting.map fun s => Text.trim s.toList with
    | none => (info, none)
    | some word =>
      match ofWord? word with
      | some level => (level, none)
      | none =>
        (info, some ("Invalid `LOG_LEVEL` environment variable value: `" ++ String.ofList word
          ++ "`"))

end LogLevel

end GraphSchema
