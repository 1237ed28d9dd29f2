/-
The program: reads its arguments, takes the files that they name into a tree, runs the
command on the tree and prints what it comes to.
-/
import GraphSchema.Command.Arguments
import GraphSchema.Command.Run
import GraphSchema.LogLevel

namespace GraphSchema

/-- The paths that a command reads. -/
def Command.paths : Command → List FilePath
  | .print _ _ paths => paths
  | .diff _ _ _ old new => old ++ new
  | .validate _ _ schema queries => schema ++ queries

/-- What stands at a path on disk, down to the bottom. -/
partial def takeTree (path : String) : IO (Option FileTree) := do
  let onDisk := (← IO.currentDir) / path
  unless ← onDisk.pathExists do
    return none
  match ← onDisk.readDir.toBaseIO with
  | .ok entries =>
    let mut taken := []
    for entry in entries do
      if let some tree ← takeTree (path ++ "/" ++ entry.fileName) then
        taken := FileTree.putEntry entry.fileName tree taken
    return some (.directory taken)
  | .error _ =>
    match ← (IO.FS.readBinFile path).toBaseIO with
    | .ok bytes => return some (.file bytes.toList)
    | .error e => return some (.refused (toString e))

/-- Takes a place that a path leads through into a tree, without what stands below it. -/
def takeStep (tree : FileTree) (place : List String) : IO FileTree := do
  if (tree.at? place).isSome then
    return tree
  let onDisk := (← IO.currentDir) / (FileSystem.pathOf place).text
  if ← onDisk.isDir then
    return FileTree.put place (.directory []) tree
  else if ← onDisk.pathExists then
    return FileTree.put place (.file []) tree
  else
    return tree

/-- Takes what a path names into a tree, and the places that it leads through. -/
def takePath (workingDirectory : List String) (root : FileTree) (path : FilePath) :
    IO FileTree := do
  let mut place := if path.isAbsolute then [] else workingDirectory
  let mut tree := root
  for part in path.segments do
    if part = ".." then
      place := place.dropLast
    else if part != "." then
      tree ← takeStep tree place
      place := place ++ [part]
  if let some taken ← takeTree (FileSystem.pathOf place).text then
    tree := FileTree.put place taken tree
  return tree

/-- What the program prints if it is asked for help. -/
def usage : String :=
  "Print, diff, and validate GraphQL schemas and queries.\n\n"
    ++ "Usage: graphql [-v] print [--introspection] PATHS...\n"
    ++ "       graphql [-v] diff --old PATHS... --new PATHS... [--format text|json] "
    ++ "[--fail-on-breaking]\n"
    ++ "       graphql [-v] validate --schema PATHS... [--format text|json] PATHS...\n\n"
    ++ "Every command takes --graphql-file-exts EXTENSIONS."

/-- What the program prints if it is asked for its version. -/
def versionText : String := "graphql 0.1.1"

/-- What is said of a command line that is not run, and the status for it. -/
def UsageError.report : UsageError → String × UInt32
  | .helpAsked => (usage, 0)
  | .versionAsked => (versionText, 0)
  | .unknownCommand => ("error: unrecognized subcommand\n\n" ++ usage, 2)
  | .unknownArgument => ("error: unexpected argument\n\n" ++ usage, 2)
  | .badValue => ("error: invalid value for an argument\n\n" ++ usage, 2)
  | .superfluousValue => ("error: unexpected value for an argument\n\n" ++ usage, 2)
  | .missingArgument => ("error: a required argument was not provided\n\n" ++ usage, 2)
  | .repeatedArgument => ("error: an argument cannot be used multiple times\n\n" ++ usage, 2)

/-- Runs a command on the files on disk. -/
def runOnDisk (command : Command) : IO UInt32 := do
  let workingDirectory := FilePath.segments ⟨(← IO.currentDir).toString⟩
  let root ← command.paths.foldlM (takePath workingDirectory)
    (FileTree.put workingDirectory (.directory []) (.directory []))
  let outcome := command.run ⟨root, workingDirectory⟩
  if let some output := outcome.output then
    IO.println output
  if let some error := outcome.error then
    IO.eprintln error
  return if outcome.succeeded then 0 else 1

end GraphSchema

open GraphSchema in
/-- Read the line, run the command on the file system of the machine, and write what comes out. -/
def main (args : List String) : IO UInt32 := do
  match readInvocation args with
  | .error e =>
    let (report, status) := e.report
    if status = 0 then IO.println report else IO.eprintln report
    return status
  | .ok invocation =>
    if let some warning := (LogLevel.resolve invocation.verbose (← IO.getEnv "LOG_LEVEL")).2 then
      IO.eprintln warning
    match invocation.command with
    | some command => runOnDisk command
    | none =>
      IO.println usage
      return 0
