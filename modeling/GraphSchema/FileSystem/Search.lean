/-
Searching for files by their extension.

Directories are searched through to the bottom, in the order of their entries.  A single
path that names a file is taken whatever its extension.
-/
import GraphSchema.FileSystem.Tree

namespace GraphSchema

/-- What a search comes to: the absolute paths of the files, and how many others there
were. -/
structure FoundFiles where
  paths : List FilePath
  skipped : Nat

/-- Why a search gives no files. -/
inductive SearchError where
  | inaccessible (path : FilePath) (fault : PathFault)
  | noneFound (paths : List FilePath)

/-- The message of an error of the search.  The fault is in it twice, as the walk says it and as
the system does. -/
def SearchError.message : SearchError → String
  | .inaccessible path fault =>
    "IO error for operation on " ++ path.text ++ ": " ++ fault.message ++ ": " ++ fault.message
  | .noneFound paths =>
    "No GraphQL files were found under [" ++ ", ".intercalate (paths.map FilePath.quoted) ++ "]"

/-- The extension of a file name: what follows its last point, unless that is its first
character. -/
def extension? (name : String) : Option String :=
  let reversed := name.toList.reverse
  match reversed.dropWhile (· != '.') with
  | _ :: _ :: _ => some (String.ofList (reversed.takeWhile (· != '.')).reverse)
  | _ => none

namespace FileTree

mutual

/-- The places of the files in a tree that stands at a place. -/
def filesFrom (place : List String) : FileTree → List (List String)
  | directory entries => filesAmong place entries
  | file _ | refused _ => [place]

/-- The places of the files in the entries of a directory that stands at a place. -/
def filesAmong (place : List String) : List (String × FileTree) → List (List String)
  | [] => []
  | (name, tree) :: rest => filesFrom (place ++ [name]) tree ++ filesAmong place rest

end

end FileTree

namespace FileSystem

/-- The places of the files at or under a path. -/
def filesUnder (fs : FileSystem) (path : FilePath) : Except SearchError (List (List String)) :=
  match fs.resolve path with
  | .error fault => .error (.inaccessible path fault)
  | .ok place => .ok (((fs.root.at? place).map (FileTree.filesFrom place)).getD [])

/-- Whether the last name of a place has one of the extensions. -/
def hasExtension (extensions : List String) (place : List String) : Bool :=
  match place.getLast?.bind extension? with
  | some extension => extensions.contains extension
  | none => false

/-- The place of the file that a single path names. -/
def onlyFile? (fs : FileSystem) : List FilePath → Option (List String)
  | [path] =>
    (fs.resolve path).toOption.filter fun place => (fs.root.at? place).any FileTree.isFile
  | _ => none

/-- Searches for the files at or under some paths that have one of the extensions, which
may be given with points in front. -/
def search (fs : FileSystem) (extensions : List String) (paths : List FilePath) :
    Except SearchError FoundFiles := do
  let extensions := extensions.map fun e => String.ofList (e.toList.dropWhile (· == '.'))
  let places := (← paths.mapM fs.filesUnder).flatten
  let (found, others) := places.partition (hasExtension extensions)
  match found, fs.onlyFile? paths with
  | [], some only => return ⟨[pathOf only], others.length - 1⟩
  | [], none => throw (.noneFound paths)
  | found, _ => return ⟨found.map pathOf, others.length⟩

end FileSystem

end GraphSchema
