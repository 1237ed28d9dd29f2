/-
Trees of files, how paths lead through them, and what is read where they lead.

The entries of a directory are sorted by name.  A path is followed part by part: every
part but the last has to name a directory, `..` leads up, and `.` and an empty part stay
where they are.  Names and paths have a greatest length, counted in bytes of UTF-8: that of
a path counts before it is followed, that of a name when it is looked up.

A file is read as text: its bytes have to be UTF-8, and a byte-order mark in front is dropped.
-/
import GraphSchema.ReadError

namespace GraphSchema

/-- What stands at a path: a file, or a directory with what it lists, in the order in which the
system lists it. -/
inductive FileTree where
  | file (bytes : List UInt8)
  /-- A file whose bytes the system does not hand out, and why. -/
  | refused (reason : String)
  | directory (entries : List (String × FileTree))
  deriving Inhabited

namespace FileTree

/-- Whether a file stands there, readable or not. -/
def isFile : FileTree → Bool
  | directory _ => false
  | _ => true

/-- What a directory lists; a file lists nothing. -/
def entries : FileTree → List (String × FileTree)
  | directory entries => entries
  | _ => []

/-- Puts an entry into a sorted list of entries, replacing the entry of its name. -/
def putEntry (name : String) (tree : FileTree) :
    List (String × FileTree) → List (String × FileTree)
  | [] => [(name, tree)]
  | (n, t) :: rest =>
    if name < n then (name, tree) :: (n, t) :: rest
    else if name = n then (name, tree) :: rest
    else (n, t) :: putEntry name tree rest

/-- Puts a tree at a place, making directories on the way.  An empty directory does not
replace a directory. -/
def put : List String → FileTree → FileTree → FileTree
  | [], directory [], directory entries => directory entries
  | [], new, _ => new
  | name :: rest, new, tree =>
    let child := (tree.entries.lookup name).getD (directory [])
    directory (putEntry name (put rest new child) tree.entries)

/-- The tree at a place. -/
def at? : List String → FileTree → Option FileTree
  | [], tree => some tree
  | name :: rest, tree => (tree.entries.lookup name).bind (at? rest)

end FileTree

/-- A tree of files and the place in it that relative paths start from. -/
structure FileSystem where
  root : FileTree
  workingDirectory : List String

/-- Why a path leads nowhere. -/
inductive PathFault where
  | missing
  | notDirectory
  /-- The path or a name in it is longer than the system allows. -/
  | tooLong
  /-- The path holds U+0000, which ends a path for the system. -/
  | holdsNull
  deriving DecidableEq, Repr

/-- The message of the system for a fault. -/
def PathFault.message : PathFault → String
  | .missing => "No such file or directory (os error 2)"
  | .notDirectory => "Not a directory (os error 20)"
  | .tooLong => "File name too long (os error 36)"
  | .holdsNull => "file name contained an unexpected NUL byte"

namespace FileSystem

/-- The greatest number of bytes in the name of an entry. -/
def nameLimit : Nat := 255

/-- The greatest number of bytes in a path. -/
def pathLimit : Nat := 4095

/-- The place that the parts of a path lead to from a place. -/
def follow (fs : FileSystem) (place : List String) : List String → Except PathFault (List String)
  | [] => .ok place
  | part :: rest =>
    match fs.root.at? place with
    | some (.directory entries) =>
      if part = "" ∨ part = "." then fs.follow place rest
      else if part = ".." then fs.follow place.dropLast rest
      else if nameLimit < part.utf8ByteSize then .error .tooLong
      else if (entries.lookup part).isSome then fs.follow (place ++ [part]) rest
      else .error .missing
    | some _ => .error .notDirectory
    | none => .error .missing

/-- The place that a path leads to. -/
def resolve (fs : FileSystem) (path : FilePath) : Except PathFault (List String) :=
  if path.text.toList.contains '\x00' then .error .holdsNull
  else if pathLimit < path.text.utf8ByteSize then .error .tooLong
  else
    let parts := (Text.cutAt '/' path.text.toList).map String.ofList
    fs.follow (if path.isAbsolute then [] else fs.workingDirectory) parts

/-- The absolute path of a place. -/
def pathOf (place : List String) : FilePath := ⟨"/" ++ "/".intercalate place⟩

/-! ### Contents -/

/-- A text without a byte-order mark in front. -/
def withoutMark : List Char → List Char
  | '\ufeff' :: rest => rest
  | text => text

/-- The text of a file. -/
def read (fs : FileSystem) (path : FilePath) : Except ReadError String :=
  match (fs.resolve path).toOption.bind fun place => fs.root.at? place with
  | some (.file bytes) =>
    match Text.Utf8.decode bytes with
    | .ok text => .ok (String.ofList (withoutMark text))
    | .error fault => .error (.notText path bytes fault)
  | some (.refused reason) => .error (.refused path reason)
  | _ => .error (.notAFile path)

end FileSystem

end GraphSchema
