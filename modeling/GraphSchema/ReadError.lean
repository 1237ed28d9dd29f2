/-
Why the content of a file cannot be had.

A file whose bytes are no text is told from one whose bytes cannot be had at all.
-/
import GraphSchema.FilePath
import GraphSchema.Text.Utf8

namespace GraphSchema

/-- Why a file gives no text. -/
inductive ReadError where
  /-- The bytes of the file are no UTF-8. -/
  | notText (path : FilePath) (bytes : List UInt8) (fault : Text.Utf8.Fault)
  /-- The file is there, but the system does not hand out its bytes. -/
  | refused (path : FilePath) (reason : String)
  | notAFile (path : FilePath)
  deriving Repr

namespace ReadError

/-- The file that the error is about. -/
def path : ReadError → FilePath
  | .notText path _ _ | .refused path _ | .notAFile path => path

/-- The message of the error. -/
def message : ReadError → String
  | .notText path _ fault =>
    "Unable to decode " ++ path.quoted ++ " as UTF-8: " ++ fault.message
  | .refused path reason => "Unable to read " ++ path.quoted ++ ": " ++ reason
  | .notAFile path => path.quoted ++ " is not a file"

/-- The same failure for the same path, whichever way it is spelt. -/
def same : ReadError → ReadError → Bool
  | .notText p bytes fault, .notText q bytes' fault' =>
    p.samePlace q && bytes == bytes' && fault == fault'
  | .refused p reason, .refused q reason' => p.samePlace q && reason == reason'
  | .notAFile p, .notAFile q => p.samePlace q
  | _, _ => false

instance : BEq ReadError := ⟨same⟩

end ReadError

end GraphSchema
