import Restyle.Storage.Path

/-!
# Faults

Why an operation on files failed.  A path that no system call takes is refused before anything is
looked up.
-/

namespace Restyle

/-- Why an operation on files failed. -/
inductive Fault where
  | missing
  | notFolder
  | isFolder
  /-- A name or a whole path has too many bytes. -/
  | tooLong
  | tooManyLinks
  /-- A path holds the character that would end it. -/
  | nulInPath
  /-- The bytes of a file are not UTF-8. -/
  | notText
  | other (message : String)
deriving DecidableEq, Repr

namespace Fault

/-- The wording of a fault. -/
def message : Fault → String
  | .missing       => "No such file or directory (os error 2)"
  | .notFolder     => "Not a directory (os error 20)"
  | .isFolder      => "Is a directory (os error 21)"
  | .tooLong       => "File name too long (os error 36)"
  | .tooManyLinks  => "Too many levels of symbolic links (os error 40)"
  | .nulInPath     => "file name contained an unexpected NUL byte"
  | .notText       => "stream did not contain valid UTF-8"
  | .other message => message

/-- Why a path is refused, whatever the files are. -/
def ofPath? (path : String) : Option Fault :=
  if path.toList.contains '\x00' then some .nulInPath
  else if Path.isLong path then some .tooLong
  else if path.isEmpty then some .missing
  else none

end Fault

/-- Why a search ended early: a fault, and the path where it was met. -/
structure SearchError where
  path : String
  fault : Fault
deriving DecidableEq, Repr

end Restyle
