import Restyle.Text.Basic

/-!
# Paths

A path is a string of names with slashes between them.  Paths are shown to the user as they were
put together, so joining never tidies up what it is given.
-/

namespace Restyle.Path

/-- The parts of a text between slashes. -/
def splitSlashes : Text → List Text
  | []        => [[]]
  | c :: rest =>
    if c = '/' then [] :: splitSlashes rest
    else
      match splitSlashes rest with
      | []            => [[c]]
      | part :: parts => (c :: part) :: parts

/-- The names of a path.  A slash at the end asks for a folder; it is kept as an empty name after
the others. -/
def names (path : String) : List String :=
  let parts := splitSlashes path.toList
  let closing := if parts.getLast? = some [] then [""] else []
  (parts.filter (!·.isEmpty)).map String.ofList ++ closing

/-- The path of `name` in the folder at `dir`. -/
def join (dir name : String) : String :=
  match dir.toList.getLast? with
  | none | some '/' => dir ++ name
  | _               => dir ++ "/" ++ name

/-- The last name of a path. -/
def fileName (path : String) : String :=
  String.ofList ((splitSlashes path.toList).getLastD [])

/-- The extension of the files that are processed. -/
def extension : Text := ".scss".toList

/-- The name has the extension, and something before it. -/
def isSheetName (name : String) : Bool :=
  extension.isSuffixOf name.toList && extension.length < name.toList.length

/-- Where the file at `path` is backed up. -/
def backup (path : String) : String := path ++ ".bak"

/-- The path starts at the root of the file system. -/
def isAbsolute (path : String) : Bool := path.toList.head? == some '/'

/-- The absolute path of the folder at the end of a route. -/
def ofRoute (route : List String) : String :=
  if route.isEmpty then "/" else String.join (route.map ("/" ++ ·))

/-! ### Limits -/

/-- The most bytes in one name. -/
def maxNameSize : Nat := 255

/-- The most bytes in a whole path. -/
def maxSize : Nat := 4095

/-- No folder can hold a name as long as this one. -/
def isLongName (name : String) : Bool := decide (maxNameSize < Text.size name.toList)

/-- The path is too long to be opened, wherever it leads. -/
def isLong (path : String) : Bool := decide (maxSize < Text.size path.toList)

end Restyle.Path
