import Restyle.Storage.Fault

/-!
# Files, folders and links

What a folder holds, name by name in increasing order.  A route leads from an entry down through
folders; it names no links and no `..`, so each entry has one route.

Names are strings.  A file system takes other bytes for names too: file names that are not UTF-8 are
left out here.
-/

namespace Restyle

/-- What stands at a name. -/
inductive Entry where
  | file (bytes : ByteArray)
  /-- A link, followed by whoever opens it. -/
  | link (target : String)
  | folder (listing : List (String × Entry))

namespace Entry

/-- The listing with `entry` at `name`.  Names stay in increasing order. -/
def setName (name : String) (entry : Entry) : List (String × Entry) → List (String × Entry)
  | []                   => [(name, entry)]
  | (other, old) :: rest =>
    if name = other then (name, entry) :: rest
    else if name < other then (name, entry) :: (other, old) :: rest
    else (other, old) :: setName name entry rest

/-- The entry at the end of a route. -/
def get? : Entry → List String → Option Entry
  | entry,           []            => some entry
  | .folder listing, name :: route =>
    match listing.lookup name with
    | some entry => entry.get? route
    | none       => none
  | _,               _ :: _        => none

/-- The entry with `new` at the end of a route.  Folders on the way are made when they are
missing. -/
def put : Entry → List String → Entry → Entry
  | _,               [],            new => new
  | .folder listing, name :: route, new =>
    let old := (listing.lookup name).getD (.folder [])
    .folder (setName name (old.put route new) listing)
  | entry,           _ :: _,        _   => entry

mutual

/-- The sheets in the entry at `path`, each by its path.  Links are not followed. -/
def sheets (path : String) : Entry → List String
  | .file _         => if Path.isSheetName (Path.fileName path) then [path] else []
  | .link _         => []
  | .folder listing => sheetsAll path listing

/-- The sheets in the folder at `dir`, in the order of its listing. -/
def sheetsAll (dir : String) : List (String × Entry) → List String
  | []                    => []
  | (name, entry) :: rest => entry.sheets (Path.join dir name) ++ sheetsAll dir rest

end

mutual

/-- The folders in the entry at `path`, itself included, each before what is in it. -/
def folders (path : String) : Entry → List String
  | .folder listing => path :: foldersAll path listing
  | _               => []

/-- The folders in the folder at `dir`, in the order of its listing. -/
def foldersAll (dir : String) : List (String × Entry) → List String
  | []                    => []
  | (name, entry) :: rest => entry.folders (Path.join dir name) ++ foldersAll dir rest

end

/-- The sheets in the entry at `path`, unless some folder in it has too long a path to be opened. -/
def search (path : String) (entry : Entry) : Except SearchError (List String) :=
  match (entry.folders path).find? Path.isLong with
  | some long => .error ⟨long, .tooLong⟩
  | none      => .ok (entry.sheets path)

mutual

/-- The files, links and empty folders in the entry at `path`. -/
def leaves (path : String) : Entry → List (String × Entry)
  | .file bytes     => [(path, .file bytes)]
  | .link target    => [(path, .link target)]
  | .folder listing => if listing.isEmpty then [(path, .folder [])] else leavesAll path listing

/-- The files, links and empty folders in the folder at `dir`. -/
def leavesAll (dir : String) : List (String × Entry) → List (String × Entry)
  | []                    => []
  | (name, entry) :: rest => entry.leaves (Path.join dir name) ++ leavesAll dir rest

end

end Entry

end Restyle
