import Restyle.Storage.Entry

/-!
# Stores

A store is a tree of files, folders and links with a current folder in it, and the operations that
a run performs on it.  A path is resolved name by name; a link on the way is followed, and so is one
at the end where a file is opened.  At most forty links are followed for one path.
-/

namespace Restyle

/-- What a path is resolved for. -/
inductive Access where
  /-- To see what stands at the last name.  A link there is not followed. -/
  | inspect
  /-- To use what the path leads to. -/
  | follow
  /-- To write a file, which is made when it is missing.  A slash at the end can only mean a folder,
  so it is refused. -/
  | create
deriving DecidableEq, Repr

/-- Where a path leads: a route, and what stands there.  There may be nothing at its last name. -/
structure Place where
  route : List String
  entry? : Option Entry

/-- The sheets at `dir`, depth first, the names of each folder in increasing order, where `look` gives
what stands there.  No link is followed but `dir` itself, and that only to a folder. -/
def Entry.discover {m : Type → Type} [Monad m] [MonadExcept SearchError m] (look : Access → m Entry)
    (dir : String) : m (List String) := do
  match ← look .inspect with
  | .link _ =>
    match ← look .follow with
    | .folder listing => ofExcept ((Entry.folder listing).search dir)
    | _               => return []
  | entry   => ofExcept (entry.search dir)

/-- A tree of files, folders and links, with a current folder. -/
structure Store where
  root : Entry
  /-- The route of the folder where relative paths start. -/
  current : List String

namespace Store

/-- A store with nothing in it but the current folder. -/
def empty (current : List String) : Store :=
  ⟨(Entry.folder []).put current (.folder []), current⟩

/-- The store with `entry` at the end of a route. -/
def put (store : Store) (route : List String) (entry : Entry) : Store :=
  { store with root := store.root.put route entry }

/-- The absolute path of the current folder. -/
def currentPath (store : Store) : String := Path.ofRoute store.current

/-- The route of the folder where a path starts that is met in the folder at the route `here`. -/
def start (here : List String) (path : String) : List String :=
  if Path.isAbsolute path then [] else here

/-- Follows `names` from the folder at the route `here`; `onLink` goes on from where a link leads.
The top folder is its own parent. -/
def walkNames (store : Store) (access : Access)
    (onLink : List String → List String → Except Fault Place) (here : List String) :
    List String → Except Fault Place
  | []           => .ok ⟨here, store.root.get? here⟩
  | name :: rest =>
    match store.root.get? here with
    | some (.folder listing) =>
      if access = .create ∧ rest = [""] then .error .isFolder
      else if name = "" ∨ name = "." then store.walkNames access onLink here rest
      else if name = ".." then store.walkNames access onLink here.dropLast rest
      else if Path.isLongName name then .error .tooLong
      else
        match listing.lookup name with
        | none                =>
          if rest.isEmpty then .ok ⟨here ++ [name], none⟩ else .error .missing
        | some (.link target) =>
          if access = .inspect ∧ rest = [] then .ok ⟨here ++ [name], some (.link target)⟩
          else onLink (start here target) (Path.names target ++ rest)
        | some _              => store.walkNames access onLink (here ++ [name]) rest
    | _                      => .error .notFolder

/-- Follows `names` from the folder at the route `here`, and on the way at most `links` links. -/
def walk (store : Store) (access : Access) :
    (links : Nat) → (here names : List String) → Except Fault Place
  | 0         => store.walkNames access fun _ _ => .error .tooManyLinks
  | links + 1 => store.walkNames access (store.walk access links)

/-- The most links that are followed for one path. -/
def maxLinks : Nat := 40

/-- Where a path leads. -/
def resolve (store : Store) (access : Access) (path : String) : Except Fault Place :=
  match Fault.ofPath? path with
  | some fault => .error fault
  | none       => store.walk access maxLinks (start store.current path) (Path.names path)

/-- What stands at a path. -/
def lookup (store : Store) (access : Access) (path : String) : Except Fault Entry :=
  match store.resolve access path with
  | .error fault        => .error fault
  | .ok ⟨_, none⟩       => .error .missing
  | .ok ⟨_, some entry⟩ => .ok entry

/-- The path leads to a folder. -/
def isFolder (store : Store) (path : String) : Bool :=
  match store.lookup .follow path with
  | .ok (.folder _) => true
  | _               => false

/-- The bytes of the file at a path. -/
def read (store : Store) (path : String) : Except Fault ByteArray :=
  match store.lookup .follow path with
  | .error fault      => .error fault
  | .ok (.file bytes) => .ok bytes
  | .ok (.folder _)   => .error .isFolder
  | .ok (.link _)     => .error .missing

/-- The store with these bytes in the file at a path.  The file is made when it is missing. -/
def write (store : Store) (path : String) (bytes : ByteArray) : Except Fault Store :=
  match store.resolve .create path with
  | .error fault              => .error fault
  | .ok ⟨_, some (.folder _)⟩ => .error .isFolder
  | .ok ⟨route, _⟩            => .ok (store.put route (.file bytes))

/-- The store with the file at `path` copied to `target`.  The target is emptied before anything is
read, so a file copied onto itself is lost. -/
def copy (store : Store) (path target : String) : Except Fault Store := do
  let _ ← store.read path
  let emptied ← store.write target .empty
  let bytes ← emptied.read path
  emptied.write target bytes

/-- The sheets at `dir`. -/
def discover (store : Store) (dir : String) : Except SearchError (List String) :=
  Entry.discover (fun access => (store.lookup access dir).mapError (⟨dir, ·⟩)) dir

/-! ### Filling and listing -/

/-- The route to which one more name leads from the route `here`, which may be missing so far. -/
def descend (store : Store) (here : List String) (name : String) : List String :=
  match store.walk .follow maxLinks here [name] with
  | .ok place => place.route
  | .error _  => here ++ [name]

/-- The store with `entry` at a path in the current folder.  Missing folders on the way are made,
and a folder that is there already stays. -/
def add (store : Store) (path : String) (entry : Entry) : Store :=
  let names := (Path.names path).filter fun name => name != "" && name != "."
  match names.getLast? with
  | none      => store
  | some name =>
    let folder := names.dropLast.foldl store.descend store.current
    match entry with
    | .link target => store.put (folder ++ [name]) (.link target)
    | .file bytes  => store.put (store.descend folder name) (.file bytes)
    | .folder _    =>
      let route := store.descend folder name
      match store.root.get? route with
      | some (.folder _) => store
      | _                => store.put route entry

/-- The files, links and empty folders in the current folder, in the order of their paths. -/
def contents (store : Store) : List (String × Entry) :=
  match store.root.get? store.current with
  | some (.folder listing) => (Entry.leavesAll "" listing).mergeSort fun a b => decide (a.1 ≤ b.1)
  | _                      => []

end Store

end Restyle
