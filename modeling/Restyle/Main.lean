import Restyle.Command

/-!
# The program

The workspace of files on disk, and the entry point.  All decisions are made by `Command`; here are
only the calls to the operating system.
-/

namespace Restyle.Disk

/-- The path with this spelling. -/
def located (path : String) := (IO.FS.DirEntry.mk path "").root

/-- The number of an error of the operating system.  Some operations give it negated. -/
def errorNumber? : IO.Error → Option UInt32
  | .noFileOrDirectory _ code _ => some (min code (0 - code))
  | .inappropriateType _ code _ => some (min code (0 - code))
  | .invalidArgument _ code _   => some (min code (0 - code))
  | _                           => none

/-- The fault behind an error of the operating system. -/
def faultOf (e : IO.Error) : Fault :=
  match errorNumber? e with
  | some 2  => .missing
  | some 20 => .notFolder
  | some 21 => .isFolder
  | some 36 => .tooLong
  | some 40 => .tooManyLinks
  | _       => .other (toString e)

/-- The result of an action, with its error as a fault. -/
def guarded {α : Type} (action : IO α) : IO (Except Fault α) := do
  try return .ok (← action)
  catch e => return .error (faultOf e)

/-- The path leads to a folder. -/
def isFolder (path : String) : IO Bool := do
  try return (← (located path).metadata).type == .dir
  catch _ => return false

/-- The result of an action on `path` during a search. -/
def searching {α : Type} (path : String) (action : IO α) : ExceptT SearchError IO α := do
  match ← guarded action with
  | .ok result   => return result
  | .error fault => throw ⟨path, fault⟩

/-- What stands at `path`, with all that is in it, but without the bytes of files and the targets of
links.  What is neither a file nor a folder counts as a link. -/
partial def entry (path : String) (access : Access) : ExceptT SearchError IO Entry := do
  let status :=
    if access = .inspect then (located path).symlinkMetadata else (located path).metadata
  match (← searching path status).type with
  | .dir  =>
    let items ← searching path (located path).readDir
    let names := (items.toList.map (·.fileName)).mergeSort fun a b => decide (a ≤ b)
    return .folder (← names.mapM fun name => return (name, ← entry (Path.join path name) .inspect))
  | .file => return .file .empty
  | _     => return .link ""

/-- The files on disk, with a log on standard output. -/
def workspace (verbosity : Verbosity) : Workspace IO where
  isFolder := isFolder
  discover dir := (Entry.discover (entry dir) dir).run
  read path := guarded (IO.FS.readBinFile path)
  copy path target := guarded do
    discard (IO.FS.readBinFile path)
    IO.FS.writeBinFile target .empty
    IO.FS.writeBinFile target (← IO.FS.readBinFile path)
  write path bytes := guarded (IO.FS.writeBinFile path bytes)
  log event := if verbosity.shows event.level then IO.println event.line else pure ()

/-- How the program is called. -/
def usage : String := "Usage: scss-sweep <clean|transitions> [-b|--backup] [-q|--quiet] [DIR]"

/-- Runs the command that the arguments are, and gives the code to end with. -/
def perform (args : List String) : IO UInt32 := do
  match Command.parse? args with
  | none                        => IO.eprintln usage; return 2
  | some .showVersion           => IO.print Command.versionText; return 0
  | some (.run feature options) =>
    let environment := (← IO.getEnv "RUST_LOG").bind Verbosity.ofName?
    let current ← IO.currentDir
    let files := workspace (Command.verbosity environment options)
    match ← (Command.execute files current.toString feature options).run with
    | .ok _    => return 0
    | .error e => IO.eprint (Command.errorText e); return 1

end Restyle.Disk

/-- The entry point. -/
def main (args : List String) : IO UInt32 := Restyle.Disk.perform args
