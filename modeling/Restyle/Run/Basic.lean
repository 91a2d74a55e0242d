import Restyle.Run.Event

/-!
# Runs

A run discovers the sheets in a folder and restyles them one after the other, in the order of
discovery.  A file that a pass does not change is not written.  The first failure ends the run;
what was written before it stays.

A run is the same whether the files are on a disk or in a store, so it is defined over the
operations of a workspace.
-/

namespace Restyle

/-- The operations that a run needs from the place where its files are. -/
structure Workspace (m : Type → Type) where
  isFolder : String → m Bool
  discover : String → m (Except SearchError (List String))
  read : String → m (Except Fault ByteArray)
  copy : String → String → m (Except Fault Unit)
  write : String → ByteArray → m (Except Fault Unit)
  log : Event → m Unit

namespace Workspace

variable {m : Type → Type} [Monad m]

/-- The result of an operation, with its failure as an error of the run. -/
def attempt {ε α : Type} (error : ε → RunError) (operation : m (Except ε α)) :
    ExceptT RunError m α := do
  match ← operation with
  | .ok result     => return result
  | .error failure => throw (error failure)

/-- Logs entries in order. -/
def logAll (w : Workspace m) : List Event → m Unit
  | []            => pure ()
  | event :: rest => do w.log event; w.logAll rest

/-- Puts a new text into a file, after a copy of the old one if asked to. -/
def replace (w : Workspace m) (backups : Bool) (file : String) (output : Text) :
    ExceptT RunError m Unit := do
  if backups then
    attempt (.backup file) (w.copy file (Path.backup file))
    w.log (.backedUp (Path.backup file))
  attempt (.write file) (w.write file (String.ofList output).toUTF8)
  w.log (.updated file)

/-- Restyles one file. -/
def restyleFile (w : Workspace m) (feature : Feature) (backups : Bool) (file : String) :
    ExceptT RunError m Report := do
  let bytes ← attempt (.read file) (w.read file)
  match String.fromUTF8? bytes with
  | none        => throw (.read file .notText)
  | some source =>
    match feature.restyle file source.toList with
    | .error e     => throw (.parse file e)
    | .ok restyled =>
      w.logAll (restyled.report.notes.map .note)
      if restyled.report.changed then w.replace backups file restyled.output
      return restyled.report

/-- Restyles files in order. -/
def restyleAll (w : Workspace m) (feature : Feature) (backups : Bool) :
    List String → ExceptT RunError m (List Report)
  | []           => return []
  | file :: rest => do
    w.log (.processing file)
    let report ← w.restyleFile feature backups file
    let reports ← w.restyleAll feature backups rest
    return report :: reports

/-- Restyles the sheets in the folder at `dir`. -/
def run (w : Workspace m) (feature : Feature) (backups : Bool) (dir : String) :
    ExceptT RunError m Summary := do
  w.log (.searching dir)
  let files ← attempt (.walk dir) (w.discover dir)
  if files.isEmpty then
    w.log .noFiles
    return ⟨0, 0, []⟩
  else
    w.log (.found files.length)
    let summary := Summary.ofReports (← w.restyleAll feature backups files)
    w.logAll (summary.events feature)
    return summary

end Workspace

end Restyle
