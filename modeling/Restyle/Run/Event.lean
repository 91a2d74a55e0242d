import Restyle.Feature
import Restyle.Storage.Store

/-!
# What a run says

The entries that a run leaves in the log, the error that ends it early, and the summary of one that
came to its end.
-/

namespace Restyle

/-- An entry in the log of a run. -/
inductive Event where
  | started (feature : Feature)
  | searching (dir : String)
  | noFiles
  | found (count : Nat)
  | processing (file : String)
  /-- A pass noted something about a sheet. -/
  | note (note : Note)
  | backedUp (backup : String)
  | updated (file : String)
  | tally (changed count : Nat)
  | nothingRemoved (feature : Feature)
  | heading (feature : Feature)
  | removedFrom (removal : Removal)
  | removedSelector (removal : Removal)
  | removedLine (removal : Removal)
  | complete
deriving DecidableEq, Repr

namespace Event

/-- The level of an entry. -/
def level : Event → Level
  | .note n  => n.level
  | .noFiles => .warn
  | _        => .info

/-- The wording of an entry. -/
def message : Event → String
  | .started feature        => "scss-sweep: " ++ feature.name
  | .searching dir          => "Searching for .scss files in: " ++ dir
  | .noFiles                => "No .scss files found in the specified directory."
  | .found count            => s!"Found {count} .scss file(s)."
  | .processing file        => "Processing file: " ++ file
  | .note n                 => n.message
  | .backedUp backup        => "Backup created at: " ++ backup
  | .updated file           => "Updated file: " ++ file
  | .tally changed count    => s!"Rewrote {changed} of {count} file(s)."
  | .nothingRemoved feature => feature.nothingFound
  | .heading feature        => feature.heading
  | .removedFrom r          => "File: " ++ r.file
  | .removedSelector r      => "  Selector: " ++ String.ofList r.selector
  | .removedLine r          => s!"  Line: {r.line}"
  | .complete               => "Cleanup complete!"

end Event

/-- What ended a run early. -/
inductive RunError where
  | notFolder (dir : String)
  | walk (dir : String) (error : SearchError)
  | read (file : String) (fault : Fault)
  | parse (file : String) (error : ParseError)
  | backup (file : String) (fault : Fault)
  | write (file : String) (fault : Fault)
deriving DecidableEq, Repr

/-- The message shown for an error. -/
def RunError.message : RunError → String
  | .notFolder dir     => "not a directory: " ++ dir
  | .walk dir error    =>
    "failed to walk " ++ dir ++ ": IO error for operation on " ++ error.path ++ ": " ++
      error.fault.message ++ ": " ++ error.fault.message
  | .read file fault   => "failed to read " ++ file ++ ": " ++ fault.message
  | .parse file error  => "failed to parse " ++ file ++ ": " ++ error.message
  | .backup file fault => "failed to back up " ++ file ++ ": " ++ fault.message
  | .write file fault  => "failed to write " ++ file ++ ": " ++ fault.message

/-- What a run did. -/
structure Summary where
  filesFound : Nat
  filesChanged : Nat
  removals : List Removal
deriving DecidableEq, Repr

namespace Summary

/-- The summary of the reports on all files found. -/
def ofReports (reports : List Report) : Summary :=
  ⟨reports.length, reports.countP (·.changed), reports.flatMap (·.removals)⟩

/-- The entries that close the log of a run. -/
def events (feature : Feature) (summary : Summary) : List Event :=
  let tally :=
    if 0 < summary.filesChanged then [.tally summary.filesChanged summary.filesFound] else []
  let removed :=
    if summary.removals.isEmpty then [.nothingRemoved feature]
    else
      .heading feature ::
        summary.removals.flatMap (fun r => [.removedFrom r, .removedSelector r, .removedLine r]) ++
        [.complete]
  tally ++ removed

end Summary

end Restyle
