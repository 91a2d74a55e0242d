import Restyle.Run.Basic

/-!
# Runs on a store

A session is a store together with the log so far.  The workspace of a session does to the store
what a run does to files, so a whole run is a function from stores to stores.
-/

namespace Restyle

/-- A store and the log so far. -/
structure Session where
  store : Store
  log : List Event

namespace Session

/-- An operation that only looks at the store. -/
def look {α : Type} (f : Store → α) : StateM Session α := fun s => (f s.store, s)

/-- An operation that changes the store, unless it fails. -/
def change (f : Store → Except Fault Store) : StateM Session (Except Fault Unit) := fun s =>
  match f s.store with
  | .ok store    => (.ok (), { s with store := store })
  | .error fault => (.error fault, s)

/-- The workspace of a session. -/
def workspace : Workspace (StateM Session) where
  isFolder path := look (·.isFolder path)
  discover dir := look (·.discover dir)
  read path := look (·.read path)
  copy path target := change (·.copy path target)
  write path bytes := change (·.write path bytes)
  log event := fun s => ((), { s with log := s.log ++ [event] })

/-- What a program does to a session: its result, and the session after it. -/
def exec {α : Type} (program : ExceptT RunError (StateM Session) α) (s : Session) :
    Except RunError α × Session :=
  program.run.run s

/-! ### Programs step by step -/

@[simp] theorem exec_pure {α : Type} (a : α) (s : Session) : exec (pure a) s = (.ok a, s) := rfl

@[simp] theorem exec_throw {α : Type} (e : RunError) (s : Session) :
    exec (throw e : ExceptT RunError (StateM Session) α) s = (.error e, s) := rfl

/-- An operation of the workspace does not fail as a program. -/
@[simp] theorem exec_lift {α : Type} (operation : StateM Session α) (s : Session) :
    exec (liftM operation) s = (.ok (operation s).1, (operation s).2) := rfl

/-- A program that fails leaves the session as it was when it failed. -/
theorem exec_bind {α β : Type} (program : ExceptT RunError (StateM Session) α)
    (f : α → ExceptT RunError (StateM Session) β) (s : Session) :
    exec (program >>= f) s =
      match exec program s with
      | (.ok a, t)    => exec (f a) t
      | (.error e, t) => (.error e, t) := by
  simp only [exec, ExceptT.run_bind, StateT.run_bind]
  rcases program.run.run s with ⟨_ | a, t⟩ <;> rfl

/-- The failure of an operation ends the program. -/
theorem exec_attempt {ε α : Type} (error : ε → RunError)
    (operation : StateM Session (Except ε α)) (s : Session) :
    exec (Workspace.attempt error operation) s =
      match operation s with
      | (.ok a, t)          => (.ok a, t)
      | (.error failure, t) => (.error (error failure), t) := by
  rw [Workspace.attempt, exec_bind, exec_lift]
  rcases operation s with ⟨_ | a, t⟩ <;> rfl

end Session

/-- A run on a store: its summary or error, and the session after it. -/
def Store.run (store : Store) (feature : Feature) (backups : Bool) (dir : String) :
    Except RunError Summary × Session :=
  Session.exec (Session.workspace.run feature backups dir) ⟨store, []⟩

end Restyle
