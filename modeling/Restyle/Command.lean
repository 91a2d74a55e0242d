import Restyle.Run.Session

/-!
# The command line

A command names a feature, then in any order a folder and flags.  Without a folder the current one
is meant.  The log goes to standard output as far as the verbosity lets it.
-/

namespace Restyle

/-! ### Verbosity -/

/-- Which log entries are shown. -/
inductive Verbosity where
  | trace
  | debug
  | info
  | warn
  | error
  | off
deriving DecidableEq, Repr

namespace Verbosity

/-- The verbosity with this name. -/
def ofName? : String → Option Verbosity
  | "trace" => some .trace
  | "debug" => some .debug
  | "info"  => some .info
  | "warn"  => some .warn
  | "error" => some .error
  | "off"   => some .off
  | _       => none

/-- The verbosity shows entries of the level. -/
def shows : Verbosity → Level → Bool
  | .trace, _      => true
  | .debug, _      => true
  | .info,  .debug => false
  | .info,  _      => true
  | .warn,  .warn  => true
  | .warn,  _      => false
  | .error, _      => false
  | .off,   _      => false

end Verbosity

/-- The line that shows an entry: its level, right-aligned to five columns, and its message. -/
def Event.line (event : Event) : String :=
  let name := event.level.name
  "".pushn ' ' (5 - name.length) ++ name ++ " " ++ event.message

/-! ### Arguments -/

/-- What a command asks for besides its feature. -/
structure Options where
  dir : Option String
  backup : Bool
  quiet : Bool
deriving DecidableEq, Repr

/-- What the arguments ask for. -/
inductive Command where
  | showVersion
  | run (feature : Feature) (options : Options)
deriving DecidableEq, Repr

namespace Options

/-- Nothing asked for yet. -/
def none : Options := ⟨.none, false, false⟩

/-- The options with the flag of this letter, which may be given once. -/
def addFlag? (o : Options) (letter : Char) : Option Options :=
  match letter with
  | 'b' => if o.backup then .none else some { o with backup := true }
  | 'q' => if o.quiet then .none else some { o with quiet := true }
  | _   => .none

/-- The options with flags of one letter each. -/
def addFlags? (o : Options) : Text → Option Options
  | []             => some o
  | letter :: rest => (o.addFlag? letter).bind (·.addFlags? rest)

/-- The options with a folder, which may be given once and has a name. -/
def addDir? (o : Options) (dir : String) : Option Options :=
  if dir.isEmpty || o.dir.isSome then .none else some { o with dir := some dir }

/-- The options with the folders that the arguments are. -/
def addDirs? (o : Options) : List String → Option Options
  | []          => some o
  | dir :: rest => (o.addDir? dir).bind (·.addDirs? rest)

/-- The options with what the arguments ask for.  Two dashes end the flags; a single one is the
name of a folder. -/
def parse? (o : Options) : List String → Option Options
  | []          => some o
  | arg :: rest =>
    match arg with
    | "--"       => o.addDirs? rest
    | "--backup" => (o.addFlag? 'b').bind (·.parse? rest)
    | "--quiet"  => (o.addFlag? 'q').bind (·.parse? rest)
    | _          =>
      match arg.toList with
      | '-' :: letter :: letters => (o.addFlags? (letter :: letters)).bind (·.parse? rest)
      | _                        => (o.addDir? arg).bind (·.parse? rest)

end Options

namespace Command

/-- The command that the arguments are, if they are one. -/
def parse? : List String → Option Command
  | []          => none
  | arg :: rest =>
    match arg with
    | "clean"       => (Options.none.parse? rest).map (.run .clean)
    | "transitions" => (Options.none.parse? rest).map (.run .transitions)
    | "--version"   => some .showVersion
    | _             =>
      match arg.toList with
      | '-' :: 'V' :: _ => some .showVersion
      | _               => none

/-- What is printed for the version. -/
def versionText : String := "scss-sweep " ++ version ++ "\n"

/-- What is printed for an error. -/
def errorText (error : RunError) : String := "An error occurred: " ++ error.message ++ "\n"

/-- The verbosity of a command: as the environment says, or by default. -/
def verbosity (environment : Option Verbosity) (options : Options) : Verbosity :=
  environment.getD (if options.quiet then .warn else .info)

/-- Runs a feature in the folder asked for, or in `current`. -/
def execute {m : Type → Type} [Monad m] (w : Workspace m) (current : String) (feature : Feature)
    (options : Options) : ExceptT RunError m Summary := do
  let dir := options.dir.getD current
  if ← w.isFolder dir then
    w.log (.started feature)
    w.run feature options.backup dir
  else throw (.notFolder dir)

/-- What a user sees of a command. -/
inductive Outcome where
  /-- The arguments are no command. -/
  | usage
  | finished (exit : Nat) (output errors : String)
deriving DecidableEq, Repr

/-- The code that a process ends with. -/
def Outcome.exit : Outcome → Nat
  | .usage             => 2
  | .finished exit _ _ => exit

/-- What a user sees of a command in a store, and the store after it. -/
def inStore (args : List String) (environment : Option Verbosity) (store : Store) :
    Outcome × Store :=
  match parse? args with
  | none                        => (.usage, store)
  | some .showVersion           => (.finished 0 versionText "", store)
  | some (.run feature options) =>
    let (result, session) :=
      Session.exec (execute Session.workspace store.currentPath feature options) ⟨store, []⟩
    let shown := session.log.filter fun event => (verbosity environment options).shows event.level
    let output := String.join (shown.map fun event => event.line ++ "\n")
    match result with
    | .ok _        => (.finished 0 output "", session.store)
    | .error error => (.finished 1 output (errorText error), session.store)

end Command

end Restyle
