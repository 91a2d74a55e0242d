import Restyle.Text.Basic

/-!
# Reports

What a pass over a sheet has to say: the blocks it removed, whether it changed the sheet, and the
notes it leaves in the log, in order.
-/

namespace Restyle

/-- How much a log entry matters. -/
inductive Level where
  | debug
  | info
  | warn
deriving DecidableEq, Repr

/-- The name of a level in a log. -/
def Level.name : Level → String
  | .debug => "DEBUG"
  | .info  => "INFO"
  | .warn  => "WARN"

/-- A block that was removed from the sheet in `file`. -/
structure Removal where
  file : String
  /-- The selector of a rule; the at sign, name and parameters of an at-rule. -/
  selector : Text
  line : Nat
deriving DecidableEq, Repr

/-- What a pass notes about a block. -/
inductive Note where
  /-- An empty block goes. -/
  | removing (removal : Removal)
  /-- A placeholder stands in a rule without pseudo-class children. -/
  | noPseudoClass (file : String) (selector : Text) (line : Nat)
  /-- A placeholder stands in a rule whose pseudo-class children change nothing of use. -/
  | noAllowedProperty (file : String) (selector : Text) (line : Nat)
  /-- A placeholder got a value. -/
  | narrowed (file : String) (selector value : Text)
deriving DecidableEq, Repr

namespace Note

/-- The level of a note. -/
def level : Note → Level
  | .removing _ => .debug
  | _           => .info

/-- The wording of a note. -/
def message : Note → String
  | .removing r                          =>
    "Removing empty " ++ String.ofList r.selector ++ " at " ++ r.file ++ ":" ++ toString r.line
  | .noPseudoClass file selector line     =>
    file ++ " @ \"" ++ String.ofList selector ++ "\" -> " ++ toString line ++
      " | Action should be taken (did not find child pseudo-classes)"
  | .noAllowedProperty file selector line =>
    file ++ " @ \"" ++ String.ofList selector ++ "\" -> " ++ toString line ++
      " | Action should be taken (no allowed properties modified in pseudo-elements)"
  | .narrowed file selector value         =>
    "[UPDATED] " ++ file ++ " @ \"" ++ String.ofList selector ++ "\" transition to \"" ++
      String.ofList value ++ "\""

end Note

/-- What a pass did to a sheet. -/
structure Report where
  changed : Bool
  removals : List Removal
  notes : List Note
deriving DecidableEq, Repr

end Restyle
