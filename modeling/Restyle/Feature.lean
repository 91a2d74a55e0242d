import Restyle.Prune
import Restyle.Sheet.Parser
import Restyle.Transition

/-!
# Features

The two things the tool can do with a sheet, each with the dialect it reads and the texts it is
reported with.
-/

namespace Restyle

/-- The version of the tool. -/
def version : String := "0.3.0"

/-- The name that a text without a file goes by in reports. -/
def unnamedFile : String := "input.scss"

/-- What to do with a sheet. -/
inductive Feature where
  /-- Remove blocks that hold nothing. -/
  | clean
  /-- Narrow placeholder transitions. -/
  | transitions
deriving DecidableEq, Repr

/-- A text after a pass, and what the pass did. -/
structure Restyled where
  output : Text
  report : Report
deriving DecidableEq, Repr

namespace Feature

/-- All features. -/
def all : List Feature := [.clean, .transitions]

/-- The name in logs. -/
def name : Feature → String
  | .clean       => "scss-clean-unused-selectors"
  | .transitions => "scss-refactor-transitions"

/-- The dialect that sheets are read in. -/
def dialect : Feature → Dialect
  | .clean       => .scss
  | .transitions => .css

/-- What is reported when nothing was removed. -/
def nothingFound : Feature → String
  | .clean       => "No empty selectors found!"
  | .transitions => "No unused transitions were found!"

/-- What stands above the list of removals. -/
def heading : Feature → String
  | .clean       => "Removed empty selectors:"
  | .transitions => "Removed unused transitions:"

/-- The sheet in `file` after the pass, and what the pass did. -/
def apply (feature : Feature) (file : String) (sheet : Sheet) : Sheet × Report :=
  match feature with
  | .clean       => sheet.prune file
  | .transitions => sheet.narrow file Transition.properties

/-- The text in `file` after the pass, and what the pass did. -/
def restyle (feature : Feature) (file : String) (source : Text) : Except ParseError Restyled :=
  match Sheet.parse feature.dialect source with
  | .error e  => .error e
  | .ok sheet =>
    let (sheet, report) := feature.apply file sheet
    .ok ⟨sheet.print, report⟩

/-- A text that is accepted is a sheet, and the output is what the pass leaves of it. -/
theorem restyle_eq_ok_iff {feature : Feature} {file : String} {source : Text} {out : Restyled} :
    feature.restyle file source = .ok out ↔
      ∃ sheet, Sheet.parse feature.dialect source = .ok sheet ∧
        out = ⟨(feature.apply file sheet).1.print, (feature.apply file sheet).2⟩ := by
  rw [restyle]
  constructor
  · intro h
    split at h
    · cases h
    · next sheet hp =>
      cases h
      exact ⟨sheet, hp, rfl⟩
  · rintro ⟨sheet, hp, rfl⟩
    rw [hp]

end Feature

end Restyle
