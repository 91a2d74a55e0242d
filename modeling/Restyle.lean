import Restyle.Text.Basic
import Restyle.Text.Blank
import Restyle.Position
import Restyle.Token.Basic
import Restyle.Token.Delimited
import Restyle.Token.Opening
import Restyle.Token.Word
import Restyle.Token.Lexer
import Restyle.Statement
import Restyle.Sheet.Basic
import Restyle.Sheet.Printer
import Restyle.Sheet.Parser
import Restyle.Sheet.Edit
import Restyle.Report
import Restyle.Prune
import Restyle.Transition
import Restyle.Feature
import Restyle.Storage.Path
import Restyle.Storage.Fault
import Restyle.Storage.Entry
import Restyle.Storage.Store
import Restyle.Run.Event
import Restyle.Run.Basic
import Restyle.Run.Session
import Restyle.Command
import Restyle.Main
import Restyle.Proofs.Text.Trailing
import Restyle.Proofs.Token.Reads
import Restyle.Proofs.Token.Lookahead
import Restyle.Proofs.Token.Tiles
import Restyle.Proofs.Token.Phrase
import Restyle.Proofs.Token.Places
import Restyle.Proofs.Token.LineColumn
import Restyle.Proofs.Token.Braces
import Restyle.Proofs.Token.Closing
import Restyle.Proofs.Token.Words
import Restyle.Proofs.Token.Forms
import Restyle.Proofs.Token.Unclosed
import Restyle.Proofs.Sheet.Items
import Restyle.Proofs.Sheet.RoundTrip
import Restyle.Proofs.Sheet.Layout
import Restyle.Proofs.Sheet.Grammar
import Restyle.Proofs.Sheet.Earliest
import Restyle.Proofs.Sheet.Unplaced
import Restyle.Proofs.Sheet.Thinning
import Restyle.Proofs.Sheet.Parts
import Restyle.Proofs.Sheet.Retold
import Restyle.Proofs.Sheet.Revalue
import Restyle.Proofs.Sheet.Edits
import Restyle.Proofs.Sheet.Respelled
import Restyle.Proofs.Sheet.Exchanged
import Restyle.Proofs.Sheet.Assigned
import Restyle.Proofs.Sheet.ByHand
import Restyle.Proofs.Sheet.Places
import Restyle.Proofs.Sheet.Origin
import Restyle.Proofs.Sheet.Chart
import Restyle.Proofs.Sheet.Without
import Restyle.Proofs.Prune.Survivors
import Restyle.Proofs.Prune.Tidy
import Restyle.Proofs.Prune.Reread
import Restyle.Proofs.Prune.Deleted
import Restyle.Proofs.Prune.Removed
import Restyle.Proofs.Prune.Records
import Restyle.Proofs.Prune.Limit
import Restyle.Proofs.Transition.Verdict
import Restyle.Proofs.Transition.Pass
import Restyle.Proofs.Transition.Reread
import Restyle.Proofs.Feature.Changed
import Restyle.Proofs.Transition.Passes
import Restyle.Proofs.Transition.Notes
import Restyle.Proofs.Feature.Dialects
import Restyle.Proofs.Storage.Names
import Restyle.Proofs.Storage.Stat
import Restyle.Proofs.Storage.Walk
import Restyle.Proofs.Storage.Grown
import Restyle.Proofs.Storage.Discover
import Restyle.Proofs.Storage.Spot
import Restyle.Proofs.Run.Steps
import Restyle.Proofs.Run.Outcome
import Restyle.Proofs.Storage.Order
import Restyle.Proofs.Run.Backups
import Restyle.Proofs.Indexed.Slice
import Restyle.Proofs.Token.Suffix
import Restyle.Proofs.Sheet.Fields
import Restyle.Proofs.Indexed.Cursor
import Restyle.Proofs.Indexed.Scanner
import Restyle.Proofs.Indexed.Marks
import Restyle.Proofs.Indexed.Parser
import Restyle.Proofs.Indexed.Rewrite
