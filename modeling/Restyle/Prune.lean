import Restyle.Report
import Restyle.Sheet.Basic
import Restyle.Text.Blank

/-!
# Pruning

A rule is vacant when it holds no declaration with a value and no rule or at-rule.  An at-rule is
vacant when it holds nothing at all.  Pruning removes vacant blocks from the inside out, so a block
that only held vacant ones goes too.

Each removed block is recorded.  In a container the records of all rules come before those of all
at-rules; a block comes after what was removed inside it.
-/

namespace Restyle

namespace Node

/-- The node keeps the rule it stands in. -/
def isContent : Node → Bool
  | .block _ _ _ | .atStatement _ => true
  | .declaration decl             => !(Text.trim decl.value).isEmpty
  | .comment _                    => false

end Node

/-- A block with this head and body holds nothing. -/
def Head.isVacant (head : Head) (body : List Node) : Bool :=
  match head with
  | .rule _   => !body.any Node.isContent
  | .atRule _ => body.isEmpty

namespace Node

mutual

/-- The node with its vacant blocks removed, unless it is vacant itself. -/
def prune : Node → Option Node
  | .block head body after =>
    let kept := pruneAll body
    if head.isVacant kept then none else some (.block head kept after)
  | .atStatement _         => none
  | .declaration decl      => some (.declaration decl)
  | .comment c             => some (.comment c)

/-- The nodes that pruning leaves. -/
def pruneAll : List Node → List Node
  | []           => []
  | node :: rest =>
    match node.prune with
    | some kept => kept :: pruneAll rest
    | none      => pruneAll rest

end

mutual

/-- The records of what pruning removes from a node, its own last. -/
def removals (file : String) : Node → List Removal
  | .block head body _ =>
    ruleRemovals file body ++ atRuleRemovals file body ++
      if head.isVacant (pruneAll body) then [⟨file, head.label, lineOf head.source⟩] else []
  | .atStatement head  => [⟨file, head.label, lineOf head.source⟩]
  | .declaration _     => []
  | .comment _         => []

/-- The records of the rules among nodes. -/
def ruleRemovals (file : String) : List Node → List Removal
  | []           => []
  | node :: rest => (if node.isRule then node.removals file else []) ++ ruleRemovals file rest

/-- The records of the at-rules among nodes. -/
def atRuleRemovals (file : String) : List Node → List Removal
  | []           => []
  | node :: rest => (if node.isAtRule then node.removals file else []) ++ atRuleRemovals file rest

end

end Node

/-- The sheet without vacant blocks, and a record of each block removed. -/
def Sheet.prune (file : String) (sheet : Sheet) : Sheet × Report :=
  let removals := Node.ruleRemovals file sheet.nodes ++ Node.atRuleRemovals file sheet.nodes
  ({ sheet with nodes := Node.pruneAll sheet.nodes },
    ⟨!removals.isEmpty, removals, removals.map .removing⟩)

end Restyle
