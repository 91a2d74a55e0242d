import Restyle.Sheet.Basic

/-!
# Editing sheets

A node is named by its path: the index of each ancestor among its siblings from the root down, then
its own.  An edit changes the node at a path, or the siblings around it, and leaves everything else
as it was.
-/

namespace Restyle

/-- Why an edit is impossible. -/
inductive EditError where
  | noSuchNode
  | notDeclaration
  | noSuchFlag
deriving DecidableEq, Repr

/-- What is wrong, in a message. -/
def EditError.message : EditError → String
  | .noSuchNode     => "no such node"
  | .notDeclaration => "not a declaration"
  | .noSuchFlag     => "no such flag"

namespace Node

/-- The node at a path below the given nodes. -/
def at? : List Node → List Nat → Option Node
  | _,     []        => none
  | nodes, [i]       => nodes[i]?
  | nodes, i :: path =>
    match nodes[i]? with
    | some (.block _ body _) => at? body path
    | _                      => none

/-- The nodes with `edit` done at the end of a path, where it is given the siblings and the last
index. -/
def editAt (edit : List Node → Nat → Except EditError (List Node)) :
    List Node → List Nat → Except EditError (List Node)
  | _,     []        => .error .noSuchNode
  | nodes, [i]       => edit nodes i
  | nodes, i :: path =>
    match nodes[i]? with
    | some (.block head body after) =>
      (editAt edit body path).map fun body => nodes.set i (.block head body after)
    | _                             => .error .noSuchNode

/-- The declaration with a new value.  The spelling of the old one is kept beside it. -/
def setValue (value : Text) : Node → Except EditError Node
  | .declaration decl => .ok (.declaration { decl with value := value })
  | _                 => .error .notDeclaration

/-- The declaration, made important or not. -/
def setImportant (flag : Bool) : Node → Except EditError Node
  | .declaration decl => .ok (.declaration { decl with important := flag })
  | _                 => .error .noSuchFlag

/-- The declaration or at-rule, closed by a semicolon or not. -/
def setSemicolon (flag : Bool) : Node → Except EditError Node
  | .declaration decl                => .ok (.declaration { decl with semicolon := flag })
  | .atStatement head                => .ok (.atStatement { head with semicolon := flag })
  | .block (.atRule head) body after =>
    .ok (.block (.atRule { head with semicolon := flag }) body after)
  | _                                => .error .noSuchFlag

end Node

namespace Sheet

/-- The node at a path. -/
def at? (sheet : Sheet) (path : List Nat) : Option Node := Node.at? sheet.nodes path

/-- The sheet with the node at a path changed. -/
def modify (sheet : Sheet) (path : List Nat) (change : Node → Except EditError Node) :
    Except EditError Sheet :=
  let edit := fun (nodes : List Node) (i : Nat) =>
    match nodes[i]? with
    | some node => (change node).map (nodes.set i)
    | none      => .error .noSuchNode
  (Node.editAt edit sheet.nodes path).map fun nodes => { sheet with nodes := nodes }

/-- The sheet without the node at a path. -/
def remove (sheet : Sheet) (path : List Nat) : Except EditError Sheet :=
  let edit := fun (nodes : List Node) (i : Nat) =>
    if i < nodes.length then .ok (nodes.eraseIdx i) else .error .noSuchNode
  (Node.editAt edit sheet.nodes path).map fun nodes => { sheet with nodes := nodes }

/-- The sheet with a node put in at a path.  The last index may be the number of siblings. -/
def insert (sheet : Sheet) (path : List Nat) (node : Node) : Except EditError Sheet :=
  let edit := fun (nodes : List Node) (i : Nat) =>
    if i ≤ nodes.length then .ok (nodes.insertIdx i node) else .error .noSuchNode
  (Node.editAt edit sheet.nodes path).map fun nodes => { sheet with nodes := nodes }

end Sheet

end Restyle
