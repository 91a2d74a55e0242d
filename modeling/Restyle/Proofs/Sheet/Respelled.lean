import Restyle.Proofs.Sheet.Layout
import Restyle.Proofs.Sheet.Parts
import Restyle.Proofs.Sheet.RoundTrip
import Restyle.Proofs.Sheet.Unplaced

/-!
# Spelled as printed

A declaration remembers how its value was spelled, and forgets nothing when it gets another one: the
old spelling stays beside the new value and is not printed.  `respelled` puts the text that is
printed in its place, which is what reading the text again must give.

* `Sheet.print_respelled`: this is not seen in the text.
* `Items.respelledAll`, `Sheet.respelledAll_of_parse`: what was read is spelled as it prints.
-/

namespace Restyle

/-! ### Respelled nodes -/

/-- The declaration with the spelling that it prints. -/
def Declaration.respelled (decl : Declaration) : Declaration :=
  { decl with spelling := some ⟨decl.value, decl.printValue⟩ }

theorem Declaration.print_respelled (decl : Declaration) : decl.respelled.print = decl.print := by
  simp only [Declaration.print, Declaration.respelled]
  congr 2
  exact if_pos rfl

namespace Node

mutual

/-- The node with its declarations spelled as they print. -/
def respelled : Node → Node
  | .block head body after => .block head (respelledAll body) after
  | .atStatement head      => .atStatement head
  | .declaration decl      => .declaration decl.respelled
  | .comment c             => .comment c

/-- The nodes with their declarations spelled as they print. -/
def respelledAll : List Node → List Node
  | []           => []
  | node :: rest => node.respelled :: respelledAll rest

end

mutual

/-- The new spelling of a value is the one in which it is printed anyway. -/
theorem print_respelled : ∀ node : Node, node.respelled.print = node.print
  | .block head body after => by rw [respelled, print, print, printAll_respelled body]
  | .declaration decl => decl.print_respelled
  | .atStatement _ | .comment _ => rfl

theorem printAll_respelled : ∀ nodes : List Node, printAll (respelledAll nodes) = printAll nodes
  | []           => rfl
  | node :: rest => by
      rw [respelledAll, printAll, printAll, print_respelled node, printAll_respelled rest]

end

end Node

/-- The sheet with its declarations spelled as they print. -/
def Sheet.respelled (sheet : Sheet) : Sheet :=
  { sheet with nodes := Node.respelledAll sheet.nodes }

/-- **Respelling does not show** in the text of a sheet. -/
theorem Sheet.print_respelled (sheet : Sheet) : sheet.respelled.print = sheet.print := by
  rw [Sheet.print, Sheet.print, Sheet.respelled, Node.printAll_respelled]

/-! ### What was read is spelled as it prints -/

/-- What is read off tokens has its spelling already. -/
theorem Node.respelled_ofStatement? {before : Text} {first : Token} {others : List Token}
    {semicolon : Bool} {node : Node}
    (h : Node.ofStatement? before first others semicolon = some node) : node.respelled = node := by
  rcases Node.ofStatement?_cases h with ⟨name, -, rfl⟩ | ⟨decl, hd, rfl⟩
  · rfl
  · obtain ⟨l, -, rfl⟩ := Declaration.ofRun?_eq_some_iff.1 hd
    simp [Node.respelled, Declaration.respelled, Declaration.printValue, Layout.declaration]

/-- A sheet that was read is respelled as it is. -/
theorem Items.respelledAll {tokens : List Token} {nodes : List Node} {after : Text}
    (h : Items tokens nodes after) : Node.respelledAll nodes = nodes := by
  induction h with
  | last => rfl
  | loose _ _ _ hn => rw [Node.respelledAll, Node.respelledAll, Node.respelled_ofStatement? hn]
  | statement _ _ _ _ _ hn _ ih => rw [Node.respelledAll, Node.respelled_ofStatement? hn, ih]
  | comment _ _ _ ih => rw [Node.respelledAll, Node.respelled, ih]
  | block _ _ _ _ _ _ _ ihi ih => rw [Node.respelledAll, Node.respelled, ihi, ih]

/-- What was read is spelled as it prints. -/
theorem Sheet.respelledAll_of_parse {dialect : Dialect} {source : Text} {sheet : Sheet}
    (h : Sheet.parse dialect source = .ok sheet) :
    Node.respelledAll sheet.nodes = sheet.nodes := by
  obtain ⟨text, ls, -, -, hi⟩ := Sheet.parse_eq_ok_iff.1 h
  exact hi.respelledAll

/-! ### Paths -/

namespace Node

/-- Each node is respelled by itself. -/
theorem respelledAll_eq_map (nodes : List Node) : respelledAll nodes = nodes.map respelled := by
  induction nodes with
  | nil => rfl
  | cons node rest ih => rw [respelledAll, List.map_cons, ih]

theorem unplacedAll_eq_map (nodes : List Node) : unplacedAll nodes = nodes.map unplaced := by
  induction nodes with
  | nil => rfl
  | cons node rest ih => rw [unplacedAll, List.map_cons, ih]

/-- Respelling leaves every node at its path. -/
theorem at?_respelledAll (nodes : List Node) (path : List Nat) :
    at? (respelledAll nodes) path = (at? nodes path).map respelled := by
  rw [respelledAll_eq_map]
  refine at?_map (fun head body after => ⟨head, ?_⟩) (fun node hn head body after he => ?_) path
    nodes
  · rw [respelled, respelledAll_eq_map]
  · cases node with
    | block => exact hn _ _ _ rfl
    | atStatement | declaration | comment => cases he

theorem at?_unplacedAll (nodes : List Node) (path : List Nat) :
    at? (unplacedAll nodes) path = (at? nodes path).map unplaced := by
  rw [unplacedAll_eq_map]
  refine at?_map (fun head body after => ⟨head.unplaced, ?_⟩) (fun node hn head body after he => ?_)
    path nodes
  · rw [unplaced, unplacedAll_eq_map]
  · cases node with
    | block => exact hn _ _ _ rfl
    | atStatement | declaration | comment => cases he

end Node

/-- In a sheet that respelling does not change, it changes no node. -/
theorem Node.respelled_of_at? {nodes : List Node} (hs : Node.respelledAll nodes = nodes)
    {path : List Nat} {node : Node} (h : Node.at? nodes path = some node) :
    node.respelled = node := by
  have he := Node.at?_respelledAll nodes path
  rw [hs, h] at he
  exact (Option.some.inj he).symm

theorem Node.bare_unplaced (node : Node) : node.unplaced.bare = node.bare.unplaced := by
  cases node <;> rfl

/-- Sheets that are the same up to places have the same nodes at every path, up to places. -/
theorem Sheet.at?_of_unplaced_eq {a b : Sheet} (h : a.unplaced = b.unplaced) (path : List Nat) :
    (a.at? path).map Node.unplaced = (b.at? path).map Node.unplaced := by
  have hn : Node.unplacedAll a.nodes = Node.unplacedAll b.nodes := congrArg Sheet.nodes h
  rw [Sheet.at?, Sheet.at?, ← Node.at?_unplacedAll, hn, Node.at?_unplacedAll]

end Restyle
