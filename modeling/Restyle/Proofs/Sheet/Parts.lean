import Restyle.Sheet.Edit

/-!
# The nodes of a tree

`parts` lists a node and all nodes below it as they stand in the text: a block before what it
holds.  Statements about nodes at any depth are statements about this list.  `bare` is a node by
itself, without what it holds.

A path leads to one of these nodes.  `Node.at?_map`: what is done to every node by itself is seen at
every path.
-/

namespace Restyle

/-- The byte offset at which something starts, which is zero for what was not read from a text. -/
def offsetOf (source : Option Span) : Nat := source.elim 0 (·.start.offset)

/-- Something with this span is reported at the line: the one it starts on, and zero if it was not
read from a text. -/
inductive ReportedAt : Option Span → Nat → Prop where
  | unread : ReportedAt none 0
  | read (span : Span) : ReportedAt (some span) span.start.line

/-- There is one line to report something at, which is the one that reports give. -/
theorem reportedAt_iff {source : Option Span} {line : Nat} :
    ReportedAt source line ↔ line = lineOf source := by
  constructor
  · rintro (_ | span)
    · rfl
    · rfl
  · rintro rfl
    cases source with
    | none => exact .unread
    | some span => exact .read span

/-- Something is reported at the line that reports give. -/
theorem reportedAt_lineOf (source : Option Span) : ReportedAt source (lineOf source) :=
  reportedAt_iff.2 rfl

namespace Node

mutual

/-- The node and all nodes below it, in order. -/
def parts : Node → List Node
  | .block head body after => .block head body after :: partsAll body
  | .atStatement head      => [.atStatement head]
  | .declaration decl      => [.declaration decl]
  | .comment c             => [.comment c]

/-- The nodes and all nodes below them, in order. -/
def partsAll : List Node → List Node
  | []           => []
  | node :: rest => node.parts ++ partsAll rest

end

/-- The node without its body. -/
def bare : Node → Node
  | .block head _ after => .block head [] after
  | node                => node

theorem mem_parts_self (node : Node) : node ∈ node.parts := by
  cases node <;> exact List.mem_cons_self

theorem parts_of_ne_block {node : Node}
    (h : ∀ head body after, node ≠ .block head body after) : node.parts = [node] := by
  cases node with
  | block head body after => exact absurd rfl (h head body after)
  | atStatement | declaration | comment => rfl

theorem partsAll_eq_flatMap (nodes : List Node) : partsAll nodes = nodes.flatMap parts := by
  induction nodes with
  | nil => rfl
  | cons node rest ih => rw [partsAll, List.flatMap_cons, ih]

/-- A node below some nodes is one of the parts of one of them. -/
theorem mem_partsAll {part : Node} {nodes : List Node} :
    part ∈ partsAll nodes ↔ ∃ node ∈ nodes, part ∈ node.parts := by
  rw [partsAll_eq_flatMap, List.mem_flatMap]

/-- What is below the children of a node is below the node. -/
theorem mem_parts_of_mem_children {part node : Node} (h : part ∈ partsAll node.children) :
    part ∈ node.parts := by
  cases node with
  | block => exact List.mem_cons_of_mem _ h
  | atStatement | declaration | comment => cases h

mutual

/-- What is below a node that is below another is below that one. -/
theorem mem_parts_trans {a b : Node} (ha : a ∈ b.parts) : ∀ {c : Node}, b ∈ c.parts → a ∈ c.parts
  | .block head body after, hb => by
      rw [parts] at hb ⊢
      rcases List.mem_cons.1 hb with rfl | hb
      · exact ha
      · exact List.mem_cons_of_mem _ (mem_partsAll_trans ha hb)
  | .atStatement _, hb | .declaration _, hb | .comment _, hb => by
      rw [parts, List.mem_singleton] at hb
      exact hb ▸ ha

theorem mem_partsAll_trans {a b : Node} (ha : a ∈ b.parts) :
    ∀ {nodes : List Node}, b ∈ partsAll nodes → a ∈ partsAll nodes
  | node :: rest, hb => by
      rw [partsAll] at hb ⊢
      rcases List.mem_append.1 hb with hb | hb
      · exact List.mem_append_left _ (mem_parts_trans ha hb)
      · exact List.mem_append_right _ (mem_partsAll_trans ha hb)

end

/-- The declarations among nodes are those that stand there as nodes. -/
theorem mem_declarations {decl : Declaration} {nodes : List Node} :
    decl ∈ declarations nodes ↔ .declaration decl ∈ nodes := by
  rw [declarations, List.mem_filterMap]
  constructor
  · rintro ⟨node, hn, hd⟩
    cases node <;> cases hd
    exact hn
  · intro h
    exact ⟨_, h, rfl⟩

theorem declarations_append (a b : List Node) :
    declarations (a ++ b) = declarations a ++ declarations b := List.filterMap_append

/-! ### Paths -/

/-- Below the first step of a path stands a block, or nothing. -/
theorem at?_cons_cons (nodes : List Node) (i j : Nat) (path : List Nat) :
    at? nodes (i :: j :: path) =
      match nodes[i]? with
      | some (.block _ body _) => at? body (j :: path)
      | _                      => none := rfl

/-- An edit below the first step of a path changes a block, or there is none. -/
theorem editAt_cons_cons (edit : List Node → Nat → Except EditError (List Node))
    (nodes : List Node) (k j : Nat) (path : List Nat) :
    editAt edit nodes (k :: j :: path) =
      match nodes[k]? with
      | some (.block head body after) =>
        (editAt edit body (j :: path)).map fun body => nodes.set k (.block head body after)
      | _                             => .error .noSuchNode := rfl

/-- A path into a block leads to what the rest of it leads to in the body. -/
theorem at?_block {nodes body : List Node} {i : Nat} {head : Head} {after : Text}
    (h : nodes[i]? = some (.block head body after)) (j : Nat) (path : List Nat) :
    at? nodes (i :: j :: path) = at? body (j :: path) := by
  rw [at?_cons_cons, h]

theorem at?_leaf {nodes : List Node} {i : Nat}
    (h : ∀ head body after, nodes[i]? ≠ some (.block head body after)) (j : Nat)
    (path : List Nat) : at? nodes (i :: j :: path) = none := by
  rw [at?_cons_cons]
  split
  · next head body after hb => exact absurd hb (h head body after)
  · rfl

theorem at?_nil (path : List Nat) : at? [] path = none := by
  cases path with
  | nil => rfl
  | cons i path =>
      cases path with
      | nil => rfl
      | cons j path => exact at?_leaf (fun _ _ _ h => by cases h) j path

/-- A path past the first node leads to the same place in the others. -/
theorem at?_cons_succ (node : Node) (rest : List Node) (i : Nat) (path : List Nat) :
    at? (node :: rest) ((i + 1) :: path) = at? rest (i :: path) := by
  cases path <;> rfl

/-- A path into the first node leads to the same place in its children. -/
theorem at?_cons_zero (node : Node) (rest : List Node) (j : Nat) (path : List Nat) :
    at? (node :: rest) (0 :: j :: path) = at? node.children (j :: path) := by
  cases node with
  | block => rfl
  | atStatement | declaration | comment => exact (at?_nil (j :: path)).symm

/-- A path into nodes ends at the first of them, leads below it, or leads to the others. -/
theorem at?_cons_cases {node part : Node} {rest : List Node} {path : List Nat}
    (h : at? (node :: rest) path = some part) :
    (path = [0] ∧ part = node) ∨
      (∃ j below, path = 0 :: j :: below ∧ at? node.children (j :: below) = some part) ∨
      ∃ i below, path = (i + 1) :: below ∧ at? rest (i :: below) = some part := by
  match path with
  | []            => cases h
  | [0]           => exact .inl ⟨rfl, (Option.some.inj h).symm⟩
  | 0 :: j :: below => exact .inr (.inl ⟨j, below, rfl, at?_cons_zero node rest j below ▸ h⟩)
  | (i + 1) :: below => exact .inr (.inr ⟨i, below, rfl, at?_cons_succ node rest i below ▸ h⟩)

/-- A path ends at a node, or leads below it. -/
theorem at?_cons_iff {nodes : List Node} {i : Nat} {below : List Nat} {part : Node} :
    at? nodes (i :: below) = some part ↔
      ∃ node, nodes[i]? = some node ∧
        (below = [] ∧ part = node ∨ at? node.children below = some part) := by
  cases below with
  | nil =>
      simp only [at?, reduceCtorEq, or_false, true_and]
      constructor
      · intro h
        exact ⟨part, h, rfl⟩
      · rintro ⟨node, h, rfl⟩
        exact h
  | cons j below =>
      rw [at?_cons_cons]
      cases nodes[i]? with
      | none => simp
      | some node =>
          cases node with
          | block => simp [children]
          | atStatement | declaration | comment => simp [children, at?_nil]

/-- **What stands at a path** is one of the nodes or below one. -/
theorem mem_partsAll_of_at? {part : Node} : ∀ {path : List Nat} {nodes : List Node},
    at? nodes path = some part → part ∈ partsAll nodes
  | i :: below, nodes, h => by
      obtain ⟨node, hi, ⟨-, rfl⟩ | hb⟩ := at?_cons_iff.1 h
      · exact mem_partsAll.2 ⟨_, List.mem_of_getElem? hi, mem_parts_self _⟩
      · exact mem_partsAll.2 ⟨node, List.mem_of_getElem? hi,
          mem_parts_of_mem_children (mem_partsAll_of_at? hb)⟩

/-- What stands further down a path is the node on the way or below it. -/
theorem mem_parts_of_at? {outer part : Node} : ∀ {front rest : List Nat} {nodes : List Node},
    at? nodes front = some outer → at? nodes (front ++ rest) = some part → part ∈ outer.parts
  | i :: front, rest, nodes, ho, hp => by
      obtain ⟨node, hi, ho⟩ := at?_cons_iff.1 ho
      obtain ⟨node', hi', hp⟩ := at?_cons_iff.1 hp
      rw [hi] at hi'
      cases hi'
      rcases ho with ⟨rfl, rfl⟩ | ho
      · rcases hp with ⟨-, rfl⟩ | hp
        · exact mem_parts_self _
        · exact mem_parts_of_mem_children (mem_partsAll_of_at? hp)
      · rcases hp with ⟨hn, -⟩ | hp
        · cases (List.append_eq_nil_iff.1 hn).1
          cases ho
        · exact mem_parts_of_at? ho hp

/-- What is done to every node by itself, and keeps blocks with their bodies, is seen at every
path. -/
theorem at?_map {f : Node → Node}
    (hb : ∀ head body after, ∃ head', f (.block head body after) = .block head' (body.map f) after)
    (hl : ∀ node, (∀ head body after, node ≠ .block head body after) →
      ∀ head body after, f node ≠ .block head body after) :
    ∀ (path : List Nat) (nodes : List Node), at? (nodes.map f) path = (at? nodes path).map f
  | [], _ => rfl
  | [i], nodes => by rw [at?, at?, List.getElem?_map]
  | i :: j :: path, nodes => by
      by_cases hn : ∃ head body after, nodes[i]? = some (.block head body after)
      · obtain ⟨head, body, after, hi⟩ := hn
        obtain ⟨head', he⟩ := hb head body after
        have hi' : (nodes.map f)[i]? = some (.block head' (body.map f) after) := by
          rw [List.getElem?_map, hi, Option.map_some, he]
        rw [at?_block hi', at?_block hi, at?_map hb hl (j :: path) body]
      · have hi : ∀ head body after, nodes[i]? ≠ some (.block head body after) :=
          fun head body after he => hn ⟨head, body, after, he⟩
        have hi' : ∀ head body after, (nodes.map f)[i]? ≠ some (.block head body after) := by
          intro head body after he
          rw [List.getElem?_map] at he
          obtain ⟨node, hnode, hf⟩ := Option.map_eq_some_iff.1 he
          refine hl node (fun head body after h => ?_) _ _ _ hf
          exact hi head body after (h ▸ hnode)
        rw [at?_leaf hi', at?_leaf hi]
        rfl

end Node

end Restyle
