import Restyle.Proofs.Sheet.Respelled

/-!
# Exchanging one node

An edit that changes the node at a path puts another one in its place.  `Exchanged old new path nodes
nodes'` says what that is: along the path, and nowhere else, the nodes differ.

* `Sheet.modify_eq_ok_iff`: **to change the node at a path is to exchange it** for what the change
  makes of it.
* `Exchanged.at?`: the path leads from the one node to the other.
* `Exchanged.printAll_eq`: nodes that print the same can be exchanged without a trace in the text.
-/

namespace Restyle

/-- The second list of nodes is the first one with another node at the path. -/
inductive Exchanged (old new : Node) : List Nat → List Node → List Node → Prop where
  | here (rest : List Node) : Exchanged old new [0] (old :: rest) (new :: rest)
  | later {i : Nat} {below : List Nat} {rest rest' : List Node} (node : Node)
      (t : Exchanged old new (i :: below) rest rest') :
      Exchanged old new ((i + 1) :: below) (node :: rest) (node :: rest')
  | inside {j : Nat} {below : List Nat} {body body' : List Node} (head : Head) (after : Text)
      (rest : List Node) (b : Exchanged old new (j :: below) body body') :
      Exchanged old new (0 :: j :: below) (.block head body after :: rest)
        (.block head body' after :: rest)

namespace Exchanged

variable {old new newer : Node} {path : List Nat} {nodes nodes' nodes'' : List Node}

/-! ### The exchange as a relation -/

/-- The old node stands at the path before, and the new one after. -/
theorem at? (h : Exchanged old new path nodes nodes') :
    Node.at? nodes path = some old ∧ Node.at? nodes' path = some new := by
  induction h with
  | here => exact ⟨rfl, rfl⟩
  | later node _ ih => rwa [Node.at?_cons_succ, Node.at?_cons_succ]
  | inside head after rest _ ih => exact ih

/-- A node may be exchanged twice at one path. -/
theorem trans (h₁ : Exchanged old new path nodes nodes')
    (h₂ : Exchanged new newer path nodes' nodes'') : Exchanged old newer path nodes nodes'' := by
  induction h₁ generalizing nodes'' with
  | here => cases h₂; exact .here _
  | later node _ ih => cases h₂ with | later _ t => exact .later node (ih t)
  | inside head after rest _ ih =>
      cases h₂ with | inside _ _ _ b => exact .inside head after rest (ih b)

/-- The exchange may be undone. -/
theorem symm (h : Exchanged old new path nodes nodes') : Exchanged new old path nodes' nodes := by
  induction h with
  | here rest => exact .here rest
  | later node _ ih => exact .later node ih
  | inside head after rest _ ih => exact .inside head after rest ih

/-- A node is exchanged among its siblings. -/
theorem set {i : Nat} (h : nodes[i]? = some old) :
    Exchanged old new [i] nodes (nodes.set i new) := by
  induction nodes generalizing i with
  | nil => cases h
  | cons node rest ih =>
      cases i with
      | zero => cases h; exact .here rest
      | succ i => exact .later node (ih h)

/-- An exchange in the body of a block is one in the nodes around it. -/
theorem set_block {i j : Nat} {below : List Nat} {head : Head} {after : Text}
    {body body' : List Node} (h : nodes[i]? = some (.block head body after))
    (hb : Exchanged old new (j :: below) body body') :
    Exchanged old new (i :: j :: below) nodes (nodes.set i (.block head body' after)) := by
  induction nodes generalizing i with
  | nil => cases h
  | cons node rest ih =>
      cases i with
      | zero => cases h; exact .inside head after rest hb
      | succ i => exact .later node (ih h)

/-- What stands at a path can be exchanged. -/
theorem exists_of_at? (h : Node.at? nodes path = some old) (new : Node) :
    ∃ nodes', Exchanged old new path nodes nodes' := by
  induction path generalizing nodes with
  | nil => cases h
  | cons i path ih =>
      cases path with
      | nil => exact ⟨_, set h⟩
      | cons j path =>
          rw [Node.at?_cons_cons] at h
          split at h
          · next head body after hi =>
            obtain ⟨body', hb⟩ := ih h
            exact ⟨_, set_block hi hb⟩
          · cases h

/-! ### What an exchange leaves alone -/

/-- Places are forgotten before or after. -/
theorem unplacedAll (h : Exchanged old new path nodes nodes') :
    Exchanged old.unplaced new.unplaced path (Node.unplacedAll nodes)
      (Node.unplacedAll nodes') := by
  induction h with
  | here => exact .here _
  | later node _ ih => exact .later node.unplaced ih
  | inside head after rest _ ih => exact .inside head.unplaced after _ ih

/-- A node with the same text does not change the text of the whole. -/
theorem printAll_eq (h : Exchanged old new path nodes nodes') (hp : new.print = old.print) :
    Node.printAll nodes' = Node.printAll nodes := by
  induction h with
  | here => rw [Node.printAll, Node.printAll, hp]
  | later node _ ih => rw [Node.printAll, Node.printAll, ih]
  | inside head after rest _ ih => rw [Node.printAll, Node.printAll, Node.print, Node.print, ih]

end Exchanged

/-! ### Changing the node at a path -/

namespace Node

/-- The nodes with the one at the path changed. -/
def changeAt (change : Node → Except EditError Node) :
    List Node → List Nat → Except EditError (List Node) :=
  editAt fun nodes i =>
    match nodes[i]? with
    | some node => (change node).map (nodes.set i)
    | none      => .error .noSuchNode

variable {change : Node → Except EditError Node} {old new : Node} {path : List Nat}
  {nodes nodes' : List Node}

/-- **A change that succeeds** exchanges the node at its path for what the change makes of it. -/
theorem exchanged_of_changeAt (h : changeAt change nodes path = .ok nodes') :
    ∃ old new, change old = .ok new ∧ Exchanged old new path nodes nodes' := by
  induction path generalizing nodes nodes' with
  | nil => cases h
  | cons i path ih =>
      cases path with
      | nil =>
          rw [changeAt, editAt] at h
          split at h
          · next old hi =>
            obtain ⟨new, hc, rfl⟩ := map_eq_ok_iff.1 h
            exact ⟨old, new, hc, .set hi⟩
          · cases h
      | cons j path =>
          rw [changeAt, editAt_cons_cons] at h
          split at h
          · next head body after hi =>
            obtain ⟨body', hb, rfl⟩ := map_eq_ok_iff.1 h
            obtain ⟨old, new, hc, hx⟩ := ih hb
            exact ⟨old, new, hc, hx.set_block hi⟩
          · cases h

theorem changeAt_cons_succ (node : Node) (rest : List Node) (i : Nat) (below : List Nat) :
    changeAt change (node :: rest) ((i + 1) :: below) =
      (changeAt change rest (i :: below)).map (node :: ·) := by
  cases below with
  | nil =>
      rw [changeAt, editAt, editAt, List.getElem?_cons_succ]
      cases rest[i]? with
      | none => rfl
      | some old => dsimp only; cases change old <;> rfl
  | cons j below =>
      rw [changeAt, editAt_cons_cons, editAt_cons_cons, List.getElem?_cons_succ]
      split
      · next head body after _ => cases editAt _ body (j :: below) <;> rfl
      · rfl

end Node

/-- An exchange can be made by a change at the path. -/
theorem Exchanged.changeAt {change : Node → Except EditError Node} {old new : Node}
    {path : List Nat} {nodes nodes' : List Node} (h : Exchanged old new path nodes nodes')
    (hc : change old = .ok new) : Node.changeAt change nodes path = .ok nodes' := by
  induction h with
  | here rest =>
      rw [Node.changeAt, Node.editAt]
      dsimp only [List.getElem?_cons_zero]
      rw [hc]
      rfl
  | later node _ ih => rw [Node.changeAt_cons_succ, ih]; rfl
  | inside head after rest _ ih =>
      rw [Node.changeAt] at ih
      rw [Node.changeAt, Node.editAt_cons_cons]
      dsimp only [List.getElem?_cons_zero]
      rw [ih]
      rfl

/-- **To change the node at a path is to exchange it** for what the change makes of it. -/
theorem Sheet.modify_eq_ok_iff {sheet sheet' : Sheet} {path : List Nat}
    {change : Node → Except EditError Node} :
    sheet.modify path change = .ok sheet' ↔
      ∃ old new, change old = .ok new ∧ Exchanged old new path sheet.nodes sheet'.nodes ∧
        sheet'.bom = sheet.bom ∧ sheet'.after = sheet.after := by
  have hm : sheet.modify path change = (Node.changeAt change sheet.nodes path).map
      fun nodes => { sheet with nodes := nodes } := rfl
  rw [hm]
  constructor
  · intro h
    obtain ⟨nodes, hn, rfl⟩ := map_eq_ok_iff.1 h
    obtain ⟨old, new, hc, hx⟩ := Node.exchanged_of_changeAt hn
    exact ⟨old, new, hc, hx, rfl, rfl⟩
  · rintro ⟨old, new, hc, hx, hb, ha⟩
    rw [hx.changeAt hc, Except.map, ← hb, ← ha]

end Restyle
