import Restyle.Proofs.Sheet.Unplaced
import Restyle.Prune

/-!
# Tidy nodes

A node is tidy when there is nothing in it to prune.  Pruning leaves tidy nodes behind, and does
nothing to tidy nodes: it keeps them and records no removal.  Being tidy does not depend on places,
so a pruned sheet that is read again from its text is still tidy.
-/

namespace Restyle

namespace Node

/-- Only rules and at-rules go. -/
theorem isBlock_of_prune {node : Node} (h : node.prune = none) : node.isBlock = true := by
  cases node with
  | block | atStatement => rfl
  | declaration | comment => cases h

/-- A block goes when nothing is left in it. -/
theorem prune_block_eq_none_iff {head : Head} {body : List Node} {after : Text} :
    (Node.block head body after).prune = none ↔ head.isVacant (pruneAll body) = true := by
  rw [prune]
  split
  · next hv => exact iff_of_true rfl hv
  · next hv => exact iff_of_false (Option.some_ne_none _) hv

/-- A block that stays has been pruned inside. -/
theorem prune_block_eq_some_iff {head : Head} {body : List Node} {after : Text} {kept : Node} :
    (Node.block head body after).prune = some kept ↔
      head.isVacant (pruneAll body) = false ∧ kept = .block head (pruneAll body) after := by
  rw [prune]
  cases head.isVacant (pruneAll body) <;> simp [eq_comm]

mutual

/-- No block is vacant, neither the node nor one below it. -/
def isTidy : Node → Bool
  | .block head body _ => !head.isVacant body && isTidyAll body
  | .atStatement _     => false
  | .declaration _     => true
  | .comment _         => true

/-- No block is vacant among the nodes and below them. -/
def isTidyAll : List Node → Bool
  | []           => true
  | node :: rest => node.isTidy && isTidyAll rest

end

/-! ### Pruning leaves tidy nodes -/

mutual

theorem isTidy_of_prune {kept : Node} : ∀ {node : Node}, node.prune = some kept →
    kept.isTidy = true
  | .block head body after, h => by
      obtain ⟨hv, rfl⟩ := prune_block_eq_some_iff.1 h
      rw [isTidy, hv, isTidyAll_pruneAll body]
      rfl
  | .declaration _, h | .comment _, h => by
      cases h
      rfl

/-- **What pruning leaves is tidy.** -/
theorem isTidyAll_pruneAll : ∀ nodes : List Node, isTidyAll (pruneAll nodes) = true
  | []           => rfl
  | node :: rest => by
      rw [pruneAll]
      cases hp : node.prune with
      | none => exact isTidyAll_pruneAll rest
      | some kept =>
          dsimp only
          rw [isTidyAll, isTidy_of_prune hp, isTidyAll_pruneAll rest]
          rfl

end

/-! ### Pruning does nothing to tidy nodes -/

mutual

theorem prune_of_isTidy : ∀ {node : Node}, node.isTidy = true → node.prune = some node
  | .block head body after, h => by
      rw [isTidy, Bool.and_eq_true, Bool.not_eq_true'] at h
      rw [prune, pruneAll_of_isTidyAll h.2, h.1]
      rfl
  | .declaration _, _ | .comment _, _ => rfl

/-- **What is tidy is left as it is.** -/
theorem pruneAll_of_isTidyAll : ∀ {nodes : List Node}, isTidyAll nodes = true →
    pruneAll nodes = nodes
  | [],           _ => rfl
  | node :: rest, h => by
      rw [isTidyAll, Bool.and_eq_true] at h
      rw [pruneAll, prune_of_isTidy h.1, pruneAll_of_isTidyAll h.2]

end

mutual

theorem removals_of_isTidy (file : String) : ∀ {node : Node}, node.isTidy = true →
    node.removals file = []
  | .block head body after, h => by
      rw [isTidy, Bool.and_eq_true, Bool.not_eq_true'] at h
      obtain ⟨hr, ha⟩ := removalsAll_of_isTidyAll file h.2
      rw [removals, hr, ha, pruneAll_of_isTidyAll h.2, h.1]
      rfl
  | .declaration _, _ | .comment _, _ => rfl

/-- Nothing is recorded of what is tidy. -/
theorem removalsAll_of_isTidyAll (file : String) : ∀ {nodes : List Node}, isTidyAll nodes = true →
    ruleRemovals file nodes = [] ∧ atRuleRemovals file nodes = []
  | [],           _ => ⟨rfl, rfl⟩
  | node :: rest, h => by
      rw [isTidyAll, Bool.and_eq_true] at h
      obtain ⟨hr, ha⟩ := removalsAll_of_isTidyAll file h.2
      rw [ruleRemovals, atRuleRemovals, removals_of_isTidy file h.1, hr, ha, ite_self, ite_self]
      exact ⟨rfl, rfl⟩

end

mutual

/-- What nothing is recorded of is tidy. -/
theorem isTidy_of_removals {file : String} : ∀ {node : Node}, node.removals file = [] →
    node.isTidy = true
  | .block head body after, h => by
      rw [removals, List.append_eq_nil_iff, List.append_eq_nil_iff] at h
      have hb := isTidyAll_of_removals h.1.1 h.1.2
      have hv : head.isVacant body = false := by
        rw [← Bool.not_eq_true]
        intro hv
        rw [pruneAll_of_isTidyAll hb, if_pos hv] at h
        cases h.2
      rw [isTidy, hb, hv]
      rfl
  | .atStatement _, h => by cases h
  | .declaration _, _ | .comment _, _ => rfl

/-- Where nothing is removed there was nothing to remove. -/
theorem isTidyAll_of_removals {file : String} : ∀ {nodes : List Node},
    ruleRemovals file nodes = [] → atRuleRemovals file nodes = [] → isTidyAll nodes = true
  | [],           _,  _  => rfl
  | node :: rest, hr, ha => by
      rw [ruleRemovals, List.append_eq_nil_iff] at hr
      rw [atRuleRemovals, List.append_eq_nil_iff] at ha
      have hn : node.isTidy = true := by
        cases node with
        | block head body after =>
            cases head with
            | rule => exact isTidy_of_removals hr.1
            | atRule => exact isTidy_of_removals ha.1
        | atStatement => exact isTidy_of_removals ha.1
        | declaration | comment => rfl
      rw [isTidyAll, hn, isTidyAll_of_removals hr.2 ha.2]
      rfl

end

/-! ### Tidy up to places -/

theorem any_isContent_unplacedAll (nodes : List Node) :
    (unplacedAll nodes).any isContent = nodes.any isContent := by
  induction nodes with
  | nil => rfl
  | cons node rest ih =>
      rw [unplacedAll, List.any_cons, List.any_cons, ih]
      cases node <;> rfl

theorem isVacant_unplaced (head : Head) (body : List Node) :
    head.unplaced.isVacant (unplacedAll body) = head.isVacant body := by
  cases head with
  | rule => exact congrArg (!·) (any_isContent_unplacedAll body)
  | atRule => cases body <;> rfl

mutual

theorem isTidy_unplaced : ∀ node : Node, node.unplaced.isTidy = node.isTidy
  | .block head body after => by
      rw [unplaced, isTidy, isTidy, isVacant_unplaced, isTidyAll_unplaced body]
  | .atStatement _ | .declaration _ | .comment _ => rfl

/-- A sheet is as tidy without its spans. -/
theorem isTidyAll_unplaced : ∀ nodes : List Node,
    isTidyAll (unplacedAll nodes) = isTidyAll nodes
  | []           => rfl
  | node :: rest => by
      rw [unplacedAll, isTidyAll, isTidyAll, isTidy_unplaced node, isTidyAll_unplaced rest]

end

end Node

/-- **Pruning a tidy sheet** changes nothing and has nothing to report. -/
theorem Sheet.prune_of_isTidyAll {sheet : Sheet} (file : String)
    (h : Node.isTidyAll sheet.nodes = true) : sheet.prune file = (sheet, ⟨false, [], []⟩) := by
  obtain ⟨hr, ha⟩ := Node.removalsAll_of_isTidyAll file h
  rw [Sheet.prune, Node.pruneAll_of_isTidyAll h, hr, ha]
  rfl

/-- **Pruning has something to report** just when the sheet is not tidy. -/
theorem Sheet.prune_changed_eq_false_iff {sheet : Sheet} {file : String} :
    (sheet.prune file).2.changed = false ↔ Node.isTidyAll sheet.nodes = true := by
  constructor
  · intro h
    rw [Sheet.prune, Bool.not_eq_false', List.isEmpty_iff, List.append_eq_nil_iff] at h
    exact Node.isTidyAll_of_removals h.1 h.2
  · intro h
    rw [Sheet.prune_of_isTidyAll file h]

end Restyle
