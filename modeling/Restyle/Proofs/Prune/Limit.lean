import Mathlib.Logic.Relation
import Mathlib.Order.WellFounded
import Restyle.Proofs.Prune.Survivors
import Restyle.Proofs.Prune.Tidy

/-!
# Deleting one block at a time

Pruning judges blocks from the inside out, in a fixed order.  The order does not matter: whoever
deletes vacant blocks one at a time, until none is left, ends with the pruned sheet.

* `Node.Vacant`: the node may be deleted, by what it holds directly.
* `Drops nodes nodes'`, `Sheet.Drops`: one vacant node is deleted, at any depth.
* `Drops.pruneAll_eq`: **a deletion does not change what pruning leaves**.
* `forall_not_drops_iff`: nothing can be deleted from tidy nodes, and from no others.
* `Sheet.prune_unique_limit`: every sequence of deletions ends, and all of them end in the pruned
  sheet.

There is no diamond to close.  Pruning is the same before and after a deletion, so it is the same
all along a sequence, and where the sequence ends there is nothing to prune.
-/

namespace Restyle

/-! ### Deletions -/

/-- The node may be deleted: a rule that holds no declaration with a value, no rule and no at-rule,
or an at-rule that holds nothing. -/
def Node.Vacant : Node → Prop
  | .block (.rule _) body _     =>
    (∀ decl ∈ declarations body, decl.hasValue = false) ∧ ∀ child ∈ body, child.isBlock = false
  | .block (.atRule _) body _   => body = []
  | .atStatement _              => True
  | .declaration _ | .comment _ => False

/-- The second list is the first one with one vacant node deleted, at any depth. -/
inductive Drops : List Node → List Node → Prop where
  | here {node : Node} (rest : List Node) (hv : node.Vacant) : Drops (node :: rest) rest
  | later (node : Node) {rest rest' : List Node} (t : Drops rest rest') :
      Drops (node :: rest) (node :: rest')
  | inside (head : Head) (after : Text) (rest : List Node) {body body' : List Node}
      (t : Drops body body') :
      Drops (.block head body after :: rest) (.block head body' after :: rest)

/-- The second sheet is the first one with one vacant node deleted. -/
def Sheet.Drops (sheet sheet' : Sheet) : Prop :=
  ∃ nodes, Restyle.Drops sheet.nodes nodes ∧ sheet' = { sheet with nodes := nodes }

namespace Node

theorem isContent_eq_false_iff {node : Node} :
    node.isContent = false ↔
      node.isBlock = false ∧ ∀ decl, node = .declaration decl → decl.hasValue = false := by
  cases node with
  | block | atStatement => simp [isContent, isBlock]
  | declaration decl => simp [isContent, isBlock, Declaration.hasValue]
  | comment => simp [isContent, isBlock]

/-- A block may be deleted just when its head has nothing to hold in its body. -/
theorem vacant_block_iff {head : Head} {body : List Node} {after : Text} :
    (Node.block head body after).Vacant ↔ head.isVacant body = true := by
  cases head with
  | atRule => rw [Vacant, Head.isVacant, List.isEmpty_iff]
  | rule =>
      rw [Vacant, Head.isVacant, Bool.not_eq_true', List.any_eq_false]
      simp only [Bool.not_eq_true, isContent_eq_false_iff]
      constructor
      · rintro ⟨hd, hb⟩ child hc
        refine ⟨hb child hc, fun decl hn => hd decl ?_⟩
        rw [mem_declarations, ← hn]
        exact hc
      · intro h
        exact ⟨fun decl hd => (h _ (mem_declarations.1 hd)).2 decl rfl, fun child hc => (h child hc).1⟩

/-- Only rules and at-rules may be deleted. -/
theorem Vacant.isBlock {node : Node} (h : node.Vacant) : node.isBlock = true := by
  cases node with
  | block | atStatement => rfl
  | declaration | comment => cases h

theorem Vacant.isTidy_eq_false {node : Node} (h : node.Vacant) : node.isTidy = false := by
  cases node with
  | block head body after => rw [isTidy, vacant_block_iff.1 h]; rfl
  | atStatement => rfl
  | declaration | comment => cases h

/-- What holds no rule and no at-rule is left alone by pruning. -/
theorem pruneAll_of_isBlock_eq_false {nodes : List Node}
    (h : ∀ node ∈ nodes, node.isBlock = false) : pruneAll nodes = nodes := by
  refine pruneAll_of_isTidyAll ?_
  induction nodes with
  | nil => rfl
  | cons node rest ih =>
      rw [isTidyAll, ih fun child hc => h child (List.mem_cons_of_mem _ hc), Bool.and_true]
      have hb := h node List.mem_cons_self
      cases node with
      | block | atStatement => cases hb
      | declaration | comment => rfl

/-- **What may be deleted does not survive pruning.** -/
theorem Vacant.prune_eq_none {node : Node} (h : node.Vacant) : node.prune = none := by
  cases node with
  | block head body after =>
      have hbody : pruneAll body = body := by
        cases head with
        | rule => exact pruneAll_of_isBlock_eq_false h.2
        | atRule => rw [show body = [] from h]; rfl
      rw [prune_block_eq_none_iff, hbody]
      exact vacant_block_iff.1 h
  | atStatement => rfl
  | declaration | comment => cases h

end Node

/-! ### Deletions and pruning -/

/-- **A deletion does not change what pruning leaves.** -/
theorem Drops.pruneAll_eq {nodes nodes' : List Node} (h : Drops nodes nodes') :
    Node.pruneAll nodes' = Node.pruneAll nodes := by
  induction h with
  | here rest hv => rw [Node.pruneAll, hv.prune_eq_none]
  | later node _ ih => rw [Node.pruneAll, Node.pruneAll, ih]
  | inside head after rest _ ih =>
      -- the block around the deletion is judged by its pruned body
      rw [Node.pruneAll, Node.pruneAll, Node.prune, Node.prune, ih]

/-- A deletion leaves fewer blocks. -/
theorem Drops.length_blocksAll_lt {nodes nodes' : List Node} (h : Drops nodes nodes') :
    (Node.blocksAll nodes').length < (Node.blocksAll nodes).length := by
  simp only [Node.blocksAll] at *
  induction h with
  | here rest hv =>
      rw [Node.partsAll, List.filter_append, List.length_append]
      have := List.length_pos_of_mem (List.mem_filter.2 ⟨Node.mem_parts_self _, hv.isBlock⟩)
      omega
  | later node _ ih =>
      simp only [Node.partsAll, List.filter_append, List.length_append]
      omega
  | inside head after rest _ ih =>
      simp only [Node.partsAll, Node.parts, List.filter_append, List.length_append,
        List.filter_cons_of_pos (show Node.isBlock (.block _ _ _) = true from rfl),
        List.length_cons]
      omega

/-! ### Where deletions end -/

theorem Drops.isTidyAll_eq_false {nodes nodes' : List Node} (h : Drops nodes nodes') :
    Node.isTidyAll nodes = false := by
  induction h with
  | here rest hv => rw [Node.isTidyAll, hv.isTidy_eq_false, Bool.false_and]
  | later node _ ih => rw [Node.isTidyAll, ih, Bool.and_false]
  | inside head after rest _ ih =>
      rw [Node.isTidyAll, Node.isTidy, ih, Bool.and_false, Bool.false_and]

/-- Where there is something to prune, there is something to delete. -/
theorem exists_drops_of_isTidyAll : ∀ {nodes : List Node}, Node.isTidyAll nodes = false →
    ∃ nodes', Drops nodes nodes'
  | .block head body after :: rest, h => by
      rw [Node.isTidyAll, Node.isTidy, Bool.and_eq_false_iff, Bool.and_eq_false_iff] at h
      rcases h with (hv | hb) | hr
      · exact ⟨rest, .here rest (Node.vacant_block_iff.2 (by simpa using hv))⟩
      · obtain ⟨body', t⟩ := exists_drops_of_isTidyAll hb
        exact ⟨_, .inside head after rest t⟩
      · obtain ⟨rest', t⟩ := exists_drops_of_isTidyAll hr
        exact ⟨_, .later _ t⟩
  | .atStatement head :: rest, _ => ⟨rest, .here rest trivial⟩
  | .declaration _ :: rest, h | .comment _ :: rest, h => by
      rw [Node.isTidyAll, Node.isTidy, Bool.true_and] at h
      obtain ⟨rest', t⟩ := exists_drops_of_isTidyAll h
      exact ⟨_, .later _ t⟩

/-- **Nothing can be deleted from tidy nodes**, and from no others. -/
theorem forall_not_drops_iff {nodes : List Node} :
    (∀ nodes', ¬ Drops nodes nodes') ↔ Node.isTidyAll nodes = true := by
  constructor
  · intro h
    by_contra ht
    obtain ⟨nodes', hd⟩ := exists_drops_of_isTidyAll (Bool.not_eq_true _ ▸ ht)
    exact h nodes' hd
  · intro ht nodes' hd
    rw [hd.isTidyAll_eq_false] at ht
    cases ht

/-! ### Sheets -/

namespace Sheet

theorem Drops.prune_eq {sheet sheet' : Sheet} (file : String) (h : sheet.Drops sheet') :
    (sheet'.prune file).1 = (sheet.prune file).1 := by
  obtain ⟨nodes, hd, rfl⟩ := h
  simp only [prune, hd.pruneAll_eq]

/-- Pruning is the same all along a sequence of deletions. -/
theorem prune_eq_of_drops {sheet last : Sheet} (file : String)
    (h : Relation.ReflTransGen Sheet.Drops sheet last) :
    (last.prune file).1 = (sheet.prune file).1 := by
  induction h with
  | refl => rfl
  | tail _ hd ih => rw [hd.prune_eq, ih]

theorem forall_not_drops_iff {sheet : Sheet} :
    (∀ next, ¬ sheet.Drops next) ↔ Node.isTidyAll sheet.nodes = true := by
  rw [← Restyle.forall_not_drops_iff]
  constructor
  · intro h nodes hd
    exact h _ ⟨nodes, hd, rfl⟩
  · rintro h next ⟨nodes, hd, rfl⟩
    exact h nodes hd

/-- Deletions cannot go on for ever: each leaves fewer blocks. -/
theorem wellFounded_drops : WellFounded fun next sheet : Sheet => sheet.Drops next := by
  refine Subrelation.wf ?_ (measure fun sheet : Sheet => (Node.blocksAll sheet.nodes).length).wf
  rintro next sheet ⟨nodes, hd, rfl⟩
  exact hd.length_blocksAll_lt

/-- From every sheet, deletions lead to one from which nothing can be deleted. -/
theorem exists_last (sheet : Sheet) :
    ∃ last, Relation.ReflTransGen Sheet.Drops sheet last ∧ ∀ next, ¬ last.Drops next := by
  induction sheet using wellFounded_drops.induction with
  | _ sheet ih =>
      by_cases hn : ∀ next, ¬ sheet.Drops next
      · exact ⟨sheet, .refl, hn⟩
      · obtain ⟨next, hd⟩ := not_forall_not.1 hn
        obtain ⟨last, hl, hend⟩ := ih next hd
        exact ⟨last, .head hd hl, hend⟩

/-- Where deletions end, the sheet is the pruned one. -/
theorem eq_prune_of_last {sheet last : Sheet} (file : String)
    (h : Relation.ReflTransGen Sheet.Drops sheet last) (hend : ∀ next, ¬ last.Drops next) :
    last = (sheet.prune file).1 := by
  rw [← prune_eq_of_drops file h, prune_of_isTidyAll file (forall_not_drops_iff.1 hend)]

/-- **Pruning is the limit of all deletions.**  No sequence of deletions goes on for ever.  Those that
cannot go on, whatever they deleted first, have reached the pruned sheet, and the pruned sheet can be
reached.  So pruning it again changes nothing and has nothing to report. -/
theorem prune_unique_limit (file : String) (sheet : Sheet) :
    (∀ sheets : Nat → Sheet, sheets 0 = sheet → ∃ n, ¬ (sheets n).Drops (sheets (n + 1))) ∧
      (∀ last, (Relation.ReflTransGen Sheet.Drops sheet last ∧ ∀ next, ¬ last.Drops next) ↔
        last = (sheet.prune file).1) ∧
      ∀ file', (sheet.prune file).1.prune file' = ((sheet.prune file).1, ⟨false, [], []⟩) := by
  refine ⟨fun sheets _ => ?_, fun last => ⟨fun h => eq_prune_of_last file h.1 h.2, ?_⟩,
    fun file' => ?_⟩
  · by_contra hn
    exact (wellFounded_iff_isEmpty_descending_chain.1 wellFounded_drops).false
      ⟨sheets, fun n => not_not.1 (not_exists.1 hn n)⟩
  · rintro rfl
    obtain ⟨last, hl, hend⟩ := exists_last sheet
    rw [← eq_prune_of_last file hl hend]
    exact ⟨hl, hend⟩
  · exact prune_of_isTidyAll file' (Node.isTidyAll_pruneAll sheet.nodes)

end Sheet

end Restyle
