import Mathlib.Data.List.Forall2
import Restyle.Proofs.Prune.Survivors
import Restyle.Proofs.Prune.Tidy

/-!
# What pruning removes, in order

Pruning makes a record of a block when it removes it.  The records can be told from the two sheets,
before and after: there is one for each block that is not there any more, also if it went with a
block around it, since nothing but vacant blocks can go with a vacant one.

* `Vanishes nodes path node`: the rule or at-rule at the path is gone after pruning.
* `Precedes nodes path path'`: the first path comes before the second one in a report.
* `Node.removedIn`: the blocks that go, each with its path, in the order of their records.
* `Recorded file node removal`: what the record of a rule or an at-rule holds.
* `Sheet.prune_records_exact`: **the records are those of the blocks that vanish**, one for each, in
  the order of reports.
-/

namespace Restyle

namespace Node

/-! ### The blocks that go -/

/-- The name of a rule or an at-rule in reports. -/
def label : Node → Text
  | .block head _ _   => head.label
  | .atStatement head => head.label
  | .declaration _    => []
  | .comment _        => []

/-- The record of a node that goes. -/
def record (file : String) (node : Node) : Removal := ⟨file, node.label, node.line⟩

/-- The node goes when its container is pruned. -/
def goes (node : Node) : Bool := node.prune.isNone

theorem goes_iff {node : Node} : node.goes = true ↔ node.prune = none :=
  Option.isNone_iff_eq_none

/-- A block goes when what pruning leaves in it is not enough. -/
theorem goes_block (head : Head) (body : List Node) (after : Text) :
    (Node.block head body after).goes = head.isVacant (pruneAll body) := by
  rw [Bool.eq_iff_iff, goes_iff, prune_block_eq_none_iff]

/-- The blocks that go are those that are not live. -/
theorem goes_eq (node : Node) : node.goes = (node.isBlock && !node.isLive) := by
  rw [goes, prune_eq_retain]
  cases node.isBlock && !node.isLive <;> rfl

/-- **What goes takes no live block along**: the blocks in it go themselves. -/
theorem goes_of_mem_parts {node part : Node} (hg : node.goes = true) (hp : part ∈ node.parts)
    (hb : part.isBlock = true) : part.goes = true := by
  rw [goes_eq, Bool.and_eq_true, Bool.not_eq_true', isLive_eq_false] at hg ⊢
  exact ⟨hb, fun hl => hg.2 (hl.of_part hp)⟩

mutual

/-- The nodes that go from the node, itself included, in the order of their records, each with the
path that leads to it from there. -/
def removed : Node → List (List Nat × Node)
  | .block head body after =>
    removedAll isRule 0 body ++ removedAll isAtRule 0 body ++
      if head.isVacant (pruneAll body) then [([], .block head body after)] else []
  | .atStatement head      => [([], .atStatement head)]
  | .declaration _         => []
  | .comment _             => []

/-- The nodes that go from those of the nodes that are wanted, in the order of their records, each
with its path, where the first node has the index `i`. -/
def removedAll (want : Node → Bool) (i : Nat) : List Node → List (List Nat × Node)
  | []           => []
  | node :: rest =>
    (if want node then node.removed.map (fun g => (i :: g.1, g.2)) else []) ++
      removedAll want (i + 1) rest

end

/-- The nodes that go from the nodes, each with its path, in the order of their records: those of all
rules, then those of all at-rules. -/
def removedIn (nodes : List Node) : List (List Nat × Node) :=
  removedAll isRule 0 nodes ++ removedAll isAtRule 0 nodes

/-! ### One record for each -/

mutual

theorem map_record_removed (file : String) : ∀ node : Node,
    node.removed.map (·.2.record file) = node.removals file
  | .block head body after => by
      obtain ⟨hr, ha⟩ := map_record_removedAll file 0 body
      rw [removed, removals, List.map_append, List.map_append, hr, ha]
      split <;> rfl
  | .atStatement _ | .declaration _ | .comment _ => rfl

theorem map_record_removedAll (file : String) (i : Nat) : ∀ nodes : List Node,
    (removedAll isRule i nodes).map (·.2.record file) = ruleRemovals file nodes ∧
      (removedAll isAtRule i nodes).map (·.2.record file) = atRuleRemovals file nodes
  | []           => ⟨rfl, rfl⟩
  | node :: rest => by
      obtain ⟨hr, ha⟩ := map_record_removedAll file (i + 1) rest
      have hn : (node.removed.map fun g => (i :: g.1, g.2)).map (·.2.record file) =
          node.removals file := by
        rw [List.map_map]
        exact map_record_removed file node
      rw [removedAll, removedAll, ruleRemovals, atRuleRemovals, List.map_append, List.map_append,
        hr, ha]
      refine ⟨?_, ?_⟩ <;>
        · split
          · rw [hn]
          · rfl

end

/-- **The records are those of the nodes that go**, in the order in which they are listed. -/
theorem map_record_removedIn (file : String) (nodes : List Node) :
    (removedIn nodes).map (·.2.record file) =
      ruleRemovals file nodes ++ atRuleRemovals file nodes := by
  obtain ⟨hr, ha⟩ := map_record_removedAll file 0 nodes
  rw [removedIn, List.map_append, hr, ha]

mutual

/-- Each part that goes is listed once. -/
theorem removed_perm : ∀ node : Node,
    (node.removed.map Prod.snd).Perm (node.parts.filter goes)
  | .block head body after => by
      have hbody := removedAll_perm 0 body
      rw [removed, parts, List.filter_cons, goes_block, List.map_append]
      split
      · -- its own record comes last, and it is the first of its parts
        exact (List.perm_append_singleton _ _).trans (hbody.cons _)
      · rwa [List.map_nil, List.append_nil]
  | .atStatement _ => .refl _
  | .declaration _ | .comment _ => .nil

theorem removedAll_perm (i : Nat) : ∀ nodes : List Node,
    ((removedAll isRule i nodes ++ removedAll isAtRule i nodes).map Prod.snd).Perm
      ((partsAll nodes).filter goes)
  | []           => .nil
  | node :: rest => by
      have hn : ((node.removed.map fun g => (i :: g.1, g.2)).map Prod.snd).Perm
          (node.parts.filter goes) := by
        rw [List.map_map]
        exact removed_perm node
      have hrest := removedAll_perm (i + 1) rest
      rw [List.map_append] at hrest
      rw [partsAll, List.filter_append, removedAll, removedAll, List.map_append, List.map_append,
        List.map_append]
      refine .trans ?_ (hn.append hrest)
      -- a node is a rule, or an at-rule, or nothing goes from it
      cases node with
      | block head body after =>
          cases head with
          | rule head => exact .of_eq (by simp [isRule, isAtRule])
          | atRule head =>
              simp only [isRule, isAtRule, if_true, Bool.false_eq_true, if_false, List.map_nil,
                List.nil_append]
              exact List.perm_append_comm_assoc _ _ _
      | atStatement head =>
          simp only [isRule, isAtRule, if_true, Bool.false_eq_true, if_false, List.map_nil,
            List.nil_append]
          exact List.perm_append_comm_assoc _ _ _
      | declaration | comment => exact .of_eq (by simp [isRule, isAtRule, removed])

end

/-- **There is one record for each node that goes.** -/
theorem removalsAll_perm (file : String) (nodes : List Node) :
    (ruleRemovals file nodes ++ atRuleRemovals file nodes).Perm
      (((partsAll nodes).filter goes).map (record file)) := by
  have hperm := (removedAll_perm 0 nodes).map (record file)
  rw [List.map_map] at hperm
  rw [← map_record_removedIn]
  exact hperm

/-! ### Where they stand -/

theorem mem_removedAll {want : Node → Bool} {path : List Nat} {part : Node} :
    ∀ {nodes : List Node} {i : Nat}, (path, part) ∈ removedAll want i nodes ↔
      ∃ j rest node, path = (i + j) :: rest ∧ nodes[j]? = some node ∧ want node = true ∧
        (rest, part) ∈ node.removed
  | [],            i => by simp [removedAll]
  | first :: nodes, i => by
      rw [removedAll, List.mem_append, mem_removedAll]
      constructor
      · rintro (hm | ⟨j, rest, node, rfl, hj, hw, hr⟩)
        · split at hm
          · next hw =>
            obtain ⟨⟨rest, part'⟩, hr, he⟩ := List.mem_map.1 hm
            cases he
            exact ⟨0, rest, first, rfl, rfl, hw, hr⟩
          · cases hm
        · exact ⟨j + 1, rest, node, by rw [Nat.add_assoc, Nat.add_comm 1 j], hj, hw, hr⟩
      · rintro ⟨j, rest, node, rfl, hj, hw, hr⟩
        cases j with
        | zero =>
            cases hj
            rw [if_pos hw]
            exact .inl (List.mem_map.2 ⟨(rest, part), hr, rfl⟩)
        | succ j =>
            exact .inr ⟨j, rest, node, by rw [Nat.add_assoc, Nat.add_comm 1 j], hj, hw, hr⟩

/-- A path in the list leads into one of the nodes, and is listed there. -/
theorem mem_removedIn {path : List Nat} {part : Node} {nodes : List Node} :
    (path, part) ∈ removedIn nodes ↔
      ∃ j rest node, path = j :: rest ∧ nodes[j]? = some node ∧ (rest, part) ∈ node.removed := by
  rw [removedIn, List.mem_append, mem_removedAll, mem_removedAll]
  simp only [Nat.zero_add]
  constructor
  · rintro (⟨j, rest, node, hp, hj, -, hr⟩ | ⟨j, rest, node, hp, hj, -, hr⟩)
    · exact ⟨j, rest, node, hp, hj, hr⟩
    · exact ⟨j, rest, node, hp, hj, hr⟩
  · rintro ⟨j, rest, node, hp, hj, hr⟩
    cases node with
    | block head body after =>
        cases head with
        | rule => exact .inl ⟨j, rest, _, hp, hj, rfl, hr⟩
        | atRule => exact .inr ⟨j, rest, _, hp, hj, rfl, hr⟩
    | atStatement => exact .inr ⟨j, rest, _, hp, hj, rfl, hr⟩
    | declaration | comment => cases hr

/-- The list holds the nodes that go at their paths, if it does so for each node by itself. -/
theorem mem_removedIn_iff_of {path : List Nat} {part : Node} {nodes : List Node}
    (h : ∀ node ∈ nodes, ∀ rest, (rest, part) ∈ node.removed ↔
      part.goes = true ∧ (rest = [] ∧ part = node ∨ at? node.children rest = some part)) :
    (path, part) ∈ removedIn nodes ↔ part.goes = true ∧ at? nodes path = some part := by
  rw [mem_removedIn]
  constructor
  · rintro ⟨j, rest, node, rfl, hj, hr⟩
    obtain ⟨hg, ha⟩ := (h node (List.mem_of_getElem? hj) rest).1 hr
    exact ⟨hg, at?_cons_iff.2 ⟨node, hj, ha⟩⟩
  · rintro ⟨hg, ha⟩
    cases path with
    | nil => cases ha
    | cons j rest =>
        obtain ⟨node, hj, ha⟩ := at?_cons_iff.1 ha
        exact ⟨j, rest, node, rfl, hj, (h node (List.mem_of_getElem? hj) rest).2 ⟨hg, ha⟩⟩

mutual

theorem mem_removed {part : Node} : ∀ {node : Node} {path : List Nat},
    (path, part) ∈ node.removed ↔
      part.goes = true ∧ (path = [] ∧ part = node ∨ at? node.children path = some part)
  | .block head body after, path => by
      rw [removed, ← removedIn, List.mem_append, mem_removedIn_iff_of fun node hn _ =>
        mem_removed_of_mem hn, ← goes_block head body after, children]
      constructor
      · rintro (⟨hg, ha⟩ | hm)
        · exact ⟨hg, .inr ha⟩
        · split at hm
          · next hg =>
            cases List.mem_singleton.1 hm
            exact ⟨hg, .inl ⟨rfl, rfl⟩⟩
          · cases hm
      · rintro ⟨hg, ⟨rfl, rfl⟩ | ha⟩
        · rw [if_pos hg]
          exact .inr (List.mem_singleton.2 rfl)
        · exact .inl ⟨hg, ha⟩
  | .atStatement head, path => by
      simp only [removed, List.mem_singleton, Prod.mk.injEq, children, at?_nil, reduceCtorEq,
        or_false]
      constructor
      · rintro ⟨rfl, rfl⟩
        exact ⟨rfl, rfl, rfl⟩
      · exact And.right
  | .declaration _, path | .comment _, path => by
      simp only [removed, List.not_mem_nil, children, at?_nil, reduceCtorEq, or_false, false_iff]
      rintro ⟨hg, -, rfl⟩
      cases hg

theorem mem_removed_of_mem {part : Node} : ∀ {nodes : List Node} {node : Node}, node ∈ nodes →
    ∀ {path : List Nat}, (path, part) ∈ node.removed ↔
      part.goes = true ∧ (path = [] ∧ part = node ∨ at? node.children path = some part)
  | first :: nodes, node, hn, path => by
      rcases List.mem_cons.1 hn with he | hn
      · rw [he]
        exact mem_removed
      · exact mem_removed_of_mem hn

end

/-- **The list holds the nodes that go**, each at its path. -/
theorem mem_removedIn_iff {path : List Nat} {part : Node} {nodes : List Node} :
    (path, part) ∈ removedIn nodes ↔ part.goes = true ∧ at? nodes path = some part :=
  mem_removedIn_iff_of fun _ _ _ => mem_removed

end Node

/-! ### The order of reports -/

/-- The sibling at the first index comes before the one at the second, each with all it holds: a rule
comes before an at-rule, and of two rules or two at-rules the first one does. -/
def Sooner (nodes : List Node) (i j : Nat) : Prop :=
  ∃ a b, nodes[i]? = some a ∧ nodes[j]? = some b ∧
    (a.isRule = true ∧ b.isAtRule = true ∨ a.isRule = b.isRule ∧ i < j)

/-- The first path comes before the second one in a report: what a block holds comes before the
block, and the children of one container come in their order. -/
inductive Precedes : List Node → List Nat → List Nat → Prop where
  | inner {nodes : List Node} (i j : Nat) (path : List Nat) : Precedes nodes (i :: j :: path) [i]
  | inside {nodes body : List Node} {i : Nat} {head : Head} {after : Text} {path path' : List Nat}
      (hi : nodes[i]? = some (.block head body after)) (t : Precedes body path path') :
      Precedes nodes (i :: path) (i :: path')
  | apart {nodes : List Node} {i j : Nat} (path path' : List Nat) (h : Sooner nodes i j) :
      Precedes nodes (i :: path) (j :: path')

theorem Node.isRule_eq_false {node : Node} (h : node.isAtRule = true) : node.isRule = false := by
  cases node with
  | block head =>
      cases head with
      | rule => cases h
      | atRule => rfl
  | atStatement | declaration | comment => rfl

/-- Of two siblings only one comes before the other. -/
theorem Sooner.asymm {nodes : List Node} {i j : Nat} (h : Sooner nodes i j) :
    ¬ Sooner nodes j i := by
  obtain ⟨a, b, hi, hj, h⟩ := h
  rintro ⟨b', a', hj', hi', h'⟩
  rw [hi] at hi'
  rw [hj] at hj'
  cases hi'
  cases hj'
  rcases h with ⟨ha, hb⟩ | ⟨hk, hlt⟩
  · rw [ha, Node.isRule_eq_false hb] at h'
    rcases h' with ⟨hr, -⟩ | ⟨hr, -⟩
    · cases hr
    · cases hr
  · rcases h' with ⟨hb, ha⟩ | ⟨-, hlt'⟩
    · rw [hb, Node.isRule_eq_false ha] at hk
      cases hk
    · exact Nat.lt_asymm hlt hlt'

theorem Sooner.irrefl {nodes : List Node} {i : Nat} : ¬ Sooner nodes i i := fun h => h.asymm h

/-- **A report has one order**: of two paths only one can come before the other. -/
theorem Precedes.asymm {nodes : List Node} {path path' : List Nat} (h : Precedes nodes path path') :
    ¬ Precedes nodes path' path := by
  induction h with
  | inner i j path =>
      intro h
      cases h with
      | inside _ t => cases t
      | apart _ _ h => exact h.irrefl
  | inside hi t ih =>
      intro h
      cases h with
      | inner => cases t
      | inside hi' t' =>
          rw [hi] at hi'
          cases hi'
          exact ih t'
      | apart _ _ h => exact h.irrefl
  | apart path path' h =>
      intro h'
      cases h' with
      | inner | inside => exact h.irrefl
      | apart _ _ h' => exact h.asymm h'

namespace Node

/-- What goes from the rules among the nodes comes before what goes from the at-rules. -/
theorem precedes_of_mem {nodes : List Node} {a b : List Nat × Node}
    (ha : a ∈ removedAll isRule 0 nodes) (hb : b ∈ removedAll isAtRule 0 nodes) :
    Precedes nodes a.1 b.1 := by
  obtain ⟨path, part⟩ := a
  obtain ⟨path', part'⟩ := b
  obtain ⟨i, rest, node, rfl, hi, hr, -⟩ := mem_removedAll.1 ha
  obtain ⟨j, rest', node', rfl, hj, ha, -⟩ := mem_removedAll.1 hb
  rw [Nat.zero_add, Nat.zero_add]
  exact .apart _ _ ⟨node, node', hi, hj, .inl ⟨hr, ha⟩⟩

/-- What goes is listed in the order of reports, if it is for the rules and for the at-rules. -/
theorem pairwise_removedIn_of {nodes : List Node}
    (h : ∀ want : Node → Bool, (∀ a b, want a = true → want b = true → a.isRule = b.isRule) →
      (removedAll want 0 nodes).Pairwise fun a b => Precedes nodes a.1 b.1) :
    (removedIn nodes).Pairwise fun a b => Precedes nodes a.1 b.1 := by
  refine List.pairwise_append.2 ⟨h isRule ?_, h isAtRule ?_, fun _ ha _ hb => precedes_of_mem ha hb⟩
  · intro a b ha hb
    rw [ha, hb]
  · intro a b ha hb
    rw [isRule_eq_false ha, isRule_eq_false hb]

mutual

/-- What goes from a child of a container is listed in the order of reports. -/
theorem pairwise_removed : ∀ {node : Node} {all : List Node} {i : Nat}, all[i]? = some node →
    (node.removed.map fun g => (i :: g.1, g.2)).Pairwise fun a b => Precedes all a.1 b.1
  | .block head body after, all, i, hi => by
      have hbody : (removedIn body).Pairwise fun a b => Precedes body a.1 b.1 :=
        pairwise_removedIn_of fun _ hw => pairwise_removedAll hw fun j => by rw [Nat.zero_add]
      rw [removed, List.pairwise_map, List.pairwise_append]
      refine ⟨hbody.imp fun t => .inside hi t, ?_, ?_⟩
      · split
        · exact List.pairwise_singleton _ _
        · exact .nil
      · -- the block itself comes last
        intro a ha b hb
        obtain ⟨path, part⟩ := a
        obtain ⟨j, rest, -, rfl, -, -⟩ := mem_removedIn.1 ha
        split at hb
        · cases List.mem_singleton.1 hb
          exact .inner i j rest
        · cases hb
  | .atStatement _, _, _, _ => List.pairwise_singleton _ _
  | .declaration _, _, _, _ | .comment _, _, _, _ => .nil

theorem pairwise_removedAll {want : Node → Bool}
    (hw : ∀ a b, want a = true → want b = true → a.isRule = b.isRule) :
    ∀ {nodes all : List Node} {i : Nat}, (∀ j, all[i + j]? = nodes[j]?) →
      (removedAll want i nodes).Pairwise fun a b => Precedes all a.1 b.1
  | [], _, _, _ => .nil
  | node :: rest, all, i, hall => by
      have hi : all[i]? = some node := hall 0
      have hrest : ∀ j, all[i + 1 + j]? = rest[j]? := by
        intro j
        rw [Nat.add_assoc, Nat.add_comm 1 j]
        exact hall (j + 1)
      rw [removedAll, List.pairwise_append]
      refine ⟨?_, pairwise_removedAll hw hrest, ?_⟩
      · split
        · exact pairwise_removed hi
        · exact .nil
      · intro a ha b hb
        obtain ⟨path', part'⟩ := b
        obtain ⟨j, below, other, rfl, hj, hother, -⟩ := mem_removedAll.1 hb
        split at ha
        · next hnode =>
          obtain ⟨g, -, rfl⟩ := List.mem_map.1 ha
          refine .apart _ _ ⟨node, other, hi, (hrest j).trans hj, .inr ⟨hw _ _ hnode hother, ?_⟩⟩
          omega
        · cases ha

end

/-- **The nodes that go are listed in the order of reports.** -/
theorem pairwise_removedIn (nodes : List Node) :
    (removedIn nodes).Pairwise fun a b => Precedes nodes a.1 b.1 :=
  pairwise_removedIn_of fun _ hw => pairwise_removedAll hw fun j => by rw [Nat.zero_add]

end Node

/-! ### The blocks that vanish -/

/-- The rule or at-rule at the path is not there any more after pruning: the container of the node, or
of a block around it, is left without it. -/
def Vanishes (nodes : List Node) (path : List Nat) (node : Node) : Prop :=
  Node.at? nodes path = some node ∧ node.isBlock = true ∧
    ∃ front, front <+: path ∧ ∃ outer, Node.at? nodes front = some outer ∧ outer.prune = none

/-- **What vanishes goes by itself**, also if a block around it goes. -/
theorem vanishes_iff {nodes : List Node} {path : List Nat} {node : Node} :
    Vanishes nodes path node ↔ node.goes = true ∧ Node.at? nodes path = some node := by
  constructor
  · rintro ⟨ha, hb, front, ⟨rest, rfl⟩, outer, ho, hp⟩
    exact ⟨Node.goes_of_mem_parts (Node.goes_iff.2 hp) (Node.mem_parts_of_at? ho ha) hb, ha⟩
  · rintro ⟨hg, ha⟩
    have hp := Node.goes_iff.1 hg
    exact ⟨ha, Node.isBlock_of_prune hp, path, List.prefix_rfl, node, ha, hp⟩

/-- The blocks of a sheet are those that are left after pruning and those that went. -/
theorem Node.blocksAll_perm (nodes : List Node) :
    ((blocksAll nodes).map bare).Perm
      ((blocksAll (pruneAll nodes)).map bare ++ (removedIn nodes).map (·.2.bare)) := by
  have hlive : (blocksAll nodes).filter isLive = (partsAll nodes).filter isLive := by
    rw [blocksAll, List.filter_filter]
    refine List.filter_congr fun node _ => ?_
    by_cases hl : node.Live
    · rw [hl.isBlock, Bool.and_true]
    · rw [isLive_eq_false.2 hl, Bool.false_and]
  have hgone : (blocksAll nodes).filter (!·.isLive) = (partsAll nodes).filter goes := by
    rw [blocksAll, List.filter_filter]
    refine List.filter_congr fun node _ => ?_
    rw [goes_eq, Bool.and_comm]
  have hsplit := (List.filter_append_perm isLive (blocksAll nodes)).symm.map bare
  rw [hlive, hgone, List.map_append, ← live_partsAll_retainAll, ← pruneAll_eq_retainAll] at hsplit
  have hperm := (removedAll_perm 0 nodes).map bare
  rw [List.map_map] at hperm
  exact hsplit.trans (hperm.symm.append_left _)

/-! ### What a record holds -/

/-- The record is that of the rule or at-rule: it holds the file, the selector of the rule or the at
sign, name and parameters of the at-rule, and the line of the first token. -/
inductive Recorded (file : String) : Node → Removal → Prop where
  | rule {head : RuleHead} {line : Nat} (body : List Node) (after : Text)
      (hl : ReportedAt head.source line) :
      Recorded file (.block (.rule head) body after) ⟨file, head.selector, line⟩
  | atRule {head : AtHead} {line : Nat} (body : List Node) (after : Text)
      (hl : ReportedAt head.source line) :
      Recorded file (.block (.atRule head) body after)
        ⟨file, '@' :: head.name ++ ' ' :: head.params, line⟩
  | atStatement {head : AtHead} {line : Nat} (hl : ReportedAt head.source line) :
      Recorded file (.atStatement head) ⟨file, '@' :: head.name ++ ' ' :: head.params, line⟩

/-- The record made of a block is that of the block. -/
theorem recorded_record (file : String) {node : Node} (hb : node.isBlock = true) :
    Recorded file node (node.record file) := by
  cases node with
  | block head body after =>
      cases head with
      | rule head => exact .rule body after (reportedAt_lineOf head.source)
      | atRule head => exact .atRule body after (reportedAt_lineOf head.source)
  | atStatement head => exact .atStatement (reportedAt_lineOf head.source)
  | declaration | comment => cases hb

/-- The nodes that go are blocks, and each record is that of its block. -/
theorem forall₂_recorded (file : String) (nodes : List Node) :
    List.Forall₂ (fun g removal => Recorded file g.2 removal) (Node.removedIn nodes)
      ((Node.removedIn nodes).map (·.2.record file)) := by
  rw [List.forall₂_map_right_iff, List.forall₂_same]
  rintro ⟨path, node⟩ hg
  exact recorded_record file (vanishes_iff.2 (Node.mem_removedIn_iff.1 hg)).2.1

/-- **The records of pruning.**  There is one for each rule and at-rule that vanishes, in the order of
reports, with the file, the name of the block and the line it was read at.  The blocks before are
those after and those recorded.  The log tells of the same blocks in the same order, and a change is
reported just when there is a record. -/
theorem Sheet.prune_records_exact (file : String) (sheet : Sheet) :
    ∃ gone : List (List Nat × Node),
      (∀ path node, (path, node) ∈ gone ↔ Vanishes sheet.nodes path node) ∧
      (gone.map Prod.fst).Nodup ∧
      gone.Pairwise (fun a b => Precedes sheet.nodes a.1 b.1) ∧
      ((Node.blocksAll sheet.nodes).map Node.bare).Perm
        ((Node.blocksAll (sheet.prune file).1.nodes).map Node.bare ++ gone.map (·.2.bare)) ∧
      (Node.blocksAll (sheet.prune file).1.nodes).length + (sheet.prune file).2.removals.length =
        (Node.blocksAll sheet.nodes).length ∧
      List.Forall₂ (fun g removal => Recorded file g.2 removal) gone
        (sheet.prune file).2.removals ∧
      ((sheet.prune file).2.notes.map fun note => (note.level, note.message)) =
        (sheet.prune file).2.removals.map (fun removal =>
          (.debug, "Removing empty " ++ String.ofList removal.selector ++ " at " ++ removal.file ++
            ":" ++ toString removal.line)) ∧
      ((sheet.prune file).2.changed = true ↔ (sheet.prune file).2.removals ≠ []) := by
  have hrecords : (sheet.prune file).2.removals =
      (Node.removedIn sheet.nodes).map (·.2.record file) :=
    (Node.map_record_removedIn file sheet.nodes).symm
  have hnotes : (sheet.prune file).2.notes = (sheet.prune file).2.removals.map .removing := rfl
  have horder := Node.pairwise_removedIn sheet.nodes
  have hperm := Node.blocksAll_perm sheet.nodes
  refine ⟨Node.removedIn sheet.nodes, fun path node => ?_, ?_, horder, hperm, ?_, ?_, ?_, ?_⟩
  · rw [Node.mem_removedIn_iff, vanishes_iff]
  · rw [List.nodup_iff_pairwise_ne, List.pairwise_map]
    refine horder.imp ?_
    intro a b h he
    rw [he] at h
    exact h.asymm h
  · have hlength := hperm.length_eq
    rw [List.length_map, List.length_append, List.length_map, List.length_map] at hlength
    rw [hrecords, List.length_map, hlength]
    rfl
  · rw [hrecords]
    exact forall₂_recorded file sheet.nodes
  · rw [hnotes, List.map_map]
    rfl
  · rw [Sheet.prune, Bool.not_eq_true', List.isEmpty_eq_false_iff]

end Restyle
