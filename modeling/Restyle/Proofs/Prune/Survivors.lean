import Restyle.Proofs.Sheet.Parts
import Restyle.Prune

/-!
# What pruning keeps

Pruning judges a block by what is left in it, from the inside out.  The judgement can be told from
the tree as it was: a block stays if it is *live*, that is, if some block in it, or the block
itself, holds something of its own.

* `Node.Holds`: a rule holds a declaration with a value, an at-rule a declaration or a comment.
* `Node.Live`: the node is, or has below it, one that holds something.
* `Node.retainAll keep`: the nodes without the blocks that fail `keep`, judged as they stand.
* `Sheet.prune_retains_live`: **pruning deletes the blocks that are not live**, and nothing else.
-/

namespace Restyle

/-- The value is not blank. -/
def Declaration.hasValue (decl : Declaration) : Bool := !(Text.trim decl.value).isEmpty

namespace Node

/-! ### Live blocks -/

/-- The block holds something of its own: a rule a declaration with a value, an at-rule a
declaration or a comment. -/
def Holds : Node → Prop
  | .block (.rule _) body _   => ∃ decl ∈ declarations body, decl.hasValue = true
  | .block (.atRule _) body _ => ∃ child ∈ body, child.isBlock = false
  | _                         => False

instance : (node : Node) → Decidable node.Holds
  | .block (.rule _) body _   =>
    inferInstanceAs (Decidable (∃ decl ∈ declarations body, decl.hasValue = true))
  | .block (.atRule _) body _ => inferInstanceAs (Decidable (∃ child ∈ body, child.isBlock = false))
  | .atStatement _            => .isFalse id
  | .declaration _            => .isFalse id
  | .comment _                => .isFalse id

/-- The node, or one below it, holds something. -/
def Live (node : Node) : Prop := ∃ part ∈ node.parts, part.Holds

instance (node : Node) : Decidable node.Live :=
  inferInstanceAs (Decidable (∃ part ∈ node.parts, part.Holds))

/-- The node is live. -/
def isLive (node : Node) : Bool := decide node.Live

@[simp] theorem isLive_iff {node : Node} : node.isLive = true ↔ node.Live := decide_eq_true_iff

@[simp] theorem isLive_eq_false {node : Node} : node.isLive = false ↔ ¬ node.Live :=
  decide_eq_false_iff_not

/-- A block is live by itself or by one of its children. -/
theorem live_block {head : Head} {body : List Node} {after : Text} :
    (Node.block head body after).Live ↔
      (Node.block head body after).Holds ∨ ∃ child ∈ body, child.Live := by
  rw [Live, parts]
  constructor
  · rintro ⟨part, hp, hh⟩
    rcases List.mem_cons.1 hp with rfl | hp
    · exact .inl hh
    · obtain ⟨child, hc, hp⟩ := mem_partsAll.1 hp
      exact .inr ⟨child, hc, part, hp, hh⟩
  · rintro (hh | ⟨child, hc, part, hp, hh⟩)
    · exact ⟨_, List.mem_cons_self, hh⟩
    · exact ⟨part, List.mem_cons_of_mem _ (mem_partsAll.2 ⟨child, hc, hp⟩), hh⟩

/-- A node with a live one below it is live. -/
theorem Live.of_part {part node : Node} (hp : part ∈ node.parts) (h : part.Live) : node.Live := by
  obtain ⟨inner, hi, hh⟩ := h
  exact ⟨inner, mem_parts_trans hi hp, hh⟩

/-- Only blocks with a body are live. -/
theorem Live.isBlock {node : Node} (h : node.Live) : node.isBlock = true := by
  obtain ⟨part, hp, hh⟩ := h
  cases node with
  | block | atStatement => rfl
  | declaration | comment =>
      rw [parts, List.mem_singleton] at hp
      subst hp
      cases hh

theorem not_live_atStatement (head : AtHead) : ¬ (Node.atStatement head).Live := by
  rintro ⟨part, hp, hh⟩
  rw [parts, List.mem_singleton] at hp
  subst hp
  cases hh

/-! ### Deleting blocks -/

mutual

/-- The node without the blocks inside it that fail `keep`. -/
def retain (keep : Node → Bool) : Node → Node
  | .block head body after => .block head (retainAll keep body) after
  | .atStatement head      => .atStatement head
  | .declaration decl      => .declaration decl
  | .comment c             => .comment c

/-- The nodes without the blocks that fail `keep`, judged as they stand; a block goes with all it
holds. -/
def retainAll (keep : Node → Bool) : List Node → List Node
  | []           => []
  | node :: rest =>
    if node.isBlock && !keep node then retainAll keep rest
    else node.retain keep :: retainAll keep rest

end

/-- The blocks that are not kept are left out, and the others are kept one by one. -/
theorem retainAll_eq_map (keep : Node → Bool) (nodes : List Node) :
    retainAll keep nodes =
      (nodes.filter fun node => !node.isBlock || keep node).map (retain keep) := by
  induction nodes with
  | nil => rfl
  | cons node rest ih =>
      rw [retainAll, ih, List.filter_cons]
      cases node.isBlock <;> cases keep node <;> rfl

theorem isContent_retain (keep : Node → Bool) (node : Node) :
    (node.retain keep).isContent = node.isContent := by
  cases node <;> rfl

theorem isContent_of_isBlock {node : Node} (h : node.isBlock = true) : node.isContent = true := by
  cases node with
  | block | atStatement => rfl
  | declaration | comment => cases h

/-- Something is left of a rule just when it is live. -/
theorem any_isContent_retainAll {head : RuleHead} {body : List Node} {after : Text} :
    (retainAll isLive body).any isContent = true ↔
      (Node.block (.rule head) body after).Live := by
  rw [live_block, retainAll_eq_map, List.any_map, List.any_eq_true]
  constructor
  · rintro ⟨child, hc, hcontent⟩
    obtain ⟨hb, hk⟩ := List.mem_filter.1 hc
    rw [Function.comp, isContent_retain] at hcontent
    cases child with
    -- a block counts only if it was kept, and then it is live
    | block | atStatement => exact .inr ⟨_, hb, by simpa [isBlock] using hk⟩
    | declaration decl =>
        exact .inl ⟨decl, mem_declarations.2 hb, hcontent⟩
    | comment => cases hcontent
  · rintro (⟨decl, hd, hv⟩ | ⟨child, hc, hl⟩)
    · refine ⟨_, List.mem_filter.2 ⟨mem_declarations.1 hd, rfl⟩, ?_⟩
      rw [Function.comp, isContent_retain]
      exact hv
    · refine ⟨child, List.mem_filter.2 ⟨hc, by simp [hl]⟩, ?_⟩
      rw [Function.comp, isContent_retain]
      exact isContent_of_isBlock hl.isBlock

/-- Anything is left of an at-rule just when it is live. -/
theorem retainAll_ne_nil {head : AtHead} {body : List Node} {after : Text} :
    retainAll isLive body ≠ [] ↔
      (Node.block (.atRule head) body after).Live := by
  rw [live_block, retainAll_eq_map, Ne, List.map_eq_nil_iff, List.filter_eq_nil_iff]
  constructor
  · intro h
    obtain ⟨child, hc, hk⟩ : ∃ child ∈ body, (!child.isBlock || child.isLive) = true := by
      simpa only [Classical.not_forall, Classical.not_not, exists_prop] using h
    by_cases hb : child.isBlock = true
    · exact .inr ⟨child, hc, by simpa [hb] using hk⟩
    · exact .inl ⟨child, hc, by simpa using hb⟩
  · rintro (⟨child, hc, hb⟩ | ⟨child, hc, hl⟩) h
    · exact h child hc (by simp [hb])
    · exact h child hc (by simp [hl])

/-- A block is vacant just when nothing in it is live. -/
theorem isVacant_retainAll (head : Head) (body : List Node) (after : Text) :
    head.isVacant (retainAll isLive body) = true ↔
      ¬ (Node.block head body after).Live := by
  cases head with
  | rule head =>
      rw [← @any_isContent_retainAll head body after, Head.isVacant]
      simp
  | atRule head =>
      rw [← @retainAll_ne_nil head body after, Head.isVacant, List.isEmpty_iff]
      simp

/-! ### Pruning deletes the blocks that are not live -/

mutual

/-- **A node is judged as it stands**: pruning removes it if it is a block that is not live, and
otherwise only removes such blocks from it. -/
theorem prune_eq_retain : ∀ node : Node,
    node.prune = if node.isBlock && !node.isLive then none else some (node.retain isLive)
  | .block head body after => by
      have hv := isVacant_retainAll head body after
      rw [prune, pruneAll_eq_retainAll body]
      by_cases hl : (Node.block head body after).Live
      · rw [isLive_iff.2 hl]
        simp only [if_neg fun h => hv.1 h hl]
        rfl
      · rw [isLive_eq_false.2 hl]
        simp only [if_pos (hv.2 hl)]
        rfl
  | .atStatement head => by
      rw [isLive_eq_false.2 (not_live_atStatement head)]
      rfl
  | .declaration _ | .comment _ => rfl

/-- **Pruning keeps the live blocks.** -/
theorem pruneAll_eq_retainAll : ∀ nodes : List Node, pruneAll nodes = retainAll isLive nodes
  | []           => rfl
  | node :: rest => by
      rw [pruneAll, retainAll, prune_eq_retain node, pruneAll_eq_retainAll rest]
      by_cases hd : (node.isBlock && !node.isLive) = true
      · rw [if_pos hd, if_pos hd]
      · rw [if_neg hd, if_neg hd]

end

/-! ### What is left -/

/-- The blocks among the nodes and below them, in order. -/
def blocksAll (nodes : List Node) : List Node := (partsAll nodes).filter isBlock

/-- The declarations among the nodes and below them that have a value, in order. -/
def valuesAll (nodes : List Node) : List Declaration :=
  (declarations (partsAll nodes)).filter Declaration.hasValue

/-- Nothing in a node that is not live is live. -/
theorem filter_live_parts {node : Node} (h : ¬ node.Live) : node.parts.filter isLive = [] := by
  rw [List.filter_eq_nil_iff]
  intro part hp hl
  exact h (Live.of_part hp (isLive_iff.1 hl))

mutual

/-- The blocks below what is kept are the live ones, in their order. -/
theorem live_parts_retain : ∀ node : Node, (node.isBlock = true → node.Live) →
    ((node.retain isLive).parts.filter isBlock).map bare = (node.parts.filter isLive).map bare
  | .block head body after, h => by
      have hl := h rfl
      rw [retain, parts, parts, List.filter_cons_of_pos rfl,
        List.filter_cons_of_pos (isLive_iff.2 hl), List.map_cons, List.map_cons,
        live_partsAll_retainAll body]
      rfl
  | .atStatement head, h => absurd (h rfl) (not_live_atStatement head)
  | .declaration decl, _ => by
      rw [filter_live_parts fun hl => Bool.noConfusion hl.isBlock]
      rfl
  | .comment c, _ => by
      rw [filter_live_parts fun hl => Bool.noConfusion hl.isBlock]
      rfl

/-- The blocks that are left are the live ones. -/
theorem live_partsAll_retainAll : ∀ nodes : List Node,
    ((partsAll (retainAll isLive nodes)).filter isBlock).map bare =
      ((partsAll nodes).filter isLive).map bare
  | []           => rfl
  | node :: rest => by
      rw [retainAll, partsAll, List.filter_append, List.map_append]
      split
      · next hd =>
        -- nothing live goes with a block that is not
        obtain ⟨-, hl⟩ := Bool.and_eq_true_iff.1 hd
        rw [filter_live_parts (by simpa using hl), live_partsAll_retainAll rest]
        rfl
      · next hk =>
        rw [partsAll, List.filter_append, List.map_append, live_partsAll_retainAll rest,
          live_parts_retain node (by simpa using hk)]

end

mutual

/-- A block with a value in it is live. -/
theorem live_of_mem_parts {decl : Declaration} (hv : decl.hasValue = true) : ∀ {node : Node},
    node.isBlock = true → .declaration decl ∈ node.parts → node.Live
  | .block head body after, _, hd => by
      rw [parts] at hd
      rw [live_block]
      rcases mem_or_live_of_mem_partsAll hv ((List.mem_cons.1 hd).resolve_left nofun) with hb | hl
      · cases head with
        | rule => exact .inl ⟨decl, mem_declarations.2 hb, hv⟩
        | atRule => exact .inl ⟨_, hb, rfl⟩
      · exact .inr hl
  | .atStatement _, _, hd => by
      rw [parts, List.mem_singleton] at hd
      cases hd

/-- A value stands between the nodes, or in a live block among them. -/
theorem mem_or_live_of_mem_partsAll {decl : Declaration} (hv : decl.hasValue = true) :
    ∀ {nodes : List Node}, .declaration decl ∈ partsAll nodes →
      .declaration decl ∈ nodes ∨ ∃ node ∈ nodes, node.Live
  | node :: rest, hd => by
      rw [partsAll] at hd
      rcases List.mem_append.1 hd with hd | hd
      · by_cases hb : node.isBlock = true
        · exact .inr ⟨node, List.mem_cons_self, live_of_mem_parts hv hb hd⟩
        · cases node with
          | block | atStatement => exact absurd rfl hb
          | declaration | comment =>
              rw [parts, List.mem_singleton] at hd
              exact .inl (hd ▸ List.mem_cons_self)
      · rcases mem_or_live_of_mem_partsAll hv hd with hm | ⟨child, hc, hl⟩
        · exact .inl (List.mem_cons_of_mem _ hm)
        · exact .inr ⟨child, List.mem_cons_of_mem _ hc, hl⟩

end

mutual

/-- No declaration with a value is lost. -/
theorem values_retain : ∀ node : Node,
    (declarations (node.retain isLive).parts).filter Declaration.hasValue =
      (declarations node.parts).filter Declaration.hasValue
  | .block _ body _ => valuesAll_retainAll body
  | .atStatement _ | .declaration _ | .comment _ => rfl

/-- No value is lost. -/
theorem valuesAll_retainAll : ∀ nodes : List Node,
    valuesAll (retainAll isLive nodes) = valuesAll nodes
  | []           => rfl
  | node :: rest => by
      have ih := valuesAll_retainAll rest
      rw [valuesAll, valuesAll] at ih ⊢
      rw [retainAll, partsAll, declarations_append, List.filter_append]
      split
      · next hd =>
        obtain ⟨hb, hl⟩ := Bool.and_eq_true_iff.1 hd
        have hnone : (declarations node.parts).filter Declaration.hasValue = [] := by
          rw [List.filter_eq_nil_iff]
          intro decl hm hv
          have := live_of_mem_parts hv hb (mem_declarations.1 hm)
          simp [this] at hl
        rw [hnone, ih, List.nil_append]
      · rw [partsAll, declarations_append, List.filter_append, values_retain node, ih]

end

end Node

/-- **Pruning deletes the blocks that are not live**, with all they hold, and nothing else: every
other node keeps its fields, its place and its order.  So the blocks that are left are the live
ones, and no declaration with a value is lost. -/
theorem Sheet.prune_retains_live (file : String) (sheet : Sheet) :
    (sheet.prune file).1 = { sheet with nodes := Node.retainAll Node.isLive sheet.nodes } ∧
      (Node.blocksAll (sheet.prune file).1.nodes).map Node.bare =
        ((Node.blocksAll sheet.nodes).filter Node.isLive).map Node.bare ∧
      Node.valuesAll (sheet.prune file).1.nodes = Node.valuesAll sheet.nodes := by
  have hn : (sheet.prune file).1.nodes = Node.retainAll Node.isLive sheet.nodes :=
    Node.pruneAll_eq_retainAll sheet.nodes
  have hblocks : (Node.blocksAll sheet.nodes).filter Node.isLive =
      (Node.partsAll sheet.nodes).filter Node.isLive := by
    rw [Node.blocksAll, List.filter_filter]
    refine List.filter_congr fun node _ => ?_
    by_cases hl : node.Live
    · rw [hl.isBlock, Bool.and_true]
    · rw [Node.isLive_eq_false.2 hl, Bool.false_and]
  refine ⟨?_, ?_, ?_⟩
  · rw [Sheet.prune, Node.pruneAll_eq_retainAll]
  · rw [hn, hblocks]
    exact Node.live_partsAll_retainAll sheet.nodes
  · rw [hn]
    exact Node.valuesAll_retainAll sheet.nodes

end Restyle
