import Mathlib.Data.List.TakeWhile
import Restyle.Proofs.Sheet.Layout
import Restyle.Proofs.Sheet.Places

/-!
# What nodes are read from

Every node of a sheet that was read, at whatever depth, comes from a few tokens of the text: the
filler in front of it, and its statement, its comment or its prelude.  `Origin tokens node` says
which; `Items.origin` finds them for every node.  What holds of all nodes that were read is then a
matter of the three sorts of origin.

* `Origin.own_ne_nil`: a node has a text of its own.
* `Items.fillers`, `Items.gaps`: **nothing hides between the parts of a node.**  In front of a node
  and before a closing brace stand white space and semicolons, around the parts of a head white
  space.
-/

namespace Restyle

/-- Tokens that the node was read from: they are among the given ones. -/
inductive Origin (tokens : List Token) : Node → Prop where
  | statement {fs others : List Token} {first : Token} {semicolon : Bool} {node : Node}
      (hs : fs ++ first :: others ⊆ tokens) (hf : ∀ token ∈ fs, token.isFiller = true)
      (hn : Node.ofStatement? (Token.textOf fs) first others semicolon = some node) :
      Origin tokens node
  | comment {fs : List Token} {token : Token} {inline : Bool} (hs : fs ++ [token] ⊆ tokens)
      (hf : ∀ token ∈ fs, token.isFiller = true) (hk : token.kind = .comment inline) :
      Origin tokens (.comment (.ofToken (Token.textOf fs) token inline))
  | block {fs prelude inner : List Token} {brace : Token} {body : List Node} {after : Text}
      (hs : fs ++ (prelude ++ brace :: inner) ⊆ tokens) (hf : ∀ token ∈ fs, token.isFiller = true)
      (i : Items inner body after) :
      Origin tokens (.block (.ofPrelude (Token.textOf fs) prelude brace) body after)

/-- A node that comes from some tokens comes from more of them. -/
theorem Origin.mono {tokens tokens' : List Token} {node : Node} (h : Origin tokens node)
    (ht : tokens ⊆ tokens') : Origin tokens' node := by
  cases h with
  | statement hs hf hn => exact .statement (List.Subset.trans hs ht) hf hn
  | comment hs hf hk => exact .comment (List.Subset.trans hs ht) hf hk
  | block hs hf i => exact .block (List.Subset.trans hs ht) hf i

/-- **Every node that was read has its origin** among the tokens. -/
theorem Items.origin {tokens : List Token} {nodes : List Node} {after : Text}
    (h : Items tokens nodes after) : ∀ part ∈ Node.partsAll nodes, Origin tokens part := by
  induction h with
  | last => exact nofun
  | loose hf _ _ hn =>
      intro part hp
      rw [Node.partsAll, Node.partsAll, List.append_nil,
        Node.parts_of_ne_block (Node.ofStatement?_ne_block hn), List.mem_singleton] at hp
      exact hp ▸ .statement (List.Subset.refl _) hf hn
  | statement hf _ _ _ _ hn _ ih =>
      intro part hp
      rw [Node.partsAll, Node.parts_of_ne_block (Node.ofStatement?_ne_block hn), List.mem_append,
        List.mem_singleton] at hp
      rcases hp with rfl | hp
      · exact .statement (fun t ht => by grind) hf hn
      · exact (ih part hp).mono fun t ht => by simp [ht]
  | comment hf hk _ ih =>
      intro part hp
      rw [Node.partsAll, Node.parts, List.singleton_append, List.mem_cons] at hp
      rcases hp with rfl | hp
      · exact .comment (by simp) hf hk
      · exact (ih part hp).mono fun t ht => by simp [ht]
  | block hf _ _ _ i _ _ ihi ih =>
      intro part hp
      rw [Node.partsAll, Node.parts, List.mem_append, List.mem_cons] at hp
      rcases hp with (rfl | hp) | hp
      · exact .block (fun t ht => by grind) hf i
      · exact (ihi part hp).mono fun t ht => by simp [ht]
      · exact (ih part hp).mono fun t ht => by simp [ht]

/-- The filler at the end of a container is made of tokens that are filler. -/
theorem Items.exists_after {tokens : List Token} {nodes : List Node} {after : Text}
    (h : Items tokens nodes after) :
    ∃ fs, fs ⊆ tokens ∧ (∀ token ∈ fs, token.isFiller = true) ∧ after = Token.textOf fs := by
  induction h with
  | last hf => exact ⟨_, List.Subset.refl _, hf, rfl⟩
  | loose => exact ⟨[], List.nil_subset _, nofun, rfl⟩
  | statement _ _ _ _ _ _ _ ih | comment _ _ _ ih | block _ _ _ _ _ _ _ _ ih =>
      obtain ⟨fs, hs, hf, ha⟩ := ih
      exact ⟨fs, List.Subset.trans hs fun t ht => by simp [ht], hf, ha⟩

/-! ### The own text -/

/-- A node that was read has a text of its own. -/
theorem Origin.own_ne_nil {tokens : List Token} {node : Node} (h : Origin tokens node)
    (hf : Formed tokens) (hn : ∀ token ∈ tokens, token.text ≠ []) : node.own ≠ [] := by
  cases h with
  | @statement fs others first semicolon _ hs _ hnode =>
      have hm : first ∈ tokens := hs (by simp)
      have hprint := Node.print_ofStatement? (hf first hm) hnode
      rw [← (Node.ofStatement?_place hnode).2, List.append_assoc] at hprint
      rw [Node.own_eq_of_print hprint]
      simp [hn first hm]
  | comment => simp only [Node.own]; split <;> simp
  | block => exact Node.own_ne_nil_of_isBlock rfl

/-! ### What stands between the parts -/

/-- The character is white space or a semicolon. -/
def isFillerChar (c : Char) : Bool := isSpace c || c == ';'

/-- The filler of a node: in front of it, and before its closing brace. -/
def Node.fillers : Node → List Text
  | .block head _ after => [head.before, after]
  | node                => [node.before]

/-- What stands between the parts of a head, and behind the last. -/
def Head.gaps : Head → List Text
  | .rule head   => [head.between]
  | .atRule head => [head.afterName, head.between]

/-- What stands between the parts of a rule or an at-rule. -/
def Node.gaps : Node → List Text
  | .block head _ _   => head.gaps
  | .atStatement head => (Head.atRule head).gaps
  | .declaration _    => []
  | .comment _        => []

section
variable {tokens : List Token}

/-- White space has only spaces in its text. -/
theorem Token.all_isSpace_textOf (hm : ∀ token ∈ tokens, token.toLexeme.Made)
    (hs : ∀ token ∈ tokens, token.isSpace = true) :
    (Token.textOf tokens).all Restyle.isSpace = true := by
  rw [List.all_eq_true]
  intro c hc
  obtain ⟨token, ht, hc⟩ := List.mem_flatMap.1 hc
  have hmade := hm token ht
  simp only [Lexeme.Made, Token.isSpace_iff.1 (hs token ht)] at hmade
  exact List.all_eq_true.1 hmade c hc

theorem Token.all_isFillerChar_textOf (hm : ∀ token ∈ tokens, token.toLexeme.Made)
    (hf : Formed tokens) (hs : ∀ token ∈ tokens, token.isFiller = true) :
    (Token.textOf tokens).all isFillerChar = true := by
  rw [List.all_eq_true]
  intro c hc
  obtain ⟨token, ht, hc⟩ := List.mem_flatMap.1 hc
  rcases Token.isFiller_iff.1 (hs token ht) with hk | hk
  · have hmade := hm token ht
    simp only [Lexeme.Made, hk] at hmade
    rw [isFillerChar, List.all_eq_true.1 hmade c hc, Bool.true_or]
  · rw [(text_of_kind (hf token ht)).1 hk, List.mem_singleton] at hc
    rw [hc]
    rfl

theorem AtHead.gaps_ofRun {before name : Text} {word : Token} {run : List Token} {semicolon : Bool}
    (hm : ∀ token ∈ run, token.toLexeme.Made) :
    ∀ gap ∈ (Head.atRule (.ofRun before name word run semicolon)).gaps,
      gap.all isSpace = true := by
  have hback : ∀ token ∈ takeTrailing Token.isSpace (run.dropWhile Token.isSpace), token ∈ run := by
    intro token ht
    refine List.dropWhile_subset Token.isSpace ?_
    exact (List.rtakeWhile_suffix Token.isSpace _).mem ht
  intro gap hg
  simp only [Head.gaps, List.mem_cons, List.not_mem_nil, or_false] at hg
  rcases hg with rfl | rfl
  · exact Token.all_isSpace_textOf (fun t ht => hm t (List.takeWhile_subset _ ht))
      fun t ht => List.mem_takeWhile_imp ht
  · exact Token.all_isSpace_textOf (fun t ht => hm t (hback t ht)) fun t ht => List.mem_rtakeWhile_imp ht

theorem RuleHead.gaps_ofPrelude {before : Text} {prelude : List Token} {brace : Token}
    (hm : ∀ token ∈ prelude, token.toLexeme.Made) :
    ∀ gap ∈ (Head.rule (.ofPrelude before prelude brace)).gaps, gap.all isSpace = true := by
  intro gap hg
  rw [List.mem_singleton.1 hg]
  refine Token.all_isSpace_textOf (fun t ht => hm t ?_) fun t ht => List.mem_rtakeWhile_imp ht
  exact (List.rtakeWhile_suffix Token.isSpace prelude).mem ht

/-- The gaps in the head of a block are white space. -/
theorem Head.gaps_ofPrelude {before : Text} {prelude : List Token} {brace : Token}
    (hm : ∀ token ∈ prelude, token.toLexeme.Made) :
    ∀ gap ∈ (Head.ofPrelude before prelude brace).gaps, gap.all isSpace = true := by
  unfold Head.ofPrelude
  split
  · exact RuleHead.gaps_ofPrelude hm
  · split
    · exact AtHead.gaps_ofRun fun t ht => hm t (List.mem_cons_of_mem _ ht)
    · exact RuleHead.gaps_ofPrelude hm

/-- White space stands between the parts of a rule or an at-rule. -/
theorem Origin.gaps {node : Node} (h : Origin tokens node)
    (hm : ∀ token ∈ tokens, token.toLexeme.Made) : ∀ gap ∈ node.gaps, gap.all isSpace = true := by
  cases h with
  | statement hs _ hn =>
      rcases Node.ofStatement?_cases hn with ⟨name, -, rfl⟩ | ⟨decl, -, rfl⟩
      · exact AtHead.gaps_ofRun fun t ht => hm t (hs (by simp [ht]))
      · exact nofun
  | comment => exact nofun
  | block hs => exact Head.gaps_ofPrelude fun t ht => hm t (hs (by simp [ht]))

/-- White space and semicolons stand in front of a node, and before its closing brace. -/
theorem Origin.fillers {node : Node} (h : Origin tokens node)
    (hm : ∀ token ∈ tokens, token.toLexeme.Made) (hformed : Formed tokens) :
    ∀ filler ∈ node.fillers, filler.all isFillerChar = true := by
  -- filler tokens among the given ones
  have htext : ∀ {fs : List Token}, fs ⊆ tokens → (∀ token ∈ fs, token.isFiller = true) →
      (Token.textOf fs).all isFillerChar = true := fun hs hf =>
    Token.all_isFillerChar_textOf (fun t ht => hm t (hs ht)) (fun t ht => hformed t (hs ht)) hf
  cases h with
  | statement hs hf hn =>
      have hfillers : node.fillers = [node.before] := by
        rcases Node.ofStatement?_cases hn with ⟨name, -, rfl⟩ | ⟨decl, -, rfl⟩ <;> rfl
      rw [hfillers, (Node.ofStatement?_place hn).2]
      intro filler hfill
      rw [List.mem_singleton.1 hfill]
      exact htext (fun t ht => hs (by simp [ht])) hf
  | comment hs hf =>
      intro filler hfill
      rw [List.mem_singleton.1 hfill]
      exact htext (fun t ht => hs (by simp [ht])) hf
  | @block fs prelude inner brace body after hs hf i =>
      obtain ⟨gs, hg, hgf, rfl⟩ := i.exists_after
      intro filler hfill
      simp only [Node.fillers, (Head.ofPrelude_place _ prelude brace).2, List.mem_cons,
        List.not_mem_nil, or_false] at hfill
      rcases hfill with rfl | rfl
      · exact htext (fun t ht => hs (by simp [ht])) hf
      · exact htext (fun t ht => hs (by simp [hg ht])) hgf

/-- **All filler is white space and semicolons**: that of the nodes, and that behind the last. -/
theorem Items.fillers {nodes : List Node} {after : Text} (h : Items tokens nodes after)
    (hm : ∀ token ∈ tokens, token.toLexeme.Made) (hformed : Formed tokens) :
    ∀ filler ∈ after :: (Node.partsAll nodes).flatMap Node.fillers,
      filler.all isFillerChar = true := by
  intro filler hf
  rcases List.mem_cons.1 hf with rfl | hf
  · obtain ⟨fs, hs, hfs, rfl⟩ := h.exists_after
    exact Token.all_isFillerChar_textOf (fun t ht => hm t (hs ht))
      (fun t ht => hformed t (hs ht)) hfs
  · obtain ⟨node, hn, hf⟩ := List.mem_flatMap.1 hf
    exact (h.origin node hn).fillers hm hformed filler hf

/-- **All gaps are white space.** -/
theorem Items.gaps {nodes : List Node} {after : Text} (h : Items tokens nodes after)
    (hm : ∀ token ∈ tokens, token.toLexeme.Made) :
    ∀ gap ∈ (Node.partsAll nodes).flatMap Node.gaps, gap.all isSpace = true := by
  intro gap hg
  obtain ⟨node, hn, hg⟩ := List.mem_flatMap.1 hg
  exact (h.origin node hn).gaps hm gap hg

end

end Restyle
