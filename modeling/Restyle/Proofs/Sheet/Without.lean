import Restyle.Proofs.Sheet.Origin
import Restyle.Proofs.Sheet.Thinning

/-!
# Deleting any nodes

`Sheet.without gone` is the sheet without the nodes at the paths in `gone`, at whatever depth, each
with all it holds.

* `Sheet.remove_eq_without`: to remove one node is to be without it.
* `Thins.sublist_print`: what is left of the nodes is printed with characters of the whole.
* `Sheet.inline_of_parse_css`: CSS has no line comments.
* `Sheet.readsBack_without`: so **a CSS sheet is read back from its text whatever is deleted**, unless
  a byte-order mark comes to the front.
-/

namespace Restyle

namespace Node

mutual

/-- The node without those below it that are gone. -/
def without (gone : List Nat → Bool) : Node → Node
  | .block head body after => .block head (withoutAll gone 0 body) after
  | .atStatement head      => .atStatement head
  | .declaration decl      => .declaration decl
  | .comment c             => .comment c

/-- The nodes, the first of which has the index `i`, without those that are gone and those below
them that are. -/
def withoutAll (gone : List Nat → Bool) (i : Nat) : List Node → List Node
  | []           => []
  | node :: rest =>
    if gone [i] then withoutAll gone (i + 1) rest
    else node.without (fun path => gone (i :: path)) :: withoutAll gone (i + 1) rest

end

end Node

/-- The sheet without the nodes at the paths that are gone. -/
def Sheet.without (gone : List Nat → Bool) (sheet : Sheet) : Sheet :=
  { sheet with nodes := Node.withoutAll gone 0 sheet.nodes }

/-! ### One node -/

namespace Node

mutual

theorem without_of_none {gone : List Nat → Bool} (h : ∀ path, gone path = false) :
    ∀ node : Node, node.without gone = node
  | .block head body after => by rw [without, withoutAll_of_none (fun j path _ => h _) body]
  | .atStatement _ | .declaration _ | .comment _ => rfl

/-- Where nothing is gone, everything stays. -/
theorem withoutAll_of_none {gone : List Nat → Bool} {i : Nat}
    (h : ∀ j path, i ≤ j → gone (j :: path) = false) :
    ∀ nodes : List Node, withoutAll gone i nodes = nodes
  | []           => rfl
  | node :: rest => by
      rw [withoutAll, if_neg (by simp [h i [] (Nat.le_refl i)]),
        without_of_none (fun path => h i path (Nat.le_refl i)) node,
        withoutAll_of_none (fun j path hj => h j path (by omega)) rest]

end

/-- One of the nodes is gone. -/
theorem withoutAll_eraseIdx (nodes : List Node) (i k : Nat) :
    withoutAll (· == [i + k]) i nodes = nodes.eraseIdx k := by
  induction nodes generalizing i k with
  | nil => rfl
  | cons node rest ih =>
      cases k with
      | zero =>
          rw [withoutAll, if_pos (by simp), withoutAll_of_none (fun j path hj => ?_) rest]
          · rfl
          · simp; omega
      | succ k =>
          rw [withoutAll, if_neg (by simp), without_of_none (fun path => by simp) node,
            List.eraseIdx_cons_succ, ← ih (i + 1) k, Nat.add_right_comm, Nat.add_assoc]

/-- A node below one of the nodes is gone. -/
theorem withoutAll_set {head : Head} {body : List Node} {after : Text} {nodes : List Node} {k : Nat}
    (i j : Nat) (path : List Nat) (h : nodes[k]? = some (.block head body after)) :
    withoutAll (· == (i + k) :: j :: path) i nodes =
      nodes.set k (.block head (withoutAll (· == j :: path) 0 body) after) := by
  induction nodes generalizing i k with
  | nil => cases h
  | cons node rest ih =>
      cases k with
      | zero =>
          cases h
          rw [withoutAll, if_neg (by simp), without, withoutAll_of_none (fun j path hj => ?_) rest]
          · simp
          · simp; omega
      | succ k =>
          rw [withoutAll, if_neg (by simp), without_of_none (fun path => by simp) node,
            List.set_cons_succ, ← ih (i + 1) h, Nat.add_right_comm, Nat.add_assoc]

theorem editAt_eraseIdx {nodes nodes' : List Node} {path : List Nat}
    (h : editAt (fun nodes i => if i < nodes.length then .ok (nodes.eraseIdx i)
      else .error .noSuchNode) nodes path = .ok nodes') :
    nodes' = withoutAll (· == path) 0 nodes := by
  induction path generalizing nodes nodes' with
  | nil => cases h
  | cons k path ih =>
      cases path with
      | nil =>
          rw [editAt] at h
          split at h
          · cases h
            rw [← withoutAll_eraseIdx nodes 0 k, Nat.zero_add]
          · cases h
      | cons j path =>
          rw [editAt_cons_cons] at h
          split at h
          · next head body after hk =>
            cases hb : editAt _ body (j :: path) with
            | error e => rw [hb] at h; cases h
            | ok body' =>
                rw [hb] at h
                cases h
                obtain rfl := ih hb
                have hset := withoutAll_set 0 j path hk
                rw [Nat.zero_add] at hset
                exact hset.symm
          · cases h

end Node

/-- **To remove a node is to be without it.** -/
theorem Sheet.remove_eq_without {sheet sheet' : Sheet} {path : List Nat}
    (h : sheet.remove path = .ok sheet') : sheet' = sheet.without (· == path) := by
  rw [Sheet.remove] at h
  cases hn : Node.editAt _ sheet.nodes path with
  | error e => rw [hn] at h; cases h
  | ok nodes =>
      rw [hn] at h
      cases h
      rw [Sheet.without, Node.editAt_eraseIdx hn]

/-! ### What is left -/

namespace Node

mutual

theorem thins_without (gone : List Nat → Bool) {rest rest' : List Node} (h : Thins rest rest') :
    ∀ node : Node, Thins (node :: rest) (node.without gone :: rest')
  | .block head body after => .inside head after (thins_withoutAll gone 0 body) h
  | .atStatement _ | .declaration _ | .comment _ => .keep _ h

/-- What is gone is taken out. -/
theorem thins_withoutAll (gone : List Nat → Bool) (i : Nat) :
    ∀ nodes : List Node, Thins nodes (withoutAll gone i nodes)
  | []           => .nil
  | node :: rest => by
      have ht := thins_withoutAll gone (i + 1) rest
      rw [withoutAll]
      split
      · exact .drop node ht
      · exact thins_without _ ht node

end

end Node

/-- **What is left is printed with characters of the whole**, in their order. -/
theorem Thins.sublist_print {nodes nodes' : List Node} (h : Thins nodes nodes') :
    (Node.printAll nodes').Sublist (Node.printAll nodes) := by
  induction h with
  | nil => exact List.Sublist.refl _
  | drop node _ ih => exact ih.trans (List.sublist_append_right _ _)
  | keep node _ ih => exact (List.Sublist.refl _).append ih
  | inside head after _ _ ihb ih =>
      have hbody : (head.print ++ '{' :: Node.printAll _).Sublist (head.print ++ '{' :: Node.printAll _) :=
        (List.Sublist.refl head.print).append (ihb.cons_cons '{')
      exact ((hbody.append (.refl after)).append (.refl ['}'])).append ih

/-- The comments that are left are comments of the whole. -/
theorem Thins.mem_comment {nodes nodes' : List Node} {c : Comment} (h : Thins nodes nodes')
    (hc : .comment c ∈ Node.partsAll nodes') : .comment c ∈ Node.partsAll nodes := by
  induction h with
  | nil => exact hc
  | drop node _ ih => exact List.mem_append_right _ (ih hc)
  | keep node _ ih => exact List.mem_append.2 ((List.mem_append.1 hc).imp_right ih)
  | inside head after _ _ ihb ih =>
      rcases List.mem_append.1 hc with hc | hc
      · rcases List.mem_cons.1 hc with hc | hc
        · cases hc
        · exact List.mem_append_left _ (List.mem_cons_of_mem _ (ihb hc))
      · exact List.mem_append_right _ (ih hc)

/-! ### Line comments -/

namespace Node

mutual

theorem commentsEnd_of_inline {next : Text} : ∀ {node : Node},
    (∀ c, .comment c ∈ node.parts → c.inline = false) → node.commentsEnd next = true
  | .block _ body _, h => commentsEndAll_of_inline fun c hc => h c (List.mem_cons_of_mem _ hc)
  | .atStatement _, _ | .declaration _, _ => rfl
  | .comment c, h => by rw [commentsEnd, h c List.mem_cons_self]; rfl

/-- Where there are no line comments, none takes anything along. -/
theorem commentsEndAll_of_inline {next : Text} : ∀ {nodes : List Node},
    (∀ c, .comment c ∈ partsAll nodes → c.inline = false) → commentsEndAll next nodes = true
  | [], _ => rfl
  | node :: rest, h => by
      rw [commentsEndAll, commentsEnd_of_inline fun c hc => h c (List.mem_append_left _ hc),
        commentsEndAll_of_inline fun c hc => h c (List.mem_append_right _ hc)]
      rfl

end

end Node

theorem Opening.of_css_ne (c : Char) (rest : Text) : Opening.of .css c rest ≠ .lineComment := by
  intro h
  rw [Opening.of] at h
  split at h
  · cases h
  split at h
  · cases h
  split at h
  · next hc => simp at hc
  split at h
  · cases h
  split at h
  · cases h
  split at h <;> cases h

theorem Lexeme.ne_lineComment_of_read {c : Char} {rest left : Text} {l : Lexeme}
    (h : Lexeme.read .css c rest = .ok (l, left)) : l.kind ≠ .comment true := by
  have hs := Opening.shows_of .css c rest
  intro hk
  cases Lexeme.read_eq_ok_iff.1 h with
  | space | blockComment | string | atWord | word => cases hk
  | lineComment ho => exact Opening.of_css_ne c rest ho
  | punctuation ho =>
      cases hk
      rw [ho] at hs
      simp only [Opening.Shows, punctuation?] at hs
      split at hs <;> cases hs

/-- CSS has no line comments. -/
theorem Reads.ne_lineComment {text rest : Text} {l : Lexeme} {ls : List Lexeme}
    (h : Reads .css text ls rest) (hl : l ∈ ls) : l.kind ≠ .comment true := by
  induction h with
  | done => cases hl
  | more h _ ih =>
      rcases List.mem_cons.1 hl with rfl | hl
      · exact Lexeme.ne_lineComment_of_read h
      · exact ih hl

theorem Sheet.inline_of_parse_css {source : Text} {sheet : Sheet}
    (h : Sheet.parse .css source = .ok sheet) {c : Comment}
    (hc : .comment c ∈ Node.partsAll sheet.nodes) : c.inline = false := by
  obtain ⟨text, ls, -, hr, hi⟩ := Sheet.parse_eq_ok_iff.1 h
  generalize hn : Node.comment c = node at hc
  cases hi.origin node hc with
  | statement _ _ hs =>
      subst hn
      rcases Node.ofStatement?_cases hs with ⟨_, -, h⟩ | ⟨_, -, h⟩ <;> cases h
  | @comment fs token inline hs hf hk =>
      cases hn
      cases inline with
      | false => rfl
      | true => exact absurd hk (hr.ne_lineComment (mem_of_mem_locate (hs (by simp))))
  | block => cases hn

/-! ### Reading back -/

/-- **A CSS sheet is read back from its text whatever is deleted**, up to places: at whatever depth,
and whatever comes to stand side by side.  The text behind the mark of the source must not hold
another mark, which could come to the front. -/
theorem Sheet.readsBack_without {source text : Text} {bom : Bool} {sheet : Sheet}
    (h : Sheet.parse .css source = .ok sheet) (hm : Sheet.splitMark source = (bom, text))
    (ht : byteOrderMark ∉ text) (gone : List Nat → Bool) :
    (sheet.without gone).ReadsBack .css := by
  have hthin : Thins sheet.nodes (sheet.without gone).nodes := Node.thins_withoutAll gone 0 _
  have hafter : (sheet.without gone).after = sheet.after := rfl
  refine (Sheet.readsBack_iff_of_thins h hafter hthin).2 ⟨fun _ hb => ?_, ?_⟩
  · have hsub := hthin.sublist_print.append (List.Sublist.refl sheet.after)
    rw [← Sheet.text_of_parse h hm] at hsub
    exact ht (hsub.subset (List.mem_of_head? hb))
  · exact Node.commentsEndAll_of_inline fun c hc =>
      Sheet.inline_of_parse_css h (hthin.mem_comment hc)

/-- A comment, an at-rule without a body and a declaration with its brace behind it go.  Their
neighbours, with a slash, an at sign and a `url` among them, come to stand side by side. -/
theorem Sheet.readsBack_without_sample :
    ∃ sheet,
      Sheet.parse .css "\ufeff a/\x7bb:c/;/*d*/@e;f:url(g)\x7d@h i;j\x7bk:l\x7d".toList = .ok sheet ∧
      (sheet.without (· ∈ [[0, 1], [0, 3], [1]])).print =
        "\ufeff a/\x7bb:c/;@e;\x7dj\x7bk:l\x7d".toList ∧
      (sheet.without (· ∈ [[0, 1], [0, 3], [1]])).ReadsBack .css := by
  generalize hs : "\ufeff a/\x7bb:c/;/*d*/@e;f:url(g)\x7d@h i;j\x7bk:l\x7d".toList = source
  generalize ht : " a/\x7bb:c/;/*d*/@e;f:url(g)\x7d@h i;j\x7bk:l\x7d".toList = text
  have ho : (Sheet.parse .css source).toOption.map
      (fun sheet => (sheet.without (· ∈ [[0, 1], [0, 3], [1]])).print) =
        some "\ufeff a/\x7bb:c/;@e;\x7dj\x7bk:l\x7d".toList := by
    subst hs
    decide +kernel
  have hm : Sheet.splitMark source = (true, text) ∧ byteOrderMark ∉ text := by
    subst hs ht
    decide +kernel
  obtain ⟨sheet, h, hprint⟩ := exists_of_map_toOption ho
  exact ⟨sheet, h, hprint, Sheet.readsBack_without h hm.1 hm.2 _⟩

end Restyle
