import Restyle.Proofs.Sheet.Layout
import Restyle.Proofs.Sheet.Parts
import Restyle.Proofs.Sheet.Thinning
import Restyle.Proofs.Token.Phrase

/-!
# Telling declarations anew

A statement that is read as one declaration may be exchanged for one that is read as another.  As
long as both begin with the same token and end at the same semicolon or brace, nothing around them
notices: what stands before ends by itself, and so does what stands behind.

* `Stated`: a statement that is read as a declaration, in front of some text.
* `Rereads dialect decl decl'`: a statement of `decl` can be made one of `decl'`, in front of whatever
  may end it.
* `Retold R nodes nodes'`: some declarations are exchanged for ones in relation to them, at any depth.
* `Items.retell`: retold items are read again as what they are retold to.
* `Sheet.readsBack_of_retold`: **a retold sheet is read back from its text**.
* `Items.stated`: every declaration that was read has its statement.
-/

namespace Restyle

/-! ### In front of what closes -/

/-- Both texts are empty, or both begin with a closing brace. -/
def SameClose (t t' : Text) : Prop := (t = [] ∧ t' = []) ∨ ∃ r r', t = '}' :: r ∧ t' = '}' :: r'

namespace SameClose

variable {t t' : Text}

/-- Two texts that close in the same way begin in the same way. -/
theorem beginAlike (h : SameClose t t') : BeginAlike t t' := by
  rcases h with ⟨rfl, rfl⟩ | ⟨r, r', rfl, rfl⟩
  · exact .inl ⟨rfl, rfl⟩
  · exact beginAlike_cons r r' rfl (by decide) (by decide)

/-- A word ends plainly where something is closed. -/
theorem endsPlain (h : SameClose t t') (dialect : Dialect) : EndsPlain dialect t' := by
  rcases h with ⟨-, rfl⟩ | ⟨r, r', -, rfl⟩
  · exact endsPlain_nil dialect
  · exact endsPlain_punctuation r' rfl (by decide)

theorem head_eq (h : SameClose t t') : t'.head? = t.head? := by
  rcases h with ⟨rfl, rfl⟩ | ⟨r, r', rfl, rfl⟩ <;> rfl

end SameClose

/-- Whether a lexeme ends before a text depends on the first character of the text. -/
theorem Lexeme.Seals.congr {l : Lexeme} {t t' : Text} (h : l.Seals t)
    (ht : t'.head? = t.head?) : l.Seals t' := by
  unfold Lexeme.Seals at h ⊢
  split
  all_goals simp_all

/-- What follows a token does not show in the first character of the text. -/
theorem ReadBefore.head?_eq {dialect : Dialect} {fs a : List Token} {token : Token} {t : Text}
    (h : ReadBefore dialect (fs ++ token :: a) t) (b : List Token) (t' : Text) :
    (Token.textOf (fs ++ token :: b) ++ t').head? =
      (Token.textOf (fs ++ token :: a) ++ t).head? := by
  have hn : ∀ token' ∈ fs ++ token :: a, ∃ c w, token'.text = c :: w := fun token' hm =>
    List.exists_cons_of_ne_nil (Reads.ne_nil h (List.mem_map_of_mem hm))
  cases fs with
  | nil =>
      obtain ⟨c, w, hc⟩ := hn token List.mem_cons_self
      simp [hc]
  | cons first fs =>
      obtain ⟨c, w, hc⟩ := hn first List.mem_cons_self
      simp [hc]

/-! ### Statements -/

/-- A statement is a declaration when it begins with no at-word and its run is one. -/
theorem Node.ofStatement?_eq_declaration_iff {before : Text} {first : Token} {others : List Token}
    {semicolon : Bool} {decl : Declaration} :
    Node.ofStatement? before first others semicolon = some (.declaration decl) ↔
      (∀ name, first.kind ≠ .atWord name) ∧
        Declaration.ofRun? before first others semicolon = some decl := by
  rw [Node.ofStatement?]
  cases hk : first.kind <;> simp

/-- A declaration has a semicolon when its statement ended with one. -/
theorem Node.semicolon_of_ofStatement? {before : Text} {first : Token} {others : List Token}
    {semicolon : Bool} {decl : Declaration}
    (h : Node.ofStatement? before first others semicolon = some (.declaration decl)) :
    decl.semicolon = semicolon := by
  obtain ⟨l, -, rfl⟩ :=
    Declaration.ofRun?_eq_some_iff.1 (Node.ofStatement?_eq_declaration_iff.1 h).2
  rfl

/-- The tokens are a statement that is read as the declaration, when `next` follows: filler, and a
run that ends outside of parentheses if a semicolon ends it. -/
structure Stated (dialect : Dialect) (fs : List Token) (first : Token) (others : List Token)
    (next : Text) (decl : Declaration) : Prop where
  read : ReadBefore dialect (fs ++ first :: others) next
  unbroken : Unbroken 0 (first :: others)
  depth : decl.semicolon = true → depthThrough 0 (first :: others) = 0
  node : Node.ofStatement? (Token.textOf fs) first others decl.semicolon = some (.declaration decl)

/-- A declaration that was read has the form of one, and the filler before it. -/
theorem stated_of_ofStatement? {dialect : Dialect} {fs others : List Token} {first : Token}
    {next : Text} {semicolon : Bool} {decl : Declaration}
    (hread : ReadBefore dialect (fs ++ first :: others) next) (hr : Unbroken 0 (first :: others))
    (hn : Node.ofStatement? (Token.textOf fs) first others semicolon = some (.declaration decl))
    (hd : semicolon = true → depthThrough 0 (first :: others) = 0) :
    Stated dialect fs first others next decl := by
  obtain rfl := Node.semicolon_of_ofStatement? hn
  exact ⟨hread, hr, hd, hn⟩

/-- A statement of the first declaration can be made one of the second, in front of every text that
ends a plain word: its first token stays, and it ends with a semicolon if it did. -/
structure Rereads (dialect : Dialect) (decl decl' : Declaration) : Prop where
  semicolon : decl'.semicolon = decl.semicolon
  stated : ∀ {fs others : List Token} {first : Token} {next next' : Text},
    Stated dialect fs first others next decl → EndsPlain dialect next' →
      ∃ others', Stated dialect fs first others' next' decl'

/-! ### Retold nodes -/

/-- The second list is the first one with some declarations, at any depth, exchanged for ones in
relation to them. -/
inductive Retold (R : Declaration → Declaration → Prop) : List Node → List Node → Prop where
  | nil : Retold R [] []
  | keep (node : Node) {rest rest' : List Node} (t : Retold R rest rest') :
      Retold R (node :: rest) (node :: rest')
  | declaration {decl decl' : Declaration} {rest rest' : List Node} (h : R decl decl')
      (t : Retold R rest rest') :
      Retold R (.declaration decl :: rest) (.declaration decl' :: rest')
  | inside (head : Head) (after : Text) {body body' rest rest' : List Node}
      (b : Retold R body body') (t : Retold R rest rest') :
      Retold R (.block head body after :: rest) (.block head body' after :: rest')

namespace Retold

variable {R : Declaration → Declaration → Prop}

theorem refl (nodes : List Node) : Retold R nodes nodes := by
  induction nodes with
  | nil => exact .nil
  | cons node rest ih => exact .keep node ih

/-- A node that is no block stays as it is, or it is a declaration that is exchanged. -/
theorem leaf_inv {node : Node} {rest nodes' : List Node} (h : Retold R (node :: rest) nodes')
    (hn : ∀ head body after, node ≠ .block head body after) :
    (∃ rest', nodes' = node :: rest' ∧ Retold R rest rest') ∨
      ∃ decl decl' rest', node = .declaration decl ∧ nodes' = .declaration decl' :: rest' ∧
        R decl decl' ∧ Retold R rest rest' := by
  cases h with
  | keep _ t => exact .inl ⟨_, rfl, t⟩
  | declaration h t => exact .inr ⟨_, _, _, rfl, rfl, h, t⟩
  | inside => exact absurd rfl (hn _ _ _)

theorem comment_inv {c : Comment} {rest nodes' : List Node}
    (h : Retold R (.comment c :: rest) nodes') :
    ∃ rest', nodes' = .comment c :: rest' ∧ Retold R rest rest' := by
  cases h with
  | keep _ t => exact ⟨_, rfl, t⟩

/-- What retells a block and other nodes starts with the block, its body retold. -/
theorem block_inv {head : Head} {after : Text} {body rest nodes' : List Node}
    (h : Retold R (.block head body after :: rest) nodes') :
    ∃ body' rest', nodes' = .block head body' after :: rest' ∧ Retold R body body' ∧
      Retold R rest rest' := by
  cases h with
  | keep _ t => exact ⟨body, _, rfl, refl body, t⟩
  | inside _ _ b t => exact ⟨_, _, rfl, b, t⟩

end Retold

/-! ### Reading retold items -/

/-- **Retold items are read again** as what they are retold to, and begin with the same character.
The text behind them may be exchanged for one that closes the same. -/
theorem Items.retell {dialect : Dialect} {tokens : List Token} {nodes : List Node} {after : Text}
    (h : Items tokens nodes after) :
    ∀ {nodes' : List Node} {next next' : Text},
      Retold (Rereads dialect) nodes nodes' → ReadBefore dialect tokens next →
      SameClose next next' →
      ∃ tokens', Items tokens' nodes' after ∧ ReadBefore dialect tokens' next' ∧
        (Token.textOf tokens' ++ next').head? = (Token.textOf tokens ++ next).head? := by
  induction h with
  | @last fs hf =>
      intro nodes' next next' hv hread hc
      cases hv
      refine ⟨fs, .last hf, hread.swap hc.beginAlike, ?_⟩
      rw [List.head?_append, List.head?_append, hc.head_eq]
  | @loose fs others first _ hf h₁ hr hn =>
      intro nodes' next next' hv hread hc
      rcases hv.leaf_inv (Node.ofStatement?_ne_block hn) with ⟨rest', rfl, hrest⟩ |
        ⟨decl, decl', rest', rfl, rfl, hdecl, hrest⟩
      · cases hrest
        exact ⟨_, .loose hf h₁ hr hn, hread.swap hc.beginAlike, hread.head?_eq others next'⟩
      · cases hrest
        obtain ⟨others', hst⟩ := hdecl.stated (stated_of_ofStatement? hread hr hn nofun)
          (hc.endsPlain dialect)
        have hn' := hst.node
        rw [hdecl.semicolon, Node.semicolon_of_ofStatement? hn] at hn'
        exact ⟨_, .loose hf h₁ hst.unbroken hn', hst.read, hread.head?_eq others' next'⟩
  | @statement fs others rest first semicolon _ _ _ hf h₁ hr hd hk hn _ ih =>
      intro nodes' next next' hv hread hc
      have hhead := hread.head?_eq
      have hst := (text_of_kind (hread.formed semicolon (by simp))).1 hk
      rw [← List.cons_append, ← List.append_assoc] at hread
      obtain ⟨hfront, hrest⟩ := (readBefore_statement hst hk).1 hread
      rcases hv.leaf_inv (Node.ofStatement?_ne_block hn) with ⟨rest', rfl, hvr⟩ |
        ⟨decl, decl', rest', rfl, rfl, hdecl, hvr⟩
      · obtain ⟨tokens', hi, hread', -⟩ := ih hvr hrest hc
        refine ⟨_, .statement hf h₁ hr hd hk hn hi, ?_, hhead _ _⟩
        rw [← List.cons_append, ← List.append_assoc, readBefore_statement hst hk]
        exact ⟨hfront.swap (beginAlike_cons _ _ rfl (by decide) (by decide)), hread'⟩
      · obtain ⟨tokens', hi, hread', -⟩ := ih hvr hrest hc
        have hends : EndsPlain dialect (';' :: (Token.textOf tokens' ++ next')) :=
          endsPlain_punctuation _ rfl (by decide)
        obtain ⟨others', hst'⟩ :=
          hdecl.stated (stated_of_ofStatement? hfront hr hn fun _ => hd) hends
        have hs := hdecl.semicolon.trans (Node.semicolon_of_ofStatement? hn)
        have hn' := hst'.node
        rw [hs] at hn'
        refine ⟨_, .statement hf h₁ hst'.unbroken (hst'.depth hs) hk hn' hi, ?_, hhead _ _⟩
        rw [← List.cons_append, ← List.append_assoc, readBefore_statement hst hk]
        exact ⟨hst'.read, hread'⟩
  | @comment fs rest token inline _ _ hf hk _ ih =>
      intro nodes' next next' hv hread hc
      have hhead := hread.head?_eq
      rw [List.append_cons] at hread
      obtain ⟨hfront, hrest⟩ := readBefore_append.1 hread
      obtain ⟨rest', rfl, hvr⟩ := hv.comment_inv
      obtain ⟨tokens', hi, hread', hsame⟩ := ih hvr hrest hc
      refine ⟨_, .comment hf hk hi, ?_, hhead _ _⟩
      rw [List.append_cons]
      -- the same character stands behind the comment, so a line comment ends as before
      have hs := (hfront.seals_comment hk).congr hsame
      exact readBefore_append.2 ⟨hfront.swap_of_seals hs, hread'⟩
  | @block fs prelude inner rest brace close _ _ _ _ hf h₁ hr hb _ hk _ ihi ih =>
      intro nodes' next next' hv hread hc
      rw [← List.append_assoc] at hread
      have hhead := hread.head?_eq
      have hct := (text_of_kind (hread.formed close (by simp))).2.2 hk
      obtain ⟨hfront, hinner, hrest⟩ := (readBefore_block hct hk).1 hread
      obtain ⟨body', rest', rfl, hvb, hvr⟩ := hv.block_inv
      obtain ⟨tokens', hi, hread', -⟩ := ih hvr hrest hc
      -- behind the body stands the same brace as before, whatever has changed further on
      obtain ⟨inner', hib, hinner', -⟩ := ihi hvb hinner (.inr ⟨_, _, rfl, rfl⟩)
      refine ⟨_, .block hf h₁ hr hb hib hk hi, ?_, ?_⟩
      · rw [← List.append_assoc, readBefore_block hct hk]
        exact ⟨hfront.swap_of_seals (by simp only [Lexeme.Seals, hb]), hinner', hread'⟩
      · rw [← List.append_assoc, ← List.append_assoc]
        exact hhead _ _

/-- **A retold sheet is read back from its text.** -/
theorem Sheet.readsBack_of_retold {dialect : Dialect} {source : Text} {sheet retold : Sheet}
    (h : Sheet.parse dialect source = .ok sheet) (hb : retold.bom = sheet.bom)
    (ha : retold.after = sheet.after)
    (hv : Retold (Rereads dialect) sheet.nodes retold.nodes) : retold.ReadsBack dialect := by
  obtain ⟨text, ls, hm, hr, hi⟩ := Sheet.parse_eq_ok_iff.1 h
  obtain ⟨tokens, hi', hr', hhead⟩ :=
    hi.retell hv (readBefore_locate .start hr) (.inl ⟨rfl, rfl⟩)
  rw [← ha] at hi'
  refine Sheet.readsBack_of_items (fun hbom => ?_) hi' hr'
  -- the text begins with the same character as before
  have hmark := (Sheet.splitMark_eq_iff.1 hm).2 (hb ▸ hbom)
  rw [textOf_locate, List.append_nil, List.append_nil] at hhead
  rw [hi'.print hr'.formed, hhead]
  rwa [hr.text_eq, List.append_nil] at hmark

/-! ### The statement of a declaration -/

/-- **Every declaration that was read has its statement**, with the text behind it in place. -/
theorem Items.stated {dialect : Dialect} {tokens : List Token} {nodes : List Node} {after : Text}
    {decl : Declaration} (h : Items tokens nodes after) :
    ∀ {next : Text}, ReadBefore dialect tokens next → .declaration decl ∈ Node.partsAll nodes →
      ∃ fs first others t, Stated dialect fs first others t decl := by
  induction h with
  | last => exact fun _ => nofun
  | @loose fs others first node hf _ hr hn =>
      intro next hread hm
      rw [Node.partsAll, Node.partsAll, List.append_nil,
        Node.parts_of_ne_block (Node.ofStatement?_ne_block hn), List.mem_singleton] at hm
      subst hm
      exact ⟨fs, first, others, next, stated_of_ofStatement? hread hr hn nofun⟩
  | @statement fs others rest first semicolon node _ _ hf _ hr hd hk hn _ ih =>
      intro next hread hm
      have hst := (text_of_kind (hread.formed semicolon (by simp))).1 hk
      rw [← List.cons_append, ← List.append_assoc] at hread
      obtain ⟨hfront, hrest⟩ := (readBefore_statement hst hk).1 hread
      rw [Node.partsAll, Node.parts_of_ne_block (Node.ofStatement?_ne_block hn), List.mem_append,
        List.mem_singleton] at hm
      rcases hm with rfl | hm
      · exact ⟨fs, first, others, _, stated_of_ofStatement? hfront hr hn fun _ => hd⟩
      · exact ih hrest hm
  | @comment fs rest token inline _ _ _ _ _ ih =>
      intro next hread hm
      rw [List.append_cons] at hread
      rw [Node.partsAll, List.mem_append] at hm
      rcases hm with hm | hm
      · cases List.mem_singleton.1 hm
      · exact ih (readBefore_append.1 hread).2 hm
  | @block fs prelude inner rest brace close _ _ _ _ _ _ _ _ _ hk _ ihi ih =>
      intro next hread hm
      have hct := (text_of_kind (hread.formed close (by simp))).2.2 hk
      rw [← List.append_assoc] at hread
      obtain ⟨-, hinner, hrest⟩ := (readBefore_block hct hk).1 hread
      rw [Node.partsAll, Node.parts, List.mem_append, List.mem_cons] at hm
      rcases hm with (hm | hm) | hm
      · cases hm
      · exact ihi hinner hm
      · exact ih hrest hm

end Restyle
