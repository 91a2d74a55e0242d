import Restyle.Proofs.Sheet.RoundTrip
import Restyle.Proofs.Sheet.Unplaced
import Restyle.Proofs.Token.Lookahead

/-!
# Taking nodes out of a sheet

A node goes with the filler in front of it, so its neighbours come to stand side by side and are
read again with another text behind them.  Statements, blocks and block comments end by themselves
and do not notice.  A line comment does: without the end of its line it takes along whatever comes
next.

* `Thins nodes nodes'`: some nodes are taken out, at any depth, with all they hold.
* `Sheet.Legible`: every line comment is still followed by the end of its line, and the sheet has
  not come to begin with a byte-order mark.
* `Items.thin`: thinned items are read again as what is left of them, if their line comments end.
* `Sheet.readsBack_iff_of_thins`: **a thinned sheet is read back from its text** just when it is
  legible.
-/

namespace Restyle

/-! ### Thinning -/

/-- The second list is the first one with some nodes taken out, at any depth. -/
inductive Thins : List Node → List Node → Prop where
  | nil : Thins [] []
  | drop (node : Node) {rest rest' : List Node} (t : Thins rest rest') :
      Thins (node :: rest) rest'
  | keep (node : Node) {rest rest' : List Node} (t : Thins rest rest') :
      Thins (node :: rest) (node :: rest')
  | inside (head : Head) (after : Text) {body body' rest rest' : List Node} (b : Thins body body')
      (t : Thins rest rest') :
      Thins (.block head body after :: rest) (.block head body' after :: rest')

theorem Thins.refl (nodes : List Node) : Thins nodes nodes := by
  induction nodes with
  | nil => exact .nil
  | cons node rest ih => exact .keep node ih

/-- A block is taken out, or thinned inside. -/
theorem Thins.block_inv {head : Head} {body rest nodes' : List Node} {after : Text}
    (h : Thins (.block head body after :: rest) nodes') :
    Thins rest nodes' ∨ ∃ body' rest', nodes' = .block head body' after :: rest' ∧
      Thins body body' ∧ Thins rest rest' := by
  cases h with
  | drop _ t => exact .inl t
  | keep _ t => exact .inr ⟨body, _, rfl, .refl body, t⟩
  | inside _ _ b t => exact .inr ⟨_, _, rfl, b, t⟩

/-- A node that is no block is taken out, or stays as it is. -/
theorem Thins.leaf_inv {node : Node} {rest nodes' : List Node} (h : Thins (node :: rest) nodes')
    (hn : ∀ head body after, node ≠ .block head body after) :
    Thins rest nodes' ∨ ∃ rest', nodes' = node :: rest' ∧ Thins rest rest' := by
  cases h with
  | drop _ t => exact .inl t
  | keep _ t => exact .inr ⟨_, rfl, t⟩
  | inside head after => exact absurd rfl (hn head _ after)

/-! ### Legible sheets -/

namespace Node

mutual

/-- Every line comment in the node is followed by the end of its line, when `next` follows the
node. -/
def commentsEnd (next : Text) : Node → Bool
  | .block _ body after            => commentsEndAll (after ++ '}' :: next) body
  | .atStatement _ | .declaration _ => true
  | .comment c                     => !c.inline || next.head?.all isLineEnd

/-- Every line comment in the nodes is followed by the end of its line, when `next` follows the
last one. -/
def commentsEndAll (next : Text) : List Node → Bool
  | []           => true
  | node :: rest => node.commentsEnd (printAll rest ++ next) && commentsEndAll next rest

end

mutual

theorem commentsEnd_unplaced (next : Text) :
    ∀ node : Node, node.unplaced.commentsEnd next = node.commentsEnd next
  | .block _ body after => by
      rw [unplaced, commentsEnd, commentsEnd, commentsEndAll_unplaced _ body]
  | .atStatement _ | .declaration _ | .comment _ => rfl

theorem commentsEndAll_unplaced (next : Text) :
    ∀ nodes : List Node, commentsEndAll next (unplacedAll nodes) = commentsEndAll next nodes
  | []           => rfl
  | node :: rest => by
      rw [unplacedAll, commentsEndAll, commentsEndAll, commentsEnd_unplaced _ node,
        commentsEndAll_unplaced next rest, printAll_unplaced]

end

end Node

/-- The text of the sheet reads as the sheet: nothing of it is taken for a mark of its encoding, and
no line comment takes anything along. -/
structure Sheet.Legible (sheet : Sheet) : Prop where
  mark : sheet.bom = false →
    (Node.printAll sheet.nodes ++ sheet.after).head? ≠ some byteOrderMark
  comments : Node.commentsEndAll sheet.after sheet.nodes = true

instance (sheet : Sheet) : Decidable sheet.Legible :=
  decidable_of_iff
    ((sheet.bom = false → (Node.printAll sheet.nodes ++ sheet.after).head? ≠ some byteOrderMark) ∧
      Node.commentsEndAll sheet.after sheet.nodes = true)
    ⟨fun h => ⟨h.1, h.2⟩, fun h => ⟨h.mark, h.comments⟩⟩

theorem Sheet.legible_unplaced {sheet : Sheet} : sheet.unplaced.Legible ↔ sheet.Legible := by
  have hn : Node.printAll sheet.unplaced.nodes = Node.printAll sheet.nodes :=
    Node.printAll_unplaced sheet.nodes
  have hc : Node.commentsEndAll sheet.unplaced.after sheet.unplaced.nodes =
      Node.commentsEndAll sheet.after sheet.nodes :=
    Node.commentsEndAll_unplaced sheet.after sheet.nodes
  constructor
  · rintro ⟨hm, he⟩
    rw [hn] at hm
    exact ⟨hm, hc ▸ he⟩
  · rintro ⟨hm, he⟩
    refine ⟨fun hb => ?_, hc ▸ he⟩
    rw [hn]
    exact hm hb

/-! ### Tokens in front of a text -/

/-- The tokens are read from their text when `next` follows it. -/
def ReadBefore (dialect : Dialect) (tokens : List Token) (next : Text) : Prop :=
  Reads dialect (Token.textOf tokens ++ next) (tokens.map Token.toLexeme) next

section
variable {dialect : Dialect} {tokens a b : List Token} {token : Token} {t t' : Text}

theorem readBefore_append :
    ReadBefore dialect (a ++ b) t ↔
      ReadBefore dialect a (Token.textOf b ++ t) ∧ ReadBefore dialect b t := by
  simp only [ReadBefore, Token.textOf_append, List.map_append, List.append_assoc]
  constructor
  · intro h
    have hs := h.split_text
    rwa [← Token.textOf_eq] at hs
  · rintro ⟨ha, hb⟩
    exact ha.append hb

theorem ReadBefore.formed (h : ReadBefore dialect tokens t) : Formed tokens := fun _ ht =>
  Reads.formed h (List.mem_map_of_mem ht)

theorem ReadBefore.swap (h : ReadBefore dialect tokens t) (ha : BeginAlike t t') :
    ReadBefore dialect tokens t' := by
  have hs := Reads.swap ha h
  rwa [← Token.textOf_eq] at hs

theorem ReadBefore.swap_of_seals (h : ReadBefore dialect (a ++ [token]) t)
    (hs : token.toLexeme.Seals t') : ReadBefore dialect (a ++ [token]) t' := by
  rw [ReadBefore, Token.textOf_eq, List.map_append] at h ⊢
  exact Reads.swap_of_seals h hs

/-- A comment ends where it was read to end. -/
theorem ReadBefore.seals_comment {inline : Bool} (h : ReadBefore dialect (a ++ [token]) t)
    (hk : token.kind = .comment inline) : token.toLexeme.Seals t := by
  obtain ⟨-, h⟩ := readBefore_append.1 h
  rw [ReadBefore, List.map_cons, List.map_nil] at h
  generalize Token.textOf [token] ++ t = text at h
  cases h with
  | more hr hd =>
      cases hd
      exact Lexeme.seals_of_read hr hk

/-- A punctuation mark ends by itself. -/
theorem readBefore_mark {c : Char} (ht : token.text = [c])
    (hk : punctuation? c = some token.kind) : ReadBefore dialect [token] t := by
  have hl : token.toLexeme = ⟨token.kind, [c]⟩ := by rw [← ht]
  rw [ReadBefore, List.map_cons, List.map_nil, Token.textOf_cons, Token.textOf_nil, ht, hl]
  exact .more (Lexeme.read_eq_ok_iff.2 (.punctuation (Opening.of_punctuation _ hk))) (.done t)

/-- Tokens are read up to a punctuation mark, and what follows the mark by itself. -/
theorem readBefore_upTo {c : Char} (ht : token.text = [c])
    (hk : punctuation? c = some token.kind) :
    ReadBefore dialect (a ++ token :: b) t ↔
      ReadBefore dialect a (c :: (Token.textOf b ++ t)) ∧ ReadBefore dialect b t := by
  have hb : ReadBefore dialect (token :: b) t ↔ ReadBefore dialect b t := by
    rw [← List.singleton_append, readBefore_append, and_iff_right (readBefore_mark ht hk)]
  rw [readBefore_append, hb, Token.textOf_cons, ht]
  rfl

/-- A statement is read up to its semicolon, and what follows by itself. -/
theorem readBefore_statement {run rest : List Token} {semicolon : Token}
    (ht : semicolon.text = [';']) (hk : semicolon.kind = .semicolon) :
    ReadBefore dialect (run ++ semicolon :: rest) t ↔
      ReadBefore dialect run (';' :: (Token.textOf rest ++ t)) ∧ ReadBefore dialect rest t :=
  readBefore_upTo ht (by rw [hk]; rfl)

/-- A block is read up to the brace that opens it, then what it holds up to the brace that closes
it, and what follows by itself. -/
theorem readBefore_block {front inner rest : List Token} {brace close : Token}
    (ht : close.text = ['}']) (hk : close.kind = .closeBrace) :
    ReadBefore dialect (front ++ brace :: (inner ++ close :: rest)) t ↔
      ReadBefore dialect (front ++ [brace])
          (Token.textOf inner ++ '}' :: (Token.textOf rest ++ t)) ∧
        ReadBefore dialect inner ('}' :: (Token.textOf rest ++ t)) ∧
        ReadBefore dialect rest t := by
  have htail : Token.textOf (inner ++ close :: rest) ++ t =
      Token.textOf inner ++ '}' :: (Token.textOf rest ++ t) := by simp [ht]
  rw [List.append_cons front, readBefore_append, htail, readBefore_upTo ht (by rw [hk]; rfl)]

end

/-! ### Line comments that end -/

/-- A comment and what it was read from. -/
theorem Node.commentsEnd_comment {before next : Text} {token : Token} {inline : Bool}
    (hk : token.kind = .comment inline) :
    (Node.comment (.ofToken before token inline)).commentsEnd next = true ↔
      token.toLexeme.Seals next := by
  cases inline with
  | false => simp [Node.commentsEnd, Comment.ofToken, Lexeme.Seals, hk]
  | true =>
      cases hn : next.head? <;>
        simp [Node.commentsEnd, Comment.ofToken, Lexeme.Seals, hk, hn]

theorem Node.commentsEnd_ofStatement? {before next : Text} {first : Token} {others : List Token}
    {semicolon : Bool} {node : Node}
    (h : Node.ofStatement? before first others semicolon = some node) :
    node.commentsEnd next = true := by
  rcases Node.ofStatement?_cases h with ⟨name, -, rfl⟩ | ⟨decl, -, rfl⟩
  · rfl
  · rfl

/-- **In what was read, every line comment ends**: behind it stands the end of its line, or the end
of the text. -/
theorem Items.commentsEnd {dialect : Dialect} {tokens : List Token} {nodes : List Node}
    {after : Text} (h : Items tokens nodes after) :
    ∀ {next : Text}, ReadBefore dialect tokens next →
      Node.commentsEndAll (after ++ next) nodes = true := by
  induction h with
  | last => intro next _; rfl
  | loose _ _ _ hn =>
      intro next _
      rw [Node.commentsEndAll, Node.commentsEnd_ofStatement? hn]
      rfl
  | @statement fs others rest first semicolon _ _ _ _ _ _ _ hk hn _ ih =>
      intro next hr
      have hst := (text_of_kind (hr.formed semicolon (by simp))).1 hk
      rw [← List.cons_append, ← List.append_assoc] at hr
      rw [Node.commentsEndAll, Node.commentsEnd_ofStatement? hn,
        ih ((readBefore_statement hst hk).1 hr).2]
      rfl
  | @comment fs rest token inline _ _ _ hk t ih =>
      intro next hr
      rw [List.append_cons] at hr
      obtain ⟨hc, hrest⟩ := readBefore_append.1 hr
      have hs := hc.seals_comment hk
      rw [← t.print hrest.formed, List.append_assoc] at hs
      rw [Node.commentsEndAll, (Node.commentsEnd_comment hk).2 hs, ih hrest]
      rfl
  | @block fs prelude inner rest brace close _ _ _ _ _ _ _ _ _ hk t ihi ih =>
      intro next hr
      have hct := (text_of_kind (hr.formed close (by simp))).2.2 hk
      rw [← List.append_assoc] at hr
      obtain ⟨-, hinner, hrest⟩ := (readBefore_block hct hk).1 hr
      have hbody := ihi hinner
      rw [← t.print hrest.formed] at hbody
      rw [Node.commentsEndAll, Node.commentsEnd, ih hrest, Bool.and_true]
      simpa using hbody

/-! ### Reading what is left -/

/-- **Thinned items are read again** as what is left of them, if their line comments still end.
The text behind them may be exchanged for one that begins alike. -/
theorem Items.thin {dialect : Dialect} {tokens : List Token} {nodes : List Node} {after : Text}
    (h : Items tokens nodes after) :
    ∀ {nodes' : List Node} {next next' : Text}, Thins nodes nodes' →
      ReadBefore dialect tokens next → BeginAlike next next' →
      Node.commentsEndAll (after ++ next') nodes' = true →
      ∃ tokens', Items tokens' nodes' after ∧ ReadBefore dialect tokens' next' := by
  induction h with
  | @last fs hf =>
      intro nodes' next next' ht hr ha _
      cases ht
      exact ⟨fs, .last hf, hr.swap ha⟩
  | @loose fs others first _ hf h₁ hr hn =>
      intro nodes' next next' ht hread ha _
      rcases ht.leaf_inv (Node.ofStatement?_ne_block hn) with hl | ⟨rest', rfl, hl⟩
      · cases hl
        -- a loose statement has no filler behind it, so nothing is left
        exact ⟨[], .last nofun, .done next'⟩
      · cases hl
        exact ⟨_, .loose hf h₁ hr hn, hread.swap ha⟩
  | @statement fs others rest first semicolon _ _ _ hf h₁ hr hd hk hn _ ih =>
      intro nodes' next next' ht hread ha hc
      have hst := (text_of_kind (hread.formed semicolon (by simp))).1 hk
      rw [← List.cons_append, ← List.append_assoc] at hread
      obtain ⟨hfront, hrest⟩ := (readBefore_statement hst hk).1 hread
      rcases ht.leaf_inv (Node.ofStatement?_ne_block hn) with hl | ⟨rest', rfl, hl⟩
      · exact ih hl hrest ha hc
      · rw [Node.commentsEndAll, Bool.and_eq_true] at hc
        obtain ⟨tokens', hi, hread'⟩ := ih hl hrest ha hc.2
        refine ⟨_, .statement hf h₁ hr hd hk hn hi, ?_⟩
        rw [← List.cons_append, ← List.append_assoc, readBefore_statement hst hk]
        exact ⟨hfront.swap (beginAlike_cons _ _ rfl (by decide) (by decide)), hread'⟩
  | @comment fs rest token inline _ _ hf hk _ ih =>
      intro nodes' next next' ht hread ha hc
      rw [List.append_cons] at hread
      obtain ⟨hfront, hrest⟩ := readBefore_append.1 hread
      rcases ht.leaf_inv nofun with hl | ⟨rest', rfl, hl⟩
      · exact ih hl hrest ha hc
      · rw [Node.commentsEndAll, Bool.and_eq_true] at hc
        obtain ⟨tokens', hi, hread'⟩ := ih hl hrest ha hc.2
        refine ⟨_, .comment hf hk hi, ?_⟩
        rw [List.append_cons]
        -- this is the one place where what follows matters
        have hs := (Node.commentsEnd_comment hk).1 hc.1
        rw [← List.append_assoc, hi.print hread'.formed] at hs
        exact readBefore_append.2 ⟨hfront.swap_of_seals hs, hread'⟩
  | @block fs prelude inner rest brace close _ _ _ _ hf h₁ hr hb _ hk _ ihi ih =>
      intro nodes' next next' ht hread ha hc
      have hct := (text_of_kind (hread.formed close (by simp))).2.2 hk
      rw [← List.append_assoc] at hread
      obtain ⟨hfront, hinner, hrest⟩ := (readBefore_block hct hk).1 hread
      rcases ht.block_inv with hl | ⟨body', rest', rfl, hbl, hl⟩
      · exact ih hl hrest ha hc
      · rw [Node.commentsEndAll, Node.commentsEnd, Bool.and_eq_true] at hc
        obtain ⟨tokens', hi, hread'⟩ := ih hl hrest ha hc.2
        have hbody := hc.1
        rw [← List.append_assoc (Node.printAll rest'), hi.print hread'.formed] at hbody
        -- behind the body stands the same brace as before, whatever has changed further on
        obtain ⟨inner', hib, hinner'⟩ := ihi hbl hinner
          (beginAlike_cons _ (Token.textOf tokens' ++ next') rfl (by decide) (by decide))
          (by simpa using hbody)
        refine ⟨_, .block hf h₁ hr hb hib hk hi, ?_⟩
        rw [← List.append_assoc, readBefore_block hct hk]
        exact ⟨hfront.swap_of_seals (by simp only [Lexeme.Seals, hb]), hinner', hread'⟩

/-! ### Thinned sheets -/

theorem readBefore_locate {dialect : Dialect} {text : Text} {ls : List Lexeme} (p : Position)
    (h : Reads dialect text ls []) : ReadBefore dialect (locate p ls) [] := by
  have ht := h.text_eq
  rw [ReadBefore, Token.textOf_eq, toLexeme_locate, ← ht]
  exact h

/-- A sheet that was read is legible. -/
theorem Sheet.legible_of_parse {dialect : Dialect} {source : Text} {sheet : Sheet}
    (h : Sheet.parse dialect source = .ok sheet) : sheet.Legible := by
  obtain ⟨text, ls, -, hr, hi⟩ := Sheet.parse_eq_ok_iff.1 h
  have hc := hi.commentsEnd (readBefore_locate .start hr)
  rw [List.append_nil] at hc
  exact ⟨(Sheet.splitMark_eq_iff.1 (Sheet.splitMark_of_parse h)).2, hc⟩

/-- The text of the sheet is read as the sheet again, up to places. -/
def Sheet.ReadsBack (dialect : Dialect) (sheet : Sheet) : Prop :=
  ∃ again, Sheet.parse dialect sheet.print = .ok again ∧ again.unplaced = sheet.unplaced

/-- A sheet is read back when its nodes are the items of tokens that are read to the end, and its
text does not begin with a mark by chance. -/
theorem Sheet.readsBack_of_items {dialect : Dialect} {sheet : Sheet} {tokens : List Token}
    (hm : sheet.bom = false → (Node.printAll sheet.nodes ++ sheet.after).head? ≠ some byteOrderMark)
    (hi : Items tokens sheet.nodes sheet.after) (hr : ReadBefore dialect tokens []) :
    sheet.ReadsBack dialect := by
  have hprint := hi.print hr.formed
  -- the tokens are read from the start of the text, so their places change
  obtain ⟨nodes, hn, hu⟩ := hi.relocate
    (alike_of_lexemes (toLexeme_locate .start (tokens.map Token.toLexeme)))
  refine ⟨⟨sheet.bom, nodes, sheet.after⟩, Sheet.parse_eq_ok_iff.2 ⟨_, _, ?_, hr, hn⟩, ?_⟩
  · rw [Sheet.splitMark_eq_iff, List.append_nil, ← hprint]
    exact ⟨by rw [Sheet.print, List.append_assoc], hm⟩
  · rw [Sheet.unplaced, Sheet.unplaced, hu]

/-- **A thinned sheet is read back from its text** just when it is legible. -/
theorem Sheet.readsBack_iff_of_thins {dialect : Dialect} {source : Text} {sheet thinned : Sheet}
    (h : Sheet.parse dialect source = .ok sheet) (ha : thinned.after = sheet.after)
    (ht : Thins sheet.nodes thinned.nodes) : thinned.ReadsBack dialect ↔ thinned.Legible := by
  constructor
  · rintro ⟨again, hp, hu⟩
    rw [← Sheet.legible_unplaced, ← hu, Sheet.legible_unplaced]
    exact Sheet.legible_of_parse hp
  · rintro ⟨hm, hc⟩
    obtain ⟨text, ls, -, hr, hi⟩ := Sheet.parse_eq_ok_iff.1 h
    rw [ha, ← List.append_nil sheet.after] at hc
    obtain ⟨tokens, hi', hr'⟩ := hi.thin ht (readBefore_locate .start hr) (.inl ⟨rfl, rfl⟩) hc
    rw [← ha] at hi'
    exact Sheet.readsBack_of_items hm hi' hr'

end Restyle
