import Restyle.Proofs.Sheet.Items
import Restyle.Proofs.Text.Trailing

/-!
# Sheets up to places

A node remembers where it was read.  Two sheets that differ only there are the same sheet for every
purpose but a report: `unplaced` forgets the places.

* `Node.printAll_unplaced`: places are not printed.
* `Items.relocate`: tokens with the same lexemes at other places are items too, of the same nodes up
  to places.
-/

namespace Restyle

/-! ### Forgetting places -/

/-- The declaration without its place. -/
def Declaration.unplaced (decl : Declaration) : Declaration := { decl with source := none }

/-- The comment without its place. -/
def Comment.unplaced (c : Comment) : Comment := { c with source := none }

/-- The at-rule without its place. -/
def AtHead.unplaced (head : AtHead) : AtHead := { head with source := none }

/-- The head of a block without its place. -/
def Head.unplaced : Head → Head
  | .rule head   => .rule { head with source := none }
  | .atRule head => .atRule head.unplaced

namespace Node

mutual

/-- The node without the places in it. -/
def unplaced : Node → Node
  | .block head body after => .block head.unplaced (unplacedAll body) after
  | .atStatement head      => .atStatement head.unplaced
  | .declaration decl      => .declaration decl.unplaced
  | .comment c             => .comment c.unplaced

/-- The nodes without the places in them. -/
def unplacedAll : List Node → List Node
  | []           => []
  | node :: rest => node.unplaced :: unplacedAll rest

end

end Node

/-- The sheet without the places in it. -/
def Sheet.unplaced (sheet : Sheet) : Sheet :=
  { sheet with nodes := Node.unplacedAll sheet.nodes }

/-- Spans are not printed. -/
theorem Head.print_unplaced (head : Head) : head.unplaced.print = head.print := by
  cases head <;> rfl

namespace Node

mutual

theorem print_unplaced : ∀ node : Node, node.unplaced.print = node.print
  | .block head body after => by
      rw [unplaced, print, print, Head.print_unplaced, printAll_unplaced body]
  | .atStatement head | .declaration decl | .comment c => rfl

theorem printAll_unplaced : ∀ nodes : List Node, printAll (unplacedAll nodes) = printAll nodes
  | []           => rfl
  | node :: rest => by
      rw [unplacedAll, printAll, printAll, print_unplaced node, printAll_unplaced rest]

end

end Node

/-! ### Tokens without places -/

/-- The token at the start of the text. -/
def Token.unplaced (token : Token) : Token := ⟨token.toLexeme, .start⟩

/-- The tokens have the same lexemes. -/
def Alike (a b : List Token) : Prop := a.map Token.unplaced = b.map Token.unplaced

/-- Tokens with the same kinds and texts are alike, wherever they stand. -/
theorem alike_of_lexemes {a b : List Token} (h : a.map Token.toLexeme = b.map Token.toLexeme) :
    Alike a b := by
  have hu : ∀ c : List Token,
      c.map Token.unplaced = (c.map Token.toLexeme).map (⟨·, Position.start⟩) := by
    intro c
    rw [List.map_map]
    rfl
  rw [Alike, hu, hu, h]

/-- The text of tokens is the same without their places. -/
theorem Token.textOf_unplaced (tokens : List Token) :
    Token.textOf (tokens.map Token.unplaced) = Token.textOf tokens := by
  rw [Token.textOf, List.flatMap_map]
  rfl

/-- Parentheses are counted the same without places. -/
theorem depthThrough_unplaced (depth : Nat) (run : List Token) :
    depthThrough depth (run.map Token.unplaced) = depthThrough depth run := by
  rw [depthThrough, List.foldl_map]
  rfl

/-- A run of tokens ends at the same token without places. -/
theorem unbroken_unplaced {depth : Nat} {run : List Token} :
    Unbroken depth (run.map Token.unplaced) ↔ Unbroken depth run := by
  induction run generalizing depth with
  | nil => exact Iff.rfl
  | cons token rest ih => exact and_congr Iff.rfl ih

/-! ### Nodes from tokens without places -/

theorem Comment.unplaced_ofToken (before : Text) (token : Token) (inline : Bool) :
    (Comment.ofToken before token.unplaced inline).unplaced =
      (Comment.ofToken before token inline).unplaced := rfl

/-- The head of an at-rule takes only its span from the places of its tokens. -/
theorem AtHead.unplaced_ofRun (before name : Text) (word : Token) (run : List Token)
    (semicolon : Bool) :
    (AtHead.ofRun before name word.unplaced (run.map Token.unplaced) semicolon).unplaced =
      (AtHead.ofRun before name word run semicolon).unplaced := by
  simp only [AtHead.unplaced, AtHead.ofRun, List.takeWhile_map, List.dropWhile_map,
    dropTrailing_map, takeTrailing_map, Token.textOf_unplaced]
  rfl

theorem Head.unplaced_ofPrelude (before : Text) (prelude : List Token) (brace : Token) :
    (Head.ofPrelude before (prelude.map Token.unplaced) brace.unplaced).unplaced =
      (Head.ofPrelude before prelude brace).unplaced := by
  have hrule : ∀ prelude : List Token,
      (Head.rule (.ofPrelude before (prelude.map Token.unplaced) brace.unplaced)).unplaced =
        (Head.rule (.ofPrelude before prelude brace)).unplaced := by
    intro prelude
    simp only [Head.unplaced, RuleHead.ofPrelude, dropTrailing_map, takeTrailing_map,
      Token.textOf_unplaced]
    rfl
  cases prelude with
  | nil => exact hrule []
  | cons first run =>
      have hk : first.unplaced.kind = first.kind := rfl
      cases hf : first.kind with
      | atWord name =>
          simp only [Head.ofPrelude, List.map_cons, hk, hf, Head.unplaced, AtHead.unplaced_ofRun]
      | space | comment | word | string | colon | semicolon | openBrace | closeBrace | openParen
      | closeParen | eof =>
          simpa only [Head.ofPrelude, List.map_cons, hk, hf] using hrule (first :: run)

/-- A run is a declaration or not whatever its places, and the parts are the same. -/
theorem Declaration.unplaced_ofRun? (before : Text) (first : Token) (others : List Token)
    (semicolon : Bool) :
    (Declaration.ofRun? before first.unplaced (others.map Token.unplaced) semicolon).map
        Declaration.unplaced =
      (Declaration.ofRun? before first others semicolon).map Declaration.unplaced := by
  have hcolon : (fun t : Token => t.kind != .colon) ∘ Token.unplaced = (·.kind != .colon) := rfl
  have hspace : Token.isSpace ∘ Token.unplaced = Token.isSpace := rfl
  have hcomment : (fun t : Token => !t.isComment) ∘ Token.unplaced = (!·.isComment) := rfl
  rw [Declaration.ofRun?, Declaration.ofRun?]
  dsimp only
  rw [← List.map_cons, List.dropWhile_map, List.takeWhile_map, hcolon]
  cases (first :: others).dropWhile (·.kind != .colon) with
  | nil => rfl
  | cons colon right =>
      simp only [List.map_cons, dropTrailing_map, takeTrailing_map, List.takeWhile_map,
        List.dropWhile_map, hspace, List.isEmpty_map, List.any_map, List.filter_map, hcomment,
        Token.textOf_append, Token.textOf_cons, Token.textOf_unplaced]
      split <;> rfl

/-- **A statement is the same node** wherever it stands, up to spans. -/
theorem Node.unplaced_ofStatement? (before : Text) (first : Token) (others : List Token)
    (semicolon : Bool) :
    (Node.ofStatement? before first.unplaced (others.map Token.unplaced) semicolon).map
        Node.unplaced =
      (Node.ofStatement? before first others semicolon).map Node.unplaced := by
  have hk : first.unplaced.kind = first.kind := rfl
  have hdecl := congrArg (Option.map Node.declaration)
    (Declaration.unplaced_ofRun? before first others semicolon)
  rw [Option.map_map, Option.map_map] at hdecl
  cases hf : first.kind with
  | atWord name =>
      simp only [Node.ofStatement?, hk, hf, Option.map_some, Node.unplaced, AtHead.unplaced_ofRun]
  | space | comment | word | string | colon | semicolon | openBrace | closeBrace | openParen
  | closeParen | eof =>
      simp only [Node.ofStatement?, hk, hf, Option.map_map]
      exact hdecl

/-! ### Items at other places -/

/-- Tokens that are alike have the same text. -/
theorem Alike.textOf {a b : List Token} (h : Alike a b) : Token.textOf a = Token.textOf b := by
  rw [← Token.textOf_unplaced a, h, Token.textOf_unplaced]

/-- Tokens that are alike end a statement at the same place. -/
theorem Alike.unbroken {a b : List Token} {depth : Nat} (h : Alike a b) (hb : Unbroken depth b) :
    Unbroken depth a := by
  rw [← unbroken_unplaced, h]
  exact unbroken_unplaced.2 hb

theorem Alike.depthThrough {a b : List Token} (h : Alike a b) (depth : Nat) :
    Restyle.depthThrough depth a = Restyle.depthThrough depth b := by
  rw [← depthThrough_unplaced depth a, h, depthThrough_unplaced]

/-- Fillers stay fillers. -/
theorem Alike.fillers {a b : List Token} (h : Alike a b)
    (hb : ∀ token ∈ b, token.isFiller = true) : ∀ token ∈ a, token.isFiller = true := by
  intro token ht
  have hm : token.unplaced ∈ b.map Token.unplaced := by
    rw [← h]
    exact List.mem_map_of_mem ht
  obtain ⟨token', ht', hu⟩ := List.mem_map.1 hm
  have hk : token.unplaced.isFiller = true := by
    rw [← hu]
    exact hb token' ht'
  exact hk

/-- What is like a list with a first token has a first token like that one. -/
theorem Alike.cons_inv {tokens rest : List Token} {token : Token}
    (h : Alike tokens (token :: rest)) :
    ∃ token' rest', tokens = token' :: rest' ∧ token'.unplaced = token.unplaced ∧
      Alike rest' rest := by
  obtain ⟨token', rest', rfl, hu, hr⟩ := List.map_eq_cons_iff.1 h
  exact ⟨token', rest', rfl, hu, hr⟩

theorem Alike.cons {token token' : Token} {rest rest' : List Token}
    (hu : token'.unplaced = token.unplaced) (hr : Alike rest' rest) :
    Alike (token' :: rest') (token :: rest) := by
  rw [Alike, List.map_cons, List.map_cons, hu, hr]

/-- What is like two lists falls into two parts that are like them. -/
theorem Alike.append_inv {tokens a b : List Token} (h : Alike tokens (a ++ b)) :
    ∃ a' b', tokens = a' ++ b' ∧ Alike a' a ∧ Alike b' b := by
  rw [Alike, List.map_append] at h
  obtain ⟨a', b', rfl, ha, hb⟩ := List.map_eq_append_iff.1 h
  exact ⟨a', b', rfl, ha, hb⟩

/-- The node of a statement at another place. -/
theorem Alike.ofStatement? {before : Text} {first first' : Token} {others others' : List Token}
    {semicolon : Bool} {node : Node} (h₁ : first'.unplaced = first.unplaced)
    (h : Alike others' others)
    (hn : Node.ofStatement? before first others semicolon = some node) :
    ∃ node', Node.ofStatement? before first' others' semicolon = some node' ∧
      node'.unplaced = node.unplaced := by
  have hu := Node.unplaced_ofStatement? before first' others' semicolon
  rw [h₁, h, Node.unplaced_ofStatement?, hn] at hu
  exact Option.map_eq_some_iff.1 hu.symm

/-- **Items at other places.**  Tokens with the same lexemes are items of the same nodes, up to
places. -/
theorem Items.relocate {tokens : List Token} {nodes : List Node} {after : Text}
    (h : Items tokens nodes after) :
    ∀ {tokens' : List Token}, Alike tokens' tokens →
      ∃ nodes', Items tokens' nodes' after ∧ Node.unplacedAll nodes' = Node.unplacedAll nodes := by
  induction h with
  | last hf =>
      intro tokens' ha
      rw [← ha.textOf]
      exact ⟨[], .last (ha.fillers hf), rfl⟩
  | loose hf h₁ hr hn =>
      intro tokens' ha
      obtain ⟨fs', run', rfl, hfs, hrun⟩ := ha.append_inv
      obtain ⟨first', others', rfl, hu, ho⟩ := hrun.cons_inv
      obtain ⟨node', hn', he⟩ := Alike.ofStatement? hu ho hn
      rw [← hfs.textOf] at hn'
      refine ⟨[node'], .loose (hfs.fillers hf) ?_ (hrun.unbroken hr) hn', ?_⟩
      · exact (congrArg Token.startsRun hu).trans h₁
      · simp only [Node.unplacedAll, he]
  | statement hf h₁ hr hd hk hn _ ih =>
      intro tokens' ha
      obtain ⟨fs', left', rfl, hfs, hleft⟩ := ha.append_inv
      obtain ⟨first', left', rfl, hu, hleft⟩ := hleft.cons_inv
      obtain ⟨others', left', rfl, ho, hleft⟩ := hleft.append_inv
      obtain ⟨semicolon', rest', rfl, hs, hrest⟩ := hleft.cons_inv
      obtain ⟨node', hn', he⟩ := Alike.ofStatement? hu ho hn
      obtain ⟨nodes', hi, hes⟩ := ih hrest
      -- whether a run ends and what a statement is depend on lexemes only
      have hrun := Alike.cons hu ho
      rw [← hfs.textOf] at hn'
      refine ⟨node' :: nodes', .statement (hfs.fillers hf) ?_ (hrun.unbroken hr) ?_ ?_ hn' hi, ?_⟩
      · exact (congrArg Token.startsRun hu).trans h₁
      · rw [hrun.depthThrough]; exact hd
      · exact (congrArg (·.kind) hs).trans hk
      · simp only [Node.unplacedAll, he, hes]
  | comment hf hk _ ih =>
      intro tokens' ha
      obtain ⟨fs', left', rfl, hfs, hleft⟩ := ha.append_inv
      obtain ⟨token', rest', rfl, hu, hrest⟩ := hleft.cons_inv
      obtain ⟨nodes', hi, hes⟩ := ih hrest
      have hk' : token'.kind = .comment _ := (congrArg (·.kind) hu).trans hk
      refine ⟨_, .comment (hfs.fillers hf) hk' hi, ?_⟩
      simp only [Node.unplacedAll, Node.unplaced, hes, hfs.textOf]
      rw [← Comment.unplaced_ofToken, hu, Comment.unplaced_ofToken]
  | block hf h₁ hr hb _ hc _ ihi ih =>
      intro tokens' ha
      obtain ⟨fs', left', rfl, hfs, hleft⟩ := ha.append_inv
      obtain ⟨prelude', left', rfl, hp, hleft⟩ := hleft.append_inv
      obtain ⟨brace', left', rfl, hub, hleft⟩ := hleft.cons_inv
      obtain ⟨inner', left', rfl, hin, hleft⟩ := hleft.append_inv
      obtain ⟨close', rest', rfl, huc, hrest⟩ := hleft.cons_inv
      obtain ⟨body', hib, heb⟩ := ihi hin
      obtain ⟨nodes', hi, hes⟩ := ih hrest
      refine ⟨_, .block (hfs.fillers hf) ?_ (hp.unbroken hr) ?_ hib ?_ hi, ?_⟩
      · intro token' ht
        obtain ⟨run', rfl⟩ := List.head?_eq_some_iff.1 ht
        obtain ⟨token, run, rfl, hu, -⟩ := Alike.cons_inv hp.symm
        exact (congrArg Token.startsRun hu).symm.trans (h₁ token rfl)
      · exact (congrArg (·.kind) hub).trans hb
      · exact (congrArg (·.kind) huc).trans hc
      · simp only [Node.unplacedAll, Node.unplaced, heb, hes, hfs.textOf]
        rw [← Head.unplaced_ofPrelude, hp, hub, Head.unplaced_ofPrelude]

end Restyle
