import Restyle.Proofs.Sheet.Parts
import Restyle.Proofs.Sheet.RoundTrip
import Restyle.Proofs.Token.Places

/-!
# Where nodes stand

A node is printed as the filler in front of it and its own text.  In a sheet that was read, the
place a node remembers is where its own text begins.

* `Node.PlacedAll p next nodes`: every node remembers its place, when the nodes are printed from `p`
  on and `next` follows.
* `Node.ReadFrom fs first run`: the tokens of a node, as far as its place and its text depend on them.
* `Items.placed`, `Sheet.placedAll_of_parse`: **what was read remembers its place**.
* `Node.PlacedAll.part`: a node at any depth is a part of the text, at its place.
* `Node.PlacedAll.pairwise_offset`: nodes stand in the text as they come in the tree.
-/

namespace Restyle

/-! ### The two parts of a node's text -/

/-- The filler in front of a block. -/
def Head.before : Head → Text
  | .rule head   => head.before
  | .atRule head => head.before

/-- The head of a block without the filler in front. -/
def Head.own : Head → Text
  | .rule head   => head.selector ++ head.between
  | .atRule head => '@' :: head.name ++ head.afterName ++ head.params ++ head.between

theorem Head.print_eq (head : Head) : head.print = head.before ++ head.own := by
  cases head <;> simp [Head.print, Head.before, Head.own, RuleHead.print, AtHead.print]

namespace Node

/-- The filler in front of the node. -/
def before : Node → Text
  | .block head _ _   => head.before
  | .atStatement head => head.before
  | .declaration decl => decl.before
  | .comment c        => c.before

/-- The node without the filler in front of it, up to its brace or semicolon. -/
def own : Node → Text
  | .block head body after => head.own ++ '{' :: printAll body ++ after ++ ['}']
  | .atStatement head      => (Head.atRule head).own ++ printSemicolon head.semicolon
  | .declaration decl      =>
    decl.prop ++ decl.between ++ decl.printValue ++ printSemicolon decl.semicolon
  | .comment c             =>
    if c.inline then '/' :: '/' :: c.text else '/' :: '*' :: c.text ++ ['*', '/']

/-- A node is printed as the filler in front of it and its own text. -/
theorem print_eq (node : Node) : node.print = node.before ++ node.own := by
  cases node with
  | block head body after => simp [print, before, own, Head.print_eq]
  | atStatement head =>
      have hh := Head.print_eq (.atRule head)
      simp only [Head.print, Head.before] at hh
      simp [print, before, own, hh]
  | declaration decl => simp [print, before, own, Declaration.print]
  | comment c => simp [print, before, own, Comment.print]

/-- A node's own text is what is printed behind its filler. -/
theorem own_eq_of_print {node : Node} {text : Text} (h : node.print = node.before ++ text) :
    node.own = text := by
  rw [print_eq] at h
  exact List.append_cancel_left h

/-- A rule or an at-rule has a text of its own. -/
theorem own_ne_nil_of_isBlock {node : Node} (h : node.isBlock = true) : node.own ≠ [] := by
  cases node with
  | block head body after => simp [own]
  | atStatement head => simp [own, Head.own]
  | declaration | comment => cases h

/-! ### Nodes that remember their places -/

/-- The node remembers the place where its own text begins, when it is printed at `p` and `next`
follows. -/
def Stands (p : Position) (next : Text) (node : Node) : Prop :=
  node.source.map Span.start = some (p.past node.before (node.own ++ next).head?)

mutual

/-- The node and all nodes below it remember their places. -/
def Placed (p : Position) (next : Text) : Node → Prop
  | .block head body after =>
    (Node.block head body after).Stands p next ∧
      PlacedAll (p.past (head.print ++ ['{']) (printAll body ++ (after ++ '}' :: next)).head?)
        (after ++ '}' :: next) body
  | .atStatement head      => (Node.atStatement head).Stands p next
  | .declaration decl      => (Node.declaration decl).Stands p next
  | .comment c             => (Node.comment c).Stands p next

/-- The nodes, printed one after the other, and all nodes below them remember their places. -/
def PlacedAll (p : Position) (next : Text) : List Node → Prop
  | []           => True
  | node :: rest =>
    node.Placed p (printAll rest ++ next) ∧
      PlacedAll (p.past node.print (printAll rest ++ next).head?) next rest

end

theorem Placed.stands {p : Position} {next : Text} : ∀ {node : Node}, node.Placed p next →
    node.Stands p next
  | .block _ _ _, h => h.1
  | .atStatement _, h | .declaration _, h | .comment _, h => h

/-- A node that holds nothing is placed when it remembers its place. -/
theorem placed_of_stands {p : Position} {next : Text} {node : Node}
    (hn : ∀ head body after, node ≠ .block head body after) (h : node.Stands p next) :
    node.Placed p next := by
  cases node with
  | block head body after => exact absurd rfl (hn head body after)
  | atStatement | declaration | comment => exact h

/-- The offset of a node is that of its own text. -/
theorem Stands.offset {p : Position} {next : Text} {node : Node} (h : node.Stands p next) :
    offsetOf node.source = p.offset + node.before.size := by
  obtain ⟨span, hs, hp⟩ := Option.map_eq_some_iff.1 h
  rw [hs, offsetOf, Option.elim_some, hp, Position.offset_past]

end Node

/-! ### What was read remembers its place -/

/-- A statement remembers its first token. -/
theorem Node.ofStatement?_place {before : Text} {first : Token} {others : List Token}
    {semicolon : Bool} {node : Node}
    (h : Node.ofStatement? before first others semicolon = some node) :
    node.source = some first.span ∧ node.before = before := by
  rcases Node.ofStatement?_cases h with ⟨name, -, rfl⟩ | ⟨decl, hd, rfl⟩
  · exact ⟨rfl, rfl⟩
  · rw [Declaration.ofRun?] at hd
    dsimp only at hd
    split at hd
    · cases hd
    · split at hd
      · cases hd
      · cases hd
        exact ⟨rfl, rfl⟩

/-- A block remembers the first token of its prelude, or its brace. -/
theorem Head.ofPrelude_place (before : Text) (prelude : List Token) (brace : Token) :
    (Head.ofPrelude before prelude brace).source = some (prelude.headD brace).span ∧
      (Head.ofPrelude before prelude brace).before = before := by
  unfold Head.ofPrelude
  split
  · exact ⟨rfl, rfl⟩
  · split <;> exact ⟨rfl, rfl⟩

/-- The node is read from the tokens: it remembers the first of its own, has the filler in front of
it, and prints as all of them. -/
structure Node.ReadFrom (fs : List Token) (first : Token) (run : List Token) (node : Node) : Prop where
  source : node.source = some first.span
  before : node.before = Token.textOf fs
  print : node.print = Token.textOf (fs ++ first :: run)

section
variable {fs others run rest : List Token} {first semicolon token : Token} {node : Node}

/-- A statement without a semicolon is read from its tokens. -/
theorem Node.readFrom_loose (hf : Formed (fs ++ first :: others))
    (hn : Node.ofStatement? (Token.textOf fs) first others false = some node) :
    node.ReadFrom fs first others := by
  obtain ⟨hs, hb⟩ := Node.ofStatement?_place hn
  exact ⟨hs, hb, Node.print_loose hf hn⟩

theorem Node.readFrom_statement (hf : Formed (fs ++ first :: (others ++ [semicolon])))
    (hk : semicolon.kind = .semicolon)
    (hn : Node.ofStatement? (Token.textOf fs) first others true = some node) :
    node.ReadFrom fs first (others ++ [semicolon]) := by
  obtain ⟨hs, hb⟩ := Node.ofStatement?_place hn
  exact ⟨hs, hb, Node.print_statement hf hk hn⟩

theorem Node.readFrom_comment {inline : Bool} (hf : Formed (fs ++ [token]))
    (hk : token.kind = .comment inline) :
    (Node.comment (.ofToken (Token.textOf fs) token inline)).ReadFrom fs token [] :=
  ⟨rfl, rfl, Node.print_comment hf hk⟩

namespace Node.ReadFrom

theorem own (h : node.ReadFrom fs first run) : node.own = Token.textOf (first :: run) := by
  refine own_eq_of_print ?_
  rw [h.print, h.before, Token.textOf_append]

/-- A node stands where the first of its own tokens does. -/
theorem stands {p : Position} {next : Text} (h : node.ReadFrom fs first run)
    (hs : Strung p (fs ++ first :: run ++ rest) next.head?) :
    node.Stands p (Token.textOf rest ++ next) := by
  rw [List.append_assoc] at hs
  obtain ⟨-, hstart, -⟩ := strung_append.1 hs
  rw [Stands, h.source, h.before, h.own, Option.map_some, Token.span, hstart, ← List.append_assoc,
    ← Token.textOf_append, List.head?_append, List.cons_append]

/-- The first node of a container stands at its first token, and the others follow. -/
theorem placedAll_cons {nodes : List Node} {p : Position} {after next : Text}
    (h : node.ReadFrom fs first run) (hrest : printAll nodes ++ after = Token.textOf rest)
    (hs : Strung p (fs ++ first :: run ++ rest) next.head?)
    (hn : node.Stands p (Token.textOf rest ++ next) → node.Placed p (Token.textOf rest ++ next))
    (ih : ∀ q, Strung q rest next.head? → PlacedAll q (after ++ next) nodes) :
    PlacedAll p (after ++ next) (node :: nodes) := by
  have hstring := (strung_append.1 hs).2
  rw [PlacedAll, ← List.append_assoc, hrest, h.print, List.head?_append]
  exact ⟨hn (h.stands hs), ih _ hstring⟩

end Node.ReadFrom

end

/-- **Items remember their places**, when their tokens are strung from `p` on. -/
theorem Items.placed {tokens : List Token} {nodes : List Node} {after : Text}
    (h : Items tokens nodes after) :
    ∀ {p : Position} {next : Text}, Formed tokens → Strung p tokens next.head? →
      Node.PlacedAll p (after ++ next) nodes := by
  induction h with
  | last =>
      intro p next _ _
      trivial
  | loose _ _ _ hn =>
      intro p next hf hs
      rw [← List.append_nil (_ ++ _)] at hs
      exact (Node.readFrom_loose hf hn).placedAll_cons rfl hs
        (Node.placed_of_stands (Node.ofStatement?_ne_block hn)) fun _ _ => trivial
  | statement _ _ _ _ hk hn t ih =>
      intro p next hf hs
      rw [statement_append] at hf hs
      exact (Node.readFrom_statement hf.append.1 hk hn).placedAll_cons (t.print hf.append.2) hs
        (Node.placed_of_stands (Node.ofStatement?_ne_block hn)) fun _ hq => ih hf.append.2 hq
  | comment _ hk t ih =>
      intro p next hf hs
      rw [List.append_cons] at hf hs
      exact (Node.readFrom_comment hf.append.1 hk).placedAll_cons (t.print hf.append.2) hs
        (Node.placed_of_stands fun _ _ _ h => Node.noConfusion h) fun _ hq => ih hf.append.2 hq
  | @block fs prelude inner rest brace close body nodes bodyAfter after _ _ _ hb i hk t ihi ih =>
      intro p next hf hs
      obtain ⟨hsource, hbefore⟩ := Head.ofPrelude_place (Token.textOf fs) prelude brace
      rw [block_append] at hf hs
      have hinner := hf.append.1.append.2.append.2.cons.2.append.1
      have hct := (text_of_kind (hf close (by simp))).2.2 hk
      have hbody := i.print hinner
      have hprint := Node.print_block hf.append.1 hb hk hbody
      have hfront : (Head.ofPrelude (Token.textOf fs) prelude brace).print ++ ['{'] =
          Token.textOf (fs ++ (prelude ++ [brace])) :=
        Head.print_opening (fun token ht => hf token (by grind)) hb
      -- the tokens of the block's own text begin with its prelude, or with its brace
      obtain ⟨run, hrun⟩ : ∃ run,
          prelude ++ brace :: (inner ++ [close]) = prelude.headD brace :: run := by
        cases prelude with
        | nil => exact ⟨_, rfl⟩
        | cons first run => exact ⟨_, rfl⟩
      have hread : (Node.block (.ofPrelude (Token.textOf fs) prelude brace) body bodyAfter).ReadFrom
          fs (prelude.headD brace) run := ⟨hsource, hbefore, hrun ▸ hprint⟩
      refine hread.placedAll_cons (t.print hf.append.2) (hrun ▸ hs) (fun hn => ⟨hn, ?_⟩)
        fun _ hq => ih hf.append.2 hq
      -- the body is strung from behind the brace, with the closing brace behind it
      have hin : Strung p (fs ++ (prelude ++ [brace]) ++ (inner ++ close :: rest)) next.head? := by
        simpa using hs
      have hnext : Token.textOf (inner ++ close :: rest) ++ next =
          Node.printAll body ++ (bodyAfter ++ '}' :: (Token.textOf rest ++ next)) := by
        simp [← hbody, hct]
      have hclose : (Token.textOf (close :: rest)).head?.or next.head? = some '}' := by
        simp [hct]
      obtain ⟨-, hin⟩ := strung_append.1 hin
      rw [← hfront, ← List.head?_append, hnext] at hin
      obtain ⟨hin, -⟩ := strung_append.1 hin
      rw [hclose] at hin
      exact ihi hinner hin

/-- **What was read remembers its place.** -/
theorem Sheet.placedAll_of_parse {dialect : Dialect} {source : Text} {sheet : Sheet}
    (h : Sheet.parse dialect source = .ok sheet) :
    Node.PlacedAll .start sheet.after sheet.nodes := by
  obtain ⟨text, ls, -, hr, hi⟩ := Sheet.parse_eq_ok_iff.1 h
  have hp : Node.PlacedAll .start (sheet.after ++ []) sheet.nodes :=
    hi.placed (formed_locate .start hr) (strung_locate (fun l hl => hr.ne_nil hl) .start none)
  rwa [List.append_nil] at hp

/-! ### Nodes at any depth -/

namespace Node

theorem past_past {p : Position} {front text later : Text} (a : Text) (h : text = front ++ later) :
    (p.past a text.head?).past front later.head? = p.past (a ++ front) later.head? := by
  rw [Position.past_append, h, List.head?_append]

mutual

/-- **Each part stands in the text** of the whole, and remembers its place there. -/
theorem Placed.part {part : Node} : ∀ {node : Node} {p : Position} {next : Text},
    node.Placed p next → part ∈ node.parts →
      ∃ front back, node.print = front ++ (part.print ++ back) ∧
        part.Placed (p.past front (part.print ++ (back ++ next)).head?) (back ++ next)
  | .block head body after, p, next, h, hp => by
      rw [parts, List.mem_cons] at hp
      rcases hp with rfl | hp
      · exact ⟨[], [], by simp, h⟩
      · obtain ⟨front, back, hf, hs⟩ := PlacedAll.part h.2 hp
        refine ⟨head.print ++ ['{'] ++ front, back ++ (after ++ ['}']), by simp [print, hf], ?_⟩
        have htext : printAll body ++ (after ++ '}' :: next) =
            front ++ (part.print ++ (back ++ (after ++ '}' :: next))) := by simp [hf]
        rw [past_past _ htext] at hs
        simpa using hs
  | .atStatement _, _, _, h, hp | .declaration _, _, _, h, hp | .comment _, _, _, h, hp => by
      rw [parts, List.mem_singleton] at hp
      subst hp
      exact ⟨[], [], by simp, h⟩

/-- **A node at any depth is a part of the text**, and stands where it remembers, as do the nodes
below it. -/
theorem PlacedAll.part {part : Node} : ∀ {nodes : List Node} {p : Position} {next : Text},
    PlacedAll p next nodes → part ∈ partsAll nodes →
      ∃ front back, printAll nodes = front ++ (part.print ++ back) ∧
        part.Placed (p.past front (part.print ++ (back ++ next)).head?) (back ++ next)
  | node :: rest, p, next, h, hp => by
      rw [partsAll, List.mem_append] at hp
      rcases hp with hp | hp
      · obtain ⟨front, back, hf, hs⟩ := Placed.part h.1 hp
        exact ⟨front, back ++ printAll rest, by simp [printAll, hf], by simpa using hs⟩
      · obtain ⟨front, back, hf, hs⟩ := PlacedAll.part h.2 hp
        refine ⟨node.print ++ front, back, by simp [printAll, hf], ?_⟩
        have htext : printAll rest ++ next = front ++ (part.print ++ (back ++ next)) := by simp [hf]
        rwa [past_past _ htext] at hs

end

/-- What stands before a node at any depth tells its offset and its line. -/
theorem PlacedAll.exists_split {nodes : List Node} {part : Node} {p : Position} {next : Text}
    (h : PlacedAll p next nodes) (hp : part ∈ partsAll nodes) :
    ∃ front rest, printAll nodes ++ next = front ++ (part.own ++ rest) ∧
      offsetOf part.source = p.offset + front.size ∧
      part.line = p.line + lineEnds front (part.own ++ rest).head? := by
  obtain ⟨front, back, hf, hplaced⟩ := h.part hp
  have hs := hplaced.stands
  rw [Stands, past_past front (by rw [print_eq, List.append_assoc])] at hs
  obtain ⟨span, hsource, hstart⟩ := Option.map_eq_some_iff.1 hs
  refine ⟨front ++ part.before, back ++ next, by simp [hf, print_eq], ?_, ?_⟩
  · rw [hsource, offsetOf, Option.elim_some, hstart, Position.offset_past]
  · rw [Node.line, hsource, lineOf, Option.elim_some, hstart, Position.line_past]

/-- A node that is printed with others, with the filler in front of it, lies between their start and
their end. -/
theorem Stands.within {part : Node} {p : Position} {text front back next : Text}
    (hf : text = front ++ (part.print ++ back))
    (hs : part.Stands (p.past front (part.print ++ (back ++ next)).head?) (back ++ next)) :
    p.offset + part.before.size ≤ offsetOf part.source ∧
      offsetOf part.source + part.own.size ≤ p.offset + text.size := by
  have ho := hs.offset
  rw [Position.offset_past] at ho
  have hsize := congrArg Text.size hf
  rw [Text.size_append, Text.size_append, print_eq, Text.size_append] at hsize
  omega

/-- Each part lies within the bytes of the whole. -/
theorem Placed.within {node part : Node} {p : Position} {next : Text} (h : node.Placed p next)
    (hp : part ∈ node.parts) :
    p.offset + part.before.size ≤ offsetOf part.source ∧
      offsetOf part.source + part.own.size ≤ p.offset + node.print.size := by
  obtain ⟨front, back, hf, hs⟩ := h.part hp
  exact hs.stands.within hf

theorem PlacedAll.within {nodes : List Node} {part : Node} {p : Position} {next : Text}
    (h : PlacedAll p next nodes) (hp : part ∈ partsAll nodes) :
    p.offset + part.before.size ≤ offsetOf part.source ∧
      offsetOf part.source + part.own.size ≤ p.offset + (printAll nodes).size := by
  obtain ⟨front, back, hf, hs⟩ := h.part hp
  exact hs.stands.within hf

mutual

/-- **Parts begin in the order of the text.** -/
theorem Placed.pairwise_offset : ∀ {node : Node} {p : Position} {next : Text}, node.Placed p next →
    node.parts.Pairwise fun a b => a.own ≠ [] → offsetOf a.source < offsetOf b.source
  | .block head body after, p, next, h => by
      rw [parts, List.pairwise_cons]
      refine ⟨fun part hp _ => ?_, PlacedAll.pairwise_offset h.2⟩
      -- what a block holds comes behind its brace
      have hstart : offsetOf (Node.block head body after).source = p.offset + head.before.size :=
        h.1.offset
      have hpart := (h.2.within hp).1
      rw [Position.offset_past, Text.size_append, Head.print_eq, Text.size_append, Text.size_cons]
        at hpart
      have := '{'.utf8Size_pos
      omega
  | .atStatement _, _, _, _ | .declaration _, _, _, _ | .comment _, _, _, _ => by
      rw [parts]
      exact List.pairwise_singleton _ _

/-- **Nodes stand in the text as they come in the tree**: one that has a text of its own stands
before all that come after it. -/
theorem PlacedAll.pairwise_offset : ∀ {nodes : List Node} {p : Position} {next : Text},
    PlacedAll p next nodes →
      (partsAll nodes).Pairwise fun a b => a.own ≠ [] → offsetOf a.source < offsetOf b.source
  | [], _, _, _ => List.Pairwise.nil
  | node :: rest, p, next, h => by
      rw [partsAll, List.pairwise_append]
      refine ⟨Placed.pairwise_offset h.1, PlacedAll.pairwise_offset h.2, fun a ha b hb hn => ?_⟩
      have hend := (h.1.within ha).2
      have hstart := (h.2.within hb).1
      rw [Position.offset_past] at hstart
      have := Text.size_pos hn
      omega

end

end Node

end Restyle
