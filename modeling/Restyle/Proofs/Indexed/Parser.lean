import Restyle.Proofs.Indexed.Marks

/-!
# Reading sheets by index

An index moves over the marks of a text, one piece at a time, and what is read so far is kept beside it.
A piece that has no result, or one that leaves the index where it is, ends the reading without a result.

* `Indexed.step_eq`: **one step by index** is one step of the builder, over the piece that comes next.
* `Indexed.run_eq`: from there on, the whole run.
* `Indexed.parse_eq`: **no access is out of range**, and the sheet is the same.
-/

namespace Restyle

namespace Indexed

/-! ### The draft of a sheet -/

/-- A block that is still open: its head, where its brace stands, and the nodes before it in its
container, last one first. -/
structure OpenBlock where
  head : Head
  brace : Span
  earlier : List Node

/-- A sheet that is being read. -/
structure Draft where
  blocks : List OpenBlock
  nodes : List Node
  filler : Text

namespace Draft

/-- The draft with one more node in the innermost block. -/
def push (d : Draft) (node : Node) : Draft := ⟨d.blocks, node :: d.nodes, []⟩

/-- The draft with one more open block. -/
def enter (d : Draft) (head : Head) (brace : Span) : Draft :=
  ⟨⟨head, brace, d.nodes⟩ :: d.blocks, [], []⟩

/-- The nodes of the sheet and the filler after them. -/
def finish (d : Draft) : Except ParseError (List Node × Text) :=
  match d.blocks with
  | []         => .ok (d.nodes.reverse, d.filler)
  | block :: _ => .error ⟨.unclosedBlock, block.brace.start⟩

end Draft

section
variable (source : Text) (marks : List Mark)

/-- The draft after the at-rule at the index or its head, and the index behind that. -/
def stepAtRule (d : Draft) (name : Text) (i : Nat) : Option (Draft × Nat) := do
  let (head, stop) ← atHead source marks d.filler name i
  match kindAt marks stop with
  | .openBrace =>
    let brace ← marks[stop]?
    return (d.enter (.atRule head) brace.span, stop + 1)
  | .semicolon => return (d.push (.atStatement head), stop + 1)
  | _          => return (d.push (.atStatement head), stop)

/-- The draft after the declaration at the index or the head of the rule there, and the index behind
that. -/
def stepStatement (d : Draft) (i : Nat) : Option (Except ParseError (Draft × Nat)) := do
  let stop := statementEnd marks 0 i
  if kindAt marks stop = .openBrace then
    let head ← ruleHead source marks d.filler i stop
    let brace ← marks[stop]?
    return .ok (d.enter (.rule head) brace.span, stop + 1)
  else
    let decl ← declaration source marks d.filler i stop
    return decl.map fun decl =>
      (d.push (.declaration decl), if decl.semicolon then stop + 1 else stop)

/-- The draft after what stands at the index, and the index behind that. -/
def step (d : Draft) (i : Nat) : Option (Except ParseError (Draft × Nat)) :=
  match kindAt marks i with
  | .space | .semicolon =>
    (textAt source marks i).map fun text => .ok (⟨d.blocks, d.nodes, d.filler ++ text⟩, i + 1)
  | .comment inline     =>
    (comment source marks d.filler inline i).map fun c => .ok (d.push (.comment c), i + 1)
  | .closeBrace         =>
    match d.blocks with
    | []              => some (.error ⟨.unexpectedBrace, (markAt marks i).span.start⟩)
    | block :: blocks =>
      some (.ok (⟨blocks, .block block.head d.nodes.reverse d.filler :: block.earlier, []⟩, i + 1))
  | .atWord name        => (stepAtRule source marks d name i).map .ok
  | _                   => stepStatement source marks d i

theorem lt_length_of_kindAt {i : Nat} (h : kindAt marks i ≠ .eof) : i < marks.length := by
  rcases Nat.lt_or_ge i marks.length with hi | hi
  · exact hi
  · exact absurd (by rw [kindAt, markAt, List.getElem?_eq_none hi]; rfl) h

/-- Reads on from the index to the end.  A step that does not move on would be taken for ever, so it
has no result. -/
def run (d : Draft) (i : Nat) : Option (Except ParseError (List Node × Text)) :=
  if _h : kindAt marks i = .eof then some d.finish
  else
    match step source marks d i with
    | none              => none
    | some (.error e)   => some (.error e)
    | some (.ok (d, j)) => if _hj : i < j then run d j else none
termination_by marks.length - i
decreasing_by
  have := lt_length_of_kindAt marks _h
  omega

end

/-- The sheet that a text is, by index. -/
def parse (dialect : Dialect) (source : Text) : Option (Except ParseError Sheet) :=
  let (bom, text) := Sheet.splitMark source
  match tokenize dialect text with
  | none             => none
  | some (.error e)  => some (.error e.toParseError)
  | some (.ok marks) =>
    (run text marks ⟨[], [], []⟩ 0).map (·.map fun (nodes, after) => ⟨bom, nodes, after⟩)

end Indexed

/-! ### The steps of the builder -/

/-- What the builder knows without the texts of the braces. -/
def Builder.draft (b : Builder) : Indexed.Draft :=
  ⟨b.frames.map fun frame => ⟨frame.head, frame.brace.span, frame.earlier⟩, b.nodes, b.filler⟩

theorem Builder.finish_draft (b : Builder) : b.draft.finish = b.finish := by
  obtain ⟨frames, nodes, filler⟩ := b
  cases frames <;> rfl

namespace Indexed

variable {source : Text} {tokens : List Token} {i j : Nat} {d : Draft}

/-- A rule is opened. -/
theorem stepStatement_opening {prelude later : List Token} {brace : Token}
    (ht : Tiling source tokens) (h : Covers tokens i j (prelude ++ brace :: later))
    (hr : Unbroken 0 prelude) (hk : brace.kind = .openBrace) :
    stepStatement source (tokens.map Token.mark) d i =
      some (.ok (d.enter (.rule (.ofPrelude d.filler prelude brace)) brace.span,
        i + prelude.length + 1)) := by
  have hs : brace.endsRun (depthThrough 0 prelude) = true := by simp [Token.endsRun, hk]
  have hbrace : kindAt (tokens.map Token.mark) (i + prelude.length) = .openBrace := by
    rw [h.right.kindAt, hk]
  simp only [stepStatement, h.statementEnd_eq hr hs, hbrace, if_true, h.ruleHead_eq ht,
    h.right.getElem?, Option.bind_eq_bind, Option.bind_some]
  rfl

/-- An at-rule is opened. -/
theorem stepAtRule_opening {name : Text} {others later : List Token} {first brace : Token}
    (ht : Tiling source tokens)
    (h : Covers tokens i tokens.length (first :: others ++ brace :: later))
    (hn : first.kind = .atWord name) (hr : Unbroken 0 (first :: others))
    (hk : brace.kind = .openBrace) :
    stepAtRule source (tokens.map Token.mark) d name i =
      some (d.enter (.atRule (.ofRun d.filler name first others false)) brace.span,
        i + (first :: others).length + 1) := by
  have hs : brace.endsRun (depthThrough 0 (first :: others)) = true := by simp [Token.endsRun, hk]
  have hbrace : kindAt (tokens.map Token.mark) (i + (first :: others).length) = .openBrace := by
    rw [h.right.kindAt, hk]
  simp only [stepAtRule, h.atHead_eq ht hn hr hs, hbrace, h.right.getElem?, Option.bind_eq_bind,
    Option.bind_some, hk]
  rfl

/-- The index behind a statement that ends with the token. -/
def behind (stop : Token) (i : Nat) : Nat := if stop.kind = .semicolon then i + 1 else i

/-- An at-rule without a block is read. -/
theorem stepAtRule_statement {name : Text} {others later : List Token} {first stop : Token}
    (ht : Tiling source tokens)
    (h : Covers tokens i tokens.length (first :: others ++ stop :: later))
    (hn : first.kind = .atWord name) (hr : Unbroken 0 (first :: others))
    (hs : stop.endsRun (depthThrough 0 (first :: others)) = true) (hk : stop.kind ≠ .openBrace) :
    stepAtRule source (tokens.map Token.mark) d name i =
      some (d.push (.atStatement (.ofRun d.filler name first others (stop.kind == .semicolon))),
        behind stop (i + (first :: others).length)) := by
  simp only [stepAtRule, h.atHead_eq ht hn hr hs, h.right.kindAt, Option.bind_eq_bind,
    Option.bind_some, behind]
  split
  · next hb => exact absurd hb hk
  · next hsemi => rw [if_pos hsemi]; rfl
  · next hsemi => rw [if_neg hsemi]; rfl

/-- A declaration is read, unless it is none. -/
theorem stepStatement_statement {others later : List Token} {first stop : Token}
    (ht : Tiling source tokens) (h : Covers tokens i j (first :: others ++ stop :: later))
    (hr : Unbroken 0 (first :: others))
    (hs : stop.endsRun (depthThrough 0 (first :: others)) = true) (hk : stop.kind ≠ .openBrace) :
    stepStatement source (tokens.map Token.mark) d i =
      some (match Declaration.ofRun? d.filler first others (stop.kind == .semicolon) with
        | none      => .error ⟨.unknownWord, first.start⟩
        | some decl =>
          .ok (d.push (.declaration decl), behind stop (i + (first :: others).length))) := by
  simp only [stepStatement, h.statementEnd_eq hr hs, h.right.kindAt, if_neg hk, h.declaration_eq ht,
    Option.bind_eq_bind, Option.bind_some]
  cases hd : Declaration.ofRun? d.filler first others (stop.kind == .semicolon) with
  | none => rfl
  | some decl =>
      obtain ⟨l, -, rfl⟩ := Declaration.ofRun?_eq_some_iff.1 hd
      simp [Except.map, Layout.declaration, behind]

/-- A token that starts a run starts an at-rule if it is an at-word. -/
theorem step_of_startsRun {first : Token} {rest : List Token}
    (h : Covers tokens i j (first :: rest)) (h₁ : first.startsRun = true) :
    step source (tokens.map Token.mark) d i =
      match first.kind with
      | .atWord name => (stepAtRule source (tokens.map Token.mark) d name i).map .ok
      | _            => stepStatement source (tokens.map Token.mark) d i := by
  rw [step, h.kindAt]
  cases hk : first.kind <;> simp [Token.startsRun, hk] at h₁ ⊢

/-- The next piece opens a block. -/
theorem step_opening (b : Builder) {prelude later : List Token} {brace : Token}
    (ht : Tiling source tokens) (h : Covers tokens i tokens.length (prelude ++ brace :: later))
    (h₁ : ∀ token, prelude.head? = some token → token.startsRun = true) (hr : Unbroken 0 prelude)
    (hk : brace.kind = .openBrace) :
    step source (tokens.map Token.mark) b.draft i =
      some ((b.step (.opening prelude brace)).map fun b => (b.draft, i + prelude.length + 1)) := by
  cases prelude with
  | nil =>
      have hstep : step source (tokens.map Token.mark) b.draft i =
          stepStatement source (tokens.map Token.mark) b.draft i := by
        simp only [step, h.kindAt, hk]
      rw [hstep, stepStatement_opening ht h hr hk]
      rfl
  | cons first others =>
      rw [step_of_startsRun h (h₁ first rfl), Builder.step]
      cases hn : first.kind with
      | atWord name =>
          simp only [stepAtRule_opening ht h hn hr hk, Head.ofPrelude, hn]
          rfl
      | space | comment | word | string | colon | semicolon | openBrace | closeBrace | openParen
      | closeParen | eof =>
          simp only [stepStatement_opening ht h hr hk, Head.ofPrelude, hn]
          rfl

/-- The next piece is a statement without a block. -/
theorem step_statement (b : Builder) {others later : List Token} {first stop : Token}
    {semicolon : Option Token} (ht : Tiling source tokens)
    (h : Covers tokens i tokens.length (first :: others ++ stop :: later))
    (h₁ : first.startsRun = true) (hr : Unbroken 0 (first :: others))
    (hs : stop.endsRun (depthThrough 0 (first :: others)) = true) (hk : stop.kind ≠ .openBrace)
    (hsemi : semicolon.isSome = (stop.kind == .semicolon)) :
    step source (tokens.map Token.mark) b.draft i =
      some ((b.step (.statement first others semicolon)).map fun b =>
        (b.draft, behind stop (i + (first :: others).length))) := by
  rw [step_of_startsRun h h₁, Builder.step, hsemi, Node.ofStatement?]
  cases hn : first.kind with
  | atWord name => simp only [stepAtRule_statement ht h hn hr hs hk]; rfl
  | space | comment | word | string | colon | semicolon | openBrace | closeBrace | openParen
  | closeParen | eof =>
      simp only [stepStatement_statement ht h hr hs hk]
      cases hd : Declaration.ofRun? b.filler first others (stop.kind == .semicolon) with
      | none => simp only [Builder.draft, hd]; rfl
      | some decl => simp only [Builder.draft, hd]; rfl

/-- **One step by index** is one step of the builder, over the piece that comes next. -/
theorem step_eq (b : Builder) {rest left : List Token} {last : Token} {piece : Piece}
    (ht : Tiling source tokens) (h : Covers tokens i tokens.length (rest ++ [last]))
    (hl : last.kind = .eof) (hf : Formed rest) (hb : Begins rest piece left) :
    step source (tokens.map Token.mark) b.draft i =
      some ((b.step piece).map fun b => (b.draft, i + piece.tokens.length)) := by
  cases hb with
  | @filler token _ hfill =>
      have hstep : step source (tokens.map Token.mark) b.draft i =
          some (.ok (⟨b.draft.blocks, b.draft.nodes, b.draft.filler ++ token.text⟩, i + 1)) := by
        rw [step, h.kindAt, h.textAt_eq ht]
        rcases Token.isFiller_iff.1 hfill with hk | hk <;> rw [hk] <;> rfl
      rw [hstep]
      rfl
  | @comment token inline _ hk =>
      have hcomment : comment source (tokens.map Token.mark) b.draft.filler inline i =
          some (.ofToken b.filler token inline) := h.comment_eq ht (hf token (by simp)) hk
      simp only [step, h.kindAt, hk, hcomment]
      rfl
  | closing hk =>
      simp only [step, h.kindAt, hk, h.markAt]
      obtain ⟨frames, nodes, filler⟩ := b
      cases frames <;> rfl
  | @opening prelude _ brace h₁ hr hk =>
      rw [List.append_assoc, List.cons_append] at h
      rw [step_opening b ht h h₁ hr hk, Piece.tokens, List.length_append]
      rfl
  | @statement others _ first semicolon h₁ hr hd hk =>
      rw [List.cons_append, List.append_assoc] at h
      have hs : semicolon.endsRun (depthThrough 0 (first :: others)) = true := by
        simp [Token.endsRun, hk, hd]
      have hsemi : (some semicolon).isSome = (semicolon.kind == .semicolon) := by simp [hk]
      rw [step_statement b ht h h₁ hr hs (by simp [hk]) hsemi, behind, if_pos hk]
      simp [Piece.tokens, Nat.add_assoc]
  | @loose others _ first h₁ hr ha =>
      rw [List.cons_append, List.append_assoc] at h
      -- a closing brace stops the statement, or the mark of the end
      obtain ⟨stop, later, hstop, hk⟩ : ∃ stop later, left ++ [last] = stop :: later ∧
          (stop.kind = .closeBrace ∨ stop.kind = .eof) := by
        rcases ha with rfl | ⟨close, rest, rfl, hc⟩
        · exact ⟨last, [], rfl, .inr hl⟩
        · exact ⟨close, rest ++ [last], rfl, .inl hc⟩
      rw [hstop] at h
      have hs : stop.endsRun (depthThrough 0 (first :: others)) = true := by
        rcases hk with hk | hk <;> simp [Token.endsRun, hk]
      have hne : stop.kind ≠ .openBrace ∧ stop.kind ≠ .semicolon := by
        rcases hk with hk | hk <;> simp [hk]
      have hsemi : (none : Option Token).isSome = (stop.kind == .semicolon) := by simp [hne.2]
      rw [step_statement b ht h h₁ hr hs hne.1 hsemi, behind, if_neg hne.2]
      simp [Piece.tokens]

/-- **Reading by index** is running the builder over the pieces that are left. -/
theorem run_eq (b : Builder) {rest : List Token} {last : Token} (ht : Tiling source tokens)
    (h : Covers tokens i tokens.length (rest ++ [last])) (hl : last.kind = .eof)
    (hf : Formed rest) :
    run source (tokens.map Token.mark) b.draft i = some (b.run (pieces rest)) := by
  -- on the number of tokens left, since a step reads a whole piece
  induction hn : rest.length using Nat.strongRecOn generalizing b rest i with
  | ind n ih =>
      cases rest with
      | nil =>
          rw [run, dif_pos (by rw [h.kindAt, hl]), b.finish_draft, pieces, Builder.run]
      | cons token rest =>
          have he := hf.ne_eof
          obtain ⟨piece, left, hb⟩ := exists_begins he
          rw [run, dif_neg (by rw [h.kindAt]; exact he token (by simp)), step_eq b ht h hl hf hb,
            hb.pieces_eq, Builder.run]
          cases hs : b.step piece with
          | error e => rfl
          | ok b' =>
              have hleft : Covers tokens (i + piece.tokens.length) tokens.length (left ++ [last]) := by
                rw [hb.split, List.append_assoc] at h
                exact h.right
              have hpos : i < i + piece.tokens.length := by
                have := congrArg List.length hb.split
                have := hb.length_lt
                rw [List.length_append] at *
                omega
              have hformed : Formed left := by
                intro token ht
                refine hf token ?_
                rw [hb.split]
                exact List.mem_append_right _ ht
              dsimp only [Except.map]
              rw [dif_pos hpos]
              exact ih left.length (hn ▸ hb.length_lt) b' hleft hformed rfl

/-- **No access is out of range**, and the sheet is that of the text. -/
theorem parse_eq (dialect : Dialect) (source : Text) :
    parse dialect source = some (Sheet.parse dialect source) := by
  rw [parse, Sheet.parse]
  generalize Sheet.splitMark source = parts
  obtain ⟨bom, text⟩ := parts
  dsimp only
  rw [tokenize_eq, Token.tokenize]
  cases hs : Token.scan dialect text with
  | error e => rfl
  | ok tokens =>
      obtain ⟨ls, hr, rfl⟩ := Token.scan_eq_ok_iff.1 hs
      have ht := Token.tiling_of_tokenize (Token.tokenize_eq_ok_iff.2 ⟨ls, hr, rfl⟩)
      have hall : Covers (locate .start ls ++ [Token.endOf text]) 0
          (locate .start ls ++ [Token.endOf text]).length (locate .start ls ++ [Token.endOf text]) :=
        ⟨[], [], by simp, rfl, by simp⟩
      have hrun := run_eq Builder.empty ht hall rfl (formed_locate .start hr)
      dsimp only [Except.map]
      rw [show (⟨[], [], []⟩ : Draft) = Builder.empty.draft from rfl, hrun, Sheet.ofTokens]
      cases Builder.empty.run (pieces (locate .start ls)) <;> rfl

end Indexed

end Restyle
