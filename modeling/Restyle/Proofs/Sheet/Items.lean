import Restyle.Proofs.Token.Braces
import Restyle.Proofs.Token.Tiles
import Restyle.Sheet.Parser

/-!
# The grammar of a sheet

`Items tokens nodes after` is the grammar of what stands in a container: the tokens of its nodes
one after the other, each with its filler in front, and the filler after the last node.  It relates
tokens to the nodes they form and knows nothing of pieces or of the builder.

**The builder reads the grammar** (`Sheet.ofTokens_eq_ok_iff`): tokens form a sheet when they are
items, and the sheet holds the nodes of these items.

`Begins tokens piece rest` tells the first piece of tokens from the tokens alone; every list of tokens
begins with one (`exists_begins`).

One direction runs the builder along a derivation (`Items.run`), in front of a closing brace or of
the end.  The other (`follows_within`) takes a run that ends well and cuts off the items of the
innermost open block; what remains of the run starts at that block's closing brace.
-/

namespace Restyle

namespace Token

/-- The token is filler between statements. -/
def isFiller (token : Token) : Bool :=
  match token.kind with
  | .space | .semicolon => true
  | _                   => false

/-- A statement or the prelude of a block starts with the token. -/
def startsRun (token : Token) : Bool :=
  match token.kind with
  | .word | .string | .atWord _ | .colon | .openParen | .closeParen => true
  | _                                                               => false

theorem isFiller_iff {token : Token} :
    token.isFiller = true ↔ token.kind = .space ∨ token.kind = .semicolon := by
  unfold isFiller
  cases token.kind <;> simp

/-- Filler starts no statement. -/
theorem startsRun_of_isFiller {token : Token} (h : token.isFiller = true) :
    token.startsRun = false := by
  rcases isFiller_iff.1 h with hk | hk
  · simp [startsRun, hk]
  · simp [startsRun, hk]

theorem isBrace_of_isFiller {token : Token} (h : token.isFiller = true) :
    token.isBrace = false := by
  rcases isFiller_iff.1 h with hk | hk
  · simp [isBrace, hk]
  · simp [isBrace, hk]

end Token

/-! ### Runs -/

/-- The depth of parentheses after a run. -/
def depthThrough (depth : Nat) (run : List Token) : Nat := run.foldl Token.depthAfter depth

/-- No token of the run ends it. -/
def Unbroken : Nat → List Token → Prop
  | _,     []            => True
  | depth, token :: rest => token.endsRun depth = false ∧ Unbroken (token.depthAfter depth) rest

/-- A statement ends at the first token that can end it. -/
theorem splitRun_append_stop {depth : Nat} {run later : List Token} {stop : Token}
    (hr : Unbroken depth run) (hs : stop.endsRun (depthThrough depth run) = true) :
    splitRun depth (run ++ stop :: later) = (run, stop :: later) := by
  induction run generalizing depth with
  | nil => rw [List.nil_append, splitRun, if_pos (show stop.endsRun depth = true from hs)]
  | cons token rest ih =>
      rw [List.cons_append, splitRun, if_neg (by simp [hr.1]), ih hr.2 hs]

theorem splitRun_of_unbroken {depth : Nat} {run : List Token} (hr : Unbroken depth run) :
    splitRun depth run = (run, []) := by
  induction run generalizing depth with
  | nil => rfl
  | cons token rest ih => rw [splitRun, if_neg (by simp [hr.1]), ih hr.2]

/-- A run has no braces. -/
theorem Unbroken.isBrace {depth : Nat} {run : List Token} (h : Unbroken depth run) :
    ∀ token ∈ run, token.isBrace = false := by
  induction run generalizing depth with
  | nil => exact nofun
  | cons first rest ih =>
      intro token ht
      rcases List.mem_cons.1 ht with rfl | ht
      · refine Token.isBrace_eq_false_iff.2 ⟨fun hk => ?_, fun hk => ?_⟩
        · simpa [Token.endsRun, hk] using h.1
        · simpa [Token.endsRun, hk] using h.1
      · exact ih h.2 token ht

/-- What `splitRun` cuts off is a run, and the next token ends it. -/
theorem unbroken_of_splitRun {depth : Nat} {tokens run left : List Token}
    (h : splitRun depth tokens = (run, left)) :
    Unbroken depth run ∧ ∀ stop later, left = stop :: later →
      stop.endsRun (depthThrough depth run) = true := by
  induction tokens generalizing depth run with
  | nil => cases h; exact ⟨trivial, nofun⟩
  | cons token rest ih =>
      by_cases he : token.endsRun depth = true
      · rw [splitRun, if_pos he] at h
        cases h
        refine ⟨trivial, fun stop later hs => ?_⟩
        cases hs
        exact he
      · rw [splitRun, if_neg he] at h
        cases hs : splitRun (token.depthAfter depth) rest with
        | mk run' left' =>
            rw [hs] at h
            cases h
            obtain ⟨h₁, h₂⟩ := ih hs
            exact ⟨⟨by simpa using he, h₁⟩, h₂⟩

/-! ### The pieces of a run -/

/-- A filler token is a piece by itself. -/
theorem pieces_filler {token : Token} (rest : List Token) (h : token.isFiller = true) :
    pieces (token :: rest) = .filler token :: pieces rest := by
  rw [pieces]
  rw [Token.isFiller] at h
  split at h <;> simp_all

theorem pieces_fillers {fs : List Token} (rest : List Token)
    (h : ∀ token ∈ fs, token.isFiller = true) :
    pieces (fs ++ rest) = fs.map .filler ++ pieces rest := by
  induction fs with
  | nil => rfl
  | cons token fs ih =>
      rw [List.cons_append, pieces_filler _ (h token List.mem_cons_self),
        ih fun t ht => h t (List.mem_cons_of_mem _ ht)]
      rfl

theorem pieces_comment {token : Token} {inline : Bool} (rest : List Token)
    (h : token.kind = .comment inline) :
    pieces (token :: rest) = .comment token inline :: pieces rest := by
  rw [pieces]; simp only [h]

theorem pieces_closing {token : Token} (rest : List Token) (h : token.kind = .closeBrace) :
    pieces (token :: rest) = .closing token :: pieces rest := by
  rw [pieces]; simp only [h]

/-- The pieces from a token on that starts a statement, by what ends its run. -/
theorem pieces_run {first : Token} {rest run left : List Token} (h : first.startsRun = true)
    (hs : splitRun (first.depthAfter 0) rest = (run, left)) :
    pieces (first :: rest) =
      match left with
      | []            => [.statement first run none]
      | stop :: later =>
        match stop.kind with
        | .openBrace => .opening (first :: run) stop :: pieces later
        | .semicolon => .statement first run (some stop) :: pieces later
        | _          => .statement first run none :: pieces (stop :: later) := by
  rw [pieces]
  cases hk : first.kind with
  | space | comment | semicolon | openBrace | closeBrace | eof =>
      simp [Token.startsRun, hk] at h
  | word | string | atWord | colon | openParen | closeParen =>
      dsimp only
      split
      · next run' hr => rw [hs] at hr; cases hr; rfl
      · next run' stop later hr => rw [hs] at hr; cases hr; rfl

/-- The tokens stand before a closing brace or the end. -/
def AtClose (later : List Token) : Prop :=
  later = [] ∨ ∃ close rest, later = close :: rest ∧ close.kind = .closeBrace

/-- A statement may go without a semicolon before a closing brace and at the end. -/
theorem pieces_loose {first : Token} {others later : List Token} (h : first.startsRun = true)
    (hr : Unbroken 0 (first :: others)) (hl : AtClose later) :
    pieces (first :: (others ++ later)) = .statement first others none :: pieces later := by
  rcases hl with rfl | ⟨close, rest, rfl, hc⟩
  · rw [List.append_nil, pieces_run h (splitRun_of_unbroken hr.2), pieces]
  · have hs : close.endsRun (depthThrough (first.depthAfter 0) others) = true := by
      simp [Token.endsRun, hc]
    rw [pieces_run h (splitRun_append_stop hr.2 hs)]
    simp only [hc]

/-- A statement goes up to its semicolon. -/
theorem pieces_statement {first semicolon : Token} {others later : List Token}
    (h : first.startsRun = true) (hr : Unbroken 0 (first :: others))
    (hd : depthThrough 0 (first :: others) = 0) (hk : semicolon.kind = .semicolon) :
    pieces (first :: (others ++ semicolon :: later)) =
      .statement first others (some semicolon) :: pieces later := by
  have hs : semicolon.endsRun (depthThrough (first.depthAfter 0) others) = true := by
    rw [show depthThrough (first.depthAfter 0) others = 0 from hd]
    simp [Token.endsRun, hk]
  rw [pieces_run h (splitRun_append_stop hr.2 hs)]
  simp only [hk]

/-- A block is opened by what stands before its brace, if anything. -/
theorem pieces_prelude {brace : Token} {prelude later : List Token}
    (h : ∀ token, prelude.head? = some token → token.startsRun = true) (hr : Unbroken 0 prelude)
    (hk : brace.kind = .openBrace) :
    pieces (prelude ++ brace :: later) = .opening prelude brace :: pieces later := by
  cases prelude with
  | nil => rw [List.nil_append, pieces]; simp only [hk]
  | cons first run =>
      have hs : brace.endsRun (depthThrough (first.depthAfter 0) run) = true := by
        simp [Token.endsRun, hk]
      rw [List.cons_append, pieces_run (h first rfl) (splitRun_append_stop hr.2 hs)]
      simp only [hk]

/-! ### The first piece -/

/-- The tokens begin with the piece, and the second list stands behind it.  A statement without a
semicolon is loose: a closing brace or the end comes next. -/
inductive Begins : List Token → Piece → List Token → Prop where
  | filler {token : Token} {rest : List Token} (hf : token.isFiller = true) :
      Begins (token :: rest) (.filler token) rest
  | comment {token : Token} {inline : Bool} {rest : List Token}
      (hk : token.kind = .comment inline) : Begins (token :: rest) (.comment token inline) rest
  | closing {brace : Token} {rest : List Token} (hk : brace.kind = .closeBrace) :
      Begins (brace :: rest) (.closing brace) rest
  | opening {prelude rest : List Token} {brace : Token}
      (h₁ : ∀ token, prelude.head? = some token → token.startsRun = true)
      (hr : Unbroken 0 prelude) (hk : brace.kind = .openBrace) :
      Begins (prelude ++ brace :: rest) (.opening prelude brace) rest
  | statement {others rest : List Token} {first semicolon : Token}
      (h₁ : first.startsRun = true) (hr : Unbroken 0 (first :: others))
      (hd : depthThrough 0 (first :: others) = 0) (hk : semicolon.kind = .semicolon) :
      Begins (first :: (others ++ semicolon :: rest)) (.statement first others (some semicolon)) rest
  | loose {others rest : List Token} {first : Token} (h₁ : first.startsRun = true)
      (hr : Unbroken 0 (first :: others)) (hl : AtClose rest) :
      Begins (first :: (others ++ rest)) (.statement first others none) rest

/-- **A piece that tokens begin with** is the first of their pieces. -/
theorem Begins.pieces_eq {tokens rest : List Token} {piece : Piece}
    (h : Begins tokens piece rest) : pieces tokens = piece :: pieces rest := by
  cases h with
  | filler hf => exact pieces_filler _ hf
  | comment hk => exact pieces_comment _ hk
  | closing hk => exact pieces_closing _ hk
  | opening h₁ hr hk => exact pieces_prelude h₁ hr hk
  | statement h₁ hr hd hk => exact pieces_statement h₁ hr hd hk
  | loose h₁ hr hl => exact pieces_loose h₁ hr hl

/-- The tokens of the piece stand in front of the others. -/
theorem Begins.split {tokens rest : List Token} {piece : Piece} (h : Begins tokens piece rest) :
    tokens = piece.tokens ++ rest := by
  cases h <;> simp [Piece.tokens]

/-- A piece has a token, so there are fewer left. -/
theorem Begins.length_lt {tokens rest : List Token} {piece : Piece}
    (h : Begins tokens piece rest) : rest.length < tokens.length := by
  cases h <;> simp <;> omega

theorem Begins.ne_eof {tokens rest : List Token} {piece : Piece} (h : Begins tokens piece rest)
    (he : ∀ token ∈ tokens, token.kind ≠ .eof) : ∀ token ∈ rest, token.kind ≠ .eof := by
  intro token ht
  refine he token ?_
  rw [h.split]
  exact List.mem_append_right _ ht

/-- A token that starts a run begins the piece that the end of the run decides. -/
theorem exists_begins_of_startsRun {first : Token} {rest : List Token}
    (he : ∀ token ∈ rest, token.kind ≠ .eof) (h₁ : first.startsRun = true)
    (h₀ : first.endsRun 0 = false) : ∃ piece left, Begins (first :: rest) piece left := by
  cases hs : splitRun (first.depthAfter 0) rest with
  | mk others left =>
      obtain ⟨hu, hstop⟩ := unbroken_of_splitRun hs
      have hr : Unbroken 0 (first :: others) := ⟨h₀, hu⟩
      obtain rfl : others ++ left = rest := by
        simpa [hs] using splitRun_append (first.depthAfter 0) rest
      cases left with
      | nil => exact ⟨_, _, .loose h₁ hr (.inl rfl)⟩
      | cons stop later =>
          have hend := hstop stop later rfl
          cases hk : stop.kind with
          | closeBrace => exact ⟨_, _, .loose h₁ hr (.inr ⟨stop, later, rfl, hk⟩)⟩
          | openBrace =>
              refine ⟨_, later, @Begins.opening (first :: others) later stop ?_ hr hk⟩
              exact fun token ht => Option.some.inj ht ▸ h₁
          | semicolon =>
              have hd : depthThrough (first.depthAfter 0) others = 0 := by
                simpa [Token.endsRun, hk] using hend
              exact ⟨_, _, .statement h₁ hr hd hk⟩
          | eof => exact absurd hk (he stop (by simp))
          | space | comment | word | string | atWord | colon | openParen | closeParen =>
              simp [Token.endsRun, hk] at hend

/-- **Every token belongs to a piece**: where tokens are left, they begin with one. -/
theorem exists_begins {token : Token} {rest : List Token}
    (he : ∀ t ∈ token :: rest, t.kind ≠ .eof) : ∃ piece left, Begins (token :: rest) piece left := by
  have he' : ∀ t ∈ rest, t.kind ≠ .eof := fun t ht => he t (List.mem_cons_of_mem _ ht)
  cases hk : token.kind with
  | space | semicolon => exact ⟨_, rest, .filler (by simp [Token.isFiller, hk])⟩
  | comment inline => exact ⟨_, rest, .comment hk⟩
  | closeBrace => exact ⟨_, rest, .closing hk⟩
  | openBrace => exact ⟨_, rest, @Begins.opening [] rest token nofun trivial hk⟩
  | eof => exact absurd hk (he token List.mem_cons_self)
  | word | string | atWord | colon | openParen | closeParen =>
      exact exists_begins_of_startsRun he' (by simp [Token.startsRun, hk])
        (by simp [Token.endsRun, hk])

/-! ### Statements -/

/-- A statement is an at-rule, by its at-word, or a declaration. -/
theorem Node.ofStatement?_cases {before : Text} {first : Token} {others : List Token}
    {semicolon : Bool} {node : Node}
    (h : Node.ofStatement? before first others semicolon = some node) :
    (∃ name, first.kind = .atWord name ∧
        node = .atStatement (.ofRun before name first others semicolon)) ∨
      ∃ decl, Declaration.ofRun? before first others semicolon = some decl ∧
        node = .declaration decl := by
  rw [Node.ofStatement?] at h
  split at h
  · next name hk => cases h; exact .inl ⟨name, hk, rfl⟩
  · obtain ⟨decl, hd, rfl⟩ := Option.map_eq_some_iff.1 h
    exact .inr ⟨decl, hd, rfl⟩

/-- A statement is no block. -/
theorem Node.ofStatement?_ne_block {before : Text} {first : Token} {others : List Token}
    {semicolon : Bool} {node : Node}
    (h : Node.ofStatement? before first others semicolon = some node) (head : Head)
    (body : List Node) (after : Text) : node ≠ .block head body after := by
  rcases Node.ofStatement?_cases h with ⟨name, -, rfl⟩ | ⟨decl, -, rfl⟩
  · exact nofun
  · exact nofun

/-! ### The grammar -/

/-- The tokens are the contents of a container: the nodes, each with its filler in front, and the
filler after the last node.  A statement without a semicolon is loose: it stands last, with nothing
behind it. -/
inductive Items : List Token → List Node → Text → Prop where
  | last {fs : List Token} (hf : ∀ token ∈ fs, token.isFiller = true) :
      Items fs [] (Token.textOf fs)
  | loose {fs others : List Token} {first : Token} {node : Node}
      (hf : ∀ token ∈ fs, token.isFiller = true) (h₁ : first.startsRun = true)
      (hr : Unbroken 0 (first :: others))
      (hn : Node.ofStatement? (Token.textOf fs) first others false = some node) :
      Items (fs ++ first :: others) [node] []
  | statement {fs others rest : List Token} {first semicolon : Token} {node : Node}
      {nodes : List Node} {after : Text}
      (hf : ∀ token ∈ fs, token.isFiller = true) (h₁ : first.startsRun = true)
      (hr : Unbroken 0 (first :: others)) (hd : depthThrough 0 (first :: others) = 0)
      (hk : semicolon.kind = .semicolon)
      (hn : Node.ofStatement? (Token.textOf fs) first others true = some node)
      (t : Items rest nodes after) :
      Items (fs ++ first :: (others ++ semicolon :: rest)) (node :: nodes) after
  | comment {fs rest : List Token} {token : Token} {inline : Bool} {nodes : List Node}
      {after : Text}
      (hf : ∀ token ∈ fs, token.isFiller = true) (hk : token.kind = .comment inline)
      (t : Items rest nodes after) :
      Items (fs ++ token :: rest)
        (.comment (.ofToken (Token.textOf fs) token inline) :: nodes) after
  | block {fs prelude inner rest : List Token} {brace close : Token} {body nodes : List Node}
      {bodyAfter after : Text}
      (hf : ∀ token ∈ fs, token.isFiller = true)
      (h₁ : ∀ token, prelude.head? = some token → token.startsRun = true)
      (hr : Unbroken 0 prelude) (hb : brace.kind = .openBrace) (i : Items inner body bodyAfter)
      (hc : close.kind = .closeBrace) (t : Items rest nodes after) :
      Items (fs ++ (prelude ++ brace :: (inner ++ close :: rest)))
        (.block (.ofPrelude (Token.textOf fs) prelude brace) body bodyAfter :: nodes) after

section
variable (fs others prelude inner rest : List Token) (first semicolon brace close : Token)

/-- The tokens of a statement, up to its semicolon, and the tokens behind. -/
theorem statement_append :
    fs ++ first :: (others ++ semicolon :: rest) =
      fs ++ first :: (others ++ [semicolon]) ++ rest := by
  simp

/-- The tokens of a block, up to its closing brace, and the tokens behind. -/
theorem block_append :
    fs ++ (prelude ++ brace :: (inner ++ close :: rest)) =
      fs ++ (prelude ++ brace :: (inner ++ [close])) ++ rest := by
  simp

end

/-! ### Running the builder along a derivation -/

/-- Filler is kept for the node that comes next. -/
theorem Builder.run_fillers (b : Builder) (fs : List Token) (rest : List Piece) :
    b.run (fs.map .filler ++ rest) =
      Builder.run ⟨b.frames, b.nodes, b.filler ++ Token.textOf fs⟩ rest := by
  induction fs generalizing b with
  | nil => simp
  | cons token fs ih =>
      rw [List.map_cons, List.cons_append, run]
      simp only [step]
      rw [ih, Token.textOf_cons, List.append_assoc]

/-- **The builder follows the grammar.**  Items in front of a closing brace or the end add their
nodes to the innermost block and leave their last filler. -/
theorem Items.run {tokens : List Token} {nodes : List Node} {after : Text}
    (h : Items tokens nodes after) :
    ∀ (frames : List Frame) (earlier : List Node) (later : List Token), AtClose later →
      Builder.run ⟨frames, earlier, []⟩ (pieces (tokens ++ later)) =
        Builder.run ⟨frames, nodes.reverse ++ earlier, after⟩ (pieces later) := by
  induction h with
  | last hf =>
      intro frames earlier later _
      rw [pieces_fillers _ hf, Builder.run_fillers]
      rfl
  | loose hf h₁ hr hn =>
      intro frames earlier later hl
      rw [List.append_assoc, List.cons_append, pieces_fillers _ hf, pieces_loose h₁ hr hl,
        Builder.run_fillers, Builder.run]
      simp only [Builder.step, List.nil_append, Option.isSome_none, hn]
      rfl
  | statement hf h₁ hr hd hk hn _ ih =>
      intro frames earlier later hl
      rw [List.append_assoc, List.cons_append, List.append_assoc, List.cons_append,
        pieces_fillers _ hf, pieces_statement h₁ hr hd hk, Builder.run_fillers, Builder.run]
      simp only [Builder.step, List.nil_append, Option.isSome_some, hn, Builder.push]
      rw [ih _ _ _ hl]
      simp
  | comment hf hk _ ih =>
      intro frames earlier later hl
      rw [List.append_assoc, List.cons_append, pieces_fillers _ hf, pieces_comment _ hk,
        Builder.run_fillers, Builder.run]
      simp only [Builder.step, List.nil_append, Builder.push]
      rw [ih _ _ _ hl]
      simp
  | @block fs prelude inner rest brace close _ _ _ _ hf h₁ hr hb _ hc _ ihi ih =>
      intro frames earlier later hl
      -- the body stands in front of its closing brace, so its items run on their own
      have hin : AtClose (close :: (rest ++ later)) := .inr ⟨close, rest ++ later, rfl, hc⟩
      simp only [List.append_assoc, List.cons_append]
      rw [pieces_fillers _ hf, pieces_prelude h₁ hr hb, Builder.run_fillers, Builder.run]
      simp only [Builder.step, List.nil_append]
      rw [ihi _ _ _ hin, pieces_closing _ hc, Builder.run]
      simp only [Builder.step, List.append_nil, List.reverse_reverse]
      rw [ih _ _ _ hl]
      simp

/-! ### From a run to a derivation -/

/-- The innermost container holds `body` and ends with `filler`: nothing is left when it is the
sheet; otherwise its closing brace comes next, and the run goes on behind that. -/
def Resumes (frames : List Frame) (body : List Node) (filler : Text) (left : List Token)
    (result : List Node × Text) : Prop :=
  match frames with
  | []              => left = [] ∧ result = (body, filler)
  | frame :: frames => ∃ close later, left = close :: later ∧ close.kind = .closeBrace ∧
      Builder.run ⟨frames, .block frame.head body filler :: frame.earlier, []⟩ (pieces later) =
        .ok result

/-- The tokens begin with items that complete the innermost container. -/
def Continues (frames : List Frame) (earlier : List Node) (tokens : List Token)
    (result : List Node × Text) : Prop :=
  ∃ here nodes after left, tokens = here ++ left ∧ Items here nodes after ∧
    Resumes frames (earlier.reverse ++ nodes) after left result

/-- A node that is read from the tokens in front stands before what is read from the others. -/
theorem Continues.cons {frames : List Frame} {earlier : List Node} {front rest : List Token}
    {node : Node} {result : List Node × Text}
    (hi : ∀ {rest nodes after}, Items rest nodes after →
      Items (front ++ rest) (node :: nodes) after)
    (h : Continues frames (node :: earlier) rest result) :
    Continues frames earlier (front ++ rest) result := by
  obtain ⟨here, nodes, after, left, rfl, hh, hr⟩ := h
  refine ⟨front ++ here, node :: nodes, after, left, by simp, hi hh, ?_⟩
  simpa using hr

/-- A run that is at the end, or in front of a closing brace, completes the innermost container. -/
theorem resumes_of_run {frames : List Frame} {earlier : List Node} {filler : Text}
    {left : List Token} {result : List Node × Text} (hl : AtClose left)
    (h : Builder.run ⟨frames, earlier, filler⟩ (pieces left) = .ok result) :
    Resumes frames earlier.reverse filler left result := by
  rcases hl with rfl | ⟨close, later, rfl, hc⟩
  · rw [pieces, Builder.run] at h
    cases frames with
    | nil => cases h; exact ⟨rfl, rfl⟩
    | cons frame frames => cases h
  · rw [pieces_closing _ hc, Builder.run] at h
    cases frames with
    | nil => cases h
    | cons frame frames => exact ⟨close, later, rfl, hc, h⟩

section
variable {n : Nat} {tokens fs : List Token} {frames : List Frame} {earlier : List Node}
  {result : List Node × Text}

/-- Every run over at most `n` tokens that ends well follows the grammar. -/
def FollowsWithin (n : Nat) : Prop :=
  ∀ {tokens fs : List Token} {frames : List Frame} {earlier : List Node}
    {result : List Node × Text}, tokens.length ≤ n → (∀ token ∈ tokens, token.kind ≠ .eof) →
    (∀ token ∈ fs, token.isFiller = true) →
    Builder.run ⟨frames, earlier, Token.textOf fs⟩ (pieces tokens) = .ok result →
    Continues frames earlier (fs ++ tokens) result

/-- A run that goes on after a node, with no filler yet. -/
theorem FollowsWithin.rest (ih : FollowsWithin n) {rest : List Token} (hl : rest.length ≤ n)
    (he : ∀ token ∈ rest, token.kind ≠ .eof)
    (h : Builder.run ⟨frames, earlier, []⟩ (pieces rest) = .ok result) :
    Continues frames earlier rest result :=
  @ih rest [] frames earlier result hl he nofun h

/-- A block is followed first to its closing brace, then from there on. -/
theorem FollowsWithin.block (ih : FollowsWithin n) (prelude : List Token) {later : List Token}
    {brace : Token} (hl : later.length ≤ n) (he : ∀ token ∈ later, token.kind ≠ .eof)
    (hf : ∀ token ∈ fs, token.isFiller = true)
    (h₁ : ∀ token, prelude.head? = some token → token.startsRun = true) (hr : Unbroken 0 prelude)
    (hb : brace.kind = .openBrace)
    (h : Builder.run ⟨frames, earlier, Token.textOf fs⟩ (pieces (prelude ++ brace :: later)) =
      .ok result) :
    Continues frames earlier (fs ++ (prelude ++ brace :: later)) result := by
  rw [pieces_prelude h₁ hr hb, Builder.run] at h
  obtain ⟨inner, body, bodyAfter, left, rfl, hi, close, rest, rfl, hc, hrun⟩ := ih.rest hl he h
  have hl' : rest.length ≤ n := by simp at hl; omega
  have ht := ih.rest hl' (fun t ht => he t (by simp [ht])) hrun
  rw [block_append]
  refine Continues.cons (fun t => ?_) ht
  simpa using Items.block hf h₁ hr hb hi hc t

/-- A statement without a semicolon is read as a node, and the building goes on behind it. -/
theorem continues_loose {first : Token} {others left : List Token}
    (hf : ∀ token ∈ fs, token.isFiller = true) (h₁ : first.startsRun = true)
    (hr : Unbroken 0 (first :: others)) (hl : AtClose left)
    (h : Builder.run ⟨frames, earlier, Token.textOf fs⟩ (pieces (first :: (others ++ left))) =
      .ok result) :
    Continues frames earlier (fs ++ first :: (others ++ left)) result := by
  rw [pieces_loose h₁ hr hl, Builder.run] at h
  simp only [Builder.step, Option.isSome_none] at h
  cases hn : Node.ofStatement? (Token.textOf fs) first others false with
  | none => rw [hn] at h; cases h
  | some node =>
      rw [hn] at h
      have hres := resumes_of_run hl h
      refine ⟨fs ++ first :: others, [node], [], left, by simp, .loose hf h₁ hr hn, ?_⟩
      simpa using hres

theorem FollowsWithin.statement (ih : FollowsWithin n) {first semicolon : Token}
    {others later : List Token} (hl : later.length ≤ n) (he : ∀ token ∈ later, token.kind ≠ .eof)
    (hf : ∀ token ∈ fs, token.isFiller = true) (h₁ : first.startsRun = true)
    (hr : Unbroken 0 (first :: others)) (hd : depthThrough 0 (first :: others) = 0)
    (hk : semicolon.kind = .semicolon)
    (h : Builder.run ⟨frames, earlier, Token.textOf fs⟩
      (pieces (first :: (others ++ semicolon :: later))) = .ok result) :
    Continues frames earlier (fs ++ first :: (others ++ semicolon :: later)) result := by
  rw [pieces_statement h₁ hr hd hk, Builder.run] at h
  simp only [Builder.step, Option.isSome_some] at h
  cases hn : Node.ofStatement? (Token.textOf fs) first others true with
  | none => rw [hn] at h; cases h
  | some node =>
      rw [hn] at h
      rw [statement_append]
      refine Continues.cons (fun t => ?_) (ih.rest hl he h)
      simpa using Items.statement hf h₁ hr hd hk hn t

/-- **A run that ends well follows the grammar**: from any point on, the tokens begin with items
that complete the innermost container. -/
theorem follows_within : ∀ n, FollowsWithin n := by
  intro n
  -- on the number of tokens left, since a block leaves its whole rest to a later run
  induction n with
  | zero =>
      intro tokens fs frames earlier result hl _ hf h
      obtain rfl := List.eq_nil_of_length_eq_zero (Nat.le_zero.1 hl)
      have hres := resumes_of_run (.inl rfl) h
      exact ⟨fs, [], _, [], rfl, .last hf, by simpa using hres⟩
  | succ n ih =>
      intro tokens fs frames earlier result hl he hf h
      cases tokens with
      | nil => exact ih (Nat.zero_le n) he hf h
      | cons token rest =>
          obtain ⟨piece, left, hb⟩ := exists_begins he
          have hleft : left.length ≤ n := Nat.le_of_lt_succ (Nat.lt_of_lt_of_le hb.length_lt hl)
          have heleft := hb.ne_eof he
          generalize token :: rest = tokens at h hb ⊢
          cases hb with
          | @filler token _ hft =>
              rw [pieces_filler _ hft, Builder.run] at h
              have hfs : ∀ t ∈ fs ++ [token], t.isFiller = true := by
                intro t ht
                rcases List.mem_append.1 ht with ht | ht
                · exact hf t ht
                · rw [List.mem_singleton.1 ht]; exact hft
              have hrun : Continues frames earlier (fs ++ [token] ++ left) result := by
                refine ih hleft heleft hfs ?_
                rw [Token.textOf_append, Token.textOf_cons, Token.textOf_nil, List.append_nil]
                exact h
              simpa using hrun
          | @comment token inline _ hk =>
              rw [pieces_comment _ hk, Builder.run] at h
              rw [List.append_cons]
              refine Continues.cons (fun t => ?_) (ih.rest hleft heleft h)
              simpa using Items.comment hf hk t
          | closing hk =>
              have hres := resumes_of_run (.inr ⟨_, _, rfl, hk⟩) h
              exact ⟨fs, [], _, _, rfl, .last hf, by simpa using hres⟩
          | opening h₁ hr hk =>
              exact ih.block _ hleft heleft hf h₁ hr hk h
          | statement h₁ hr hd hk =>
              exact ih.statement hleft heleft hf h₁ hr hd hk h
          | loose h₁ hr ha => exact continues_loose hf h₁ hr ha h

end

/-- **The builder reads the grammar**: tokens form a sheet when they are items, and the sheet holds
the nodes of these items. -/
theorem Sheet.ofTokens_eq_ok_iff {bom : Bool} {tokens : List Token} {sheet : Sheet}
    (he : ∀ token ∈ tokens, token.kind ≠ .eof) :
    Sheet.ofTokens bom tokens = .ok sheet ↔
      sheet.bom = bom ∧ Items tokens sheet.nodes sheet.after := by
  rw [Sheet.ofTokens]
  constructor
  · intro h
    split at h
    · cases h
    · next nodes after hr =>
      cases h
      obtain ⟨here, nodes', after', left, rfl, hi, rfl, hres⟩ :=
        FollowsWithin.rest (follows_within tokens.length) (Nat.le_refl _) he hr
      cases hres
      exact ⟨rfl, by simpa using hi⟩
  · rintro ⟨rfl, hi⟩
    have hr := hi.run [] [] [] (.inl rfl)
    simp only [List.append_nil] at hr
    rw [Builder.empty, hr, pieces, Builder.run]
    simp [Builder.finish]

end Restyle
