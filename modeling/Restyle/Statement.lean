import Restyle.Token.Basic

/-!
# Statements

Tokens are grouped into pieces before any of them is read as a rule or a declaration.  A piece is
white space or a stray semicolon, a comment, a brace with the run of tokens before it, a closing
brace, or a run that ends without a brace.  What ends a run decides what it is: a run before `{` is
the prelude of a block, any other is a statement of its own.

Grouping never fails.  Every token belongs to one piece, in order.
-/

namespace Restyle

/-- Tokens that are read together. -/
inductive Piece where
  /-- White space or a semicolon between statements. -/
  | filler (token : Token)
  /-- A comment between statements. -/
  | comment (token : Token) (inline : Bool)
  /-- A block opens: its prelude, which may be empty, and its brace. -/
  | opening (prelude : List Token) (brace : Token)
  /-- A block closes. -/
  | closing (brace : Token)
  /-- A statement without a block, and its semicolon if it has one. -/
  | statement (first : Token) (others : List Token) (semicolon : Option Token)
deriving DecidableEq, Repr

/-- The tokens of a piece. -/
def Piece.tokens : Piece → List Token
  | .filler token                     => [token]
  | .comment token _                  => [token]
  | .opening prelude brace            => prelude ++ [brace]
  | .closing brace                    => [brace]
  | .statement first others semicolon => first :: (others ++ semicolon.toList)

namespace Token

/-- The depth of parentheses after a token.  A closing one with none open changes nothing. -/
def depthAfter (depth : Nat) (token : Token) : Nat :=
  match token.kind with
  | .openParen  => depth + 1
  | .closeParen => depth - 1
  | _           => depth

/-- A run ends before the token: a brace at any depth, a semicolon outside parentheses. -/
def endsRun (depth : Nat) (token : Token) : Bool :=
  match token.kind with
  | .openBrace | .closeBrace | .eof => true
  | .semicolon                      => depth == 0
  | _                               => false

end Token

/-- The tokens up to the end of the run, and those from its end on. -/
def splitRun : Nat → List Token → List Token × List Token
  | _,     []            => ([], [])
  | depth, token :: rest =>
    if token.endsRun depth then ([], token :: rest)
    else
      let (run, left) := splitRun (token.depthAfter depth) rest
      (token :: run, left)

theorem splitRun_append (depth : Nat) (tokens : List Token) :
    (splitRun depth tokens).1 ++ (splitRun depth tokens).2 = tokens := by
  fun_induction splitRun depth tokens with
  | case1 => rfl
  | case2 => rfl
  | case3 depth token rest _ run left hs ih =>
      rw [hs] at ih
      simpa using ih

/-- What follows the token that ends a run is shorter than the tokens the run was taken from. -/
theorem length_lt_of_splitRun {depth : Nat} {tokens run later : List Token} {stop : Token}
    (h : splitRun depth tokens = (run, stop :: later)) : later.length < tokens.length := by
  have := congrArg List.length (splitRun_append depth tokens)
  rw [h] at this
  simp at this; omega

/-- The pieces that tokens form. -/
def pieces (tokens : List Token) : List Piece :=
  match tokens with
  | []            => []
  | token :: rest =>
    match token.kind with
    | .space | .semicolon => .filler token :: pieces rest
    | .comment inline     => .comment token inline :: pieces rest
    | .closeBrace         => .closing token :: pieces rest
    | .openBrace          => .opening [] token :: pieces rest
    | .eof                => pieces rest
    | _                   =>
      match _h : splitRun (token.depthAfter 0) rest with
      | (run, [])            => [.statement token run none]
      | (run, stop :: later) =>
        match stop.kind with
        | .openBrace => .opening (token :: run) stop :: pieces later
        | .semicolon => .statement token run (some stop) :: pieces later
        | _          => .statement token run none :: pieces (stop :: later)
termination_by tokens.length
decreasing_by
  · simp
  · simp
  · simp
  · simp
  · simp
  · have := length_lt_of_splitRun _h; simp; omega
  · have := length_lt_of_splitRun _h; simp; omega
  · have := length_lt_of_splitRun _h; simp; omega

end Restyle
