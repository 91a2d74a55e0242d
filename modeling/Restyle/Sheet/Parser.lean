import Restyle.Sheet.Printer
import Restyle.Statement
import Restyle.Text.Blank
import Restyle.Token.Lexer

/-!
# Reading sheets

A sheet is read piece by piece.  The builder holds the blocks that are still open, the nodes of the
innermost one so far, and the filler that the next node will take.  A piece is rejected when it
comes: a closing brace with no block to close, or a statement that is no declaration.  A block that
is never closed is noticed at the end.  So the error reported is the first one of the text.
-/

namespace Restyle

/-! ### Errors -/

/-- What is wrong with a text that is no sheet. -/
inductive Cause where
  | unclosed (construct : Unclosed)
  | unclosedBlock
  | unexpectedBrace
  | unknownWord
deriving DecidableEq, Repr

/-- What is wrong, in a message. -/
def Cause.detail : Cause → String
  | .unclosed construct => construct.detail
  | .unclosedBlock      => "Unclosed block"
  | .unexpectedBrace    => "Unexpected \x7d"
  | .unknownWord        => "Unknown word"

/-- Why a text is no sheet, and where. -/
structure ParseError where
  cause : Cause
  position : Position
deriving DecidableEq, Repr

/-- The message shown for an error. -/
def ParseError.message (e : ParseError) : String :=
  s!"Parse error at line {e.position.line}, column {e.position.column}: {e.cause.detail}"

/-- A text without tokens is no sheet, for the same reason at the same place. -/
def LexError.toParseError (e : LexError) : ParseError := ⟨.unclosed e.construct, e.position⟩

/-! ### Heads, declarations and comments from tokens -/

/-- The text of a comment token without its delimiters. -/
def Comment.ofToken (before : Text) (token : Token) (inline : Bool) : Comment where
  before := before
  text := if inline then token.text.drop 2 else (token.text.drop 2).dropLast.dropLast
  inline := inline
  source := some token.span

/-- The head of a rule whose prelude is followed by `brace`. -/
def RuleHead.ofPrelude (before : Text) (prelude : List Token) (brace : Token) : RuleHead where
  before := before
  selector := Token.textOf (dropTrailing Token.isSpace prelude)
  between := Token.textOf (takeTrailing Token.isSpace prelude)
  source := some ((prelude.headD brace).span)

/-- An at-rule from its at-word and the tokens after that. -/
def AtHead.ofRun (before name : Text) (word : Token) (run : List Token) (semicolon : Bool) :
    AtHead where
  before := before
  name := name
  afterName := Token.textOf (run.takeWhile Token.isSpace)
  params := Token.textOf (dropTrailing Token.isSpace (run.dropWhile Token.isSpace))
  between := Token.textOf (takeTrailing Token.isSpace (run.dropWhile Token.isSpace))
  semicolon := semicolon
  source := some word.span

/-- The head that a prelude announces: an at-rule when it starts with an at-word. -/
def Head.ofPrelude (before : Text) (prelude : List Token) (brace : Token) : Head :=
  match prelude with
  | []           => .rule (.ofPrelude before [] brace)
  | first :: run =>
    match first.kind with
    | .atWord name => .atRule (.ofRun before name first run false)
    | _            => .rule (.ofPrelude before (first :: run) brace)

/-- A value and whether it was marked as important: the mark is the last thing of the value, in
any case of letters. -/
def splitImportant (value : Text) : Text × Bool :=
  let cut := value.length - importantMark.length
  if Text.sameLetters (value.drop cut) importantMark then (Text.trimEnd (value.take cut), true)
  else (value, false)

/-- The declaration that a statement is, if it is one: a colon, and before it a property that is
not empty and holds no white space. -/
def Declaration.ofRun? (before : Text) (first : Token) (others : List Token) (semicolon : Bool) :
    Option Declaration :=
  let run := first :: others
  match run.dropWhile (·.kind != .colon) with
  | []             => none
  | colon :: right =>
    let left := run.takeWhile (·.kind != .colon)
    let prop := dropTrailing Token.isSpace left
    if prop.isEmpty || prop.any Token.isSpace then none
    else
      let value := right.dropWhile Token.isSpace
      let cleaned := Text.trim (Token.textOf (value.filter (!·.isComment)))
      let (plain, important) := splitImportant cleaned
      some {
        before := before
        prop := Token.textOf prop
        between := Token.textOf
          (takeTrailing Token.isSpace left ++ colon :: right.takeWhile Token.isSpace)
        value := plain
        important := important
        spelling := some ⟨plain, Token.textOf value⟩
        semicolon := semicolon
        source := some first.span }

/-- The node that a statement without a block is, if it is one. -/
def Node.ofStatement? (before : Text) (first : Token) (others : List Token) (semicolon : Bool) :
    Option Node :=
  match first.kind with
  | .atWord name => some (.atStatement (.ofRun before name first others semicolon))
  | _            => (Declaration.ofRun? before first others semicolon).map .declaration

/-! ### The builder -/

/-- A block that is still open: its head, its brace, and the nodes before it in its container,
last one first. -/
structure Frame where
  head : Head
  brace : Token
  earlier : List Node

/-- A sheet that is being read. -/
structure Builder where
  /-- The open blocks, innermost first. -/
  frames : List Frame
  /-- The nodes read so far in the innermost block, last one first. -/
  nodes : List Node
  /-- The filler since the last node. -/
  filler : Text

namespace Builder

/-- Before the first piece. -/
def empty : Builder := ⟨[], [], []⟩

/-- The builder with one more node in the innermost block. -/
def push (b : Builder) (node : Node) : Builder := ⟨b.frames, node :: b.nodes, []⟩

/-- The builder after one more piece. -/
def step (b : Builder) : Piece → Except ParseError Builder
  | .filler token                     => .ok { b with filler := b.filler ++ token.text }
  | .comment token inline             => .ok (b.push (.comment (.ofToken b.filler token inline)))
  | .opening prelude brace            =>
    .ok ⟨⟨.ofPrelude b.filler prelude brace, brace, b.nodes⟩ :: b.frames, [], []⟩
  | .closing brace                    =>
    match b.frames with
    | []              => .error ⟨.unexpectedBrace, brace.start⟩
    | frame :: frames =>
      .ok ⟨frames, .block frame.head b.nodes.reverse b.filler :: frame.earlier, []⟩
  | .statement first others semicolon =>
    match Node.ofStatement? b.filler first others semicolon.isSome with
    | none      => .error ⟨.unknownWord, first.start⟩
    | some node => .ok (b.push node)

/-- The nodes of the sheet and the filler after them. -/
def finish (b : Builder) : Except ParseError (List Node × Text) :=
  match b.frames with
  | []         => .ok (b.nodes.reverse, b.filler)
  | frame :: _ => .error ⟨.unclosedBlock, frame.brace.start⟩

/-- Reads the remaining pieces. -/
def run (b : Builder) : List Piece → Except ParseError (List Node × Text)
  | []            => b.finish
  | piece :: rest =>
    match b.step piece with
    | .error e => .error e
    | .ok b    => b.run rest

end Builder

/-! ### Sheets -/

namespace Sheet

/-- A text without its byte-order mark, and whether it had one. -/
def splitMark : Text → Bool × Text
  | []        => (false, [])
  | c :: rest => if c = byteOrderMark then (true, rest) else (false, c :: rest)

/-- The sheet that tokens form. -/
def ofTokens (bom : Bool) (tokens : List Token) : Except ParseError Sheet :=
  match Builder.empty.run (pieces tokens) with
  | .error e           => .error e
  | .ok (nodes, after) => .ok ⟨bom, nodes, after⟩

/-- The sheet that a text is. -/
def parse (dialect : Dialect) (source : Text) : Except ParseError Sheet :=
  let (bom, text) := splitMark source
  match Token.scan dialect text with
  | .error e   => .error e.toParseError
  | .ok tokens => ofTokens bom tokens

end Sheet

end Restyle
