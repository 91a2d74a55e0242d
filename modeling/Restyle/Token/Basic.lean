import Restyle.Position

/-!
# Tokens

The two dialects of stylesheets, the kinds of token they share, and tokens with their positions.
Nothing of a text is lost in its tokens: white space and comments are tokens too.
-/

namespace Restyle

/-- The two dialects.  Line comments and interpolation belong to SCSS only. -/
inductive Dialect where
  | scss
  | css
deriving DecidableEq, Repr

/-- What a token is. -/
inductive Kind where
  /-- A run of spaces and line ends. -/
  | space
  /-- A comment; `inline` when it runs to the end of its line. -/
  | comment (inline : Bool)
  | word
  /-- A quoted string with its quotes. -/
  | string
  /-- An at sign and the name after it. -/
  | atWord (name : Text)
  | colon
  | semicolon
  | openBrace
  | closeBrace
  | openParen
  | closeParen
  /-- The end of the text. -/
  | eof
deriving DecidableEq, Repr

/-- A kind with the text that has it. -/
structure Lexeme where
  kind : Kind
  text : Text
deriving DecidableEq, Repr

/-- A lexeme and where it starts. -/
structure Token extends Lexeme where
  start : Position
deriving DecidableEq, Repr

namespace Token

/-- The byte offset at which the token ends. -/
def stop (token : Token) : Nat := token.start.offset + token.text.size

/-- The token is white space. -/
def isSpace (token : Token) : Bool := token.kind == .space

/-- The token is a comment of either form. -/
def isComment (token : Token) : Bool :=
  match token.kind with
  | .comment _ => true
  | _          => false

/-- The text of tokens that stand side by side. -/
def textOf (tokens : List Token) : Text := tokens.flatMap (·.text)

end Token

end Restyle
