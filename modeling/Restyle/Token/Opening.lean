import Restyle.Token.Delimited

/-!
# What opens where

The classes of characters that tokens are made of, and what the first characters of a text
announce.  A word goes on until something else than a word or an at-word opens.
-/

namespace Restyle

/-! ### Character classes -/

/-- The characters that separate tokens. -/
def isSpace (c : Char) : Bool :=
  c == ' ' || c == '\t' || c == '\n' || c == '\r' || c == '\x0c'

/-- The characters that continue a name after an at sign. -/
def isNameChar (c : Char) : Bool :=
  c.isAlphanum || c == '-' || c == '_' || 0x80 ≤ c.toNat

/-- The characters that end a line comment. -/
def isLineEnd (c : Char) : Bool := c == '\n' || c == '\r'

/-- The kind of a character that is a token by itself. -/
def punctuation? : Char → Option Kind
  | ':' => some .colon
  | ';' => some .semicolon
  | '{' => some .openBrace
  | '}' => some .closeBrace
  | '(' => some .openParen
  | ')' => some .closeParen
  | _   => none

/-! ### Openings -/

/-- What the first characters of a text announce. -/
inductive Opening where
  | space
  | blockComment
  | lineComment
  | string
  | atWord
  | punctuation (kind : Kind)
  | word
deriving DecidableEq, Repr

/-- What the character `c`, followed by `rest`, announces. -/
def Opening.of (dialect : Dialect) (c : Char) (rest : Text) : Opening :=
  if isSpace c then .space
  else if c == '/' && rest.head? == some '*' then .blockComment
  else if c == '/' && rest.head? == some '/' && dialect == .scss then .lineComment
  else if isQuote c then .string
  else if c == '@' && rest.head?.any isNameChar then .atWord
  else match punctuation? c with
    | some kind => .punctuation kind
    | none      => .word

/-- No word goes on with this text: it is at its end, or something else than a word or an at-word
opens. -/
def endsWord (dialect : Dialect) : Text → Bool
  | []        => true
  | c :: rest =>
    match Opening.of dialect c rest with
    | .word | .atWord => false
    | _               => true

end Restyle
