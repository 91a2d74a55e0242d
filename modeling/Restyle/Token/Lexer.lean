import Restyle.Token.Word

/-!
# Reading tokens

`Lexeme.read` takes one lexeme off the front of a text, `lexemes` all of them, and `tokenize` adds
positions and the token that marks the end.  Lexemes know nothing of positions, so reading a
suffix gives a suffix of the lexemes.

A text is rejected only for a construct that is never closed.  The failure keeps the text from the
first character of that construct on; its position follows from what stands before it.
-/

namespace Restyle

/-! ### Lexemes -/

/-- The first lexeme of the text `c :: rest`, and the text after it. -/
def Lexeme.read (dialect : Dialect) (c : Char) (rest : Text) : Except Failure (Lexeme × Text) :=
  match Opening.of dialect c rest with
  | .space            => .ok (⟨.space, c :: rest.takeWhile isSpace⟩, rest.dropWhile isSpace)
  | .blockComment     =>
    match throughComment (rest.drop 1) with
    | none     => .error ⟨.comment, c :: rest⟩
    | some cut => .ok (⟨.comment false, c :: (rest.take 1 ++ cut.taken)⟩, cut.rest)
  | .lineComment      =>
    .ok (⟨.comment true, c :: rest.takeWhile (!isLineEnd ·)⟩, rest.dropWhile (!isLineEnd ·))
  | .string           =>
    match throughQuote c rest with
    | none     => .error ⟨.string, c :: rest⟩
    | some cut => .ok (⟨.string, c :: cut.taken⟩, cut.rest)
  | .atWord           =>
    .ok (⟨.atWord (rest.takeWhile isNameChar), c :: rest.takeWhile isNameChar⟩,
      rest.dropWhile isNameChar)
  | .punctuation kind => .ok (⟨kind, [c]⟩, rest)
  | .word             =>
    (readWord dialect (c :: rest)).map fun cut => (⟨.word, cut.taken⟩, cut.rest)

/-! ### Nothing is lost, and every lexeme takes something -/

/-- What `read` takes, followed by what it leaves, is the text. -/
theorem Lexeme.text_append_of_read {dialect : Dialect} {c : Char} {rest : Text}
    {lexeme : Lexeme} {left : Text} (h : Lexeme.read dialect c rest = .ok (lexeme, left)) :
    lexeme.text ++ left = c :: rest := by
  unfold Lexeme.read at h
  split at h
  · cases h; simp
  · split at h
    · cases h
    · next cut hc =>
      cases h
      have hw := whole_of_throughComment hc
      simp only [Cut.whole] at hw
      simp only [List.cons_append, List.append_assoc, hw, List.take_append_drop]
  · cases h; simp
  · split at h
    · cases h
    · next cut hc =>
      cases h
      have hw := whole_of_throughQuote hc
      simpa [Cut.whole] using hw
  · cases h; simp
  · cases h; rfl
  · cases hw : readWord dialect (c :: rest) with
    | error f => rw [hw] at h; cases h
    | ok cut => rw [hw] at h; cases h; exact whole_of_readWord hw

/-- No lexeme is empty. -/
theorem Lexeme.text_ne_nil_of_read {dialect : Dialect} {c : Char} {rest : Text}
    {lexeme : Lexeme} {left : Text} (h : Lexeme.read dialect c rest = .ok (lexeme, left)) :
    lexeme.text ≠ [] := by
  unfold Lexeme.read at h
  split at h
  · cases h; simp
  · split at h <;> cases h; simp
  · cases h; simp
  · split at h <;> cases h; simp
  · cases h; simp
  · cases h; simp
  · next ho =>
    cases hw : readWord dialect (c :: rest) with
    | error f => rw [hw] at h; cases h
    | ok cut =>
        rw [hw] at h; cases h
        exact taken_ne_nil_of_readWord (by simp [endsWord, ho]) hw

/-- Reading a lexeme leaves a shorter text. -/
theorem Lexeme.length_lt_of_read {dialect : Dialect} {c : Char} {rest : Text}
    {lexeme : Lexeme} {left : Text} (h : Lexeme.read dialect c rest = .ok (lexeme, left)) :
    left.length < (c :: rest).length := by
  have := List.length_pos_iff.2 (Lexeme.text_ne_nil_of_read h)
  rw [← Lexeme.text_append_of_read h, List.length_append]
  omega

/-! ### Whole texts -/

/-- The lexemes of a text. -/
def lexemes (dialect : Dialect) (text : Text) : Except Failure (List Lexeme) :=
  match text with
  | []        => .ok []
  | c :: rest =>
    match _h : Lexeme.read dialect c rest with
    | .error failure      => .error failure
    | .ok (lexeme, later) => (lexemes dialect later).map (lexeme :: ·)
termination_by text.length
decreasing_by exact Lexeme.length_lt_of_read _h

/-- The first character of lexemes that stand side by side. -/
def firstChar? : List Lexeme → Option Char
  | []          => none
  | lexeme :: _ => lexeme.text.head?

/-- The lexemes as tokens, the first one at `p`. -/
def locate (p : Position) : List Lexeme → List Token
  | []             => []
  | lexeme :: rest => ⟨lexeme, p⟩ :: locate (p.past lexeme.text (firstChar? rest)) rest

/-- Why a text has no tokens, and where. -/
structure LexError where
  construct : Unclosed
  position : Position
deriving DecidableEq, Repr

/-- The error of a failure to read `source`. -/
def Failure.toError (source : Text) (failure : Failure) : LexError :=
  let before := source.take (source.length - failure.rest.length)
  ⟨failure.construct, Position.start.past before failure.rest.head?⟩

/-- The message shown for an error. -/
def LexError.message (e : LexError) : String :=
  s!"Lexer error at line {e.position.line}, column {e.position.column}: {e.construct.detail}"

namespace Token

/-- The tokens of a text, without the one that marks its end. -/
def scan (dialect : Dialect) (source : Text) : Except LexError (List Token) :=
  match lexemes dialect source with
  | .error failure => .error (failure.toError source)
  | .ok ls         => .ok (locate .start ls)

/-- The token that marks the end of a text. -/
def endOf (source : Text) : Token := ⟨⟨.eof, []⟩, Position.start.past source none⟩

/-- The tokens of a text.  The last one marks its end. -/
def tokenize (dialect : Dialect) (source : Text) : Except LexError (List Token) :=
  (scan dialect source).map (· ++ [endOf source])

end Token

end Restyle
