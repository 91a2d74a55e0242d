import Restyle.Proofs.Indexed.Cursor
import Restyle.Sheet.Basic

/-!
# Reading tokens by index

A token can be told without its text: by its kind and by where it stands.  The cursor goes from one token
to the next, and where a reader has no result, nothing has.

* `Cursor.readToken_between`: **a token is read by index** as it is read off the front of a text.
* `Indexed.tokenize_eq`: **no access is out of range**, and the tokens are the same.
-/

namespace Restyle

/-- A token without its text: what it is and where it stands. -/
structure Mark where
  kind : Kind
  span : Span
deriving DecidableEq, Repr

/-- The token without its text. -/
def Token.mark (token : Token) : Mark := ⟨token.kind, token.span⟩

namespace Cursor

section
variable (chars : Text)

/-- The kind of the token at the cursor, and the cursor behind it. -/
def readToken (dialect : Dialect) (c : Cursor) : Option (Except LexError (Kind × Cursor)) :=
  match Opening.of dialect (c.peek chars) [c.peekNext chars] with
  | .space            => some (.ok (.space, (c.gather chars fun d _ => isSpace d).2))
  | .blockComment     =>
    let stop := (((c.advance chars).advance chars).gather chars fun d next =>
      !(d == '*' && next == '/')).2
    if stop.atEnd chars then some (.error ⟨.comment, c.place⟩)
    else some (.ok (.comment false, (stop.advance chars).advance chars))
  | .lineComment      => some (.ok (.comment true, (c.gather chars fun d _ => !isLineEnd d).2))
  | .string           =>
    let stop := (c.advance chars).quoted chars (c.peek chars)
    if stop.atEnd chars then some (.error ⟨.string, c.place⟩)
    else some (.ok (.string, stop.advance chars))
  | .atWord           =>
    let (name, stop) := (c.advance chars).gather chars fun d _ => isNameChar d
    some (.ok (.atWord name, stop))
  | .punctuation kind => some (.ok (kind, c.advance chars))
  | .word             =>
    match c.word chars dialect with
    | .error e => some (.error e)
    | .ok stop => (stop.urlArgument chars c.place).map (·.map fun stop => (.word, stop))

/-- The tokens from the cursor on, with the one that marks the end.  A token that takes nothing would
be read for ever, so it has no result. -/
def tokens (dialect : Dialect) (c : Cursor) : Option (Except LexError (List Mark)) :=
  if _h : c.pos < chars.length then
    match c.readToken chars dialect with
    | none                    => none
    | some (.error e)         => some (.error e)
    | some (.ok (kind, stop)) =>
      if _hs : c.pos < stop.pos then
        (tokens dialect stop).map (·.map (⟨kind, ⟨c.place, stop.place.offset⟩⟩ :: ·))
      else none
  else some (.ok [⟨.eof, ⟨c.place, c.place.offset⟩⟩])
termination_by chars.length - c.pos

end

/-! ### Tokens -/

/-- A block comment is passed with its end, or the text ends first. -/
theorem comment_between (before rest : Text) :
    let stop := ((between before rest).gather (before ++ rest) fun d next =>
      !(d == '*' && next == '/')).2
    (throughComment rest = none ∧ stop.atEnd (before ++ rest) = true) ∨
      ∃ cut, throughComment rest = some cut ∧ stop.atEnd (before ++ rest) = false ∧
        (stop.advance (before ++ rest)).advance (before ++ rest) =
          between (before ++ cut.taken) cut.rest := by
  intro stop
  have hend : stop.atEnd (before ++ rest) = _ := atEnd_gather _ before rest
  rcases Text.throughComment_spanNext rest with ⟨hn, hr⟩ | ⟨inner, left, hs, ht⟩
  · exact .inl ⟨hn, by rw [hend, hr]; rfl⟩
  · refine .inr ⟨_, ht, by rw [hend, hs]; rfl, ?_⟩
    have hw : before ++ rest = before ++ inner ++ ['*'] ++ '/' :: left := by
      rw [← Text.whole_spanNext (fun d next => !(d == '*' && next == '/')) rest, hs, Cut.whole]
      simp
    have hstar : stop.advance (before ++ rest) = _ := advance_gather hs before
    rw [hstar, hw, advance_between]
    simp

/-- A string is passed with its closing quote, or the text ends first. -/
theorem string_between {quote : Char} (hq : isQuote quote = true) (before rest : Text) :
    let stop := (between before rest).quoted (before ++ rest) quote
    (throughQuote quote rest = none ∧ stop.atEnd (before ++ rest) = true) ∨
      ∃ cut, throughQuote quote rest = some cut ∧ stop.atEnd (before ++ rest) = false ∧
        stop.advance (before ++ rest) = between (before ++ cut.taken) cut.rest := by
  intro stop
  rcases quoted_between hq before rest with ⟨hn, he⟩ | ⟨inner, left, ht, he⟩
  · refine .inl ⟨hn, ?_⟩
    rw [show stop = _ from he, atEnd, between]
    exact decide_eq_true (Nat.le_refl _)
  · have hw : before ++ rest = before ++ inner ++ quote :: left := by
      rw [← whole_of_throughQuote ht, Cut.whole]
      simp
    refine .inr ⟨_, ht, ?_, ?_⟩
    · rw [show stop = _ from he, hw, atEnd_between]
      rfl
    · rw [show stop = _ from he, hw, advance_between]
      simp

/-- **A token is read by index** as it is read off the front of a text. -/
theorem readToken_between (dialect : Dialect) (before : Text) (c : Char) (rest : Text) :
    (between before (c :: rest)).readToken (before ++ c :: rest) dialect =
      some (match Lexeme.read dialect c rest with
        | .error failure      => .error (failure.toError (before ++ c :: rest))
        | .ok (lexeme, later) => .ok (lexeme.kind, between (before ++ lexeme.text) later)) := by
  have hs := Opening.shows_of dialect c rest
  rw [readToken, peek_cons, peekNext_cons, opening_of_head, Lexeme.read]
  cases ho : Opening.of dialect c rest with
  | space =>
      rw [ho] at hs
      simp only [gather_between, Text.spanNext_eq, List.takeWhile_cons_of_pos hs,
        List.dropWhile_cons_of_pos hs]
  | blockComment =>
      rw [ho] at hs
      obtain ⟨rfl, hs⟩ := hs
      obtain ⟨tail, rfl⟩ := List.head?_eq_some_iff.1 hs
      have hchars : before ++ '/' :: '*' :: tail = before ++ ['/', '*'] ++ tail := by simp
      have htwice : ((between before ('/' :: '*' :: tail)).advance
          (before ++ '/' :: '*' :: tail)).advance (before ++ '/' :: '*' :: tail) =
          between (before ++ ['/', '*']) tail := by
        rw [advance_between, List.append_cons, advance_between, List.append_assoc]
        rfl
      dsimp only
      rw [htwice, hchars, ← toError_between, hchars]
      rcases comment_between (before ++ ['/', '*']) tail with ⟨hn, he⟩ | ⟨cut, hc, he, hstop⟩
      · rw [if_pos he, List.drop_one, List.tail_cons, hn]
      · rw [he, if_neg Bool.false_ne_true, hstop, List.drop_one, List.tail_cons, hc]
        simp
  | lineComment =>
      rw [ho] at hs
      obtain ⟨rfl, -⟩ := hs
      simp only [gather_between, Text.spanNext_eq]
      rfl
  | string =>
      rw [ho] at hs
      dsimp only
      rw [advance_between, ← toError_between, List.append_cons]
      rcases string_between hs (before ++ [c]) rest with ⟨hn, he⟩ | ⟨cut, hc, he, hstop⟩
      · rw [if_pos he, hn]
      · rw [he, if_neg Bool.false_ne_true, hstop, hc]
        simp
  | atWord =>
      dsimp only
      rw [advance_between, List.append_cons, gather_between, Text.spanNext_eq]
      simp
  | punctuation kind => rw [advance_between]
  | word =>
      dsimp only
      rw [word_between]
      cases hb : wordBody dialect (c :: rest) with
      | error failure => rw [readWord, hb]; rfl
      | ok body =>
          dsimp only
          rw [urlArgument_between hb]
          cases readWord dialect (c :: rest) <;> rfl

/-- The tokens that follow begin with the first character that follows. -/
theorem firstChar?_of_lexemes {dialect : Dialect} {text : Text} {ls : List Lexeme}
    (h : lexemes dialect text = .ok ls) : firstChar? ls = text.head? := by
  have hr := lexemes_eq_ok_iff.1 h
  cases hr with
  | done => rfl
  | more hread t =>
      obtain ⟨c, rest, hl⟩ := List.exists_cons_of_ne_nil (Lexeme.text_ne_nil_of_read hread)
      have hw := Lexeme.text_append_of_read hread
      rw [hl, List.cons_append] at hw
      rw [firstChar?, hl, ← hw]
      rfl

/-- The cursor behind a part of a text stands where that part ends. -/
theorem place_between_append (before part rest : Text) :
    (between (before ++ part) rest).place =
      (between before (part ++ rest)).place.past part rest.head? := by
  rw [between, between, Position.past_append, List.head?_append]

/-- **The tokens are read by index** as they are read off the text, and are at the same places. -/
theorem tokens_between (dialect : Dialect) (before rest : Text) :
    (between before rest).tokens (before ++ rest) dialect =
      some (match lexemes dialect rest with
        | .error failure => .error (failure.toError (before ++ rest))
        | .ok ls         => .ok ((locate (between before rest).place ls ++
            [Token.endOf (before ++ rest)]).map Token.mark)) := by
  fun_induction lexemes dialect rest generalizing before with
  | case1 =>
      rw [tokens, dif_neg (by simp [between]), List.append_nil]
      rfl
  | case2 c rest failure h =>
      rw [tokens, dif_pos pos_between_lt, readToken_between, h]
  | case3 c rest l later h ih =>
      have hchars : before ++ c :: rest = before ++ l.text ++ later := by
        rw [List.append_assoc, Lexeme.text_append_of_read h]
      have hmore : (between before (c :: rest)).pos < (between (before ++ l.text) later).pos := by
        have := List.length_pos_iff.2 (Lexeme.text_ne_nil_of_read h)
        simp only [between, List.length_append]
        omega
      have hplace : (between (before ++ l.text) later).place =
          (between before (c :: rest)).place.past l.text later.head? := by
        rw [place_between_append, Lexeme.text_append_of_read h]
      rw [tokens, dif_pos pos_between_lt, readToken_between, h]
      dsimp only
      rw [dif_pos hmore, hchars, ih]
      cases hl : lexemes dialect later with
      | error failure => rfl
      | ok ls =>
          have hspan : Token.mark ⟨l, (between before (c :: rest)).place⟩ =
              ⟨l.kind, ⟨(between before (c :: rest)).place,
                (between (before ++ l.text) later).place.offset⟩⟩ := by
            rw [hplace, Position.offset_past]
            rfl
          simp only [Option.map_some, Except.map, locate, List.cons_append, List.map_cons, hspan,
            firstChar?_of_lexemes hl, hplace]

end Cursor

namespace Indexed

/-- The tokens of a text by index, with the one that marks the end. -/
def tokenize (dialect : Dialect) (source : Text) : Option (Except LexError (List Mark)) :=
  Cursor.tokens source dialect ⟨0, .start⟩

/-- **No access is out of range**, and the tokens are those of the text. -/
theorem tokenize_eq (dialect : Dialect) (source : Text) :
    tokenize dialect source = some ((Token.tokenize dialect source).map (·.map Token.mark)) := by
  have h := Cursor.tokens_between dialect [] source
  rw [List.nil_append] at h
  rw [tokenize, Token.tokenize, Token.scan]
  refine Eq.trans h ?_
  cases lexemes dialect source <;> rfl

end Indexed

end Restyle
