import Restyle.Proofs.Token.Closing
import Restyle.Proofs.Token.LineColumn

/-!
# Why a text has no tokens

A text is rejected for a construct that nothing closes.  The error names the construct and the place
where it opens, and what stands from there on to the end of the text shows that it is right.

* `LeftOpen dialect detail text`: the construct that the message names opens where the text begins,
  and nothing in the text closes it.
* `Failure.Found dialect text failure`: the failure keeps an end of the text, and that is left open.
* `Lexeme.found_of_read`, `found_of_lexemes`: **every failure to read is found in the text**, for one
  lexeme and for all of them.
* `Token.leftOpen_of_tokenize`: **the error of a text** stands where an editor shows the construct
  that is left open.
-/

namespace Restyle

/-- What a message says of a text: the construct that it names opens where the text begins, and
nothing in the text closes it. -/
inductive LeftOpen (dialect : Dialect) : String → Text → Prop where
  | comment {after : Text} (h : Unended after) :
      LeftOpen dialect "Unclosed comment" ('/' :: '*' :: after)
  | string {quote : Char} {after : Text} (hq : isQuote quote = true) (h : AllEscaped quote after) :
      LeftOpen dialect "Unclosed string" (quote :: after)
  -- in front of a brace that closed it, every brace would have its match
  | interpolation {after : Text} (hd : dialect = .scss)
      (h : ∀ inner rest, after = inner ++ '}' :: rest → ¬ Nested inner) :
      LeftOpen dialect "Unclosed interpolation" ('#' :: '{' :: after)
  | url {name argument : Text} (hu : isUrl name = true) (hq : startsQuoted argument = false)
      (h : ')' ∉ argument) : LeftOpen dialect "Unclosed url()" (name ++ '(' :: argument)

/-- The failure keeps an end of the text, and that is left open as the message says. -/
def Failure.Found (dialect : Dialect) (text : Text) (failure : Failure) : Prop :=
  ∃ front, text = front ++ failure.rest ∧ LeftOpen dialect failure.construct.detail failure.rest

section
variable {dialect : Dialect} {text : Text} {failure : Failure}

/-- What is left open where a text begins is found there. -/
theorem LeftOpen.found {construct : Unclosed} (h : LeftOpen dialect construct.detail text) :
    Failure.Found dialect text ⟨construct, text⟩ := ⟨[], rfl, h⟩

/-- What is found in a text is found in every text that ends in it. -/
theorem Failure.Found.append (h : failure.Found dialect text) (front : Text) :
    failure.Found dialect (front ++ text) := by
  obtain ⟨before, rfl, ho⟩ := h
  exact ⟨front ++ before, by rw [List.append_assoc], ho⟩

/-! ### Words -/

/-- What stops a word in its middle is left open there. -/
theorem found_of_wordBody (h : wordBody dialect text = .error failure) :
    failure.Found dialect text := by
  fun_induction wordBody dialect text with
  | case1 => cases h
  | case2 rest hn =>
      cases h
      exact LeftOpen.found (.interpolation rfl (throughInterpolation_eq_none_iff.1 hn))
  | case3 rest inner hi ih =>
      cases hb : wordBody .scss inner.rest with
      | ok tail => rw [hb] at h; cases h
      | error f =>
          rw [hb] at h; cases h
          rw [← whole_of_throughInterpolation hi]
          exact (ih hb).append ('#' :: '{' :: inner.taken)
  | case4 => cases h
  | case5 dialect c rest _ _ ih =>
      cases hb : wordBody dialect rest with
      | ok tail => rw [hb] at h; cases h
      | error f => rw [hb] at h; cases h; exact (ih hb).append [c]

theorem found_of_readWord (h : readWord dialect text = .error failure) :
    failure.Found dialect text := by
  unfold readWord at h
  split at h
  · next f hb => cases h; exact found_of_wordBody hb
  · next body hb =>
    split at h
    · next argument ha =>
      split at h
      · next hu =>
        rw [Bool.and_eq_true, Bool.not_eq_true'] at hu
        split at h
        · next hn =>
          cases h
          have hw : text = body.taken ++ '(' :: argument := by
            rw [← ha]
            exact (whole_of_wordBody hb).symm
          rw [hw]
          exact LeftOpen.found (.url hu.1 hu.2 (through_eq_none_iff.1 hn))
        · cases h
      · cases h
    · cases h

/-! ### Lexemes -/

/-- **A lexeme that cannot be read** begins with a construct that is left open, or is a word that
has one in it. -/
theorem Lexeme.found_of_read {c : Char} {rest : Text}
    (h : Lexeme.read dialect c rest = .error failure) : failure.Found dialect (c :: rest) := by
  have hs := Opening.shows_of dialect c rest
  rw [Lexeme.read] at h
  cases ho : Opening.of dialect c rest with
  | space | lineComment | atWord | punctuation kind => rw [ho] at h; cases h
  | blockComment =>
      rw [ho] at h hs
      obtain ⟨rfl, hs⟩ := hs
      obtain ⟨tail, rfl⟩ := List.head?_eq_some_iff.1 hs
      cases hc : throughComment tail with
      | some cut => simp only [List.drop_one, List.tail_cons, hc] at h; cases h
      | none =>
          simp only [List.drop_one, List.tail_cons, hc] at h
          cases h
          exact LeftOpen.found (.comment (throughComment_eq_none_iff.1 hc))
  | string =>
      rw [ho] at h hs
      cases hc : throughQuote c rest with
      | some cut => simp only [hc] at h; cases h
      | none =>
          simp only [hc] at h
          cases h
          exact LeftOpen.found
            (.string hs ((throughQuote_eq_none_iff (ne_backslash_of_isQuote hs)).1 hc))
  | word =>
      rw [ho] at h
      cases hw : readWord dialect (c :: rest) with
      | ok cut => rw [hw] at h; cases h
      | error f => rw [hw] at h; cases h; exact found_of_readWord hw

/-- **A text that cannot be read** has a construct in it that is left open. -/
theorem found_of_lexemes (h : lexemes dialect text = .error failure) :
    failure.Found dialect text := by
  fun_induction lexemes dialect text with
  | case1 => cases h
  | case2 c rest f hf => cases h; exact Lexeme.found_of_read hf
  | case3 c rest l left hr ih =>
      cases hl : lexemes dialect left with
      | ok ls => rw [hl] at h; cases h
      | error f =>
          rw [hl] at h; cases h
          rw [← Lexeme.text_append_of_read hr]
          exact (ih hl).append l.text

end

/-! ### Tokens -/

/-- A failure stands behind the text in front of what it keeps. -/
theorem Failure.toError_eq (front : Text) (failure : Failure) :
    failure.toError (front ++ failure.rest) =
      ⟨failure.construct, Text.placeAt (front ++ failure.rest) front.length⟩ := by
  have hle : front.length ≤ (front ++ failure.rest).length := by simp
  have hn : (front ++ failure.rest).length - failure.rest.length = front.length := by simp
  rw [Failure.toError, hn, Text.placeAt_eq_past _ hle, List.take_left,
    List.getElem?_append_right (Nat.le_refl _), Nat.sub_self, List.head?_eq_getElem?]

/-- An error of the lexer is a failure to read, with its place. -/
theorem Token.exists_failure_of_tokenize {dialect : Dialect} {source : Text} {e : LexError}
    (h : Token.tokenize dialect source = .error e) :
    ∃ failure, lexemes dialect source = .error failure ∧ failure.toError source = e := by
  rw [Token.tokenize, Token.scan] at h
  cases hl : lexemes dialect source with
  | ok ls => rw [hl] at h; cases h
  | error failure => rw [hl] at h; cases h; exact ⟨failure, rfl, rfl⟩

/-- **The error of a text** has a place in it, at the line and column that an editor shows there.
The text from there on opens with the construct that the message names and does not close it. -/
theorem Token.leftOpen_of_tokenize {dialect : Dialect} {source : Text} {e : LexError}
    (h : Token.tokenize dialect source = .error e) :
    ∃ n ≤ source.length, e.position = source.placeAt n ∧
      LeftOpen dialect e.construct.detail (source.drop n) := by
  obtain ⟨failure, hf, rfl⟩ := Token.exists_failure_of_tokenize h
  obtain ⟨front, rfl, ho⟩ := found_of_lexemes hf
  rw [Failure.toError_eq]
  exact ⟨front.length, by simp, rfl, by rwa [List.drop_left]⟩

/-- An interpolation that no brace closes, since one stands in a string and the other closes a block
of its own.  It opens within a word in the second line, behind a character of three bytes. -/
theorem Token.leftOpen_of_tokenize_sample :
    ∃ e, Token.tokenize .scss "a\r\n€b#\x7b'\x7d'\x7b\x7dc".toList = .error e ∧
      e = ⟨.interpolation, ⟨7, 2, 3⟩⟩ ∧
      ∃ n ≤ "a\r\n€b#\x7b'\x7d'\x7b\x7dc".toList.length,
        e.position = Text.placeAt "a\r\n€b#\x7b'\x7d'\x7b\x7dc".toList n ∧
        LeftOpen .scss e.construct.detail ("a\r\n€b#\x7b'\x7d'\x7b\x7dc".toList.drop n) := by
  generalize hs : "a\r\n€b#\x7b'\x7d'\x7b\x7dc".toList = source
  have ho : Token.tokenize .scss source = .error ⟨.interpolation, ⟨7, 2, 3⟩⟩ := by
    subst hs
    decide +kernel
  exact ⟨_, ho, rfl, Token.leftOpen_of_tokenize ho⟩

end Restyle
