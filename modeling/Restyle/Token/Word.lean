import Restyle.Token.Opening

/-!
# Words

A word is a run of characters at which nothing else opens.  In SCSS it takes interpolations along,
so their braces are no tokens; `url` takes its unquoted argument along, so the slashes in it are no
comment.  A word cannot be read when one of these is never closed.
-/

namespace Restyle

/-! ### Failures -/

/-- The constructs that have to be closed. -/
inductive Unclosed where
  | comment
  | string
  | interpolation
  | url
deriving DecidableEq, Repr

/-- What is wrong, in a message. -/
def Unclosed.detail : Unclosed → String
  | .comment       => "Unclosed comment"
  | .string        => "Unclosed string"
  | .interpolation => "Unclosed interpolation"
  | .url           => "Unclosed url()"

/-- An unclosed construct, and the text from its first character on. -/
structure Failure where
  construct : Unclosed
  rest : Text
deriving DecidableEq, Repr

/-! ### Words -/

/-- The text of a word up to where it ends.  In SCSS an interpolation belongs to the word, whatever
it holds. -/
def wordBody (dialect : Dialect) (text : Text) : Except Failure Cut :=
  match dialect, text with
  | _,     []                 => .ok ⟨[], []⟩
  | .scss, '#' :: '{' :: rest =>
    match _h : throughInterpolation 0 rest with
    | none       => .error ⟨.interpolation, '#' :: '{' :: rest⟩
    | some inner => (wordBody .scss inner.rest).map (Cut.grow ('#' :: '{' :: inner.taken))
  | dialect, c :: rest        =>
    if endsWord dialect (c :: rest) then .ok ⟨[], c :: rest⟩
    else (wordBody dialect rest).map (Cut.grow [c])
termination_by text.length
decreasing_by
  · have := Cut.length_rest_le (whole_of_throughInterpolation _h); simp; omega
  · simp

/-- The word names the function whose argument may stand without quotes. -/
def isUrl (word : Text) : Bool := word.sameLetters "url".toList

/-- The first character that is no space is a quote. -/
def startsQuoted (text : Text) : Bool := (text.dropWhile isSpace).head?.any isQuote

/-- A word.  `url` takes its argument along unless that is a quoted string. -/
def readWord (dialect : Dialect) (text : Text) : Except Failure Cut :=
  match wordBody dialect text with
  | .error failure => .error failure
  | .ok body       =>
    match body.rest with
    | '(' :: argument =>
      if isUrl body.taken && !startsQuoted argument then
        match through ')' argument with
        | none      => .error ⟨.url, text⟩
        | some tail => .ok (tail.grow (body.taken ++ ['(']))
      else .ok body
    | _               => .ok body

/-! ### Nothing is lost, and a word takes something -/

/-- Nothing of the text is lost where a word is cut off. -/
theorem whole_of_wordBody {dialect : Dialect} {text : Text} {cut : Cut}
    (h : wordBody dialect text = .ok cut) : cut.whole = text := by
  fun_induction wordBody dialect text generalizing cut with
  | case1 => cases h; rfl
  | case2 => cases h
  | case3 rest inner hi ih =>
      cases hb : wordBody .scss inner.rest with
      | error f => rw [hb] at h; cases h
      | ok tail =>
          rw [hb] at h; cases h
          simp only [Cut.whole_grow, ih hb, List.cons_append]
          simpa [Cut.whole] using whole_of_throughInterpolation hi
  | case4 => cases h; rfl
  | case5 dialect c rest _ _ ih =>
      cases hb : wordBody dialect rest with
      | error f => rw [hb] at h; cases h
      | ok tail => rw [hb] at h; cases h; simp [ih hb]

theorem whole_of_readWord {dialect : Dialect} {text : Text} {cut : Cut}
    (h : readWord dialect text = .ok cut) : cut.whole = text := by
  unfold readWord at h
  split at h
  · cases h
  · next body hb =>
    have hw := whole_of_wordBody hb
    split at h
    · next argument ha =>
      split at h
      · split at h
        · cases h
        · next tail ht =>
          cases h
          rw [Cut.whole_grow, whole_of_through ht, List.append_assoc, ← hw, Cut.whole, ha]
          rfl
      · cases h; exact hw
    · cases h; exact hw

/-- The first character of a word belongs to it when no word ends there. -/
theorem taken_ne_nil_of_wordBody {dialect : Dialect} {c : Char} {rest : Text} {cut : Cut}
    (hc : endsWord dialect (c :: rest) = false) (h : wordBody dialect (c :: rest) = .ok cut) :
    cut.taken ≠ [] := by
  generalize c :: rest = text at hc h
  revert h
  fun_cases wordBody dialect text with
  | case1 => simp [endsWord] at hc
  | case2 => intro h; cases h
  | case3 rest inner =>
      intro h
      cases hb : wordBody .scss inner.rest with
      | error f => rw [hb] at h; cases h
      | ok tail => rw [hb] at h; cases h; simp [Cut.grow]
  | case4 he => simp_all
  | case5 dialect c rest =>
      intro h
      cases hb : wordBody dialect rest with
      | error f => rw [hb] at h; cases h
      | ok tail => rw [hb] at h; cases h; simp [Cut.grow]

/-- A word has a character, if the text does not start with one that ends words. -/
theorem taken_ne_nil_of_readWord {dialect : Dialect} {c : Char} {rest : Text} {cut : Cut}
    (hc : endsWord dialect (c :: rest) = false) (h : readWord dialect (c :: rest) = .ok cut) :
    cut.taken ≠ [] := by
  unfold readWord at h
  split at h
  · cases h
  · next body hb =>
    have hn := taken_ne_nil_of_wordBody hc hb
    split at h
    · split at h
      · split at h
        · cases h
        · cases h; simp [Cut.grow]
      · cases h; exact hn
    · cases h; exact hn

end Restyle
