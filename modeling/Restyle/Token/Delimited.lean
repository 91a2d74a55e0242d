import Restyle.Token.Basic

/-!
# Delimited constructs

Readers for the constructs that have to be closed: block comments, quoted strings, interpolations
and the argument of an unquoted `url`.  Each is given the text after the opening delimiter and
takes up to and including the closing one; it fails when the text ends first.  What a reader takes
is never empty, and together with what it leaves it is the text it was given.
-/

namespace Restyle

/-- A character that quotes a string. -/
def isQuote (c : Char) : Bool := c == '"' || c == '\''

/-- The text through the first `stop`. -/
def through (stop : Char) : Text → Option Cut
  | []        => none
  | c :: rest => if c = stop then some ⟨[c], rest⟩ else (through stop rest).map (Cut.grow [c])

/-- The text through the end of a block comment. -/
def throughComment : Text → Option Cut
  | '*' :: '/' :: rest => some ⟨['*', '/'], rest⟩
  | c :: rest          => (throughComment rest).map (Cut.grow [c])
  | []                 => none

/-- The text through the closing quote of a string.  A backslash takes the character after it
along, whatever that is. -/
def throughQuote (quote : Char) : Text → Option Cut
  | []                => none
  | '\\' :: c :: rest => (throughQuote quote rest).map (Cut.grow ['\\', c])
  | c :: rest         =>
    if c = quote then some ⟨[c], rest⟩ else (throughQuote quote rest).map (Cut.grow [c])

/-! ### What the readers take -/

/-- A text that is cut behind a character is the two parts together. -/
theorem whole_of_through {stop : Char} {text : Text} {cut : Cut}
    (h : through stop text = some cut) : cut.whole = text := by
  fun_induction through stop text generalizing cut with
  | case1 => simp at h
  | case2 rest => simp at h; subst h; rfl
  | case3 c rest _ ih =>
      obtain ⟨inner, hi, rfl⟩ := Option.map_eq_some_iff.1 h
      simp [ih hi]

theorem whole_of_throughComment {text : Text} {cut : Cut} (h : throughComment text = some cut) :
    cut.whole = text := by
  fun_induction throughComment text generalizing cut with
  | case1 rest => simp at h; subst h; rfl
  | case2 c rest _ ih =>
      obtain ⟨inner, hi, rfl⟩ := Option.map_eq_some_iff.1 h
      simp [ih hi]
  | case3 => simp at h

theorem whole_of_throughQuote {quote : Char} {text : Text} {cut : Cut}
    (h : throughQuote quote text = some cut) : cut.whole = text := by
  fun_induction throughQuote quote text generalizing cut with
  | case1 => simp at h
  | case2 c rest ih =>
      obtain ⟨inner, hi, rfl⟩ := Option.map_eq_some_iff.1 h
      simp [ih hi]
  | case3 rest => simp at h; subst h; rfl
  | case4 c rest _ _ ih =>
      obtain ⟨inner, hi, rfl⟩ := Option.map_eq_some_iff.1 h
      simp [ih hi]

/-- What a cut leaves is no longer than what was cut. -/
theorem Cut.length_rest_le {cut : Cut} {text : Text} (h : cut.whole = text) :
    cut.rest.length ≤ text.length := by
  subst h; simp [Cut.whole]

/-! ### Interpolation -/

/-- The text through the closing brace of an interpolation in which `depth` further braces are
open.  Braces inside quoted strings do not count. -/
def throughInterpolation (depth : Nat) (text : Text) : Option Cut :=
  match text with
  | []          => none
  | '{' :: rest => (throughInterpolation (depth + 1) rest).map (Cut.grow ['{'])
  | '}' :: rest =>
    match depth with
    | 0         => some ⟨['}'], rest⟩
    | depth + 1 => (throughInterpolation depth rest).map (Cut.grow ['}'])
  | c :: rest   =>
    if isQuote c then
      match _h : throughQuote c rest with
      | none        => none
      | some quoted =>
        (throughInterpolation depth quoted.rest).map (Cut.grow (c :: quoted.taken))
    else (throughInterpolation depth rest).map (Cut.grow [c])
termination_by text.length
decreasing_by
  · simp
  · simp
  · have := Cut.length_rest_le (whole_of_throughQuote _h); simp; omega
  · simp

theorem whole_of_throughInterpolation {depth : Nat} {text : Text} {cut : Cut}
    (h : throughInterpolation depth text = some cut) : cut.whole = text := by
  fun_induction throughInterpolation depth text generalizing cut with
  | case1 => simp at h
  | case2 depth rest ih =>
      obtain ⟨inner, hi, rfl⟩ := Option.map_eq_some_iff.1 h
      simp [ih hi]
  | case3 rest => simp at h; subst h; rfl
  | case4 rest depth ih =>
      obtain ⟨inner, hi, rfl⟩ := Option.map_eq_some_iff.1 h
      simp [ih hi]
  | case5 => simp at h
  | case6 depth c rest _ _ _ quoted hq ih =>
      obtain ⟨inner, hi, rfl⟩ := Option.map_eq_some_iff.1 h
      have hw := whole_of_throughQuote hq
      simp only [Cut.whole_grow, ih hi, List.cons_append]
      simpa [Cut.whole] using hw
  | case7 depth c rest _ _ _ ih =>
      obtain ⟨inner, hi, rfl⟩ := Option.map_eq_some_iff.1 h
      simp [ih hi]

end Restyle
