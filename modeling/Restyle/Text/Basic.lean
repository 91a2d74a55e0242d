/-!
# Text

Stylesheet text is a list of characters.  A reader cuts a text in two: what it took and what it
left.  Lengths that are reported to a user are counted in UTF-8 bytes.
-/

namespace Restyle

/-- Stylesheet text, character by character. -/
abbrev Text := List Char

/-- The number of bytes of a text in UTF-8. -/
def Text.size : Text → Nat
  | []        => 0
  | c :: rest => c.utf8Size + Text.size rest

@[simp] theorem Text.size_nil : Text.size [] = 0 := rfl

@[simp] theorem Text.size_cons (c : Char) (rest : Text) :
    Text.size (c :: rest) = c.utf8Size + Text.size rest := rfl

@[simp] theorem Text.size_append (a b : Text) :
    Text.size (a ++ b) = Text.size a + Text.size b := by
  induction a with
  | nil => simp
  | cons c rest ih => simp [ih, Nat.add_assoc]

/-- Two texts are the same up to the case of ASCII letters. -/
def Text.sameLetters (a b : Text) : Bool := a.map Char.toLower == b.map Char.toLower

/-- A text cut in two: what a reader took and what it left. -/
structure Cut where
  taken : Text
  rest : Text
deriving DecidableEq, Repr

namespace Cut

/-- The cut of `front ++ text`, given the cut of `text`. -/
def grow (front : Text) (cut : Cut) : Cut := ⟨front ++ cut.taken, cut.rest⟩

/-- The text that was cut. -/
def whole (cut : Cut) : Text := cut.taken ++ cut.rest

/-- A cut that grows at the front has that much more in front of its whole text. -/
@[simp] theorem whole_grow (front : Text) (cut : Cut) :
    (cut.grow front).whole = front ++ cut.whole := by
  simp [whole, grow]

@[simp] theorem rest_grow (front : Text) (cut : Cut) : (cut.grow front).rest = cut.rest := rfl

end Cut

/-! ### Trailing parts of a list -/

/-- The list without its longest trailing part that satisfies `p`. -/
def dropTrailing {α : Type} (p : α → Bool) (xs : List α) : List α :=
  (xs.reverse.dropWhile p).reverse

/-- The longest trailing part of the list that satisfies `p`. -/
def takeTrailing {α : Type} (p : α → Bool) (xs : List α) : List α :=
  (xs.reverse.takeWhile p).reverse

end Restyle
