import Restyle.Text.Basic

/-!
# Positions

A position is a place between two characters of a text: the bytes before it, and the line and
column that an editor would show.  A line ends with a line feed, or with a carriage return that no
line feed follows, so the character after a carriage return matters when passing it.
-/

namespace Restyle

/-- A place in a text: bytes before it, and its line and column, both counted from one.  Columns
count characters. -/
structure Position where
  offset : Nat
  line : Nat
  column : Nat
deriving DecidableEq, Repr

/-- The character `c`, followed by `next`, ends a line. -/
def endsLine (c : Char) (next : Option Char) : Bool :=
  c == '\n' || (c == '\r' && next != some '\n')

namespace Position

/-- The place before the first character. -/
def start : Position := ⟨0, 1, 1⟩

/-- The place after the character `c`, which `next` follows. -/
def advance (p : Position) (c : Char) (next : Option Char) : Position :=
  if endsLine c next then ⟨p.offset + c.utf8Size, p.line + 1, 1⟩
  else ⟨p.offset + c.utf8Size, p.line, p.column + 1⟩

/-- The place after a text, which `next` follows. -/
def past (p : Position) : Text → Option Char → Position
  | [],      _    => p
  | c :: cs, next => (p.advance c (cs.head?.or next)).past cs next

@[simp] theorem offset_advance (p : Position) (c : Char) (next : Option Char) :
    (p.advance c next).offset = p.offset + c.utf8Size := by
  rw [advance]; split <;> rfl

/-- The offset moves on by the bytes of the text, however its lines end. -/
@[simp] theorem offset_past (p : Position) (text : Text) (next : Option Char) :
    (p.past text next).offset = p.offset + text.size := by
  induction text generalizing p with
  | nil => rfl
  | cons c cs ih => rw [past, ih, offset_advance, Text.size_cons, Nat.add_assoc]

/-- Passing two texts is passing the first, with the second behind it, and then the second. -/
theorem past_append (p : Position) (a b : Text) (next : Option Char) :
    p.past (a ++ b) next = (p.past a (b.head?.or next)).past b next := by
  induction a generalizing p with
  | nil => rfl
  | cons c cs ih =>
      rw [List.cons_append, past, past, ih]
      cases cs <;> rfl

end Position

end Restyle
