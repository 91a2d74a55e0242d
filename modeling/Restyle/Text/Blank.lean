import Restyle.Text.Basic

/-!
# Blank characters

A value is blank when it holds nothing but characters with the Unicode property `White_Space`.
The lexer has a narrower notion, the five characters that separate tokens; this one is for values.
-/

namespace Restyle

/-- The characters with the Unicode property `White_Space`. -/
def isBlank (c : Char) : Bool :=
  let n := c.toNat
  (0x09 ≤ n && n ≤ 0x0D) || n == 0x20 || n == 0x85 || n == 0xA0 || n == 0x1680 ||
    (0x2000 ≤ n && n ≤ 0x200A) || n == 0x2028 || n == 0x2029 || n == 0x202F || n == 0x205F ||
    n == 0x3000

namespace Text

/-- The text without leading blanks. -/
def trimStart (text : Text) : Text := text.dropWhile isBlank

/-- The text without trailing blanks. -/
def trimEnd (text : Text) : Text := dropTrailing isBlank text

/-- The text without blanks at either end. -/
def trim (text : Text) : Text := trimEnd (trimStart text)

end Text

end Restyle
