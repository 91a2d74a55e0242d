import Restyle.Proofs.Indexed.Slice
import Restyle.Proofs.Token.LineColumn

/-!
# Reading from a token on

Between two tokens the lexer remembers nothing but its position, and it never looks back.  So the
text from the start of a token on, taken as a text of its own, has the tokens from that one on;
only their places are counted anew.

* `Position.shift p q`: the place `q` of a text that begins at the place `p` of another.
* `Position.shift_advance`: **the two counts keep step**, character by character.
* `Strung.eq_map_shift`: tokens with the same lexemes that are strung from two places differ by a
  shift.
* `Token.exists_tokenize_textOf_drop`: the lexemes of the rest of a text are the rest of its
  lexemes.
* `Token.tokenize_suffix`: **reading from a token on** gives the same tokens, shifted.
-/

namespace Restyle

/-! ### Places counted from elsewhere -/

namespace Position

/-- The place `q` of a text that begins at the place `p` of another, as a place of that other text.
The first lines of the two share a line, so columns in it add up. -/
def shift (p q : Position) : Position where
  offset := p.offset + q.offset
  line := p.line + (q.line - 1)
  column := if q.line = 1 then p.column + (q.column - 1) else q.column

/-- Lines and columns are counted from one. -/
def Counted (p : Position) : Prop := 1 ≤ p.line ∧ 1 ≤ p.column

theorem counted_start : start.Counted := ⟨Nat.le_refl 1, Nat.le_refl 1⟩

theorem shift_start (p : Position) : p.shift start = p := rfl

theorem Counted.advance {q : Position} (h : q.Counted) (c : Char) (next : Option Char) :
    (q.advance c next).Counted := by
  obtain ⟨hl, hc⟩ := h
  rw [Position.advance]
  split
  · exact ⟨Nat.le_add_left 1 q.line, Nat.le_refl 1⟩
  · exact ⟨hl, Nat.le_add_left 1 q.column⟩

/-- Lines and columns go on being counted from one. -/
theorem Counted.past {q : Position} (h : q.Counted) (text : Text) (next : Option Char) :
    (q.past text next).Counted := by
  induction text generalizing q with
  | nil => exact h
  | cons c cs ih => exact ih (h.advance c (cs.head?.or next))

/-- **The two counts keep step** when both pass a character. -/
theorem shift_advance (p : Position) {q : Position} (h : q.Counted) (c : Char)
    (next : Option Char) : p.shift (q.advance c next) = (p.shift q).advance c next := by
  obtain ⟨hl, hc⟩ := h
  rw [advance, advance]
  split
  · have hline : p.line + (q.line + 1 - 1) = p.line + (q.line - 1) + 1 := by omega
    have hne : q.line + 1 ≠ 1 := by omega
    simp only [shift, if_neg hne, hline, Nat.add_assoc]
  · have hcolumn : p.column + (q.column + 1 - 1) = p.column + (q.column - 1) + 1 := by omega
    simp only [shift, Nat.add_assoc, Position.mk.injEq, true_and]
    split
    · exact hcolumn
    · rfl

/-- **Passing a text** and moving to another one may be done in either order. -/
theorem shift_past (p : Position) {q : Position} (h : q.Counted) (text : Text)
    (next : Option Char) : p.shift (q.past text next) = (p.shift q).past text next := by
  induction text generalizing q with
  | nil => rfl
  | cons c cs ih => rw [past, past, ih (h.advance c _), shift_advance p h]

end Position

namespace Token

/-- The token of a text that begins at the place `p` of another, as a token of that other text. -/
def shift (p : Position) (token : Token) : Token := { token with start := p.shift token.start }

@[simp] theorem toLexeme_shift (p : Position) (token : Token) :
    (token.shift p).toLexeme = token.toLexeme := rfl

@[simp] theorem offset_shift (p : Position) (token : Token) :
    (token.shift p).start.offset = p.offset + token.start.offset := rfl

@[simp] theorem stop_shift (p : Position) (token : Token) :
    (token.shift p).stop = p.offset + token.stop := Nat.add_assoc _ _ _

end Token

/-- **Tokens with the same lexemes** that are strung from two places, one of them counted from the
start of the other text, differ by a shift. -/
theorem Strung.eq_map_shift {p q : Position} {a b : List Token} {next : Option Char}
    (ha : Strung (p.shift q) a next) (hb : Strung q b next) (hq : q.Counted)
    (hl : a.map Token.toLexeme = b.map Token.toLexeme) : a = b.map (Token.shift p) := by
  induction b generalizing a q with
  | nil => exact List.map_eq_nil_iff.1 hl
  | cons token b ih =>
      obtain ⟨token', a', rfl, hlexeme, hl'⟩ := List.map_eq_cons_iff.1 hl
      obtain ⟨hstart', ha'⟩ := ha
      obtain ⟨hstart, hb'⟩ := hb
      have hfirst : token' = token.shift p := by
        obtain ⟨lexeme, start⟩ := token'
        obtain rfl : lexeme = token.toLexeme := hlexeme
        obtain rfl : start = p.shift q := hstart'
        rw [Token.shift, hstart]
      -- behind the first token both are strung from where it ends
      have htext : Token.textOf a' = Token.textOf b := by
        rw [Token.textOf_eq, Token.textOf_eq, hl']
      rw [hfirst, htext] at ha'
      have hrest := ih (by rw [Position.shift_past p hq]; exact ha') hb' (hq.past _ _) hl'
      rw [hfirst, hrest, List.map_cons]

/-! ### The rest of the lexemes -/

namespace Token

section
variable {dialect : Dialect} {source : Text} {tokens : List Token} {token : Token} {i : Nat}

/-- **The lexemes of the rest of a text** are the rest of its lexemes. -/
theorem exists_tokenize_textOf_drop (h : tokenize dialect source = .ok tokens)
    (hi : i < tokens.length) :
    ∃ later, tokenize dialect (textOf (tokens.drop i)) = .ok later ∧
      (tokens.drop i).map toLexeme = later.map toLexeme := by
  obtain ⟨ls, hr, rfl⟩ := tokenize_eq_ok_iff.1 h
  have hlength : (locate .start ls).length = ls.length := by
    simpa using congrArg List.length (toLexeme_locate .start ls)
  have hle : i ≤ (locate .start ls).length := by
    rw [List.length_append, List.length_singleton] at hi
    omega
  have hdrop : ((locate .start ls ++ [endOf source]).drop i).map toLexeme =
      ls.drop i ++ [⟨.eof, []⟩] := by
    rw [List.drop_append_of_le_length hle, List.map_append, List.map_drop, toLexeme_locate]
    rfl
  have htext : textOf ((locate .start ls ++ [endOf source]).drop i) =
      Lexeme.textOf (ls.drop i) := by
    rw [textOf_eq, hdrop, Lexeme.textOf_append]
    exact List.append_nil _
  -- the lexemes are read one after the other, each with the rest of the text behind it
  rw [← List.take_append_drop i ls] at hr
  have hrest : Reads dialect (Lexeme.textOf (ls.drop i)) (ls.drop i) [] := by
    simpa using hr.split_text.2
  refine ⟨_, tokenize_eq_ok_iff.2 ⟨ls.drop i, htext ▸ hrest, rfl⟩, ?_⟩
  rw [hdrop, List.map_append, toLexeme_locate]
  rfl

/-- The text from the start of a token on is that of the tokens from this one on. -/
theorem slice?_of_tokenize (h : tokenize dialect source = .ok tokens)
    (hd : tokens.drop i = token :: tokens.drop (i + 1)) :
    source.slice? token.start.offset source.size = some (textOf (tokens.drop i)) := by
  obtain ⟨habut, htext⟩ := tiling_of_tokenize h
  have hcut := List.take_append_drop i tokens
  have hstart : token.start.offset = (textOf (tokens.take i)).size := by
    rw [← hcut, hd] at habut
    rw [habut.start_eq, Nat.zero_add]
  rw [Text.slice?_eq_some_iff]
  refine ⟨textOf (tokens.take i), [], ?_, hstart.symm, ?_⟩
  · rw [List.append_nil, ← textOf_append, hcut, htext]
  · rw [hstart, ← Text.size_append, ← textOf_append, hcut, htext]

/-- The tokens from one on are strung from its start. -/
theorem strung_drop_of_tokenize (h : tokenize dialect source = .ok tokens)
    (hd : tokens.drop i = token :: tokens.drop (i + 1)) :
    Strung token.start (tokens.drop i) none := by
  have hs := (strung_of_tokenize h).2
  rw [← List.take_append_drop i tokens, hd] at hs
  obtain ⟨-, hstart, hrest⟩ := strung_append.1 hs
  rw [hd]
  exact ⟨rfl, hstart ▸ hrest⟩

end

/-- **Reading from a token on.**  The text from the start of any token on, the last one included,
is a text with tokens in the same dialect.  They are the tokens from that one on, with the same
kinds and the same texts; their offsets are less by the offset of that token, and their lines and
columns are counted from its start. -/
theorem tokenize_suffix {dialect : Dialect} {source : Text} {tokens : List Token} {token : Token}
    {i : Nat} (h : tokenize dialect source = .ok tokens) (hi : tokens[i]? = some token) :
    ∃ suffix later, source.slice? token.start.offset source.size = some suffix ∧
      tokenize dialect suffix = .ok later ∧
      tokens.drop i = later.map (shift token.start) ∧
      later.map (fun t => (t.kind, t.text, t.start.offset, t.stop)) =
        (tokens.drop i).map fun t => (t.kind, t.text, t.start.offset - token.start.offset,
          t.stop - token.start.offset) := by
  obtain ⟨hlt, htoken⟩ := List.getElem?_eq_some_iff.1 hi
  have hd : tokens.drop i = token :: tokens.drop (i + 1) := by
    rw [← htoken, List.drop_eq_getElem_cons hlt]
  obtain ⟨later, hlater, hlexemes⟩ := exists_tokenize_textOf_drop h hlt
  have hshift : tokens.drop i = later.map (shift token.start) := by
    have hstrung := strung_drop_of_tokenize h hd
    rw [← Position.shift_start token.start] at hstrung
    exact hstrung.eq_map_shift (strung_of_tokenize hlater).2 Position.counted_start hlexemes
  refine ⟨_, later, slice?_of_tokenize h hd, hlater, hshift, ?_⟩
  rw [hshift, List.map_map]
  refine List.map_congr_left fun t _ => ?_
  simp

/-- From the middle of the second line on: a word that takes an interpolation along, an unquoted
`url` with slashes in it, and a line end. -/
theorem tokenize_suffix_sample :
    ∃ tokens token later,
      tokenize .scss "é '\r\n' a#\x7b'\x7d'\x7d😀:url( //)b\n;".toList = .ok tokens ∧
      tokens[4]? = some token ∧ token.start = ⟨8, 2, 3⟩ ∧
      tokenize .scss "a#\x7b'\x7d'\x7d😀:url( //)b\n;".toList = .ok later ∧
      tokens.drop 4 = later.map (shift ⟨8, 2, 3⟩) := by
  generalize hs : "é '\r\n' a#\x7b'\x7d'\x7d😀:url( //)b\n;".toList = source
  generalize hr : "a#\x7b'\x7d'\x7d😀:url( //)b\n;".toList = rest
  have ho : (tokenize .scss source).toOption.map (·[4]?.map (·.start)) = some (some ⟨8, 2, 3⟩) ∧
      Text.slice? source 8 (Text.size source) = some rest := by
    subst hs hr
    decide +kernel
  obtain ⟨tokens, h, htokens⟩ := exists_of_map_toOption ho.1
  obtain ⟨token, ht, hstart⟩ := Option.map_eq_some_iff.1 htokens
  obtain ⟨suffix, later, hslice, hlater, hshift, -⟩ := tokenize_suffix h ht
  rw [hstart] at hslice hshift
  obtain rfl : rest = suffix := Option.some.inj (ho.2.symm.trans hslice)
  exact ⟨tokens, token, later, h, ht, hstart, hlater, hshift⟩

end Token

end Restyle
