import Restyle.Proofs.Token.Places

/-!
# Lines and columns

The lexer carries a position along and moves it past one character at a time.  An editor that is
asked about a place looks at the whole text: it counts the line breaks before the place, and the
characters since the last of them.

* `Text.breaksAt`: a line breaks at this index of the text.
* `Text.placeAt text n`: the place behind the first `n` characters, as an editor shows it.
* `Text.placeAt_succ`: **moving past a character** leads from one place to the next.
* `Token.tokenize_placed`: **every token stands where an editor shows it**.
-/

namespace Restyle

namespace Text

/-! ### Places of a text -/

/-- A line breaks at the index: a line feed stands there, or a carriage return that no line feed
follows. -/
def breaksAt (text : Text) (i : Nat) : Bool :=
  text[i]? == some '\n' || (text[i]? == some '\r' && text[i + 1]? != some '\n')

/-- The indices below `n` at which a line breaks. -/
def breaks (text : Text) (n : Nat) : List Nat := (List.range n).filter text.breaksAt

/-- The index at which the line of the place behind `n` characters begins: behind the last line
break before it, or where the text begins. -/
def lineStart (text : Text) (n : Nat) : Nat := (text.breaks n).getLast?.elim 0 (· + 1)

/-- The place behind the first `n` characters of the text, as an editor shows it. -/
def placeAt (text : Text) (n : Nat) : Position where
  offset := Text.size (text.take n)
  line := 1 + (text.breaks n).length
  column := 1 + (n - text.lineStart n)

theorem lineStart_le (text : Text) (n : Nat) : text.lineStart n ≤ n := by
  rw [lineStart]
  cases hb : (text.breaks n).getLast? with
  | none => exact Nat.zero_le n
  | some i =>
      have hi := (List.mem_filter.1 (List.mem_of_getLast? hb)).1
      exact List.mem_range.1 hi

theorem breaksAt_eq_endsLine {text : Text} {n : Nat} {c : Char} (hc : text[n]? = some c) :
    text.breaksAt n = endsLine c text[n + 1]? := by
  rw [breaksAt, endsLine, hc]
  rfl

theorem breaks_succ (text : Text) (n : Nat) :
    text.breaks (n + 1) = text.breaks n ++ if text.breaksAt n then [n] else [] := by
  rw [breaks, breaks, List.range_succ, List.filter_append, List.filter_cons, List.filter_nil]

/-- **Moving past a character** leads from the place in front of it to the place behind it. -/
theorem placeAt_succ {text : Text} {n : Nat} {c : Char} (hc : text[n]? = some c) :
    text.placeAt (n + 1) = (text.placeAt n).advance c text[n + 1]? := by
  have hsize : Text.size (text.take (n + 1)) = Text.size (text.take n) + c.utf8Size := by
    rw [List.take_add_one, hc, Text.size_append]
    rfl
  have hle := text.lineStart_le n
  rw [Position.advance, ← breaksAt_eq_endsLine hc]
  by_cases hb : text.breaksAt n = true
  · -- a new line begins behind the character
    have hbreaks : text.breaks (n + 1) = text.breaks n ++ [n] := by rw [breaks_succ, if_pos hb]
    have hstart : text.lineStart (n + 1) = n + 1 := by
      rw [lineStart, hbreaks, List.getLast?_concat]
      rfl
    rw [if_pos hb, placeAt, placeAt, hsize, hbreaks, hstart, List.length_append, Nat.sub_self]
    rfl
  · have hbreaks : text.breaks (n + 1) = text.breaks n := by
      rw [breaks_succ, if_neg hb, List.append_nil]
    have hstart : text.lineStart (n + 1) = text.lineStart n := by rw [lineStart, hbreaks, lineStart]
    have hcolumn : 1 + (n + 1 - text.lineStart n) = 1 + (n - text.lineStart n) + 1 := by omega
    rw [if_neg hb, placeAt, placeAt, hsize, hbreaks, hstart, hcolumn]

/-- **Moving past the first characters of a text** leads from where it begins to the place behind
them. -/
theorem placeAt_eq_past (text : Text) {n : Nat} (hn : n ≤ text.length) :
    text.placeAt n = Position.start.past (text.take n) text[n]? := by
  induction n with
  | zero => rfl
  | succ n ih =>
      have hc : text[n]? = some (text[n]) := List.getElem?_eq_getElem hn
      rw [placeAt_succ hc, ih (Nat.le_of_succ_le hn), List.take_add_one, hc, Position.past_append]
      rfl

end Text

/-! ### Tokens -/

/-- A token that is strung stands behind the text of the tokens before it. -/
theorem Strung.start_eq {p : Position} {a b : List Token} {token : Token} {next : Option Char}
    (h : Strung p (a ++ token :: b) next) :
    token.start = p.past (Token.textOf a) ((Token.textOf (token :: b)).head?.or next) :=
  (strung_append.1 h).2.1

/-- The tokens of a text hold all of it, and are strung through the one that marks its end. -/
theorem Token.strung_of_tokenize {dialect : Dialect} {source : Text} {tokens : List Token}
    (h : Token.tokenize dialect source = .ok tokens) :
    Token.textOf tokens = source ∧ Strung .start tokens none := by
  obtain ⟨ls, hr, rfl⟩ := Token.tokenize_eq_ok_iff.1 h
  have htext : Token.textOf (locate .start ls) = source := by
    rw [textOf_locate, hr.text_eq, List.append_nil]
  refine ⟨?_, strung_append.2 ⟨strung_locate (fun l hl => hr.ne_nil hl) .start _, ?_, trivial⟩⟩
  · rw [Token.textOf_append, htext]
    exact List.append_nil source
  · rw [htext]
    rfl

/-- **Every token stands where an editor shows it.**  The text before a token is the first characters
of the source, as many as its offset has bytes for.  Its line counts the line breaks among them, and
its column the characters since the last one. -/
theorem Token.tokenize_placed {dialect : Dialect} {source : Text} {tokens : List Token}
    (h : Token.tokenize dialect source = .ok tokens) :
    ∀ token ∈ tokens, ∃ n ≤ source.length, token.start = source.placeAt n := by
  intro token ht
  obtain ⟨htext, hstrung⟩ := Token.strung_of_tokenize h
  obtain ⟨a, b, rfl⟩ := List.append_of_mem ht
  rw [Token.textOf_append] at htext
  have hle : (Token.textOf a).length ≤ source.length := by
    rw [← htext, List.length_append]
    exact Nat.le_add_right _ _
  refine ⟨(Token.textOf a).length, hle, ?_⟩
  rw [Text.placeAt_eq_past source hle, hstrung.start_eq, ← htext, List.take_left,
    List.getElem?_append_right (Nat.le_refl _), Nat.sub_self, List.head?_eq_getElem?, Option.or_none]

/-- Line breaks of all three kinds, one of them in a string behind a backslash and one in a comment,
among characters of one to four bytes.  The comma stands at byte 22, in line 4 and column 6. -/
theorem Token.tokenize_placed_sample :
    ∃ tokens token, Token.tokenize .scss "é\r\n'\\\r€'/*\n😀*/ :,".toList = .ok tokens ∧
      token ∈ tokens ∧ token.start = ⟨22, 4, 6⟩ ∧
      ∃ n ≤ "é\r\n'\\\r€'/*\n😀*/ :,".toList.length,
        token.start = Text.placeAt "é\r\n'\\\r€'/*\n😀*/ :,".toList n := by
  generalize hs : "é\r\n'\\\r€'/*\n😀*/ :,".toList = source
  have ho : (Token.tokenize .scss source).toOption.map (·[6]?.map (·.start)) =
      some (some ⟨22, 4, 6⟩) := by
    subst hs
    decide +kernel
  obtain ⟨tokens, h, htokens⟩ := exists_of_map_toOption ho
  obtain ⟨token, ht, hstart⟩ := Option.map_eq_some_iff.1 htokens
  have hmem := List.mem_of_getElem? ht
  exact ⟨tokens, token, h, hmem, hstart, Token.tokenize_placed h token hmem⟩

end Restyle
