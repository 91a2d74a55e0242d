import Restyle.Proofs.Token.Tiles

/-!
# Where tokens stand

A token stands where the text before it ends.  Its line is told by the line ends in that text.

* `Position.line_past`: the line of a place counts the line ends before it.
* `Strung p tokens next`: each token stands where the one before it ends, the first at `p`.
* `strung_locate`: the tokens of a text are strung.
* `Reads.made`: white space is made of spaces, and an at-word of an at sign and a name.
-/

namespace Restyle

/-! ### Lines -/

/-- The number of line ends in a text that `next` follows. -/
def lineEnds : Text → Option Char → Nat
  | [],      _    => 0
  | c :: cs, next => (if endsLine c (cs.head?.or next) then 1 else 0) + lineEnds cs next

/-- A line more has begun just behind a character that ends one. -/
theorem Position.line_advance (p : Position) (c : Char) (next : Option Char) :
    (p.advance c next).line = p.line + if endsLine c next then 1 else 0 := by
  rw [advance]
  split <;> rfl

/-- **The line of a place** counts the line ends before it. -/
theorem Position.line_past (p : Position) (text : Text) (next : Option Char) :
    (p.past text next).line = p.line + lineEnds text next := by
  induction text generalizing p with
  | nil => rfl
  | cons c cs ih => rw [past, ih, line_advance, lineEnds, Nat.add_assoc]

/-! ### Strung tokens -/

/-- Each token stands where the one before it ends, the first at `p`, when `next` follows the last
one. -/
def Strung : Position → List Token → Option Char → Prop
  | _, [],            _    => True
  | p, token :: rest, next =>
    token.start = p ∧ Strung (p.past token.text ((Token.textOf rest).head?.or next)) rest next

/-- Tokens are strung when their two halves are, the second from where the first ends. -/
theorem strung_append {p : Position} {a b : List Token} {next : Option Char} :
    Strung p (a ++ b) next ↔
      Strung p a ((Token.textOf b).head?.or next) ∧
        Strung (p.past (Token.textOf a) ((Token.textOf b).head?.or next)) b next := by
  induction a generalizing p with
  | nil => exact (and_iff_right trivial).symm
  | cons token a ih =>
      rw [List.cons_append, Strung, Strung, ih, and_assoc, Token.textOf_append, List.head?_append,
        Option.or_assoc, Token.textOf_cons, Position.past_append]

/-- **The tokens of a text are strung** from where the text begins. -/
theorem strung_locate {ls : List Lexeme} (h : ∀ l ∈ ls, l.text ≠ []) (p : Position)
    (next : Option Char) : Strung p (locate p ls) next := by
  induction ls generalizing p with
  | nil => trivial
  | cons l ls ih =>
      have ht := ih (fun m hm => h m (List.mem_cons_of_mem _ hm)) (p.past l.text (firstChar? ls))
      refine ⟨rfl, ?_⟩
      cases ls with
      | nil => trivial
      | cons m ms =>
          -- the next lexeme has a first character, and that is the one that was looked at
          obtain ⟨c, rest, hm⟩ := List.exists_cons_of_ne_nil (h m (by simp))
          have hc : (Token.textOf (locate (p.past l.text (firstChar? (m :: ms))) (m :: ms))).head?.or
              next = firstChar? (m :: ms) := by
            rw [textOf_locate, Lexeme.textOf_cons, firstChar?, hm]
            rfl
          rw [hc]
          exact ht

/-! ### White space and at-words -/

/-- White space is made of spaces; an at-word has a name, made of characters for names. -/
def Lexeme.Made (l : Lexeme) : Prop :=
  match l.kind with
  | .space       => l.text.all isSpace = true
  | .atWord name => name ≠ [] ∧ name.all isNameChar = true
  | _            => True

/-- An at sign opens an at-word only in front of a name. -/
theorem Opening.any_of_atWord {dialect : Dialect} {c : Char} {rest : Text}
    (h : Opening.of dialect c rest = .atWord) : rest.head?.any isNameChar = true := by
  rw [Opening.of] at h
  by_cases hc : (c == '@' && rest.head?.any isNameChar) = true
  · exact (Bool.and_eq_true_iff.1 hc).2
  · rw [if_neg hc] at h
    split at h
    · cases h
    split at h
    · cases h
    split at h
    · cases h
    split at h
    · cases h
    split at h <;> cases h

/-- White space and at-words are made of the characters for them. -/
theorem Lexeme.made_of_read {dialect : Dialect} {c : Char} {rest left : Text} {l : Lexeme}
    (h : Lexeme.read dialect c rest = .ok (l, left)) : l.Made := by
  have hs := Opening.shows_of dialect c rest
  cases Lexeme.read_eq_ok_iff.1 h with
  | blockComment | lineComment | string | word => trivial
  | space ho =>
      rw [ho] at hs
      exact List.all_cons.trans (Bool.and_eq_true_iff.2 ⟨hs, List.all_takeWhile⟩)
  | atWord ho =>
      refine ⟨fun hn => ?_, List.all_takeWhile⟩
      have hh := Opening.any_of_atWord ho
      cases rest with
      | nil => cases hh
      | cons d rest =>
          rw [List.takeWhile_cons_of_pos (show isNameChar d = true from hh)] at hn
          cases hn
  | punctuation ho =>
      rw [ho] at hs
      simp only [Opening.Shows, punctuation?] at hs
      split at hs <;> cases hs <;> trivial

theorem Reads.made {dialect : Dialect} {text rest : Text} {l : Lexeme} {ls : List Lexeme}
    (h : Reads dialect text ls rest) (hl : l ∈ ls) : l.Made := by
  induction h with
  | done => cases hl
  | more h _ ih =>
      rcases List.mem_cons.mp hl with rfl | hl
      · exact Lexeme.made_of_read h
      · exact ih hl

end Restyle
