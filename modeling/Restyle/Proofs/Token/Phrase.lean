import Restyle.Proofs.Text.Trailing
import Restyle.Proofs.Token.Lookahead
import Restyle.Text.Blank

/-!
# Plain phrases

A phrase is made of words with single spaces between them, in characters that mean nothing to a
reader of tokens.  Such a text is read the same way wherever it stands.

* `isPlain`: the characters of such words.
* `EndsPlain dialect t`: a plain word in front of `t` ends there.
* `Phrase.reads`: **a phrase is read as words and spaces**, in front of every text that ends it.
* `Phrase.trim`: there are no blanks around a phrase.
-/

namespace Restyle

/-! ### Plain words -/

/-- The character is part of a word wherever it stands, and no blank. -/
def isPlain (c : Char) : Bool :=
  !isBlank c && !isQuote c && punctuation? c == none && c != '/' && c != '@' && c != '#'

/-- The lexer's spaces are blanks of a value, though not the only ones. -/
theorem isBlank_of_isSpace {c : Char} (h : isSpace c = true) : isBlank c = true := by
  simp only [isSpace, Bool.or_eq_true, beq_iff_eq] at h
  rcases h with (((rfl | rfl) | rfl) | rfl) | rfl <;> rfl

theorem isBlank_of_isPlain {c : Char} (h : isPlain c = true) : isBlank c = false := by
  simp only [isPlain, Bool.and_eq_true, Bool.not_eq_true'] at h
  exact h.1.1.1.1.1

theorem isSpace_of_isPlain {c : Char} (h : isPlain c = true) : isSpace c = false := by
  rw [← Bool.not_eq_true]
  intro hs
  have hb := isBlank_of_isPlain h
  rw [isBlank_of_isSpace hs] at hb
  cases hb

/-- A plain character opens a word, whatever comes after it. -/
theorem Opening.of_plain {dialect : Dialect} {c : Char} (rest : Text) (h : isPlain c = true) :
    Opening.of dialect c rest = .word := by
  have hs := isSpace_of_isPlain h
  simp only [isPlain, Bool.and_eq_true, Bool.not_eq_true', bne_iff_ne, beq_iff_eq] at h
  obtain ⟨⟨⟨⟨⟨-, hq⟩, hp⟩, hslash⟩, hat⟩, -⟩ := h
  simp [Opening.of, hs, hslash, hq, hat, hp]

/-- A plain word in front of the text ends there, whatever the word. -/
def EndsPlain (dialect : Dialect) (t : Text) : Prop :=
  endsWord dialect t = true ∧ t.head? ≠ some '('

theorem endsPlain_nil (dialect : Dialect) : EndsPlain dialect [] := ⟨rfl, nofun⟩

/-- A plain word ends before a space. -/
theorem endsPlain_space (dialect : Dialect) (t : Text) : EndsPlain dialect (' ' :: t) :=
  ⟨by simp [endsWord, Opening.of, isSpace], by simp⟩

/-- A plain word ends before punctuation, unless it may be a `url` with its argument. -/
theorem endsPlain_punctuation {dialect : Dialect} {c : Char} {kind : Kind} (t : Text)
    (h : punctuation? c = some kind) (hc : c ≠ '(') : EndsPlain dialect (c :: t) :=
  ⟨by rw [endsWord, Opening.of_punctuation t h], fun hh => hc (Option.some.inj hh)⟩

/-- A word goes on through plain characters. -/
theorem wordBody_plain {dialect : Dialect} {w t : Text} (hw : ∀ c ∈ w, isPlain c = true)
    (ht : endsWord dialect t = true) : wordBody dialect (w ++ t) = .ok ⟨w, t⟩ := by
  induction w with
  | nil =>
      cases t with
      | nil => simp [wordBody]
      | cons c t =>
          rw [List.nil_append, wordBody.eq_3, if_pos ht]
          -- no word ends in front of an interpolation
          rintro _ rfl rfl -
          simp [endsWord, Opening.of, isSpace, isQuote, punctuation?] at ht
  | cons c w ih =>
      have hc := hw c List.mem_cons_self
      have he : ¬ endsWord dialect (c :: (w ++ t)) = true := by
        simp [endsWord, Opening.of_plain _ hc]
      rw [List.cons_append, wordBody.eq_3, if_neg he,
        ih fun d hd => hw d (List.mem_cons_of_mem _ hd)]
      · rfl
      · rintro _ rfl rfl -
        cases hc

/-- **A plain word is read** up to where it ends. -/
theorem readWord_plain {dialect : Dialect} {w t : Text} (hw : ∀ c ∈ w, isPlain c = true)
    (ht : EndsPlain dialect t) : readWord dialect (w ++ t) = .ok ⟨w, t⟩ := by
  simp only [readWord, wordBody_plain hw ht.1]
  split
  · next argument => exact absurd rfl ht.2
  · rfl

theorem Lexeme.read_plain {dialect : Dialect} {c : Char} {w t : Text}
    (hw : ∀ d ∈ c :: w, isPlain d = true) (ht : EndsPlain dialect t) :
    Lexeme.read dialect c (w ++ t) = .ok (⟨.word, c :: w⟩, t) :=
  Lexeme.read_eq_ok_iff.2
    (.word (Opening.of_plain _ (hw c List.mem_cons_self)) (readWord_plain hw ht))

/-! ### Phrases -/

/-- One or more plain words with single spaces between them. -/
inductive Phrase : Text → Prop where
  | word {c : Char} {w : Text} (hw : ∀ d ∈ c :: w, isPlain d = true) : Phrase (c :: w)
  | more {c : Char} {w rest : Text} (hw : ∀ d ∈ c :: w, isPlain d = true) (t : Phrase rest) :
      Phrase (c :: w ++ ' ' :: rest)

namespace Phrase

variable {p q : Text}

theorem of_all {c : Char} {w : Text} (h : (c :: w).all isPlain = true) : Phrase (c :: w) :=
  .word (List.all_eq_true.1 h)

/-- Two phrases with a space between them are a phrase. -/
theorem append (hp : Phrase p) (hq : Phrase q) : Phrase (p ++ ' ' :: q) := by
  induction hp with
  | word hw => exact .more hw hq
  | more hw _ ih =>
      rw [List.append_assoc, List.cons_append]
      exact .more hw ih

/-- A plain character may be put to the last word. -/
theorem concat {d : Char} (hp : Phrase p) (hd : isPlain d = true) : Phrase (p ++ [d]) := by
  have plain : ∀ {w : Text}, (∀ e ∈ w, isPlain e = true) → ∀ e ∈ w ++ [d], isPlain e = true := by
    intro w hw e he
    rcases List.mem_append.1 he with he | he
    · exact hw e he
    · rw [List.mem_singleton.1 he]
      exact hd
  induction hp with
  | word hw => exact .word (plain hw)
  | more hw _ ih =>
      rw [List.append_assoc, List.cons_append]
      exact .more hw ih

/-- A phrase begins with a plain character. -/
theorem exists_first (hp : Phrase p) : ∃ c rest, p = c :: rest ∧ isPlain c = true := by
  cases hp with
  | word hw => exact ⟨_, _, rfl, hw _ List.mem_cons_self⟩
  | more hw _ => exact ⟨_, _, rfl, hw _ List.mem_cons_self⟩

theorem exists_last (hp : Phrase p) : ∃ front c, p = front ++ [c] ∧ isPlain c = true := by
  induction hp with
  | @word c w hw =>
      have hn : c :: w ≠ [] := List.cons_ne_nil c w
      exact ⟨_, _, (List.dropLast_concat_getLast hn).symm, hw _ (List.getLast_mem hn)⟩
  | @more c w rest _ _ ih =>
      obtain ⟨front, d, rfl, hd⟩ := ih
      exact ⟨c :: w ++ ' ' :: front, d, by simp, hd⟩

/-- There are no blanks around a phrase. -/
theorem trimEnd (hp : Phrase p) : Text.trimEnd p = p := by
  obtain ⟨front, c, rfl, hc⟩ := hp.exists_last
  exact List.rdropWhile_concat_neg _ _ _ (by simp [isBlank_of_isPlain hc])

/-- There are no blanks around a phrase to be trimmed. -/
theorem trim (hp : Phrase p) : Text.trim p = p := by
  obtain ⟨c, rest, hs, hc⟩ := hp.exists_first
  have ht : Text.trimStart p = p := by
    rw [Text.trimStart, hs, List.dropWhile_cons_of_neg (by simp [isBlank_of_isPlain hc])]
  rw [Text.trim, ht, hp.trimEnd]

/-- **A phrase is read as words and spaces**, the first of them a word. -/
theorem reads {dialect : Dialect} {t : Text} (hp : Phrase p) (ht : EndsPlain dialect t) :
    ∃ first others, Reads dialect (p ++ t) (first :: others) t ∧ first.kind = .word ∧
      ∀ l ∈ others, l.kind = .word ∨ l.kind = .space := by
  induction hp with
  | word hw => exact ⟨_, [], .more (Lexeme.read_plain hw ht) (.done t), rfl, nofun⟩
  | @more c w rest hw hr ih =>
      obtain ⟨first, others, hrest, hk, hks⟩ := ih
      -- the space ends the word, and the next word ends the space
      have hspace : Lexeme.read dialect ' ' (rest ++ t) = .ok (⟨.space, [' ']⟩, rest ++ t) := by
        obtain ⟨d, more, hs, hd⟩ := hr.exists_first
        have hn : ¬ isSpace d = true := by rw [isSpace_of_isPlain hd]; nofun
        have htake : Lexeme.Takes dialect ' ' (rest ++ t) _ _ :=
          .space (by simp [Opening.of, isSpace])
        rw [hs, List.cons_append, List.takeWhile_cons_of_neg hn,
          List.dropWhile_cons_of_neg hn] at htake
        rw [hs, List.cons_append]
        exact Lexeme.read_eq_ok_iff.2 htake
      refine ⟨⟨.word, c :: w⟩, ⟨.space, [' ']⟩ :: first :: others, ?_, rfl, ?_⟩
      · rw [List.append_assoc, List.cons_append, List.cons_append]
        exact .more (Lexeme.read_plain hw (endsPlain_space dialect (rest ++ t)))
          (.more hspace hrest)
      · intro l hl
        rcases List.mem_cons.1 hl with rfl | hl
        · exact .inr rfl
        · rcases List.mem_cons.1 hl with rfl | hl
          · exact .inl hk
          · exact hks l hl

end Phrase

end Restyle
