import Restyle.Proofs.Token.Reads

/-!
# Tokens tile a text

The tokens of a text stand side by side from its first byte to its last, and each is what the text
holds between its two offsets.  Nothing is skipped and nothing is read twice.

* `Token.scan_eq_ok_iff`: the tokens of a text are its lexemes, each at its place.
* `Abut n tokens m`: the tokens follow one another without a gap, from byte `n` to byte `m`.
* `Text.Slice text n m part`: the text holds `part` from byte `n` to byte `m`.
* `Tiling source tokens`: the tokens stand side by side and are the text.
* `Token.tokenize_tiles`: **the tokens of a text tile it**, and the last one marks its end.
-/

namespace Restyle

/-! ### The tokens of a text -/

namespace Token

@[simp] theorem textOf_nil : textOf [] = [] := rfl

@[simp] theorem textOf_cons (token : Token) (tokens : List Token) :
    textOf (token :: tokens) = token.text ++ textOf tokens := rfl

@[simp] theorem textOf_append (a b : List Token) : textOf (a ++ b) = textOf a ++ textOf b :=
  List.flatMap_append

/-- The text of tokens does not depend on where they stand. -/
theorem textOf_eq (tokens : List Token) :
    textOf tokens = Lexeme.textOf (tokens.map Token.toLexeme) := by
  induction tokens with
  | nil => rfl
  | cons token tokens ih => rw [textOf_cons, List.map_cons, Lexeme.textOf_cons, ih]

end Token

/-- A lexeme stays what it is when it is given a place. -/
theorem toLexeme_locate (p : Position) (ls : List Lexeme) :
    (locate p ls).map Token.toLexeme = ls := by
  induction ls generalizing p with
  | nil => rfl
  | cons l ls ih => rw [locate, List.map_cons, ih]

theorem textOf_locate (p : Position) (ls : List Lexeme) :
    Token.textOf (locate p ls) = Lexeme.textOf ls := by
  rw [Token.textOf_eq, toLexeme_locate]

/-- The tokens are read from a text in one go: their lexemes, with nothing left. -/
theorem Token.scan_eq_ok_iff {dialect : Dialect} {text : Text} {tokens : List Token} :
    Token.scan dialect text = .ok tokens ↔
      ∃ ls, Reads dialect text ls [] ∧ tokens = locate .start ls := by
  rw [Token.scan]
  constructor
  · intro h
    split at h
    · cases h
    · next ls hl => cases h; exact ⟨ls, lexemes_eq_ok_iff.1 hl, rfl⟩
  · rintro ⟨ls, hr, rfl⟩
    rw [lexemes_eq_ok_iff.2 hr]

/-- All tokens of a text, with the one that marks its end. -/
theorem Token.tokenize_eq_ok_iff {dialect : Dialect} {text : Text} {tokens : List Token} :
    Token.tokenize dialect text = .ok tokens ↔
      ∃ ls, Reads dialect text ls [] ∧ tokens = locate .start ls ++ [Token.endOf text] := by
  rw [Token.tokenize]
  constructor
  · intro h
    cases hs : Token.scan dialect text with
    | error e => rw [hs] at h; cases h
    | ok front =>
        rw [hs] at h; cases h
        obtain ⟨ls, hr, rfl⟩ := Token.scan_eq_ok_iff.1 hs
        exact ⟨ls, hr, rfl⟩
  · rintro ⟨ls, hr, rfl⟩
    rw [Token.scan_eq_ok_iff.2 ⟨ls, hr, rfl⟩]
    rfl

/-- Tokens whose lexemes have the text of their kind. -/
def Formed (tokens : List Token) : Prop := ∀ token ∈ tokens, token.toLexeme.Formed

theorem mem_of_mem_locate {p : Position} {ls : List Lexeme} {token : Token}
    (h : token ∈ locate p ls) : token.toLexeme ∈ ls := by
  rw [← toLexeme_locate p ls]
  exact List.mem_map_of_mem h

/-- The tokens of a text have the text of their kind. -/
theorem formed_locate {dialect : Dialect} {text rest : Text} {ls : List Lexeme} (p : Position)
    (h : Reads dialect text ls rest) : Formed (locate p ls) := fun _ ht =>
  h.formed (mem_of_mem_locate ht)

/-- The token at the end of a text is not one of those that were read. -/
theorem Formed.ne_eof {tokens : List Token} (h : Formed tokens) :
    ∀ token ∈ tokens, token.kind ≠ .eof := by
  intro token ht hk
  have hf := h token ht
  simp only [Lexeme.Formed, hk] at hf

/-! ### Parts of a text -/

/-- The text can be cut after `n` bytes: no character lies across that place. -/
def Text.Boundary (text : Text) (n : Nat) : Prop :=
  ∃ before after : Text, text = before ++ after ∧ before.size = n

/-- The text holds `part` from byte `n` to byte `m`. -/
def Text.Slice (text : Text) (n m : Nat) (part : Text) : Prop :=
  ∃ before after : Text, text = before ++ part ++ after ∧ before.size = n ∧ n + part.size = m

/-- A slice is cut between characters at both of its ends. -/
theorem Text.Slice.boundaries {text part : Text} {n m : Nat} (h : text.Slice n m part) :
    text.Boundary n ∧ text.Boundary m := by
  obtain ⟨before, after, rfl, rfl, rfl⟩ := h
  refine ⟨⟨before, part ++ after, ?_, rfl⟩, ⟨before ++ part, after, rfl, ?_⟩⟩
  · rw [List.append_assoc]
  · rw [Text.size_append]

theorem Text.size_pos {text : Text} (h : text ≠ []) : 0 < text.size := by
  obtain ⟨c, rest, rfl⟩ := List.exists_cons_of_ne_nil h
  have := c.utf8Size_pos
  rw [Text.size_cons]
  omega

/-! ### Side by side -/

/-- The tokens follow one another without a gap, from byte `n` to byte `m`. -/
inductive Abut : Nat → List Token → Nat → Prop where
  | nil (n : Nat) : Abut n [] n
  | cons {n m : Nat} {token : Token} {rest : List Token} (hs : token.start.offset = n)
      (t : Abut token.stop rest m) : Abut n (token :: rest) m

namespace Abut

variable {n m k : Nat} {a b tokens : List Token} {token : Token}

/-- Tokens that abut may be put behind one another. -/
theorem append (h₁ : Abut n a m) (h₂ : Abut m b k) : Abut n (a ++ b) k := by
  induction h₁ with
  | nil => exact h₂
  | cons hs _ ih => exact .cons hs (ih h₂)

/-- The tokens end as many bytes further on as they have. -/
theorem end_eq (h : Abut n tokens m) : m = n + (Token.textOf tokens).size := by
  induction h with
  | nil => rfl
  | cons hs _ ih => rw [ih, Token.stop, hs, Nat.add_assoc, ← Text.size_append]; rfl

theorem append_inv (h : Abut n (a ++ b) m) :
    Abut n a (n + (Token.textOf a).size) ∧ Abut (n + (Token.textOf a).size) b m := by
  induction a generalizing n with
  | nil => exact ⟨.nil n, h⟩
  | cons token a ih =>
      cases h with
      | cons hs t =>
          obtain ⟨ha, hb⟩ := ih t
          rw [Token.stop, hs, Nat.add_assoc, ← Text.size_append] at ha hb
          exact ⟨.cons hs (by rw [Token.stop, hs]; exact ha), hb⟩

/-- A token stands behind the bytes of the tokens before it. -/
theorem start_eq (h : Abut n (a ++ token :: b) m) :
    token.start.offset = n + (Token.textOf a).size := by
  cases h.append_inv.2 with
  | cons hs _ => exact hs

/-- **A token is what the text holds between its offsets.** -/
theorem slice (h : Abut 0 tokens m) (ht : token ∈ tokens) :
    (Token.textOf tokens).Slice token.start.offset token.stop token.text := by
  obtain ⟨a, b, rfl⟩ := List.append_of_mem ht
  have hs := h.start_eq
  rw [Nat.zero_add] at hs
  refine ⟨Token.textOf a, Token.textOf b, ?_, hs.symm, rfl⟩
  rw [Token.textOf_append, Token.textOf_cons, List.append_assoc]

end Abut

/-- Lexemes that are given their places abut. -/
theorem abut_locate (p : Position) (ls : List Lexeme) :
    Abut p.offset (locate p ls) (p.offset + (Lexeme.textOf ls).size) := by
  induction ls generalizing p with
  | nil => exact .nil p.offset
  | cons l ls ih =>
      have ht := ih (p.past l.text (firstChar? ls))
      rw [Position.offset_past, Nat.add_assoc, ← Text.size_append] at ht
      exact .cons rfl ht

/-- The tokens stand side by side from the first byte of the text to its last, and put together they
are the text. -/
def Tiling (source : Text) (tokens : List Token) : Prop :=
  Abut 0 tokens source.size ∧ Token.textOf tokens = source

theorem Token.offset_endOf (source : Text) : (Token.endOf source).start.offset = source.size := by
  rw [Token.endOf, Position.offset_past, Position.start, Nat.zero_add]

/-- **The tokens of a text tile it.** -/
theorem Token.tiling_of_tokenize {dialect : Dialect} {source : Text} {tokens : List Token}
    (h : Token.tokenize dialect source = .ok tokens) : Tiling source tokens := by
  obtain ⟨ls, hr, rfl⟩ := Token.tokenize_eq_ok_iff.1 h
  have htext : Lexeme.textOf ls = source := by
    rw [hr.text_eq, List.append_nil]
  have hend := Token.offset_endOf source
  have hfront : Abut 0 (locate .start ls) source.size := by
    have ha := abut_locate .start ls
    rw [htext, Position.start, Nat.zero_add] at ha
    exact ha
  constructor
  · refine hfront.append (.cons hend ?_)
    rw [Token.stop, hend]
    exact .nil source.size
  · rw [Token.textOf_append, textOf_locate, htext]
    exact List.append_nil source

/-- **The tokens of a text tile it.**  They follow one another from byte zero to the last byte, and
put together they are the text.  Each is what the text holds between its offsets, which do not lie
inside a character.  The last one marks the end of the text; the others do not, and are not
empty. -/
theorem Token.tokenize_tiles {dialect : Dialect} {source : Text} {tokens : List Token}
    (h : Token.tokenize dialect source = .ok tokens) :
    Abut 0 tokens source.size ∧ Token.textOf tokens = source ∧
      (∀ token ∈ tokens, source.Slice token.start.offset token.stop token.text ∧
        source.Boundary token.start.offset ∧ source.Boundary token.stop) ∧
      ∃ front last, tokens = front ++ [last] ∧
        (∀ token ∈ front, token.start.offset < token.stop ∧ token.kind ≠ .eof) ∧
        last.kind = .eof ∧ last.start.offset = source.size ∧ last.stop = source.size := by
  obtain ⟨habut, hwhole⟩ := Token.tiling_of_tokenize h
  obtain ⟨ls, hr, rfl⟩ := Token.tokenize_eq_ok_iff.1 h
  have hend := Token.offset_endOf source
  refine ⟨habut, hwhole, fun token ht => ?_, locate .start ls, Token.endOf source, rfl,
    fun token ht => ⟨?_, ?_⟩, rfl, hend, ?_⟩
  · have hs := habut.slice ht
    rw [hwhole] at hs
    exact ⟨hs, hs.boundaries⟩
  · have := Text.size_pos (hr.ne_nil (mem_of_mem_locate ht))
    rw [Token.stop]
    omega
  · exact (formed_locate .start hr).ne_eof token ht
  · rw [Token.stop, hend]
    rfl

/-- Characters of one to four bytes, a NUL, a line end in a string, and a word that takes an
interpolation along. -/
theorem Token.tokenize_tiles_sample :
    ∃ tokens, Token.tokenize .scss "é\x00\x7b'\\\r\n😀' #\x7b'\x7d'\x7d€/* */@ü".toList = .ok tokens ∧
      Token.textOf tokens = "é\x00\x7b'\\\r\n😀' #\x7b'\x7d'\x7d€/* */@ü".toList := by
  generalize hs : "é\x00\x7b'\\\r\n😀' #\x7b'\x7d'\x7d€/* */@ü".toList = source
  have ho : (Token.tokenize .scss source).isOk = true := by
    subst hs
    decide +kernel
  cases h : Token.tokenize .scss source with
  | error e => rw [h] at ho; cases ho
  | ok tokens => exact ⟨tokens, rfl, (Token.tokenize_tiles h).2.1⟩

end Restyle
