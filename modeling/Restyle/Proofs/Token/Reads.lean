import Restyle.Token.Lexer

/-!
# Reading lexeme by lexeme

`Reads dialect text ls rest` says that reading `text` takes the lexemes `ls` in turn and leaves
`rest`.  Each lexeme is read with all the text behind it in place, so readings compose
(`Reads.append`) and can be cut anywhere (`Reads.split`).

* `Lexeme.read_eq_ok_iff`: what opens at the first character of a text decides how much of it the
  first lexeme takes.
* `lexemes_eq_ok_iff`: a text has the lexemes `ls` when reading it takes `ls` and leaves nothing.
* `Reads.text_eq`: a text is its lexemes, side by side, and what is left.
* `Reads.formed`: the text of a lexeme is the one its kind stands for.
-/

namespace Restyle

/-! ### Results that are there -/

/-- A result that is no error is a value. -/
theorem exists_of_isOk {ε α : Type} {x : Except ε α} (h : x.isOk = true) : ∃ a, x = .ok a := by
  cases x with
  | error e => cases h
  | ok a => exact ⟨a, rfl⟩

theorem exists_of_map_toOption {ε α β : Type} {x : Except ε α} {f : α → β} {b : β}
    (h : x.toOption.map f = some b) : ∃ a, x = .ok a ∧ f a = b := by
  cases x with
  | error e => cases h
  | ok a => exact ⟨a, rfl, Option.some.inj h⟩

theorem map_eq_ok_iff {ε α β : Type} {x : Except ε α} {f : α → β} {b : β} :
    x.map f = .ok b ↔ ∃ a, x = .ok a ∧ f a = b := by
  cases x <;> simp [Except.map]

/-! ### What an opening says about the text -/

/-- What an opening says about the characters it was told from. -/
def Opening.Shows (c : Char) (rest : Text) : Opening → Prop
  | .space            => isSpace c = true
  | .blockComment     => c = '/' ∧ rest.head? = some '*'
  | .lineComment      => c = '/' ∧ rest.head? = some '/'
  | .string           => isQuote c = true
  | .atWord           => c = '@'
  | .punctuation kind => punctuation? c = some kind
  | .word             => punctuation? c = none ∧ isSpace c = false

/-- **The opening is told** from the first characters as it says. -/
theorem Opening.shows_of (dialect : Dialect) (c : Char) (rest : Text) :
    (Opening.of dialect c rest).Shows c rest := by
  unfold Opening.of
  split
  · assumption
  split
  · simp_all [Opening.Shows]
  split
  · simp_all [Opening.Shows]
  split
  · assumption
  split
  · simp_all [Opening.Shows]
  split
  · assumption
  · simp_all [Opening.Shows]

/-- An opening depends on one character beyond the first. -/
theorem Opening.of_congr {dialect : Dialect} {c : Char} {rest rest' : Text}
    (h : rest.head? = rest'.head?) : Opening.of dialect c rest = Opening.of dialect c rest' := by
  simp only [Opening.of, h]

/-- A punctuation mark opens itself, whatever follows. -/
theorem Opening.of_punctuation {dialect : Dialect} {c : Char} {kind : Kind} (rest : Text)
    (h : punctuation? c = some kind) : Opening.of dialect c rest = .punctuation kind := by
  have hc : c = ':' ∨ c = ';' ∨ c = '{' ∨ c = '}' ∨ c = '(' ∨ c = ')' := by
    unfold punctuation? at h
    split at h <;> simp_all
  rcases hc with rfl | rfl | rfl | rfl | rfl | rfl <;>
    · cases h
      simp [Opening.of, isSpace, isQuote, punctuation?]

/-! ### How a lexeme is read -/

/-- The text `c :: rest` begins with the lexeme, and the second text is left: one case for each
opening. -/
inductive Lexeme.Takes (dialect : Dialect) (c : Char) (rest : Text) : Lexeme → Text → Prop where
  | space (ho : Opening.of dialect c rest = .space) :
      Takes dialect c rest ⟨.space, c :: rest.takeWhile isSpace⟩ (rest.dropWhile isSpace)
  | blockComment {cut : Cut} (ho : Opening.of dialect c rest = .blockComment)
      (hc : throughComment (rest.drop 1) = some cut) :
      Takes dialect c rest ⟨.comment false, c :: (rest.take 1 ++ cut.taken)⟩ cut.rest
  | lineComment (ho : Opening.of dialect c rest = .lineComment) :
      Takes dialect c rest ⟨.comment true, c :: rest.takeWhile (!isLineEnd ·)⟩
        (rest.dropWhile (!isLineEnd ·))
  | string {cut : Cut} (ho : Opening.of dialect c rest = .string)
      (hc : throughQuote c rest = some cut) :
      Takes dialect c rest ⟨.string, c :: cut.taken⟩ cut.rest
  | atWord (ho : Opening.of dialect c rest = .atWord) :
      Takes dialect c rest
        ⟨.atWord (rest.takeWhile isNameChar), c :: rest.takeWhile isNameChar⟩
        (rest.dropWhile isNameChar)
  | punctuation {kind : Kind} (ho : Opening.of dialect c rest = .punctuation kind) :
      Takes dialect c rest ⟨kind, [c]⟩ rest
  | word {cut : Cut} (ho : Opening.of dialect c rest = .word)
      (hw : readWord dialect (c :: rest) = .ok cut) :
      Takes dialect c rest ⟨.word, cut.taken⟩ cut.rest

/-- **How a lexeme is read.**  What opens at the first character decides what is taken. -/
theorem Lexeme.read_eq_ok_iff {dialect : Dialect} {c : Char} {rest left : Text} {l : Lexeme} :
    Lexeme.read dialect c rest = .ok (l, left) ↔ Lexeme.Takes dialect c rest l left := by
  constructor
  · intro h
    rw [Lexeme.read] at h
    cases ho : Opening.of dialect c rest with
    | space => rw [ho] at h; cases h; exact .space ho
    | lineComment => rw [ho] at h; cases h; exact .lineComment ho
    | atWord => rw [ho] at h; cases h; exact .atWord ho
    | punctuation kind => rw [ho] at h; cases h; exact .punctuation ho
    | blockComment =>
        rw [ho] at h
        cases hc : throughComment (rest.drop 1) with
        | none => simp only [hc] at h; cases h
        | some cut => simp only [hc] at h; cases h; exact .blockComment ho hc
    | string =>
        rw [ho] at h
        cases hc : throughQuote c rest with
        | none => simp only [hc] at h; cases h
        | some cut => simp only [hc] at h; cases h; exact .string ho hc
    | word =>
        rw [ho] at h
        cases hw : readWord dialect (c :: rest) with
        | error f => rw [hw] at h; cases h
        | ok cut => rw [hw] at h; cases h; exact .word ho hw
  · intro h
    cases h with
    | space ho | lineComment ho | atWord ho | punctuation ho => rw [Lexeme.read, ho]
    | blockComment ho hc | string ho hc => simp only [Lexeme.read, ho, hc]
    | word ho hw => simp only [Lexeme.read, ho, hw]; rfl

/-! ### Readings -/

namespace Lexeme

/-- The text of lexemes that stand side by side. -/
def textOf (ls : List Lexeme) : Text := ls.flatMap (·.text)

@[simp] theorem textOf_nil : textOf [] = [] := rfl

@[simp] theorem textOf_cons (l : Lexeme) (ls : List Lexeme) :
    textOf (l :: ls) = l.text ++ textOf ls := rfl

@[simp] theorem textOf_append (ls ms : List Lexeme) :
    textOf (ls ++ ms) = textOf ls ++ textOf ms := List.flatMap_append

end Lexeme

/-- Reading the first text takes the lexemes and leaves the second text. -/
inductive Reads (dialect : Dialect) : Text → List Lexeme → Text → Prop where
  | done (rest : Text) : Reads dialect rest [] rest
  | more {c : Char} {text left rest : Text} {l : Lexeme} {ls : List Lexeme}
      (h : Lexeme.read dialect c text = .ok (l, left)) (t : Reads dialect left ls rest) :
      Reads dialect (c :: text) (l :: ls) rest

theorem lexemes_nil (dialect : Dialect) : lexemes dialect [] = .ok [] := by
  rw [lexemes]

/-- Reading a text is reading one lexeme and then what is left. -/
theorem lexemes_cons {dialect : Dialect} {c : Char} {text left : Text} {l : Lexeme}
    (h : Lexeme.read dialect c text = .ok (l, left)) :
    lexemes dialect (c :: text) = (lexemes dialect left).map (l :: ·) := by
  rw [lexemes]
  split
  · next failure hf => rw [h] at hf; cases hf
  · next l' left' hr => rw [h] at hr; cases hr; rfl

theorem lexemes_cons_error {dialect : Dialect} {c : Char} {text : Text} {failure : Failure}
    (h : Lexeme.read dialect c text = .error failure) :
    lexemes dialect (c :: text) = .error failure := by
  rw [lexemes]
  split
  · next failure' hf => rw [h] at hf; cases hf; rfl
  · next l left hr => rw [h] at hr; cases hr

namespace Reads

variable {dialect : Dialect} {text mid rest : Text} {l : Lexeme} {ls ms : List Lexeme}

/-- Reading may go on where it stopped. -/
theorem append (h₁ : Reads dialect text ls mid) (h₂ : Reads dialect mid ms rest) :
    Reads dialect text (ls ++ ms) rest := by
  induction h₁ with
  | done => exact h₂
  | more h _ ih => exact .more h (ih h₂)

/-- Reading may be stopped after any lexeme. -/
theorem split : ∀ {ls : List Lexeme} {text : Text}, Reads dialect text (ls ++ ms) rest →
    ∃ mid, Reads dialect text ls mid ∧ Reads dialect mid ms rest
  | [], text, h => ⟨text, .done text, h⟩
  | _ :: _, _, .more h t => by
      obtain ⟨mid, h₁, h₂⟩ := split t
      exact ⟨mid, .more h h₁, h₂⟩

/-- **Nothing is lost.**  A text is the lexemes read from it, side by side, and what is left. -/
theorem text_eq (h : Reads dialect text ls rest) : text = Lexeme.textOf ls ++ rest := by
  induction h with
  | done => rfl
  | more h _ ih =>
      rw [← Lexeme.text_append_of_read h, Lexeme.textOf_cons, List.append_assoc, ← ih]

/-- Reading the text of some lexemes and then `rest` takes them one after the other. -/
theorem split_text (h : Reads dialect text (ls ++ ms) rest) :
    Reads dialect text ls (Lexeme.textOf ms ++ rest) ∧
      Reads dialect (Lexeme.textOf ms ++ rest) ms rest := by
  obtain ⟨mid, h₁, h₂⟩ := split h
  rw [h₂.text_eq] at h₁
  exact ⟨h₁, h₂.text_eq ▸ h₂⟩

/-- No lexeme is empty. -/
theorem ne_nil (h : Reads dialect text ls rest) (hl : l ∈ ls) : l.text ≠ [] := by
  induction h with
  | done => cases hl
  | more h _ ih =>
      rcases List.mem_cons.mp hl with rfl | hl
      · exact Lexeme.text_ne_nil_of_read h
      · exact ih hl

end Reads

/-- **The lexemes of a text** are what reading it takes when nothing is left. -/
theorem lexemes_eq_ok_iff {dialect : Dialect} {text : Text} {ls : List Lexeme} :
    lexemes dialect text = .ok ls ↔ Reads dialect text ls [] := by
  constructor
  · intro h
    fun_induction lexemes dialect text generalizing ls with
    | case1 => cases h; exact .done []
    | case2 => cases h
    | case3 c rest l left hr ih =>
        cases hl : lexemes dialect left with
        | error f => rw [hl] at h; cases h
        | ok ms => rw [hl] at h; cases h; exact .more hr (ih hl)
  · generalize hn : ([] : Text) = rest
    intro h
    induction h with
    | done => subst hn; exact lexemes_nil dialect
    | more h _ ih => rw [lexemes_cons h, ih hn]; rfl

/-- A text has one list of lexemes. -/
theorem Reads.unique {dialect : Dialect} {text : Text} {ls ms : List Lexeme}
    (h₁ : Reads dialect text ls []) (h₂ : Reads dialect text ms []) : ls = ms :=
  Except.ok.inj ((lexemes_eq_ok_iff.2 h₁).symm.trans (lexemes_eq_ok_iff.2 h₂))

/-! ### The text of a kind -/

/-- The text is the one that the kind stands for, as far as a kind fixes its text. -/
def Lexeme.Formed (l : Lexeme) : Prop :=
  match l.kind with
  | .comment false => ∃ inner, l.text = '/' :: '*' :: inner ++ ['*', '/']
  | .comment true  => ∃ inner, l.text = '/' :: '/' :: inner
  | .atWord name   => l.text = '@' :: name
  | .colon         => l.text = [':']
  | .semicolon     => l.text = [';']
  | .openBrace     => l.text = ['{']
  | .closeBrace    => l.text = ['}']
  | .openParen     => l.text = ['(']
  | .closeParen    => l.text = [')']
  | .eof           => False
  | _              => True

/-- A block comment ends with the delimiter that closes it. -/
theorem taken_of_throughComment {text : Text} {cut : Cut} (h : throughComment text = some cut) :
    ∃ inner, cut.taken = inner ++ ['*', '/'] := by
  fun_induction throughComment text generalizing cut with
  | case1 rest => cases h; exact ⟨[], rfl⟩
  | case2 c rest _ ih =>
      obtain ⟨tail, ht, rfl⟩ := Option.map_eq_some_iff.1 h
      obtain ⟨inner, hi⟩ := ih ht
      exact ⟨c :: inner, by simp [Cut.grow, hi]⟩
  | case3 => cases h

theorem Lexeme.formed_of_read {dialect : Dialect} {c : Char} {rest left : Text} {l : Lexeme}
    (h : Lexeme.read dialect c rest = .ok (l, left)) : l.Formed := by
  have hs := Opening.shows_of dialect c rest
  cases Lexeme.read_eq_ok_iff.1 h with
  | space | string | word => trivial
  | blockComment ho hc =>
      rw [ho] at hs
      obtain ⟨rfl, hs⟩ := hs
      obtain ⟨tail, rfl⟩ := List.head?_eq_some_iff.1 hs
      obtain ⟨inner, hi⟩ := taken_of_throughComment hc
      exact ⟨inner, by simp [hi]⟩
  | lineComment ho =>
      rw [ho] at hs
      obtain ⟨rfl, hs⟩ := hs
      obtain ⟨tail, rfl⟩ := List.head?_eq_some_iff.1 hs
      exact ⟨tail.takeWhile (!isLineEnd ·), by simp [isLineEnd]⟩
  | atWord ho => rw [ho] at hs; cases hs; rfl
  | punctuation ho =>
      rw [ho] at hs
      simp only [Opening.Shows, punctuation?] at hs
      split at hs <;> cases hs <;> rfl

/-- Each lexeme has the text of its kind. -/
theorem Reads.formed {dialect : Dialect} {text rest : Text} {l : Lexeme} {ls : List Lexeme}
    (h : Reads dialect text ls rest) (hl : l ∈ ls) : l.Formed := by
  induction h with
  | done => cases hl
  | more h _ ih =>
      rcases List.mem_cons.mp hl with rfl | hl
      · exact Lexeme.formed_of_read h
      · exact ih hl

end Restyle
