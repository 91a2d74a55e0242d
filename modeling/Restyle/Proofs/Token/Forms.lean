import Restyle.Proofs.Token.Places
import Restyle.Proofs.Token.Words

/-!
# The form of every token

What a token of each kind looks like can be said without reading it: which characters it is made of,
how it begins and ends, and what may stand behind it.  No token stops short of what its kind could
take.

* `Lexeme.HasForm dialect next l`: the text of `l` has the form of its kind, and `next` behind it
  does not go on with it.
* `Lexeme.hasForm_of_read`: what is read at one place has its form.
* `Token.tokenize_hasForm`: **every token has the form of its kind**, in front of the text of the
  tokens behind it.
-/

namespace Restyle

/-- The text of the lexeme has the form of its kind, and it does not go on in the text `next` behind
it. -/
def Lexeme.HasForm (dialect : Dialect) (next : Text) (l : Lexeme) : Prop :=
  match l.kind with
  | .space         =>
    l.text ≠ [] ∧ (∀ c ∈ l.text, isSpace c = true) ∧ ∀ c ∈ next.head?, isSpace c = false
  -- the only end of a comment in it is the one that closes it
  | .comment false =>
    ∃ inner, l.text = '/' :: '*' :: (inner ++ ['*', '/']) ∧ Unended (inner ++ ['*'])
  | .comment true  =>
    dialect = .scss ∧ (∃ inner, l.text = '/' :: '/' :: inner) ∧
      (∀ c ∈ l.text, isLineEnd c = false) ∧ ∀ c ∈ next.head?, isLineEnd c = true
  | .string        =>
    ∃ quote inner, isQuote quote = true ∧ l.text = quote :: (inner ++ [quote]) ∧
      Quoted quote inner
  | .atWord name   =>
    l.text = '@' :: name ∧ name ≠ [] ∧ (∀ c ∈ name, isNameChar c = true) ∧
      ∀ c ∈ next.head?, isNameChar c = false
  | .word          =>
    UrlForm l.text ∨ Wordlike dialect l.text ∧ (next = [] ∨ Ends dialect next)
  | .colon         => l.text = [':']
  | .semicolon     => l.text = [';']
  | .openBrace     => l.text = ['{']
  | .closeBrace    => l.text = ['}']
  | .openParen     => l.text = ['(']
  | .closeParen    => l.text = [')']
  | .eof           => l.text = [] ∧ next = []

/-! ### One lexeme -/

theorem eq_false_of_mem_head?_dropWhile {p : Char → Bool} {text : Text} {c : Char}
    (h : c ∈ (text.dropWhile p).head?) : p c = false := by
  have hn := List.head?_dropWhile_not p text
  rw [Option.mem_def.1 h] at hn
  simpa using hn

/-- **What is read at one place has the form of its kind**, in front of what is left. -/
theorem Lexeme.hasForm_of_read {dialect : Dialect} {c : Char} {rest left : Text} {l : Lexeme}
    (h : Lexeme.read dialect c rest = .ok (l, left)) : l.HasForm dialect left := by
  have hs := Opening.shows_of dialect c rest
  have hmade := Lexeme.made_of_read h
  cases Lexeme.read_eq_ok_iff.1 h with
  | space => exact ⟨nofun, List.all_eq_true.1 hmade, fun d => eq_false_of_mem_head?_dropWhile⟩
  | blockComment ho hc =>
      rw [ho] at hs
      obtain ⟨rfl, hs⟩ := hs
      obtain ⟨tail, rfl⟩ := List.head?_eq_some_iff.1 hs
      obtain ⟨inner, hu, htaken, -⟩ := throughComment_eq_some_iff.1 hc
      exact ⟨inner, by simp [htaken], hu⟩
  | lineComment ho =>
      rw [ho] at hs
      obtain ⟨rfl, hs⟩ := hs
      obtain ⟨tail, rfl⟩ := List.head?_eq_some_iff.1 hs
      refine ⟨Opening.scss_of_lineComment ho, ⟨tail.takeWhile (!isLineEnd ·), by simp [isLineEnd]⟩,
        fun d hd => ?_, fun d hd => by simpa using eq_false_of_mem_head?_dropWhile hd⟩
      rcases List.mem_cons.1 hd with rfl | hd
      · rfl
      · simpa using List.mem_takeWhile_imp hd
  | string ho hc =>
      rw [ho] at hs
      obtain ⟨inner, hq, htaken, -⟩ := quoted_of_throughQuote (ne_backslash_of_isQuote hs) hc
      exact ⟨c, inner, hs, congrArg (c :: ·) htaken, hq⟩
  | atWord ho =>
      rw [ho] at hs
      exact ⟨congrArg (· :: _) hs, hmade.1, List.all_eq_true.1 hmade.2,
        fun d => eq_false_of_mem_head?_dropWhile⟩
  | punctuation ho =>
      rw [ho] at hs
      simp only [Opening.Shows, punctuation?] at hs
      split at hs <;> cases hs <;> rfl
  | word _ hw => exact readWord_cases hw

/-! ### All lexemes of a text -/

/-- Every lexeme of a text has its form, in front of the lexemes behind it. -/
theorem Reads.hasForm {dialect : Dialect} {text rest : Text} {l : Lexeme} {ls ms : List Lexeme}
    (h : Reads dialect text (ls ++ l :: ms) rest) :
    l.HasForm dialect (Lexeme.textOf ms ++ rest) := by
  have hl := h.split_text.2
  generalize Lexeme.textOf (l :: ms) ++ rest = tail at hl
  cases hl with
  | more hread t =>
      rw [← t.text_eq]
      exact Lexeme.hasForm_of_read hread

/-- A space ends where no other begins. -/
theorem Lexeme.HasForm.ne_space {dialect : Dialect} {l m : Lexeme} {next rest : Text}
    (hl : l.HasForm dialect next) (hm : m.HasForm dialect rest) (hn : m.text <+: next)
    (hk : l.kind = .space) : m.kind ≠ .space := by
  intro hmk
  simp only [HasForm, hk] at hl
  simp only [HasForm, hmk] at hm
  obtain ⟨c, tail, hc⟩ := List.exists_cons_of_ne_nil hm.1
  obtain ⟨behind, rfl⟩ := hn
  have hs : isSpace c = true := hm.2.1 c (by simp [hc])
  rw [hl.2.2 c (by simp [hc])] at hs
  cases hs

/-! ### All tokens of a text -/

/-- A token of a text has its form, in front of the text of the tokens behind it. -/
theorem Token.hasForm_of_tokenize {dialect : Dialect} {source : Text} {tokens : List Token}
    (h : Token.tokenize dialect source = .ok tokens) {before after : List Token} {token : Token}
    (ht : tokens = before ++ token :: after) :
    token.toLexeme.HasForm dialect (Token.textOf after) := by
  obtain ⟨ls, hr, htokens⟩ := Token.tokenize_eq_ok_iff.1 h
  rw [htokens] at ht
  rcases List.eq_nil_or_concat after with rfl | ⟨after, last, rfl⟩
  · -- the last token marks the end
    cases (List.append_inj' ht rfl).2
    exact ⟨rfl, rfl⟩
  · rw [List.concat_eq_append, ← List.cons_append, ← List.append_assoc] at ht
    obtain ⟨hfront, hlast⟩ := List.append_inj' ht rfl
    cases hlast
    have hls : ls = before.map Token.toLexeme ++ token.toLexeme :: after.map Token.toLexeme := by
      rw [← toLexeme_locate .start ls, hfront, List.map_append, List.map_cons]
    rw [hls] at hr
    have htext : Token.textOf (after ++ [Token.endOf source]) =
        Lexeme.textOf (after.map Token.toLexeme) ++ [] := by
      rw [Token.textOf_append, Token.textOf_eq after]
      rfl
    rw [List.concat_eq_append, htext]
    exact hr.hasForm

/-- **Every token has the form of its kind**, and it is as long as it can be: the text of the tokens
behind it does not go on with it.  No two spaces stand side by side. -/
theorem Token.tokenize_hasForm {dialect : Dialect} {source : Text} {tokens : List Token}
    (h : Token.tokenize dialect source = .ok tokens) :
    ∀ before token after, tokens = before ++ token :: after →
      token.toLexeme.HasForm dialect (Token.textOf after) ∧
      (token.kind = .space → ∀ later ∈ after.head?, later.kind ≠ .space) := by
  intro before token after ht
  refine ⟨Token.hasForm_of_tokenize h ht, fun hk later hl => ?_⟩
  obtain ⟨rest, rfl⟩ := List.head?_eq_some_iff.1 hl
  have hlater : tokens = (before ++ [token]) ++ later :: rest := by rw [ht]; simp
  exact (Token.hasForm_of_tokenize h ht).ne_space (Token.hasForm_of_tokenize h hlater)
    (List.prefix_append later.text (Token.textOf rest)) hk

/-- A space of three characters between a line comment and a string with an escaped quote, behind a
word with an interpolation and in front of an at-word and a `url`. -/
theorem Token.tokenize_hasForm_sample :
    ∃ tokens before token later rest,
      Token.tokenize .scss "a/#\x7bb\x7d//c\r\n\t'\\''@é(url(/*)".toList = .ok tokens ∧
      tokens = before ++ token :: later :: rest ∧
      token.toLexeme = ⟨.space, "\r\n\t".toList⟩ ∧
      token.toLexeme.HasForm .scss (Token.textOf (later :: rest)) ∧ later.kind ≠ .space := by
  generalize hs : "a/#\x7bb\x7d//c\r\n\t'\\''@é(url(/*)".toList = source
  have ho : (Token.tokenize .scss source).toOption.map
      (fun tokens => ((tokens.drop 2).take 2).map Token.toLexeme) =
      some [⟨.space, "\r\n\t".toList⟩, ⟨.string, "'\\''".toList⟩] := by
    subst hs
    decide +kernel
  obtain ⟨tokens, h, htokens⟩ := exists_of_map_toOption ho
  match hd : tokens.drop 2 with
  | [] | [_] => simp [hd] at htokens
  | token :: later :: rest =>
      rw [hd] at htokens
      have hl : token.toLexeme = ⟨.space, "\r\n\t".toList⟩ := (List.cons.inj htokens).1
      have hsplit : tokens = tokens.take 2 ++ token :: later :: rest := by
        rw [← hd, List.take_append_drop]
      obtain ⟨hform, hspace⟩ := Token.tokenize_hasForm h _ token _ hsplit
      exact ⟨tokens, _, token, later, rest, h, hsplit, hl, hform,
        hspace (congrArg Lexeme.kind hl) later rfl⟩

end Restyle
