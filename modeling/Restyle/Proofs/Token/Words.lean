import Restyle.Proofs.Token.Braces
import Restyle.Proofs.Token.Closing
import Restyle.Proofs.Token.Tiles

/-!
# What a word takes along

A word runs up to the first thing that cannot stand in it.  In SCSS it takes interpolations along,
each through the brace that closes it.  The argument of a `url` is taken along up to its first
closing parenthesis, and whatever opens in front of that is not looked at.

* `Ends dialect text`: what cannot stand in a word begins here.
* `Wordlike dialect text`: nothing of that sort stands in the text, interpolations apart.
* `UrlForm text`: a `url` with its whole argument.
* `readWord_cases`: a word has one of the two forms, and one of the first form ends where it has to.
* `Encloses text`: an interpolation that begins in the text ends in it.
* `Token.word_encloses_iff`: **a word takes along all of its interpolations**, unless it is a `url`
  whose first closing parenthesis stands in one.
-/

namespace Restyle

/-! ### Where words end -/

/-- The characters that stand in no word. -/
def isEnder (c : Char) : Bool :=
  isSpace c || isQuote c || ['{', '}', ';', ':', '(', ')'].contains c

/-- What cannot stand in a word begins here: such a character, or a comment. -/
inductive Ends (dialect : Dialect) : Text → Prop where
  | char {c : Char} {rest : Text} (h : isEnder c = true) : Ends dialect (c :: rest)
  | blockComment {rest : Text} : Ends dialect ('/' :: '*' :: rest)
  | lineComment {rest : Text} (hd : dialect = .scss) : Ends dialect ('/' :: '/' :: rest)

/-- What ends a word does so with more text behind it. -/
theorem Ends.append {dialect : Dialect} {text : Text} (h : Ends dialect text) (t : Text) :
    Ends dialect (text ++ t) := by
  cases h with
  | char h => exact .char h
  | blockComment => exact .blockComment
  | lineComment hd => exact .lineComment hd

/-- The characters that stand in no word are the spaces, the quotes and the punctuation. -/
theorem isEnder_iff {c : Char} :
    isEnder c = true ↔ isSpace c = true ∨ isQuote c = true ∨ (punctuation? c).isSome = true := by
  have hp : ['{', '}', ';', ':', '(', ')'].contains c = (punctuation? c).isSome := by
    unfold punctuation?
    split <;> simp_all
  rw [isEnder, hp, Bool.or_eq_true, Bool.or_eq_true, or_assoc]

/-- Line comments belong to SCSS. -/
theorem Opening.scss_of_lineComment {dialect : Dialect} {c : Char} {rest : Text}
    (h : Opening.of dialect c rest = .lineComment) : dialect = .scss := by
  have hs := Opening.shows_of dialect c rest
  rw [h] at hs
  obtain ⟨rfl, hs⟩ := hs
  cases dialect with
  | scss => rfl
  | css => simp [Opening.of, isSpace, isQuote, punctuation?, hs] at h

/-- **A word ends** where the text does, and where something begins that cannot stand in it. -/
theorem endsWord_iff {dialect : Dialect} {text : Text} :
    endsWord dialect text = true ↔ text = [] ∨ Ends dialect text := by
  cases text with
  | nil => simp [endsWord]
  | cons c rest =>
      rw [or_iff_right (List.cons_ne_nil c rest)]
      constructor
      · intro h
        have hs := Opening.shows_of dialect c rest
        cases ho : Opening.of dialect c rest with
        | word | atWord => simp [endsWord, ho] at h
        | space => rw [ho] at hs; exact .char (isEnder_iff.2 (.inl hs))
        | string => rw [ho] at hs; exact .char (isEnder_iff.2 (.inr (.inl hs)))
        | punctuation kind =>
            rw [ho] at hs
            exact .char (isEnder_iff.2 (.inr (.inr (Option.isSome_of_eq_some hs))))
        | blockComment =>
            rw [ho] at hs
            obtain ⟨rfl, hs⟩ := hs
            obtain ⟨tail, rfl⟩ := List.head?_eq_some_iff.1 hs
            exact .blockComment
        | lineComment =>
            rw [ho] at hs
            obtain ⟨rfl, hs⟩ := hs
            obtain ⟨tail, rfl⟩ := List.head?_eq_some_iff.1 hs
            exact .lineComment (Opening.scss_of_lineComment ho)
      · intro h
        cases h with
        | blockComment => simp [endsWord, Opening.of, isSpace]
        | lineComment hd => simp [endsWord, Opening.of, isSpace, hd]
        | char h =>
            rcases isEnder_iff.1 h with h | h | h
            · simp [endsWord, Opening.of, h]
            · rw [isQuote, Bool.or_eq_true, beq_iff_eq, beq_iff_eq] at h
              rcases h with rfl | rfl <;> simp [endsWord, Opening.of, isSpace, isQuote]
            · obtain ⟨kind, hk⟩ := Option.isSome_iff_exists.1 h
              simp [endsWord, Opening.of_punctuation rest hk]

/-! ### The text of a word -/

/-- Nothing that ends a word stands in the text, outside of its interpolations. -/
inductive Wordlike (dialect : Dialect) : Text → Prop where
  | nil : Wordlike dialect []
  | char {c : Char} {rest : Text} (h : ¬ Ends dialect (c :: rest)) (t : Wordlike dialect rest) :
      Wordlike dialect (c :: rest)
  | interpolation {inner rest : Text} (hd : dialect = .scss) (i : Nested inner)
      (t : Wordlike dialect rest) : Wordlike dialect ('#' :: '{' :: (inner ++ '}' :: rest))

/-- A `url` with its argument, which is no quoted string and ends at the first closing
parenthesis. -/
def UrlForm (text : Text) : Prop :=
  ∃ name argument, isUrl name = true ∧ text = name ++ '(' :: (argument ++ [')']) ∧
    ')' ∉ argument ∧ startsQuoted argument = false

/-- A word goes on as long as nothing ends it. -/
theorem wordlike_of_wordBody {dialect : Dialect} {text : Text} {cut : Cut}
    (h : wordBody dialect text = .ok cut) :
    Wordlike dialect cut.taken ∧ (cut.rest = [] ∨ Ends dialect cut.rest) := by
  fun_induction wordBody dialect text generalizing cut with
  | case1 => cases h; exact ⟨.nil, .inl rfl⟩
  | case2 => cases h
  | case3 rest inner hi ih =>
      cases hb : wordBody .scss inner.rest with
      | error f => rw [hb] at h; cases h
      | ok tail =>
          rw [hb] at h; cases h
          obtain ⟨hw, hr⟩ := ih hb
          obtain ⟨body, hn, htaken, -⟩ := throughInterpolation_eq_some_iff.1 hi
          refine ⟨?_, hr⟩
          simpa [Cut.grow, htaken] using Wordlike.interpolation rfl hn hw
  | case4 dialect c rest _ he => cases h; exact ⟨.nil, endsWord_iff.1 he⟩
  | case5 dialect c rest _ he ih =>
      cases hb : wordBody dialect rest with
      | error f => rw [hb] at h; cases h
      | ok tail =>
          rw [hb] at h; cases h
          obtain ⟨hw, hr⟩ := ih hb
          refine ⟨.char (fun hc => he (endsWord_iff.2 (.inr ?_))) hw, hr⟩
          rw [← whole_of_wordBody hb]
          exact hc.append tail.rest

theorem startsQuoted_of_append {text t : Text} (h : startsQuoted (text ++ t) = false) :
    startsQuoted text = false := by
  rw [startsQuoted, List.dropWhile_append] at h
  split at h
  · next he => simp [startsQuoted, List.isEmpty_iff.1 he]
  · next he =>
    rw [List.isEmpty_iff] at he
    rwa [List.head?_append, List.head?_eq_some_head he, Option.some_or,
      ← List.head?_eq_some_head he] at h

/-- **The two forms of a word.** -/
theorem readWord_cases {dialect : Dialect} {text : Text} {cut : Cut}
    (h : readWord dialect text = .ok cut) :
    UrlForm cut.taken ∨
      Wordlike dialect cut.taken ∧ (cut.rest = [] ∨ Ends dialect cut.rest) := by
  unfold readWord at h
  split at h
  · cases h
  · next body hb =>
    split at h
    · split at h
      · next argument _ hu =>
        rw [Bool.and_eq_true, Bool.not_eq_true'] at hu
        split at h
        · cases h
        · next tail ht =>
          cases h
          obtain ⟨inner, hn, htaken, rfl⟩ := through_eq_some_iff.1 ht
          refine .inl ⟨body.taken, inner, hu.1, ?_, hn, startsQuoted_of_append hu.2⟩
          simp [Cut.grow, htaken]
      · cases h; exact .inr (wordlike_of_wordBody hb)
    · cases h; exact .inr (wordlike_of_wordBody hb)

/-! ### Interpolations of a text -/

/-- Every interpolation that begins in the text, other than inside of one, ends in it. -/
inductive Spliced : Text → Prop where
  | nil : Spliced []
  | char {c : Char} {rest : Text} (h : c = '#' → rest.head? ≠ some '{') (t : Spliced rest) :
      Spliced (c :: rest)
  | interpolation {inner rest : Text} (i : Nested inner) (t : Spliced rest) :
      Spliced ('#' :: '{' :: (inner ++ '}' :: rest))

/-- An interpolation that begins in the text ends in it: the brace that closes it is there.  What
begins inside of an earlier interpolation belongs to that one. -/
def Encloses (text : Text) : Prop :=
  ∀ before after, text = before ++ '#' :: '{' :: after → Spliced before →
    ∃ inner rest, after = inner ++ '}' :: rest ∧ Nested inner

/-- What stands behind whole interpolations is spliced as the whole is. -/
theorem Spliced.of_append {before rest : Text} (hb : Spliced before)
    (h : Spliced (before ++ '#' :: rest)) : Spliced ('#' :: rest) := by
  induction hb with
  | nil => exact h
  | @char c later hc _ ih =>
      generalize he : c :: later ++ '#' :: rest = text at h
      cases h with
      | nil => cases he
      | char _ t => cases he; exact ih t
      | interpolation =>
          -- the brace behind the number sign would have to stand in what comes before
          cases later with
          | nil => cases he
          | cons d later =>
              simp only [List.cons_append, List.cons.injEq] at he
              exact absurd (congrArg some he.2.1) (hc he.1)
  | @interpolation inner later hi _ ih =>
      generalize he : '#' :: '{' :: (inner ++ '}' :: later) ++ '#' :: rest = text at h
      cases h with
      | nil => cases he
      | char hc => cases he; exact absurd rfl (hc rfl)
      | interpolation hi' t =>
          simp only [List.cons_append, List.append_assoc, List.cons.injEq, true_and] at he
          obtain ⟨-, rfl⟩ := hi.unique hi' he
          exact ih t

/-- **What is spliced encloses** its interpolations: each of them is one that it is made of. -/
theorem Spliced.encloses {text : Text} (h : Spliced text) : Encloses text := by
  rintro before after rfl hb
  have hs := hb.of_append h
  generalize he : '#' :: '{' :: after = tail at hs
  cases hs with
  | nil => cases he
  | char hc => cases he; exact absurd rfl (hc rfl)
  | @interpolation inner rest i _ => cases he; exact ⟨inner, rest, rfl, i⟩

/-- A character that begins no interpolation may be taken from the front. -/
theorem Encloses.of_cons {c : Char} {rest : Text} (hc : c = '#' → rest.head? ≠ some '{')
    (h : Encloses (c :: rest)) : Encloses rest := by
  rintro before after rfl hb
  refine h (c :: before) after rfl (.char (fun hs => ?_) hb)
  cases before with
  | nil => nofun
  | cons d before => exact hc hs

theorem Encloses.of_interpolation {inner rest : Text} (i : Nested inner)
    (h : Encloses ('#' :: '{' :: (inner ++ '}' :: rest))) : Encloses rest := by
  rintro before after rfl hb
  exact h ('#' :: '{' :: (inner ++ '}' :: before)) after (by simp) (.interpolation i hb)

/-- The two ways to say that a text holds all of its interpolations. -/
theorem encloses_iff_spliced {text : Text} : Encloses text ↔ Spliced text := by
  refine ⟨fun h => ?_, Spliced.encloses⟩
  -- from interpolation to interpolation, so on the length of the text
  induction hn : text.length using Nat.strongRecOn generalizing text with
  | ind n ih =>
      subst hn
      cases text with
      | nil => exact .nil
      | cons c rest =>
          by_cases hc : c = '#' ∧ rest.head? = some '{'
          · obtain ⟨rfl, hh⟩ := hc
            obtain ⟨after, rfl⟩ := List.head?_eq_some_iff.1 hh
            obtain ⟨inner, later, rfl, hi⟩ := h [] after rfl .nil
            refine .interpolation hi (ih later.length ?_ (h.of_interpolation hi) rfl)
            simp only [List.length_cons, List.length_append]
            omega
          · have hc : c = '#' → rest.head? ≠ some '{' := fun hs hh => hc ⟨hs, hh⟩
            exact .char hc (ih rest.length (by simp) (h.of_cons hc) rfl)

/-- Spliced texts may be joined where that begins no interpolation. -/
theorem Spliced.append {a b : Text} (ha : Spliced a) (hb : Spliced b)
    (hh : b.head? ≠ some '{') : Spliced (a ++ b) := by
  induction ha with
  | nil => exact hb
  | @char c rest hc _ ih =>
      refine .char (fun hs => ?_) ih
      cases rest with
      | nil => exact hh
      | cons d rest => exact hc hs
  | interpolation i _ ih => simpa using Spliced.interpolation i ih

/-- No interpolation begins in front of the first number sign. -/
theorem spliced_append_iff {front text : Text} (h : '#' ∉ front) :
    Spliced (front ++ text) ↔ Spliced text := by
  induction front with
  | nil => rfl
  | cons c front ih =>
      obtain ⟨hc, hf⟩ := List.ne_and_not_mem_of_not_mem_cons h
      rw [← ih hf, List.cons_append]
      refine ⟨fun hs => ?_, Spliced.char fun he => absurd he.symm hc⟩
      generalize he : c :: (front ++ text) = whole at hs
      cases hs with
      | nil => cases he
      | char _ t => cases he; exact t
      | interpolation => exact absurd (List.cons.inj he).1.symm hc

/-- A closing parenthesis behind the text ends no interpolation. -/
theorem encloses_concat_iff {text : Text} : Encloses (text ++ [')']) ↔ Encloses text := by
  constructor
  · rintro h before after rfl hb
    obtain ⟨inner, rest, hr, hi⟩ := h before (after ++ [')']) (by simp) hb
    rcases List.eq_nil_or_concat rest with rfl | ⟨later, d, rfl⟩
    · cases (List.append_inj' hr rfl).2
    · rw [List.concat_eq_append, ← List.cons_append, ← List.append_assoc] at hr
      exact ⟨inner, later, (List.append_inj' hr rfl).1, hi⟩
  · rw [encloses_iff_spliced, encloses_iff_spliced]
    exact fun h => h.append (.char nofun .nil) nofun

/-! ### Interpolations of a word -/

/-- A text without what ends a word is spliced. -/
theorem Wordlike.spliced {text : Text} (h : Wordlike .scss text) : Spliced text := by
  induction h with
  | nil => exact .nil
  | @char c rest _ t ih =>
      refine .char (fun _ hh => ?_) ih
      obtain ⟨tail, rfl⟩ := List.head?_eq_some_iff.1 hh
      -- no brace stands in a word by itself
      cases t with
      | char hn => exact hn (.char rfl)
  | interpolation _ i _ ih => exact .interpolation i ih

/-- There is no interpolation in the name of a `url`. -/
theorem number_sign_not_mem_of_isUrl {name : Text} (h : isUrl name = true) : '#' ∉ name := by
  intro hm
  rw [isUrl, Text.sameLetters, beq_iff_eq] at h
  have hl := List.mem_map_of_mem (f := Char.toLower) hm
  rw [h] at hl
  revert hl
  decide

/-- A `url` takes along the interpolations that its argument takes along. -/
theorem encloses_url_iff {name argument : Text} (h : isUrl name = true) :
    Encloses (name ++ '(' :: (argument ++ [')'])) ↔ Encloses argument := by
  have hf : '#' ∉ name ++ ['('] := by simpa using number_sign_not_mem_of_isUrl h
  calc Encloses (name ++ '(' :: (argument ++ [')']))
      ↔ Spliced ((name ++ ['(']) ++ (argument ++ [')'])) := by
        rw [encloses_iff_spliced, List.append_assoc]; rfl
    _ ↔ Spliced (argument ++ [')']) := spliced_append_iff hf
    _ ↔ Encloses argument := by rw [← encloses_iff_spliced, encloses_concat_iff]

/-- **A word encloses its interpolations** unless the argument of a `url` does not. -/
theorem encloses_of_readWord {text : Text} {cut : Cut} (h : readWord .scss text = .ok cut) :
    Encloses cut.taken ↔ ∀ name argument, isUrl name = true →
      cut.taken = name ++ '(' :: (argument ++ [')']) → Encloses argument := by
  constructor
  · intro he name argument hu ht
    rw [ht] at he
    exact (encloses_url_iff hu).1 he
  · intro hall
    rcases readWord_cases h with ⟨name, argument, hu, ht, -⟩ | ⟨hw, -⟩
    · rw [ht, encloses_url_iff hu]
      exact hall name argument hu ht
    · exact hw.spliced.encloses

/-! ### Words among the tokens of a text -/

/-- What a lexeme of a text was read from. -/
theorem Reads.takes_of_mem {dialect : Dialect} {text rest : Text} {l : Lexeme} {ls : List Lexeme}
    (h : Reads dialect text ls rest) (hl : l ∈ ls) :
    ∃ c tail left, Lexeme.Takes dialect c tail l left := by
  induction h with
  | done => cases hl
  | @more c tail left _ l' _ h _ ih =>
      rcases List.mem_cons.mp hl with rfl | hl
      · exact ⟨c, tail, left, Lexeme.read_eq_ok_iff.1 h⟩
      · exact ih hl

/-- A lexeme that is a word was read as one. -/
theorem Lexeme.Takes.readWord {dialect : Dialect} {c : Char} {rest left : Text} {l : Lexeme}
    (h : Lexeme.Takes dialect c rest l left) (hk : l.kind = .word) :
    Restyle.readWord dialect (c :: rest) = .ok ⟨l.text, left⟩ := by
  cases h with
  | word _ hw => exact hw
  | space | blockComment | lineComment | string | atWord => cases hk
  | punctuation ho =>
      have hs := Opening.shows_of dialect c rest
      rw [ho] at hs
      cases hk
      simp only [Opening.Shows, punctuation?] at hs
      split at hs <;> cases hs

theorem Abut.le_start {n m : Nat} {tokens : List Token} {token : Token} (h : Abut n tokens m)
    (ht : token ∈ tokens) : n ≤ token.start.offset := by
  obtain ⟨front, back, rfl⟩ := List.append_of_mem ht
  rw [h.start_eq]
  exact Nat.le_add_right _ _

/-- Of two tokens that stand in one row, one ends before the other starts. -/
theorem Abut.apart {n m : Nat} {tokens : List Token} {a b : Token} (h : Abut n tokens m)
    (ha : a ∈ tokens) (hb : b ∈ tokens) (hne : a ≠ b) :
    a.stop ≤ b.start.offset ∨ b.stop ≤ a.start.offset := by
  induction h with
  | nil => cases ha
  | cons _ t ih =>
      rcases List.mem_cons.1 ha with rfl | ha'
      · exact .inl (t.le_start (List.mem_of_ne_of_mem (Ne.symm hne) hb))
      · rcases List.mem_cons.1 hb with rfl | hb'
        · exact .inr (t.le_start ha')
        · exact ih ha' hb'

/-- **A word takes along all of its interpolations**, each through the brace that closes it, unless
it is a `url` whose argument does not: that one ends at its first closing parenthesis, also within
an interpolation.  The braces among the tokens lie outside of the word. -/
theorem Token.word_encloses_iff {source : Text} {tokens : List Token}
    (h : Token.tokenize .scss source = .ok tokens) :
    ∀ token ∈ tokens, token.kind = .word →
      (Encloses token.text ↔ ∀ name argument, isUrl name = true →
        token.text = name ++ '(' :: (argument ++ [')']) → Encloses argument) ∧
      ∀ brace ∈ tokens, brace.isBrace = true →
        brace.stop ≤ token.start.offset ∨ token.stop ≤ brace.start.offset := by
  intro token ht hk
  obtain ⟨ls, hr, htokens⟩ := Token.tokenize_eq_ok_iff.1 h
  constructor
  · rw [htokens, List.mem_append, List.mem_singleton] at ht
    rcases ht with ht | rfl
    · obtain ⟨c, tail, left, hl⟩ := hr.takes_of_mem (mem_of_mem_locate ht)
      exact encloses_of_readWord (hl.readWord hk)
    · cases hk
  · intro brace hb hbrace
    refine (Token.tiling_of_tokenize h).1.apart hb ht ?_
    rintro rfl
    simp [Token.isBrace, hk] at hbrace

/-- An interpolation with a brace in a string and a block of its own, in a word in front of a
block. -/
theorem Token.word_encloses_iff_sample :
    ∃ tokens token,
      Token.tokenize .scss "a#\x7bb('\x7d')\x7bc\x7d\x7dd\x7be:f\x7d".toList = .ok tokens ∧
      token ∈ tokens ∧ token.kind = .word ∧
      token.text = "a#\x7bb('\x7d')\x7bc\x7d\x7dd".toList ∧ Encloses token.text ∧
      ∀ brace ∈ tokens, brace.isBrace = true →
        brace.stop ≤ token.start.offset ∨ token.stop ≤ brace.start.offset := by
  generalize hs : "a#\x7bb('\x7d')\x7bc\x7d\x7dd\x7be:f\x7d".toList = source
  have ho : (Token.tokenize .scss source).toOption.map (·.head?.map Token.toLexeme) =
      some (some ⟨.word, "a#\x7bb('\x7d')\x7bc\x7d\x7dd".toList⟩) := by
    subst hs
    decide +kernel
  obtain ⟨tokens, h, htokens⟩ := exists_of_map_toOption ho
  obtain ⟨token, ht, hl⟩ := Option.map_eq_some_iff.1 htokens
  have hmem := List.mem_of_head? ht
  have hkind : token.kind = .word := congrArg Lexeme.kind hl
  have htext : token.text = "a#\x7bb('\x7d')\x7bc\x7d\x7dd".toList := congrArg Lexeme.text hl
  obtain ⟨hiff, hbraces⟩ := Token.word_encloses_iff h token hmem hkind
  refine ⟨tokens, token, h, hmem, hkind, htext, hiff.2 fun name argument _ hu => ?_, hbraces⟩
  -- the word does not end with a parenthesis
  have hlast := congrArg List.getLast? (htext.symm.trans hu)
  rw [← List.cons_append, ← List.append_assoc, List.getLast?_concat] at hlast
  exact absurd hlast (by decide)

/-- **A `url` does not take along an interpolation with a call in it.**  The word ends at the
parenthesis of the call, and the brace that closes the interpolation is a token. -/
theorem Token.url_cuts_interpolation :
    ∃ tokens, Token.tokenize .scss "url(#\x7bf(x)\x7d)".toList = .ok tokens ∧
      ∃ word ∈ tokens, word.kind = .word ∧ ¬ Encloses word.text ∧
        ∃ brace ∈ tokens, brace.kind = .closeBrace ∧ brace.start.offset = word.stop := by
  generalize hs : "url(#\x7bf(x)\x7d)".toList = source
  have ho : (Token.tokenize .scss source).toOption.map (·.take 2) =
      some [⟨⟨.word, "url(#\x7bf(x)".toList⟩, ⟨0, 1, 1⟩⟩,
        ⟨⟨.closeBrace, "\x7d".toList⟩, ⟨10, 1, 11⟩⟩] := by
    subst hs
    decide +kernel
  obtain ⟨tokens, h, htokens⟩ := exists_of_map_toOption ho
  have hmem : ∀ token ∈ tokens.take 2, token ∈ tokens := fun _ ht => List.mem_of_mem_take ht
  rw [htokens] at hmem
  refine ⟨tokens, h, _, hmem _ List.mem_cons_self, rfl, fun he => ?_,
    _, hmem _ (List.mem_cons_of_mem _ List.mem_cons_self), rfl, by decide⟩
  have hfront : Spliced "url(".toList :=
    encloses_iff_spliced.1 fun before after hb => by
      have hm : '#' ∈ "url(".toList := by rw [hb]; simp
      exact absurd hm (by decide)
  obtain ⟨inner, rest, hr, -⟩ := he "url(".toList "f(x)".toList rfl hfront
  have hm : '}' ∈ "f(x)".toList := by rw [hr]; simp
  exact absurd hm (by decide)

end Restyle
