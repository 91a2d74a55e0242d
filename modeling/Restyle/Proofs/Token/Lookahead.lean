import Restyle.Proofs.Token.Reads

/-!
# How far reading looks ahead

A lexeme is told from its own text and a glance at what follows.  So the text behind a lexeme can
be exchanged, as long as the glance shows the same.

* `Local reader`: the reader looks at nothing beyond what it takes.  The readers of delimited
  constructs are local.
* `SameAhead t t'`: a lexeme in front of `t` does not notice when `t'` stands there instead.
* `Lexeme.Seals l t`: the lexeme `l` ends before `t`, whatever stood there before.  Braces,
  semicolons and block comments end by themselves; a line comment needs the end of its line.
* `Lexeme.read_swap`: in both cases `t'` may take the place of `t`.
* `Reads.swap`: lexemes that are read in front of `t` are read in front of every text that begins
  like `t`.
-/

namespace Restyle

/-! ### Delimited constructs -/

/-- The reader looks at nothing beyond what it takes. -/
def Local (reader : Text → Option Cut) : Prop :=
  ∀ {text : Text} {cut : Cut}, reader text = some cut →
    ∀ t, reader (cut.taken ++ t) = some ⟨cut.taken, t⟩

/-- A cut behind a character needs nothing further on. -/
theorem local_through (stop : Char) : Local (through stop) := by
  intro text cut h t
  fun_induction through stop text generalizing cut with
  | case1 => cases h
  | case2 rest => cases h; simp [through]
  | case3 c rest hc ih =>
      obtain ⟨inner, hi, rfl⟩ := Option.map_eq_some_iff.1 h
      simp [Cut.grow, through, hc, ih hi]

theorem local_throughComment : Local throughComment := by
  intro text cut h t
  fun_induction throughComment text generalizing cut with
  | case1 rest => cases h; simp [throughComment]
  | case2 c rest hc ih =>
      obtain ⟨inner, hi, rfl⟩ := Option.map_eq_some_iff.1 h
      -- the first character of what is taken further is the one that stood there before
      have hn : ∀ tail, c = '*' → inner.taken ++ t ≠ '/' :: tail := by
        intro tail hs ht
        obtain ⟨front, hf⟩ := taken_of_throughComment hi
        obtain ⟨d, more, hd⟩ := List.exists_cons_of_ne_nil (l := inner.taken) (by simp [hf])
        rw [hd] at ht
        cases ht
        refine hc (more ++ inner.rest) hs ?_
        rw [← whole_of_throughComment hi, Cut.whole, hd]
        rfl
      simp only [Cut.grow, List.cons_append, List.nil_append]
      rw [throughComment.eq_2 c _ hn, ih hi]
      rfl
  | case3 => cases h

theorem local_throughQuote {quote : Char} (hq : isQuote quote = true) :
    Local (throughQuote quote) := by
  have hb : quote ≠ '\\' := by rintro rfl; simp [isQuote] at hq
  intro text cut h t
  fun_induction throughQuote quote text generalizing cut with
  | case1 => cases h
  | case2 c rest ih =>
      obtain ⟨inner, hi, rfl⟩ := Option.map_eq_some_iff.1 h
      simp [Cut.grow, throughQuote, ih hi]
  | case3 rest =>
      cases h
      simp [throughQuote, hb]
  | case4 c rest hc hn ih =>
      obtain ⟨inner, hi, rfl⟩ := Option.map_eq_some_iff.1 h
      have hc' : c ≠ '\\' := by
        rintro rfl
        cases rest with
        | nil => cases hi
        | cons d rest => exact hc d rest rfl rfl
      simp [Cut.grow, throughQuote, hc', hn, ih hi]

theorem local_throughInterpolation (depth : Nat) : Local (throughInterpolation depth) := by
  intro text cut h t
  fun_induction throughInterpolation depth text generalizing cut with
  | case1 => cases h
  | case2 depth rest ih =>
      obtain ⟨inner, hi, rfl⟩ := Option.map_eq_some_iff.1 h
      simp [Cut.grow, throughInterpolation, ih hi]
  | case3 rest => cases h; simp [throughInterpolation]
  | case4 rest depth ih =>
      obtain ⟨inner, hi, rfl⟩ := Option.map_eq_some_iff.1 h
      simp [Cut.grow, throughInterpolation, ih hi]
  | case5 => cases h
  | case6 depth c rest h₁ h₂ hc quoted hq ih =>
      obtain ⟨inner, hi, rfl⟩ := Option.map_eq_some_iff.1 h
      simp only [Cut.grow, List.cons_append, List.append_assoc]
      rw [throughInterpolation.eq_5 depth c _ h₁ h₂, if_pos hc]
      have hs := local_throughQuote hc hq (inner.taken ++ t)
      split
      · next hn => rw [hs] at hn; cases hn
      · next quoted' hq' => rw [hs] at hq'; cases hq'; simp [ih hi, Cut.grow]
  | case7 depth c rest h₁ h₂ hc ih =>
      obtain ⟨inner, hi, rfl⟩ := Option.map_eq_some_iff.1 h
      simp only [Cut.grow, List.cons_append, List.nil_append]
      rw [throughInterpolation.eq_5 depth c _ h₁ h₂, if_neg hc, ih hi]
      rfl

/-! ### Words -/

/-- A lexeme in front of `t` does not notice when `t'` stands there instead: both begin with the
same character, a slash is followed by the same character in both, and behind an opening
parenthesis a quote comes first in both or in neither. -/
structure SameAhead (t t' : Text) : Prop where
  head : t'.head? = t.head?
  slash : t.head? = some '/' → t'.tail.head? = t.tail.head?
  paren : t.head? = some '(' → startsQuoted t'.tail = startsQuoted t.tail

/-- A text in front of both begins alike with either. -/
theorem SameAhead.head_append {t t' : Text} (h : SameAhead t t') (w : Text) :
    (w ++ t').head? = (w ++ t).head? := by
  rw [List.head?_append, List.head?_append, h.head]

/-- Whether a word ends is told from two characters. -/
theorem endsWord_congr {dialect : Dialect} {c : Char} {rest rest' : Text}
    (h : rest'.head? = rest.head?) :
    endsWord dialect (c :: rest') = endsWord dialect (c :: rest) := by
  simp only [endsWord, Opening.of_congr h]

/-- Where a word ends, it ends in front of every text that looks the same. -/
theorem SameAhead.endsWord {dialect : Dialect} {t t' : Text} (h : SameAhead t t')
    (he : endsWord dialect t = true) : endsWord dialect t' = true := by
  obtain ⟨hh, hs, -⟩ := h
  cases t with
  | nil => rw [List.head?_eq_none_iff.1 hh]; rfl
  | cons c rest =>
      obtain ⟨rest', rfl⟩ := List.head?_eq_some_iff.1 hh
      by_cases hc : c = '/'
      · have hr : rest'.head? = rest.head? := hs (by simp [hc])
        rw [endsWord_congr hr]; exact he
      · by_cases ha : c = '@'
        · subst ha
          have hat : ∀ rest, Restyle.endsWord dialect ('@' :: rest) = false := by
            intro rest
            simp only [Restyle.endsWord, Opening.of, isSpace, isQuote, punctuation?]
            cases List.head? rest with
            | none => rfl
            | some d => cases hd : isNameChar d <;> simp [hd]
          rw [hat] at he; cases he
        · simpa [Restyle.endsWord, Opening.of, hc, ha] using he

/-- **A word does not notice** what stands behind it, if it looks the same from there. -/
theorem wordBody_swap {dialect : Dialect} {text t' : Text} {cut : Cut}
    (h : wordBody dialect text = .ok cut) (ha : SameAhead cut.rest t') :
    wordBody dialect (cut.taken ++ t') = .ok ⟨cut.taken, t'⟩ := by
  fun_induction wordBody dialect text generalizing cut with
  | case1 dialect =>
      cases h
      rw [List.head?_eq_none_iff.1 ha.head]
      simp [wordBody]
  | case2 => cases h
  | case3 rest inner hi ih =>
      cases hb : wordBody .scss inner.rest with
      | error f => rw [hb] at h; cases h
      | ok tail =>
          rw [hb] at h; cases h
          have hs := local_throughInterpolation 0 hi (tail.taken ++ t')
          simp only [Cut.grow, List.cons_append, List.append_assoc]
          rw [wordBody]
          split
          · next hn => rw [hs] at hn; cases hn
          · next inner' hi' => rw [hs] at hi'; cases hi'; rw [ih hb ha]; rfl
  | case4 dialect c rest _ he =>
      cases h
      have he' := ha.endsWord he
      obtain ⟨rest', rfl⟩ := List.head?_eq_some_iff.1 ha.head
      rw [List.nil_append, wordBody.eq_3, if_pos he']
      -- no word ends in front of an interpolation
      rintro _ rfl rfl -
      simp [endsWord, Opening.of, isSpace, isQuote, punctuation?] at he
  | case5 dialect c rest hn he ih =>
      cases hb : wordBody dialect rest with
      | error f => rw [hb] at h; cases h
      | ok tail =>
          rw [hb] at h; cases h
          have hw := whole_of_wordBody hb
          have hh : (tail.taken ++ t').head? = rest.head? := by
            rw [← hw, ha.head_append]; rfl
          simp only [Cut.grow, List.cons_append, List.nil_append]
          rw [wordBody.eq_3, endsWord_congr hh, if_neg he, ih hb ha]
          · rfl
          · intro rest' hd hc hr
            rw [hr] at hh
            obtain ⟨rest'', rfl⟩ := List.head?_eq_some_iff.1 hh.symm
            exact hn rest'' hd hc rfl

/-- The first character that is no space is found without looking beyond it. -/
theorem startsQuoted_append {u : Text} (hu : ∃ c ∈ u, isSpace c = false) (t t' : Text) :
    startsQuoted (u ++ t') = startsQuoted (u ++ t) := by
  obtain ⟨c, hc, hs⟩ := hu
  induction u with
  | nil => cases hc
  | cons d u ih =>
      by_cases hd : isSpace d = true
      · have hcu : c ∈ u := by
          rcases List.mem_cons.mp hc with rfl | h
          · rw [hs] at hd; cases hd
          · exact h
        simpa [startsQuoted, hd] using ih hcu
      · simp [startsQuoted, hd]

theorem mem_taken_of_through {stop : Char} {text : Text} {cut : Cut}
    (h : through stop text = some cut) : stop ∈ cut.taken := by
  fun_induction through stop text generalizing cut with
  | case1 => cases h
  | case2 rest => cases h; simp
  | case3 c rest _ ih =>
      obtain ⟨inner, hi, rfl⟩ := Option.map_eq_some_iff.1 h
      simp [Cut.grow, ih hi]

theorem readWord_swap {dialect : Dialect} {text t' : Text} {cut : Cut}
    (h : readWord dialect text = .ok cut) (ha : SameAhead cut.rest t') :
    readWord dialect (cut.taken ++ t') = .ok ⟨cut.taken, t'⟩ := by
  rw [readWord] at h
  split at h
  · cases h
  · next body hb =>
    split at h
    · next argument hr =>
      split at h
      · next hu =>
        split at h
        · cases h
        · next tail ht =>
          -- the argument belongs to the word, which ends with its parenthesis
          cases h
          have hq := startsQuoted_append
            ⟨')', mem_taken_of_through ht, by decide⟩ tail.rest t'
          have hw := whole_of_through ht
          rw [Cut.whole] at hw
          have hs : SameAhead body.rest ('(' :: (tail.taken ++ t')) := by
            rw [hr]
            refine ⟨rfl, fun hc => absurd (Option.some.inj hc) (by decide), fun _ => ?_⟩
            rw [List.tail_cons, List.tail_cons, hq, hw]
          have hb' := wordBody_swap hb hs
          rw [hw] at hq
          simp only [Cut.grow, List.append_assoc, List.cons_append, List.nil_append]
          simp only [readWord, hb', hq, if_pos hu, local_through ')' ht t', Cut.grow,
            List.append_assoc, List.cons_append, List.nil_append]
      · next hu =>
        cases h
        rw [hr] at ha
        obtain ⟨argument', rfl⟩ := List.head?_eq_some_iff.1 ha.head
        have hq := ha.paren rfl
        simp only [List.tail_cons] at hq
        have hb' := wordBody_swap hb (hr ▸ ha)
        simp only [readWord, hb', hq, if_neg hu]
    · next hn =>
      cases h
      have hb' := wordBody_swap hb ha
      simp only [readWord, hb']
      split
      · next argument ht =>
        obtain ⟨argument', hr⟩ := List.head?_eq_some_iff.1 ha.head.symm
        exact absurd hr (hn argument')
      · rfl

/-! ### Lexemes -/

/-- A run of characters ends where the next one does not belong to it. -/
theorem run_append {p : Char → Bool} {w t : Text} (hw : ∀ c ∈ w, p c = true)
    (ht : ∀ c, t.head? = some c → p c = false) :
    (w ++ t).takeWhile p = w ∧ (w ++ t).dropWhile p = t := by
  rw [List.takeWhile_append_of_pos hw, List.dropWhile_append_of_pos hw]
  cases t with
  | nil => simp
  | cons c t => simp [ht c rfl]

/-- A run of characters that is dropped is the run that is taken. -/
theorem run_of_dropWhile {p : Char → Bool} {w t : Text} (h : (w ++ t).dropWhile p = t) :
    (w ++ t).takeWhile p = w ∧ (∀ c ∈ w, p c = true) ∧ ∀ c, t.head? = some c → p c = false := by
  have hw : (w ++ t).takeWhile p = w := by
    have := List.takeWhile_append_dropWhile (p := p) (l := w ++ t)
    rw [h] at this
    exact List.append_cancel_right this
  have ha := List.all_takeWhile (p := p) (l := w ++ t)
  rw [hw, List.all_eq_true] at ha
  refine ⟨hw, ha, fun c hc => ?_⟩
  have hd := List.head?_dropWhile_not p (w ++ t)
  rw [h, hc] at hd
  exact hd

/-- What is read is the text up to what is left. -/
theorem Lexeme.text_of_read {dialect : Dialect} {c : Char} {w t : Text} {l : Lexeme}
    (h : Lexeme.read dialect c (w ++ t) = .ok (l, t)) : l.text = c :: w := by
  have := Lexeme.text_append_of_read h
  rw [← List.cons_append] at this
  exact List.append_cancel_right this

/-- The lexeme ends before the text, whatever it was read in front of.  Braces, semicolons and
block comments end by themselves, a line comment at the end of its line. -/
def Lexeme.Seals (l : Lexeme) (t : Text) : Prop :=
  match l.kind with
  | .semicolon | .openBrace | .closeBrace | .comment false => True
  | .comment true => ∀ c, t.head? = some c → isLineEnd c = true
  | _ => False

/-- A lexeme that seals is one of three punctuation marks, or a comment. -/
theorem Lexeme.Seals.text_cases {l : Lexeme} {t : Text} (hs : l.Seals t) (hf : l.Formed) :
    (∃ c, l.text = [c] ∧ punctuation? c = some l.kind ∧ isSpace c = false ∧ c ≠ '(' ∧ c ≠ '/') ∨
      ∃ d inner, l.text = '/' :: d :: inner := by
  obtain ⟨kind, text⟩ := l
  cases kind with
  | semicolon => exact .inl ⟨';', hf, rfl, rfl, by decide, by decide⟩
  | openBrace => exact .inl ⟨'{', hf, rfl, rfl, by decide, by decide⟩
  | closeBrace => exact .inl ⟨'}', hf, rfl, rfl, by decide, by decide⟩
  | comment inline =>
      cases inline with
      | false => obtain ⟨inner, hi⟩ := hf; exact .inr ⟨'*', inner ++ ['*', '/'], hi⟩
      | true => obtain ⟨inner, hi⟩ := hf; exact .inr ⟨'/', inner, hi⟩
  | space | word | string | atWord | colon | openParen | closeParen | eof => cases hs

/-- A comment ends where it was read to end. -/
theorem Lexeme.seals_of_read {dialect : Dialect} {c : Char} {rest left : Text} {l : Lexeme}
    {inline : Bool} (h : Lexeme.read dialect c rest = .ok (l, left))
    (hk : l.kind = .comment inline) : l.Seals left := by
  cases Lexeme.read_eq_ok_iff.1 h with
  | blockComment => trivial
  | lineComment =>
      intro d hd
      have hn := List.head?_dropWhile_not (!isLineEnd ·) rest
      rw [hd] at hn
      simpa using hn
  | punctuation ho =>
      have hs := Opening.shows_of dialect c rest
      rw [ho] at hs
      simp only [Opening.Shows, punctuation?] at hs
      cases hk
      split at hs <;> cases hs
  | space | string | atWord | word => cases hk

/-- **The text behind a lexeme can be exchanged** for one that the lexeme seals itself against, or
one that looks the same. -/
theorem Lexeme.read_swap {dialect : Dialect} {c : Char} {w t t' : Text} {l : Lexeme}
    (h : Lexeme.read dialect c (w ++ t) = .ok (l, t)) (ha : l.Seals t' ∨ SameAhead t t') :
    Lexeme.read dialect c (w ++ t') = .ok (l, t') := by
  have hl := Lexeme.text_of_read h
  have hop' : Opening.of dialect c (w ++ t') = Opening.of dialect c (w ++ t) := by
    rcases ha with hs | ha
    · rcases hs.text_cases (Lexeme.formed_of_read h) with ⟨d, hd, hp, -⟩ | ⟨d, inner, hi⟩
      · rw [hl] at hd; cases hd
        rw [Opening.of_punctuation _ hp, Opening.of_punctuation _ hp]
      · rw [hl] at hi; cases hi
        exact Opening.of_congr rfl
    · exact Opening.of_congr (ha.head_append w)
  have hs := Opening.shows_of dialect c (w ++ t)
  -- a run of characters of one class stops at the same place
  have run : ∀ {p : Char → Bool}, (w ++ t).dropWhile p = t → SameAhead t t' →
      (w ++ t').takeWhile p = (w ++ t).takeWhile p ∧ (w ++ t').dropWhile p = t' := by
    intro p hp ha
    obtain ⟨h₁, h₂, h₃⟩ := run_of_dropWhile hp
    rw [h₁]
    exact run_append h₂ fun d hd => h₃ d (ha.head ▸ hd)
  rw [Lexeme.read_eq_ok_iff] at h ⊢
  suffices key : ∀ left, Lexeme.Takes dialect c (w ++ t) l left → left = t →
      Lexeme.Takes dialect c (w ++ t') l t' from key t h rfl
  intro left h hleft
  cases h with
  | space ho =>
      obtain ⟨e₁, e₂⟩ := run hleft (ha.resolve_left id)
      have hr := Lexeme.Takes.space (hop'.trans ho)
      rwa [e₁, e₂] at hr
  | atWord ho =>
      obtain ⟨e₁, e₂⟩ := run hleft (ha.resolve_left id)
      have hr := Lexeme.Takes.atWord (hop'.trans ho)
      rwa [e₁, e₂] at hr
  | lineComment ho =>
      obtain ⟨e₁, e₂, -⟩ := run_of_dropWhile hleft
      have ht : (w ++ t').takeWhile (!isLineEnd ·) = (w ++ t).takeWhile (!isLineEnd ·) ∧
          (w ++ t').dropWhile (!isLineEnd ·) = t' := by
        rcases ha with hseal | ha
        · rw [e₁]
          exact run_append e₂ fun d hd => by simp [hseal d hd]
        · exact run hleft ha
      have hr := Lexeme.Takes.lineComment (hop'.trans ho)
      rwa [ht.1, ht.2] at hr
  | blockComment ho hc =>
      rw [ho] at hs
      obtain ⟨tail, htail⟩ := List.head?_eq_some_iff.1 hs.2
      simp only [htail, List.take_succ_cons, List.take_zero, List.cons.injEq, true_and,
        List.cons_append, List.nil_append] at hl
      subst hl
      have hr := Lexeme.Takes.blockComment (hop'.trans ho) (local_throughComment hc t')
      simpa [htail] using hr
  | string ho hc =>
      rw [ho] at hs
      injection hl with _ hl
      subst hl
      exact .string (hop'.trans ho) (local_throughQuote hs hc t')
  | punctuation ho =>
      injection hl with _ hl
      subst hl
      exact .punctuation (hop'.trans ho)
  | word ho hw =>
      have hw' := readWord_swap hw (hleft ▸ ha.resolve_left id)
      dsimp only at hl
      rw [hl, List.cons_append] at hw'
      have hr := Lexeme.Takes.word (hop'.trans ho) hw'
      rwa [← hl] at hr

/-! ### Readings -/

/-- Both texts are empty, or they begin with the same character, which is no space and no opening
parenthesis, and if it is a slash then the same character follows it. -/
def BeginAlike (t t' : Text) : Prop :=
  (t = [] ∧ t' = []) ∨ ∃ c r r', t = c :: r ∧ t' = c :: r' ∧ isSpace c = false ∧ c ≠ '(' ∧
    (c = '/' → r'.head? = r.head?)

/-- Most characters hide all that comes behind them. -/
theorem beginAlike_cons {c : Char} (r r' : Text) (hs : isSpace c = false) (hp : c ≠ '(')
    (hc : c ≠ '/') : BeginAlike (c :: r) (c :: r') :=
  .inr ⟨c, r, r', rfl, rfl, hs, hp, fun h => absurd h hc⟩

/-- No lexeme in front of texts that begin alike can tell them apart, not even from afar. -/
theorem BeginAlike.sameAhead {t t' : Text} (h : BeginAlike t t') (u : Text) :
    SameAhead (u ++ t) (u ++ t') := by
  rcases h with ⟨rfl, rfl⟩ | ⟨c, r, r', rfl, rfl, hs, hp, hc⟩
  · exact ⟨rfl, fun _ => rfl, fun _ => rfl⟩
  · cases u with
    | nil => exact ⟨rfl, fun h => hc (Option.some.inj h), fun h => absurd (Option.some.inj h) hp⟩
    | cons d u =>
        refine ⟨rfl, fun _ => ?_, fun _ => ?_⟩
        · cases u <;> rfl
        · have hu : ∃ x ∈ u ++ [c], isSpace x = false := ⟨c, by simp, hs⟩
          simpa using startsQuoted_append hu r r'

/-- **Lexemes in front of a text** are read in front of every text that begins like it. -/
theorem Reads.swap {dialect : Dialect} {t t' : Text} (ha : BeginAlike t t') :
    ∀ {ls : List Lexeme} {text : Text}, Reads dialect text ls t →
      Reads dialect (Lexeme.textOf ls ++ t') ls t'
  | [], _, _ => .done t'
  | l :: ls, _, .more h hr => by
      -- between this lexeme and what is exchanged stands the text of the later ones
      have hr' := Reads.swap ha hr
      rw [hr.text_eq] at h
      obtain ⟨c, w, hl⟩ := List.exists_cons_of_ne_nil (Lexeme.text_ne_nil_of_read h)
      have he := Lexeme.text_append_of_read h
      rw [hl, List.cons_append] at he
      injection he with hc he
      rw [← he, ← hc] at h
      have h' := Lexeme.read_swap h (.inr (ha.sameAhead (Lexeme.textOf ls)))
      rw [Lexeme.textOf_cons, List.append_assoc, hl, List.cons_append]
      exact .more h' hr'

/-- Texts that begin with a lexeme that seals begin alike. -/
theorem Lexeme.Seals.beginAlike {l : Lexeme} {t : Text} (hs : l.Seals t) (hf : l.Formed)
    (r r' : Text) : BeginAlike (l.text ++ r) (l.text ++ r') := by
  rcases hs.text_cases hf with ⟨c, hc, -, h₁, h₂, h₃⟩ | ⟨d, inner, hi⟩
  · rw [hc]
    exact beginAlike_cons r r' h₁ h₂ h₃
  · rw [hi]
    exact .inr ⟨'/', d :: inner ++ r, d :: inner ++ r', rfl, rfl, rfl, by decide, fun _ => rfl⟩

/-- **Lexemes up to one that seals** are read in front of every text it seals against. -/
theorem Reads.swap_of_seals {dialect : Dialect} {text t t' : Text} {ls : List Lexeme} {l : Lexeme}
    (h : Reads dialect text (ls ++ [l]) t) (hs : l.Seals t') :
    Reads dialect (Lexeme.textOf (ls ++ [l]) ++ t') (ls ++ [l]) t' := by
  obtain ⟨h₁, h₂⟩ := h.split_text
  have hf := h₂.formed (List.mem_singleton_self l)
  simp only [Lexeme.textOf_cons, Lexeme.textOf_nil, List.append_nil] at h₁ h₂
  have hl : Reads dialect (l.text ++ t') [l] t' := by
    obtain ⟨c, w, hc⟩ := List.exists_cons_of_ne_nil (h₂.ne_nil (List.mem_singleton_self l))
    rw [hc, List.cons_append] at h₂ ⊢
    cases h₂ with
    | more hr hd =>
        cases hd
        exact .more (Lexeme.read_swap hr (.inl hs)) (.done t')
  have := Reads.append (Reads.swap (hs.beginAlike hf t t') h₁) hl
  simpa using this

end Restyle
