import Restyle.Proofs.Text.Trailing
import Restyle.Token.Delimited

/-!
# What closes a construct

A comment, a string, an interpolation and the argument of a `url` go on to the first thing that
closes them.  What that is can be said of the text alone, without reading it.  A reader takes just
what is closed so, and it fails just when nothing closes.

* `through_eq_some_iff`: up to the first character of a sort.
* `throughComment_eq_some_iff`: up to the first end of a comment.  `Unended`: there is none.
* `throughQuote_eq_some_iff`: up to the first quote that is not escaped.  `AllEscaped`: there is none.
  `Quoted`: what may stand between two quotes.
* `throughInterpolation_eq_some_iff`: up to the brace that has no match before it.  `Nested`: every
  brace has its match, where braces in strings do not count.
-/

namespace Restyle

/-! ### One character -/

/-- A character is not reached when it is not there. -/
theorem through_eq_none_iff {stop : Char} {text : Text} :
    through stop text = none ↔ stop ∉ text := by
  fun_induction through stop text with
  | case1 => simp
  | case2 rest => simp
  | case3 c rest hc ih => simp [ih, Ne.symm hc]

/-- A cut behind a character is made at the first one. -/
theorem through_eq_some_iff {stop : Char} {text : Text} {cut : Cut} :
    through stop text = some cut ↔
      ∃ inner, stop ∉ inner ∧ cut.taken = inner ++ [stop] ∧ text = inner ++ stop :: cut.rest := by
  constructor
  · intro h
    fun_induction through stop text generalizing cut with
    | case1 => cases h
    | case2 rest => cases h; exact ⟨[], List.not_mem_nil, rfl, rfl⟩
    | case3 c rest hc ih =>
        obtain ⟨tail, ht, rfl⟩ := Option.map_eq_some_iff.1 h
        obtain ⟨inner, hn, htaken, hrest⟩ := ih ht
        refine ⟨c :: inner, ?_, congrArg (c :: ·) htaken, congrArg (c :: ·) hrest⟩
        exact List.not_mem_cons_of_ne_of_not_mem (Ne.symm hc) hn
  · rintro ⟨inner, hn, htaken, rfl⟩
    obtain ⟨taken, rest⟩ := cut
    dsimp only at htaken
    subst htaken
    induction inner with
    | nil => simp [through]
    | cons c inner ih =>
        obtain ⟨hc, hn⟩ := List.ne_and_not_mem_of_not_mem_cons hn
        rw [List.cons_append, through, if_neg (Ne.symm hc), ih hn]
        rfl

/-! ### Block comments -/

/-- No end of a block comment stands in the text. -/
def Unended (text : Text) : Prop := ∀ a b, text ≠ a ++ '*' :: '/' :: b

theorem unended_nil : Unended [] := by simp [Unended]

theorem unended_cons {c : Char} {rest : Text} :
    Unended (c :: rest) ↔ ¬ (c = '*' ∧ rest.head? = some '/') ∧ Unended rest := by
  constructor
  · intro h
    refine ⟨?_, fun a b hr => h (c :: a) b (congrArg (c :: ·) hr)⟩
    rintro ⟨rfl, hs⟩
    obtain ⟨tail, rfl⟩ := List.head?_eq_some_iff.1 hs
    exact h [] tail rfl
  · rintro ⟨hc, hr⟩ a b he
    cases a with
    | nil => cases he; exact hc ⟨rfl, rfl⟩
    | cons d a => cases he; exact hr a b rfl

/-- **A block comment is left open** just when its end is nowhere in the text. -/
theorem throughComment_eq_none_iff {text : Text} :
    throughComment text = none ↔ Unended text := by
  fun_induction throughComment text with
  | case1 rest =>
      simp only [reduceCtorEq, false_iff]
      exact fun h => h [] rest rfl
  | case2 c rest hc ih =>
      rw [Option.map_eq_none_iff, ih, unended_cons, and_iff_right]
      rintro ⟨hs, hr⟩
      obtain ⟨tail, rfl⟩ := List.head?_eq_some_iff.1 hr
      exact hc tail hs rfl
  | case3 => simp [unended_nil]

/-- **A comment ends at the first end**: there is none before it, and its star begins no other. -/
theorem throughComment_eq_some_iff {text : Text} {cut : Cut} :
    throughComment text = some cut ↔
      ∃ inner, Unended (inner ++ ['*']) ∧ cut.taken = inner ++ ['*', '/'] ∧
        text = inner ++ '*' :: '/' :: cut.rest := by
  constructor
  · intro h
    fun_induction throughComment text generalizing cut with
    | case1 rest =>
        cases h
        exact ⟨[], by simp [unended_cons, unended_nil], rfl, rfl⟩
    | case2 c rest hc ih =>
        obtain ⟨tail, ht, rfl⟩ := Option.map_eq_some_iff.1 h
        obtain ⟨inner, hn, htaken, hrest⟩ := ih ht
        refine ⟨c :: inner, unended_cons.2 ⟨?_, hn⟩, congrArg (c :: ·) htaken,
          congrArg (c :: ·) hrest⟩
        rintro ⟨hs, hh⟩
        cases inner with
        | nil => cases hh
        | cons d inner => cases hh; exact hc _ hs hrest
    | case3 => cases h
  · rintro ⟨inner, hn, htaken, rfl⟩
    obtain ⟨taken, rest⟩ := cut
    dsimp only at htaken
    subst htaken
    induction inner with
    | nil => simp [throughComment]
    | cons c inner ih =>
        obtain ⟨hfirst, hn⟩ := unended_cons.1 hn
        have hc : ∀ tail, c = '*' → inner ++ '*' :: '/' :: rest ≠ '/' :: tail := by
          intro tail hs he
          cases inner with
          | nil => cases he
          | cons d inner => cases he; exact hfirst ⟨hs, rfl⟩
        rw [List.cons_append, throughComment.eq_2 c _ hc, ih hn]
        rfl

/-! ### Escapes -/

/-- What follows the text is not escaped: the backslashes directly in front of it go in pairs. -/
def Unescaped (before : Text) : Prop := (takeTrailing (· == '\\') before).length % 2 = 0

theorem unescaped_nil : Unescaped [] := rfl

theorem not_unescaped_backslash : ¬ Unescaped ['\\'] := by
  rw [Unescaped]
  decide

theorem unescaped_cons {c : Char} {rest : Text} (hc : c ≠ '\\') :
    Unescaped (c :: rest) ↔ Unescaped rest := by
  rw [Unescaped, Unescaped, takeTrailing_cons, if_neg (by simp [hc])]

/-- A backslash goes with the character behind it, also when that is another backslash. -/
theorem unescaped_pair {c : Char} {rest : Text} :
    Unescaped ('\\' :: c :: rest) ↔ Unescaped rest := by
  rw [Unescaped, Unescaped, takeTrailing_cons, takeTrailing_cons]
  by_cases hr : rest.all (· == '\\') = true
  · by_cases hc : c = '\\'
    · have htaken : takeTrailing (· == '\\') rest = rest :=
        List.rtakeWhile_eq_self_iff.2 (List.all_eq_true.1 hr)
      simp [hr, hc, htaken]
      omega
    · simp [hr, hc]
  · simp [hr]

/-- Every such quote in the text is escaped. -/
def AllEscaped (quote : Char) (text : Text) : Prop :=
  ∀ before after, text = before ++ quote :: after → ¬ Unescaped before

/-- The text can stand between two quotes: every such quote in it is escaped, and one behind it is
not. -/
structure Quoted (quote : Char) (inner : Text) : Prop where
  escaped : AllEscaped quote inner
  closes : Unescaped inner

section
variable {quote c : Char} {rest : Text}

theorem allEscaped_nil (quote : Char) : AllEscaped quote [] := by simp [AllEscaped]

theorem not_allEscaped_quote (quote : Char) (rest : Text) : ¬ AllEscaped quote (quote :: rest) :=
  fun h => h [] rest rfl unescaped_nil

/-- A character that is neither a quote nor a backslash makes no difference. -/
theorem allEscaped_cons (hc : c ≠ quote) (hb : c ≠ '\\') :
    AllEscaped quote (c :: rest) ↔ AllEscaped quote rest := by
  constructor
  · intro h before after hr hu
    exact h (c :: before) after (congrArg (c :: ·) hr) ((unescaped_cons hb).2 hu)
  · intro h before after hr hu
    cases before with
    | nil => cases hr; exact hc rfl
    | cons d before => cases hr; exact h before after rfl ((unescaped_cons hb).1 hu)

theorem allEscaped_backslash (hq : quote ≠ '\\') : AllEscaped quote ['\\'] := by
  intro before after hr
  cases before with
  | nil => cases hr; exact absurd rfl hq
  | cons d before => simp at hr

theorem allEscaped_pair (hq : quote ≠ '\\') :
    AllEscaped quote ('\\' :: c :: rest) ↔ AllEscaped quote rest := by
  constructor
  · intro h before after hr hu
    exact h ('\\' :: c :: before) after (by rw [hr]; rfl) (unescaped_pair.2 hu)
  · intro h before after hr hu
    match before with
    | [] => cases hr; exact hq rfl
    | [d] => cases hr; exact not_unescaped_backslash hu
    | d :: e :: before => cases hr; exact h before after rfl (unescaped_pair.1 hu)

theorem quoted_nil (quote : Char) : Quoted quote [] := ⟨allEscaped_nil quote, unescaped_nil⟩

/-- Any character but a quote or a backslash may be put in front. -/
theorem Quoted.cons (hc : c ≠ quote) (hb : c ≠ '\\') (h : Quoted quote rest) :
    Quoted quote (c :: rest) :=
  ⟨(allEscaped_cons hc hb).2 h.escaped, (unescaped_cons hb).2 h.closes⟩

theorem Quoted.pair (hq : quote ≠ '\\') (h : Quoted quote rest) :
    Quoted quote ('\\' :: c :: rest) :=
  ⟨(allEscaped_pair hq).2 h.escaped, unescaped_pair.2 h.closes⟩

/-- A string ends at one place. -/
theorem Quoted.unique {a b r s : Text} (ha : Quoted quote a) (hb : Quoted quote b)
    (h : a ++ quote :: r = b ++ quote :: s) : a = b ∧ r = s := by
  rcases List.append_eq_append_iff.1 h with ⟨m, rfl, hr⟩ | ⟨m, rfl, hs⟩
  · cases m with
    | nil => cases hr; exact ⟨(List.append_nil a).symm, rfl⟩
    | cons d m => cases hr; exact absurd ha.closes (hb.escaped a m rfl)
  · cases m with
    | nil => cases hs; exact ⟨List.append_nil b, rfl⟩
    | cons d m => cases hs; exact absurd hb.closes (ha.escaped b m rfl)

/-! ### Strings -/

/-- **A string is left open** just when every such quote in the text is escaped. -/
theorem throughQuote_eq_none_iff {text : Text} (hq : quote ≠ '\\') :
    throughQuote quote text = none ↔ AllEscaped quote text := by
  fun_induction throughQuote quote text with
  | case1 => simp [allEscaped_nil]
  | case2 c rest ih => rw [Option.map_eq_none_iff, ih, allEscaped_pair hq]
  | case3 rest => simp [not_allEscaped_quote]
  | case4 c rest hc hn ih =>
      rw [Option.map_eq_none_iff, ih]
      by_cases hb : c = '\\'
      · subst hb
        -- a backslash at the end has nothing to escape
        cases rest with
        | nil => simp [allEscaped_nil, allEscaped_backslash hq]
        | cons d rest => exact absurd rfl (hc d rest rfl)
      · rw [allEscaped_cons hn hb]

/-- A string that is cut off has only escaped quotes in it, and its own quote behind them. -/
theorem quoted_of_throughQuote {text : Text} {cut : Cut} (hq : quote ≠ '\\')
    (h : throughQuote quote text = some cut) :
    ∃ inner, Quoted quote inner ∧ cut.taken = inner ++ [quote] ∧
      text = inner ++ quote :: cut.rest := by
  fun_induction throughQuote quote text generalizing cut with
  | case1 => cases h
  | case2 c rest ih =>
      obtain ⟨tail, ht, rfl⟩ := Option.map_eq_some_iff.1 h
      obtain ⟨inner, hi, htaken, hrest⟩ := ih ht
      exact ⟨'\\' :: c :: inner, hi.pair hq, by rw [Cut.grow, htaken]; rfl, by rw [hrest]; rfl⟩
  | case3 rest => cases h; exact ⟨[], quoted_nil quote, rfl, rfl⟩
  | case4 c rest hc hn ih =>
      obtain ⟨tail, ht, rfl⟩ := Option.map_eq_some_iff.1 h
      obtain ⟨inner, hi, htaken, hrest⟩ := ih ht
      have hb : c ≠ '\\' := by
        rintro rfl
        cases rest with
        | nil => cases ht
        | cons d rest => exact hc d rest rfl rfl
      exact ⟨c :: inner, hi.cons hn hb, congrArg (c :: ·) htaken, congrArg (c :: ·) hrest⟩

/-- **A string ends at the first quote that is not escaped.** -/
theorem throughQuote_eq_some_iff {text : Text} {cut : Cut} (hq : quote ≠ '\\') :
    throughQuote quote text = some cut ↔
      ∃ inner, Quoted quote inner ∧ cut.taken = inner ++ [quote] ∧
        text = inner ++ quote :: cut.rest := by
  refine ⟨quoted_of_throughQuote hq, ?_⟩
  rintro ⟨inner, hi, htaken, rfl⟩
  cases ht : throughQuote quote (inner ++ quote :: cut.rest) with
  | none =>
      -- a quote that does not close is escaped
      exact absurd hi.closes ((throughQuote_eq_none_iff hq).1 ht inner cut.rest rfl)
  | some cut' =>
      obtain ⟨inner', hi', htaken', he⟩ := quoted_of_throughQuote hq ht
      obtain ⟨rfl, hrest⟩ := hi.unique hi' he
      obtain ⟨taken', rest'⟩ := cut'
      obtain ⟨taken, rest⟩ := cut
      simp_all

end

/-! ### Interpolations -/

theorem ne_backslash_of_isQuote {c : Char} (h : isQuote c = true) : c ≠ '\\' := by
  rintro rfl
  cases h

theorem ne_brace_of_isQuote {c : Char} (h : isQuote c = true) : c ≠ '{' ∧ c ≠ '}' := by
  constructor
  · rintro rfl; cases h
  · rintro rfl; cases h

/-- Every brace in the text has its match in it.  Braces in quoted strings do not count. -/
inductive Nested : Text → Prop where
  | nil : Nested []
  | char {c : Char} {rest : Text} (ho : c ≠ '{') (hc : c ≠ '}') (hq : isQuote c = false)
      (t : Nested rest) : Nested (c :: rest)
  | string {quote : Char} {inner rest : Text} (hq : isQuote quote = true)
      (hi : Quoted quote inner) (t : Nested rest) : Nested (quote :: (inner ++ quote :: rest))
  | braces {inner rest : Text} (i : Nested inner) (t : Nested rest) :
      Nested ('{' :: (inner ++ '}' :: rest))

/-- Nested text in front leaves the depth as it is. -/
theorem Nested.throughInterpolation_append {inner : Text} (h : Nested inner) (depth : Nat)
    (t : Text) :
    throughInterpolation depth (inner ++ t) =
      (throughInterpolation depth t).map (Cut.grow inner) := by
  have grown : ∀ {a b : Text} {cut : Option Cut},
      (cut.map (Cut.grow b)).map (Cut.grow a) = cut.map (Cut.grow (a ++ b)) := by
    intro a b cut
    cases cut <;> simp [Cut.grow]
  induction h generalizing depth t with
  | nil => rw [List.nil_append]; cases throughInterpolation depth t <;> rfl
  | @char c rest ho hc hq _ ih =>
      rw [List.cons_append, throughInterpolation.eq_5 depth c _ ho hc, if_neg (by simp [hq]), ih,
        grown]
      rfl
  | @string quote inner rest hq hi _ ih =>
      have hs : throughQuote quote (inner ++ quote :: rest ++ t) =
          some ⟨inner ++ [quote], rest ++ t⟩ :=
        (throughQuote_eq_some_iff (ne_backslash_of_isQuote hq)).2 ⟨inner, hi, rfl, by simp⟩
      obtain ⟨ho, hc⟩ := ne_brace_of_isQuote hq
      rw [List.cons_append, throughInterpolation.eq_5 depth quote _ ho hc, if_pos hq]
      split
      · next hn => rw [hs] at hn; cases hn
      · next quoted hsome => rw [hs] at hsome; cases hsome; rw [ih, grown]; simp
  | @braces inner rest _ _ ihi ih =>
      rw [List.cons_append, List.append_assoc, throughInterpolation, ihi, List.cons_append,
        throughInterpolation, ih, grown, grown, grown]
      simp

/-- An interpolation ends at the first brace with nothing open before it. -/
theorem Nested.throughInterpolation_eq {inner : Text} (h : Nested inner) (rest : Text) :
    throughInterpolation 0 (inner ++ '}' :: rest) = some ⟨inner ++ ['}'], rest⟩ := by
  rw [h.throughInterpolation_append, throughInterpolation]
  rfl

/-- Nested texts, each with a closing brace behind it: one more than `depth`. -/
inductive Closes : Nat → Text → Prop where
  | last {inner : Text} (i : Nested inner) : Closes 0 (inner ++ ['}'])
  | more {depth : Nat} {inner rest : Text} (i : Nested inner) (t : Closes depth rest) :
      Closes (depth + 1) (inner ++ '}' :: rest)

namespace Closes

variable {depth : Nat} {front taken : Text}

/-- Nested text in front of the first closing brace leaves the count of braces as it is. -/
theorem append (h : ∀ inner, Nested inner → Nested (front ++ inner)) (ht : Closes depth taken) :
    Closes depth (front ++ taken) := by
  cases ht with
  | last i => rw [← List.append_assoc]; exact .last (h _ i)
  | more i t => rw [← List.append_assoc]; exact .more (h _ i) t

/-- An opening brace in front takes the first closing one. -/
theorem opened (ht : Closes (depth + 1) taken) : Closes depth ('{' :: taken) := by
  cases ht with
  | @more _ inner rest i t =>
      have hbraces : ∀ later, Nested later → Nested ('{' :: inner ++ ['}'] ++ later) := by
        intro later hl
        simpa using Nested.braces i hl
      simpa using t.append hbraces

end Closes

/-- What is cut off for an interpolation closes all that is open. -/
theorem closes_of_throughInterpolation {depth : Nat} {text : Text} {cut : Cut}
    (h : throughInterpolation depth text = some cut) : Closes depth cut.taken := by
  fun_induction throughInterpolation depth text generalizing cut with
  | case1 => cases h
  | case2 depth rest ih =>
      obtain ⟨tail, ht, rfl⟩ := Option.map_eq_some_iff.1 h
      exact (ih ht).opened
  | case3 rest => cases h; exact .last .nil
  | case4 rest depth ih =>
      obtain ⟨tail, ht, rfl⟩ := Option.map_eq_some_iff.1 h
      exact .more .nil (ih ht)
  | case5 => cases h
  | case6 depth c rest _ _ hc quoted hq ih =>
      obtain ⟨tail, ht, rfl⟩ := Option.map_eq_some_iff.1 h
      obtain ⟨inner, hi, htaken, -⟩ := quoted_of_throughQuote (ne_backslash_of_isQuote hc) hq
      refine (ih ht).append fun later hl => ?_
      simpa [htaken] using Nested.string hc hi hl
  | case7 depth c rest ho hb hc ih =>
      obtain ⟨tail, ht, rfl⟩ := Option.map_eq_some_iff.1 h
      exact (ih ht).append fun later hl => .char ho hb (by simpa using hc) hl

/-- **An interpolation ends at the first closing brace that has no match in it.** -/
theorem throughInterpolation_eq_some_iff {text : Text} {cut : Cut} :
    throughInterpolation 0 text = some cut ↔
      ∃ inner, Nested inner ∧ cut.taken = inner ++ ['}'] ∧ text = inner ++ '}' :: cut.rest := by
  constructor
  · intro h
    have hw := whole_of_throughInterpolation h
    obtain ⟨taken, rest⟩ := cut
    cases closes_of_throughInterpolation h with
    | @last inner i => exact ⟨inner, i, rfl, by rw [← hw]; simp [Cut.whole]⟩
  · rintro ⟨inner, hi, htaken, rfl⟩
    rw [hi.throughInterpolation_eq, ← htaken]

/-- **An interpolation is left open** just when no brace has nested text in front of it. -/
theorem throughInterpolation_eq_none_iff {text : Text} :
    throughInterpolation 0 text = none ↔
      ∀ inner rest, text = inner ++ '}' :: rest → ¬ Nested inner := by
  constructor
  · rintro h inner rest rfl hi
    rw [hi.throughInterpolation_eq] at h
    cases h
  · intro h
    cases ht : throughInterpolation 0 text with
    | none => rfl
    | some cut =>
        obtain ⟨inner, hi, -, he⟩ := throughInterpolation_eq_some_iff.1 ht
        exact absurd hi (h inner cut.rest he)

/-- An interpolation ends at one place. -/
theorem Nested.unique {a b r s : Text} (ha : Nested a) (hb : Nested b)
    (h : a ++ '}' :: r = b ++ '}' :: s) : a = b ∧ r = s := by
  have hr := ha.throughInterpolation_eq r
  rw [h, hb.throughInterpolation_eq s] at hr
  have he := Cut.mk.inj (Option.some.inj hr.symm)
  exact ⟨List.append_cancel_right he.1, he.2⟩

end Restyle
