import Restyle.Proofs.Sheet.Assigned
import Restyle.Proofs.Sheet.Origin
import Restyle.Proofs.Token.Closing

/-!
# Sheets made by hand

A node that is made by hand prints with nothing around its parts, so each part stands directly in
front of what comes next.  It is read again all the same: a word ends at a colon, a semicolon, a
brace or a space, a name ends there too, and the marks and comments end by themselves.  Only an
at-rule without a body has no end of its own, and so it has to stand last.

* `ByHand nodes`: the nodes are made by hand, of simple words.
* `Spells dialect tokens text next`: the text in front of `next` is read as these tokens, all of them
  words and the spaces between them.
* `Returns dialect nodes next`: the nodes are the items of tokens that are read in front of `next`.
* `ByHand.returns`: what is made by hand is read again, in front of every text that ends a word.
* `Sheet.byHand_readsBack`: **a sheet made by hand is read back from its text**, in both dialects.
-/

namespace Restyle

/-! ### Words and names -/

/-- One word of a simple value. -/
def SimpleWord (word : Text) : Prop := word ≠ [] ∧ word.all isValueChar = true

/-- Nothing, or words with single spaces between them. -/
def Wording (text : Text) : Prop := text = [] ∨ SimpleValue text

/-- A name that may stand behind an at sign. -/
def AtName (name : Text) : Prop := name ≠ [] ∧ name.all isNameChar = true

/-- The nodes of a container that are made by hand: selectors, parameters and values are simple words,
and an at-rule without a body stands last. -/
inductive ByHand : List Node → Prop where
  | nil : ByHand []
  | rule {selector : Text} {body rest : List Node} (hs : Wording selector) (hb : ByHand body)
      (t : ByHand rest) : ByHand (.rule selector body :: rest)
  | atRule {name params : Text} {body rest : List Node} (hn : AtName name) (hp : Wording params)
      (hb : ByHand body) (t : ByHand rest) : ByHand (.atRule name params (some body) :: rest)
  | atStatement {name params : Text} (hn : AtName name) (hp : Wording params) :
      ByHand [.atRule name params none]
  | declaration {prop value : Text} {rest : List Node} (hp : SimpleWord prop) (hv : Wording value)
      (t : ByHand rest) : ByHand (.declaration (.plain prop value) :: rest)
  | comment {text : Text} {rest : List Node} (hc : Unended text) (t : ByHand rest) :
      ByHand (.comment (.plain text false) :: rest)

/-! ### Single tokens -/

section
variable {dialect : Dialect} {t : Text}

/-- No name goes on where a word ends. -/
theorem isNameChar_of_endsWord {c : Char} (h : endsWord dialect (c :: t) = true) :
    isNameChar c = false := by
  have hs := Opening.shows_of dialect c t
  rw [endsWord] at h
  cases ho : Opening.of dialect c t with
  | word | atWord => rw [ho] at h; cases h
  | space =>
      rw [ho] at hs
      simp only [Opening.Shows, isSpace, Bool.or_eq_true, beq_iff_eq] at hs
      rcases hs with (((rfl | rfl) | rfl) | rfl) | rfl <;> rfl
  | blockComment | lineComment => rw [ho] at hs; rw [hs.1]; rfl
  | string =>
      rw [ho] at hs
      simp only [Opening.Shows, isQuote, Bool.or_eq_true, beq_iff_eq] at hs
      rcases hs with rfl | rfl <;> rfl
  | punctuation kind =>
      rw [ho] at hs
      simp only [Opening.Shows, punctuation?] at hs
      split at hs <;> cases hs <;> rfl

/-- Tokens are read one by one, each in front of those behind it. -/
theorem readBefore_cons {token : Token} {rest : List Token} :
    ReadBefore dialect (token :: rest) t ↔
      ReadBefore dialect [token] (Token.textOf rest ++ t) ∧ ReadBefore dialect rest t :=
  readBefore_append (a := [token])

/-- A simple word is read as one token. -/
theorem readBefore_word {word : Text} (hw : SimpleWord word) (ht : EndsPlain dialect t) :
    ReadBefore dialect [⟨⟨.word, word⟩, .start⟩] t := by
  obtain ⟨hne, hall⟩ := hw
  obtain ⟨c, rest, rfl⟩ := List.exists_cons_of_ne_nil hne
  have hplain : ∀ d ∈ c :: rest, isPlain d = true := fun d hd =>
    (isValueChar_spec (List.all_eq_true.1 hall d hd)).1
  rw [ReadBefore, Token.textOf_cons, Token.textOf_nil, List.append_nil]
  exact .more (Lexeme.read_plain hplain ht) (.done t)

theorem readBefore_space (ht : ∀ c, t.head? = some c → isSpace c = false) :
    ReadBefore dialect [⟨⟨.space, [' ']⟩, .start⟩] t := by
  obtain ⟨h₁, h₂⟩ := run_append (p := isSpace) (w := []) nofun ht
  have htake : Lexeme.Takes dialect ' ' ([] ++ t) _ _ := .space (by simp [Opening.of, isSpace])
  rw [h₁, h₂] at htake
  exact .more (Lexeme.read_eq_ok_iff.2 htake) (.done t)

/-- A name behind an at sign is read as one token. -/
theorem readBefore_atWord {name : Text} (hn : AtName name)
    (ht : ∀ c, t.head? = some c → isNameChar c = false) :
    ReadBefore dialect [⟨⟨.atWord name, '@' :: name⟩, .start⟩] t := by
  obtain ⟨hne, hall⟩ := hn
  obtain ⟨h₁, h₂⟩ := run_append (List.all_eq_true.1 hall) ht
  have ho : Opening.of dialect '@' (name ++ t) = .atWord := by
    obtain ⟨c, rest, rfl⟩ := List.exists_cons_of_ne_nil hne
    have hc : isNameChar c = true := List.all_eq_true.1 hall c List.mem_cons_self
    simp [Opening.of, isSpace, isQuote, hc]
  have htake : Lexeme.Takes dialect '@' (name ++ t) _ _ := .atWord ho
  rw [h₁, h₂] at htake
  rw [ReadBefore, Token.textOf_cons, Token.textOf_nil, List.append_nil]
  exact .more (Lexeme.read_eq_ok_iff.2 htake) (.done t)

/-- The star that ends a comment makes no end with what stands before it. -/
theorem unended_concat {text : Text} (h : Unended text) : Unended (text ++ ['*']) := by
  induction text with
  | nil => exact unended_cons.2 ⟨by simp, unended_nil⟩
  | cons c rest ih =>
      obtain ⟨hc, hr⟩ := unended_cons.1 h
      refine unended_cons.2 ⟨?_, ih hr⟩
      rintro ⟨hs, hh⟩
      cases rest with
      | nil => cases hh
      | cons d rest => exact hc ⟨hs, hh⟩

theorem readBefore_comment {text : Text} (hc : Unended text) :
    ReadBefore dialect [⟨⟨.comment false, '/' :: '*' :: text ++ ['*', '/']⟩, .start⟩] t := by
  have hcut : throughComment (text ++ '*' :: '/' :: t) = some ⟨text ++ ['*', '/'], t⟩ :=
    throughComment_eq_some_iff.2 ⟨text, unended_concat hc, rfl, rfl⟩
  have htake : Lexeme.Takes dialect '/' ('*' :: (text ++ '*' :: '/' :: t)) _ _ :=
    .blockComment (by simp [Opening.of, isSpace]) hcut
  rw [ReadBefore, Token.textOf_cons, Token.textOf_nil, List.append_nil, List.append_assoc]
  exact .more (Lexeme.read_eq_ok_iff.2 htake) (.done t)

end

/-! ### Words and the spaces between them -/

/-- The text in front of `next` is read as these tokens: words and the spaces between them. -/
structure Spells (dialect : Dialect) (tokens : List Token) (text next : Text) : Prop where
  read : ReadBefore dialect tokens next
  text_eq : Token.textOf tokens = text
  first : ∀ token, tokens.head? = some token → token.kind = .word
  kinds : ∀ token ∈ tokens, token.kind = .word ∨ token.kind = .space
  trimmed : dropTrailing Token.isSpace tokens = tokens

/-- **Words with single spaces between them** are read as such tokens. -/
theorem Wording.exists_spells {dialect : Dialect} {text next : Text} (h : Wording text)
    (hn : EndsPlain dialect next) : ∃ tokens, Spells dialect tokens text next := by
  rcases h with rfl | hs
  · exact ⟨[], .done next, rfl, nofun, nofun, rfl⟩
  · obtain ⟨tokens, hr, htext, hfirst, hkinds⟩ := hs.phrase.exists_tokens hn
    refine ⟨tokens, hr, htext, hfirst, hkinds, ?_⟩
    obtain ⟨front, c, hp, hc⟩ := hs.phrase.exists_last
    rcases List.eq_nil_or_concat tokens with rfl | ⟨init, last, rfl⟩
    · rfl
    -- the last character is no space, so the last token is none
    have hlast : last.isSpace = false := by
      rw [← Bool.not_eq_true, Token.isSpace_iff]
      intro hk
      have hm : last ∈ init.concat last := by simp
      have hmade := Reads.made hr (List.mem_map_of_mem hm)
      have hne := Reads.ne_nil hr (List.mem_map_of_mem hm)
      simp only [Lexeme.Made, hk] at hmade
      rw [List.concat_eq_append, Token.textOf_append, Token.textOf_cons, Token.textOf_nil,
        List.append_nil, hp] at htext
      have hend : c ∈ last.text := by
        have hg := congrArg List.getLast? htext
        rw [List.getLast?_append, List.getLast?_concat,
          Option.or_of_isSome (List.getLast?_isSome.2 hne)] at hg
        exact List.mem_of_getLast? hg
      have hspace := List.all_eq_true.1 hmade c hend
      rw [isSpace_of_isPlain hc] at hspace
      cases hspace
    rw [List.concat_eq_append]
    exact List.rdropWhile_concat_neg _ _ _ (by simp [hlast])

namespace Spells

variable {dialect : Dialect} {tokens : List Token} {text next : Text}

theorem takeTrailing_eq_nil (h : Spells dialect tokens text next) :
    takeTrailing Token.isSpace tokens = [] := by
  have hcut : dropTrailing Token.isSpace tokens ++ takeTrailing Token.isSpace tokens = tokens :=
    List.rdropWhile_append_rtakeWhile
  rw [h.trimmed] at hcut
  exact List.append_right_eq_self.1 hcut

/-- None of these tokens ends a statement or opens a parenthesis. -/
theorem isInert (h : Spells dialect tokens text next) :
    ∀ token ∈ tokens, token.isInert = true := by
  intro token hm
  rcases h.kinds token hm with hk | hk <;> simp [Token.isInert, hk]

theorem isSpace_head (h : Spells dialect tokens text next) :
    ∀ token, tokens.head? = some token → token.isSpace = false := by
  intro token hh
  simp [Token.isSpace, h.first token hh]

/-- The words in front of a brace are a selector. -/
theorem ofPrelude (h : Spells dialect tokens text next) (brace : Token) :
    (Head.ofPrelude [] tokens brace).unplaced = .rule ⟨[], text, [], none⟩ := by
  have hrule : (Head.rule (.ofPrelude [] tokens brace)).unplaced = .rule ⟨[], text, [], none⟩ := by
    simp only [Head.unplaced, RuleHead.ofPrelude, h.trimmed, h.takeTrailing_eq_nil, h.text_eq,
      Token.textOf_nil]
  cases tokens with
  | nil => exact hrule
  | cons first run => simpa only [Head.ofPrelude, h.first first rfl] using hrule

end Spells

/-- The parameters of an at-rule, with the space before them, are read behind every name. -/
theorem Wording.exists_run {dialect : Dialect} {params next : Text} (h : Wording params)
    (hn : EndsPlain dialect next) :
    ∃ run, ReadBefore dialect run next ∧
      (∀ c, (Token.textOf run ++ next).head? = some c → isNameChar c = false) ∧
      (∀ token ∈ run, token.isInert = true) ∧
      ∀ name word, (AtHead.ofRun [] name word run false).unplaced = .plain name params := by
  obtain ⟨tokens, hs⟩ := h.exists_spells hn
  by_cases hp : params = []
  · subst hp
    refine ⟨[], .done next, fun c hc => ?_, nofun, fun _ _ => rfl⟩
    obtain ⟨t, rfl⟩ := List.head?_eq_some_iff.1 (show next.head? = some c from hc)
    exact isNameChar_of_endsWord hn.1
  · -- the space ends where the first word begins
    have hword : ∀ c, (Token.textOf tokens ++ next).head? = some c → isSpace c = false := by
      intro c hc
      obtain ⟨d, rest, hd, hplain⟩ := (h.resolve_left hp).phrase.exists_first
      rw [hs.text_eq, hd] at hc
      cases hc
      exact isSpace_of_isPlain hplain
    have hne : tokens ≠ [] := by
      rintro rfl
      exact hp hs.text_eq.symm
    obtain ⟨first, others, rfl⟩ := List.exists_cons_of_ne_nil hne
    have hfirst := hs.isSpace_head first rfl
    refine ⟨⟨⟨.space, [' ']⟩, .start⟩ :: first :: others,
      readBefore_cons.2 ⟨readBefore_space hword, hs.read⟩, ?_, ?_, fun name word => ?_⟩
    · intro c hc
      cases hc
      rfl
    · intro token hm
      rcases List.mem_cons.1 hm with rfl | hm
      · rfl
      · exact hs.isInert token hm
    · have hspace : Token.isSpace ⟨⟨.space, [' ']⟩, .start⟩ = true := rfl
      have hfirst' : ¬ first.isSpace = true := by simp [hfirst]
      simp only [AtHead.unplaced, AtHead.ofRun, List.takeWhile_cons_of_pos hspace,
        List.dropWhile_cons_of_pos hspace, List.takeWhile_cons_of_neg hfirst',
        List.dropWhile_cons_of_neg hfirst', hs.trimmed, hs.takeTrailing_eq_nil, hs.text_eq,
        AtHead.plain, List.isEmpty_eq_false_iff.2 hp]
      rfl

/-! ### Declarations -/

/-- A wording has no blanks around it, and no mark at its end. -/
theorem Wording.splitImportant_trim {text : Text} (h : Wording text) :
    splitImportant (Text.trim text) = (text, false) := by
  rcases h with rfl | hs
  · decide
  · rw [hs.phrase.trim, hs.plain.unmarked]

/-- A declaration made by hand is read as a statement in front of its semicolon. -/
theorem exists_statement {dialect : Dialect} {prop value : Text} (hp : SimpleWord prop)
    (hv : Wording value) (t : Text) :
    ∃ first others node, ReadBefore dialect (first :: others) (';' :: t) ∧
      first.startsRun = true ∧ (∀ token ∈ first :: others, token.isInert = true) ∧
      Node.ofStatement? [] first others true = some node ∧
      node.unplaced = (Node.declaration (.plain prop value)).respelled.unplaced := by
  have hends : EndsPlain dialect (';' :: t) := endsPlain_punctuation t rfl (by decide)
  obtain ⟨tokens, hs⟩ := hv.exists_spells hends
  have hvalue : ∀ token, tokens.head? = some token → token.kind ≠ .space := by
    intro token hh hk
    rw [hs.first token hh] at hk
    cases hk
  have hnext : ∀ c, (Token.textOf tokens ++ ';' :: t).head? = some c → isSpace c = false := by
    intro c hc
    rw [hs.text_eq] at hc
    rcases hv with rfl | hv
    · cases hc
      rfl
    · obtain ⟨d, rest, rfl, hplain⟩ := hv.phrase.exists_first
      cases hc
      exact isSpace_of_isPlain hplain
  let l : Layout := {
    prop := [⟨⟨.word, prop⟩, .start⟩]
    gap := []
    colon := ⟨⟨.colon, [':']⟩, .start⟩
    lead := [⟨⟨.space, [' ']⟩, .start⟩]
    value := tokens
    prop_ne_nil := by simp
    prop_kind := by simp
    gap_kind := by simp
    colon_kind := rfl
    lead_kind := by simp
    value_kind := hvalue }
  have hclean : l.cleaned = Text.trim value := by
    have hfilter : tokens.filter (!·.isComment) = tokens := by
      rw [List.filter_eq_self]
      intro token hm
      rcases hs.kinds token hm with hk | hk <;> simp [Token.isComment, hk]
    rw [Layout.cleaned, hfilter, hs.text_eq]
  refine ⟨⟨⟨.word, prop⟩, .start⟩, ⟨⟨.colon, [':']⟩, .start⟩ :: ⟨⟨.space, [' ']⟩, .start⟩ :: tokens,
    .declaration (l.declaration [] true), ?_, rfl, ?_, ?_, ?_⟩
  · have hcolon : EndsPlain dialect (':' :: (' ' :: Token.textOf tokens ++ ';' :: t)) :=
      endsPlain_punctuation _ rfl (by decide)
    exact readBefore_cons.2 ⟨readBefore_word hp hcolon, readBefore_cons.2
      ⟨readBefore_mark rfl rfl, readBefore_cons.2 ⟨readBefore_space hnext, hs.read⟩⟩⟩
  · intro token hm
    rcases List.mem_cons.1 hm with rfl | hm
    · rfl
    rcases List.mem_cons.1 hm with rfl | hm
    · rfl
    rcases List.mem_cons.1 hm with rfl | hm
    · rfl
    exact hs.isInert token hm
  · exact Node.ofStatement?_eq_declaration_iff.2
      ⟨by simp, Declaration.ofRun?_eq_some_iff.2 ⟨l, rfl, rfl⟩⟩
  · have hprint : (Declaration.plain prop value).printValue = value := List.append_nil value
    have hspelled : Token.textOf l.value = value := hs.text_eq
    have hprop : Token.textOf l.prop = prop := List.append_nil prop
    simp only [Node.unplaced, Node.respelled, Declaration.unplaced, Declaration.respelled, hprint,
      Layout.declaration, hclean, hv.splitImportant_trim, hspelled, hprop]
    rfl

/-! ### Nodes -/

/-- In front of `next`, the tokens of some text are items: these nodes, up to places, spelled as they
print. -/
def Returns (dialect : Dialect) (nodes : List Node) (next : Text) : Prop :=
  ∃ tokens nodes', ReadBefore dialect tokens next ∧ Items tokens nodes' [] ∧
    Node.unplacedAll nodes' = Node.unplacedAll (Node.respelledAll nodes)

/-- In front of a brace, the tokens are the prelude that announces the head. -/
structure Announces (dialect : Dialect) (prelude : List Token) (head : Head) (t : Text) : Prop where
  read : ReadBefore dialect prelude ('{' :: t)
  starts : ∀ token, prelude.head? = some token → token.startsRun = true
  unbroken : Unbroken 0 prelude
  head_eq : ∀ brace, (Head.ofPrelude [] prelude brace).unplaced = head.unplaced

section
variable {dialect : Dialect} {next : Text}

/-- A selector made of words announces its rule. -/
theorem Wording.exists_announces_rule {selector : Text} (h : Wording selector) (t : Text) :
    ∃ prelude, Announces dialect prelude (.rule ⟨[], selector, [], none⟩) t := by
  have hends : EndsPlain dialect ('{' :: t) := endsPlain_punctuation t rfl (by decide)
  obtain ⟨tokens, hs⟩ := h.exists_spells hends
  refine ⟨tokens, hs.read, fun token hh => ?_, (unbroken_inert hs.isInert 0).1, hs.ofPrelude⟩
  simp [Token.startsRun, hs.first token hh]

/-- A name behind an at sign and its parameters, in front of a text that ends a word. -/
theorem exists_atRun {name params : Text} (hn : AtName name) (hp : Wording params)
    (ht : EndsPlain dialect next) :
    ∃ word run, word.kind = .atWord name ∧ ReadBefore dialect (word :: run) next ∧
      Unbroken 0 (word :: run) ∧
      (AtHead.ofRun [] name word run false).unplaced = .plain name params := by
  obtain ⟨run, hr, hname, hinert, hhead⟩ := hp.exists_run ht
  exact ⟨⟨⟨.atWord name, '@' :: name⟩, .start⟩, run, rfl,
    readBefore_cons.2 ⟨readBefore_atWord hn hname, hr⟩, ⟨rfl, (unbroken_inert hinert 0).1⟩,
    hhead name _⟩

/-- A name and parameters made of words announce their at-rule. -/
theorem AtName.exists_announces_atRule {name params : Text} (hn : AtName name)
    (hp : Wording params) (t : Text) :
    ∃ prelude, Announces dialect prelude (.atRule (.plain name params)) t := by
  have hends : EndsPlain dialect ('{' :: t) := endsPlain_punctuation t rfl (by decide)
  obtain ⟨word, run, hk, hr, hu, hhead⟩ := exists_atRun hn hp hends
  refine ⟨word :: run, hr, fun token hh => ?_, hu, fun brace => ?_⟩
  · cases hh
    simp [Token.startsRun, hk]
  · simp only [Head.ofPrelude, hk, Head.unplaced, hhead]
    rfl

namespace Returns

theorem nil : Returns dialect [] next := ⟨[], [], .done next, .last nofun, rfl⟩

/-- A block is read again when its head is, in front of every brace, and its body is, in front of the
closing one. -/
theorem block {head : Head} {body rest : List Node}
    (hhead : ∀ t, ∃ prelude, Announces dialect prelude head t)
    (hbody : ∀ t, Returns dialect body ('}' :: t)) (hrest : Returns dialect rest next) :
    Returns dialect (.block head body [] :: rest) next := by
  obtain ⟨later, nodes, hlater, hi, hu⟩ := hrest
  obtain ⟨inner, body', hinner, hib, hub⟩ := hbody (Token.textOf later ++ next)
  obtain ⟨prelude, hp⟩ := hhead (Token.textOf inner ++ '}' :: (Token.textOf later ++ next))
  let brace : Token := ⟨⟨.openBrace, ['{']⟩, .start⟩
  let close : Token := ⟨⟨.closeBrace, ['}']⟩, .start⟩
  have hnone : ∀ token ∈ ([] : List Token), token.isFiller = true := nofun
  refine ⟨[] ++ (prelude ++ brace :: (inner ++ close :: later)), _, ?_,
    .block hnone hp.starts hp.unbroken rfl hib rfl hi, ?_⟩
  · exact (readBefore_block rfl rfl).2
      ⟨readBefore_append.2 ⟨hp.read, readBefore_mark rfl rfl⟩, hinner, hlater⟩
  · simp only [Node.respelledAll, Node.respelled, Node.unplacedAll, Node.unplaced, hu, hub]
    rw [Token.textOf_nil, hp.head_eq]

/-- An at-rule without a body is read back where it is the last node. -/
theorem atStatement {name params : Text} (hn : AtName name) (hp : Wording params)
    (ht : EndsPlain dialect next) : Returns dialect [.atStatement (.plain name params)] next := by
  obtain ⟨word, run, hk, hr, hu, hhead⟩ := exists_atRun hn hp ht
  have hnode : Node.ofStatement? [] word run false =
      some (.atStatement (.ofRun [] name word run false)) := by
    simp only [Node.ofStatement?, hk]
  refine ⟨[] ++ word :: run, _, hr, .loose (by simp) (by simp [Token.startsRun, hk]) hu hnode, ?_⟩
  simp only [Node.respelledAll, Node.respelled, Node.unplacedAll, Node.unplaced, hhead]
  rfl

/-- A declaration is read back in front of others. -/
theorem declaration {prop value : Text} {rest : List Node} (hp : SimpleWord prop)
    (hv : Wording value) (hrest : Returns dialect rest next) :
    Returns dialect (.declaration (.plain prop value) :: rest) next := by
  obtain ⟨later, nodes, hlater, hi, hu⟩ := hrest
  obtain ⟨first, others, node, hr, h₁, hinert, hnode, hu₁⟩ :=
    @exists_statement dialect prop value hp hv (Token.textOf later ++ next)
  obtain ⟨hunbroken, hdepth⟩ := unbroken_inert hinert 0
  let semicolon : Token := ⟨⟨.semicolon, [';']⟩, .start⟩
  refine ⟨[] ++ first :: (others ++ semicolon :: later), _, ?_,
    .statement nofun h₁ hunbroken hdepth rfl hnode hi, ?_⟩
  · rw [List.nil_append, ← List.cons_append, readBefore_statement rfl rfl]
    exact ⟨hr, hlater⟩
  · simp only [Node.respelledAll, Node.unplacedAll, hu, hu₁]

theorem comment {text : Text} {rest : List Node} (hc : Unended text)
    (hrest : Returns dialect rest next) :
    Returns dialect (.comment (.plain text false) :: rest) next := by
  obtain ⟨later, nodes, hlater, hi, hu⟩ := hrest
  let token : Token := ⟨⟨.comment false, '/' :: '*' :: text ++ ['*', '/']⟩, .start⟩
  have hnone : ∀ token ∈ ([] : List Token), token.isFiller = true := nofun
  refine ⟨[] ++ token :: later, _, readBefore_cons.2 ⟨readBefore_comment hc, hlater⟩,
    .comment hnone rfl hi, ?_⟩
  have hcomment : (Comment.ofToken [] token false).unplaced = .plain text false := by
    simp [Comment.ofToken, Comment.unplaced, Comment.plain, token]
  simp only [Node.respelledAll, Node.respelled, Node.unplacedAll, Node.unplaced, hu,
    Token.textOf_nil, hcomment]
  rfl

end Returns

/-- **What is made by hand is read again**, in front of every text that ends a word. -/
theorem ByHand.returns {nodes : List Node} (h : ByHand nodes) (hn : EndsPlain dialect next) :
    Returns dialect nodes next := by
  induction h generalizing next with
  | nil => exact .nil
  | rule hs _ _ ihb ih =>
      refine .block hs.exists_announces_rule (fun t => ihb ?_) (ih hn)
      exact endsPlain_punctuation t rfl (by decide)
  | atRule hname hp _ _ ihb ih =>
      refine .block (hname.exists_announces_atRule hp) (fun t => ihb ?_) (ih hn)
      exact endsPlain_punctuation t rfl (by decide)
  | atStatement hname hp => exact .atStatement hname hp hn
  | declaration hp hv _ ih => exact .declaration hp hv (ih hn)
  | comment hc _ ih => exact .comment hc (ih hn)

end

/-! ### Sheets -/

theorem SimpleWord.wording {word : Text} (h : SimpleWord word) : Wording word := by
  refine .inr ⟨[word], by simp, fun w hw => ?_, (List.intercalate_singleton).symm⟩
  rw [List.mem_singleton.1 hw]
  exact h

/-- Simple words do not begin with a mark. -/
theorem Wording.head?_append {text t : Text} (h : Wording text)
    (ht : t.head? ≠ some byteOrderMark) : (text ++ t).head? ≠ some byteOrderMark := by
  rcases h with rfl | hs
  · exact ht
  · obtain ⟨c, rest, rfl, -⟩ := hs.phrase.exists_first
    intro hh
    cases hh
    rcases hs.mem List.mem_cons_self with hv | hv
    · exact absurd (lt_of_isValueChar hv) (by decide)
    · exact absurd hv (by decide)

/-- What is made by hand does not begin with a mark. -/
theorem ByHand.head?_printAll {nodes : List Node} (h : ByHand nodes) :
    (Node.printAll nodes).head? ≠ some byteOrderMark := by
  cases h with
  | nil => exact nofun
  | rule hs =>
      rw [Node.printAll, Node.rule, Node.print, Head.print, RuleHead.print]
      simp only [List.nil_append, List.append_nil, List.append_assoc]
      exact hs.head?_append (by simp [byteOrderMark])
  | atRule | atStatement =>
      simp [Node.printAll, Node.atRule, Node.print, Head.print, AtHead.print, AtHead.plain,
        byteOrderMark]
  | declaration hp =>
      rw [Node.printAll, Node.print, Declaration.print, Declaration.plain]
      simp only [List.nil_append, List.append_assoc]
      exact hp.wording.head?_append (by simp [byteOrderMark])
  | comment => simp [Node.printAll, Node.print, Comment.print, Comment.plain, byteOrderMark]

/-- **A sheet made by hand is read back from its text**, in both dialects: the same nodes, up to
places, and each value is spelled as it was printed. -/
theorem Sheet.byHand_readsBack {nodes : List Node} (h : ByHand nodes) (dialect : Dialect) :
    ∃ again, Sheet.parse dialect (Sheet.mk false nodes []).print = .ok again ∧
      again.unplaced = (Sheet.mk false nodes []).respelled.unplaced := by
  obtain ⟨tokens, nodes', hr, hi, hu⟩ := h.returns (endsPlain_nil dialect)
  have hprint : Node.printAll nodes' = Node.printAll nodes := by
    rw [← Node.printAll_unplaced, hu, Node.printAll_unplaced, Node.printAll_respelled]
  have hback : Sheet.ReadsBack dialect ⟨false, nodes', []⟩ := by
    refine Sheet.readsBack_of_items (fun _ => ?_) hi hr
    rw [List.append_nil, hprint]
    exact h.head?_printAll
  obtain ⟨again, hparse, hsame⟩ := hback
  refine ⟨again, ?_, ?_⟩
  · rwa [Sheet.print, hprint] at hparse
  · rw [hsame, Sheet.unplaced, Sheet.unplaced, Sheet.respelled, hu]

/-- Blocks in blocks with nothing between them, a declaration without a value, a comment that ends
with a star, and an at-rule without a body at the end of a block. -/
theorem Sheet.byHand_readsBack_sample :
    let nodes : List Node := [
      .atRule "media".toList "print".toList (some [
        .rule ".a -b".toList [
          .declaration (.plain "c".toList "1.5 url".toList),
          .comment (.plain "/ *".toList false),
          .declaration (.plain "d".toList []),
          .atRule "e-1".toList [] none]]),
      .rule [] []]
    ByHand nodes ∧
      (Sheet.mk false nodes []).print =
        "@media print\x7b.a -b\x7bc: 1.5 url;/*/ **/d: ;@e-1\x7d\x7d\x7b\x7d".toList ∧
      ∃ again, Sheet.parse .css (Sheet.mk false nodes []).print = .ok again ∧
        again.unplaced = (Sheet.mk false nodes []).respelled.unplaced := by
  intro nodes
  have hwords : ∀ words : List Text, words ≠ [] →
      (∀ word ∈ words, word ≠ [] ∧ word.all isValueChar = true) →
      Wording ([' '].intercalate words) := fun words hn hw => .inr ⟨words, hn, hw, rfl⟩
  have hnodes : ByHand nodes := by
    refine .atRule ⟨by decide, by decide⟩ (hwords ["print".toList] (by decide) (by decide))
      (.rule (hwords [".a".toList, "-b".toList] (by decide) (by decide)) ?_ .nil)
      (.rule (.inl rfl) .nil .nil)
    refine .declaration ⟨by decide, by decide⟩
      (hwords ["1.5".toList, "url".toList] (by decide) (by decide)) (.comment ?_
        (.declaration ⟨by decide, by decide⟩ (.inl rfl)
          (.atStatement ⟨by decide, by decide⟩ (.inl rfl))))
    exact throughComment_eq_none_iff.1 (by decide)
  exact ⟨hnodes, by decide, Sheet.byHand_readsBack hnodes .css⟩

end Restyle
