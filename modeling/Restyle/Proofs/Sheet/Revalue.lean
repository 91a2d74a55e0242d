import Restyle.Proofs.Sheet.Retold

/-!
# Giving values to declarations

A declaration that gets another value prints it plainly in the place of the old spelling.  The text
is then read again with other tokens there.  Nothing around notices: the colon or the white space in
front ends by itself, and a plain value ends at the semicolon or the brace behind it.  Only a property
that leaves a parenthesis open does: the old value may have closed it.

* `PlainValue`: a value that is read as itself, with a mark of importance or without.
* `Declaration.leftOpen`: how many parentheses are open where the value begins.
* `Declaration.rereads_tell`: a declaration is read with the new value and mark, in front of what may
  end it.
* `Revised inside nodes nodes' edits`: some declarations get a value, at any depth.
* `Sheet.readsBack_of_revised`: **a revised sheet is read back from its text**.
-/

namespace Restyle

/-! ### Plain values -/

/-- A value that is read as itself: a phrase that does not end with the mark of importance. -/
structure PlainValue (value : Text) : Prop where
  phrase : Phrase value
  unmarked : splitImportant value = (value, false)

/-- The value with the mark of importance behind it, if it has one. -/
def spellPlain (value : Text) (important : Bool) : Text :=
  value ++ if important then " !important".toList else []

/-- A mark behind a value is split off again. -/
theorem splitImportant_marked {value : Text} (h : Phrase value) :
    splitImportant (value ++ ' ' :: importantMark) = (value, true) := by
  have hcut : (value ++ ' ' :: importantMark).length - importantMark.length =
      (value ++ [' ']).length := by
    simp only [List.length_append, List.length_cons, List.length_nil]
    omega
  have htrim : Text.trimEnd (value ++ [' ']) = value := by
    rw [Text.trimEnd, dropTrailing_eq_rdropWhile, List.rdropWhile_concat_pos _ _ _ (by decide)]
    exact h.trimEnd
  rw [splitImportant, hcut, List.append_cons value ' ' importantMark, List.drop_left,
    List.take_left, htrim]
  rfl

namespace PlainValue

variable {value : Text}

/-- The spelling of a plain value is a phrase, with the mark and without. -/
theorem phrase_spellPlain (h : PlainValue value) (important : Bool) :
    Phrase (spellPlain value important) := by
  cases important with
  | false => simpa [spellPlain] using h.phrase
  | true => exact h.phrase.append (.of_all rfl)

/-- **A plain value is read as itself**, with its mark. -/
theorem splitImportant_spellPlain (h : PlainValue value) (important : Bool) :
    splitImportant (spellPlain value important) = (value, important) := by
  cases important with
  | false => simpa [spellPlain] using h.unmarked
  | true => exact splitImportant_marked h.phrase

end PlainValue

/-- The declaration with the value, spelled plainly. -/
def Declaration.give (decl : Declaration) (value : Text) : Declaration :=
  { decl with value := value, spelling := some ⟨value, spellPlain value decl.important⟩ }

/-- The declaration with the value and the mark of importance, if it gets one, spelled plainly. -/
def Declaration.tell (decl : Declaration) (value : Text) (important : Bool) : Declaration :=
  { decl with
    value := value, important := important,
    spelling := some ⟨value, spellPlain value important⟩ }

/-! ### Tokens that leave a run as it is -/

/-- A run in two parts is unbroken when each part is, at its depth. -/
theorem unbroken_append {depth : Nat} {a b : List Token} :
    Unbroken depth (a ++ b) ↔ Unbroken depth a ∧ Unbroken (depthThrough depth a) b := by
  induction a generalizing depth with
  | nil => simp [Unbroken, depthThrough]
  | cons token a ih => rw [List.cons_append, Unbroken, Unbroken, ih, and_assoc]; rfl

theorem depthThrough_append (depth : Nat) (a b : List Token) :
    depthThrough depth (a ++ b) = depthThrough (depthThrough depth a) b := List.foldl_append

/-- Words, colons and white space neither end a run nor change its depth. -/
def Token.isInert (token : Token) : Bool :=
  match token.kind with
  | .word | .colon | .space => true
  | _                       => false

/-- Inert tokens neither end a run nor bear on its depth. -/
theorem unbroken_inert {run : List Token} (h : ∀ token ∈ run, token.isInert = true)
    (depth : Nat) : Unbroken depth run ∧ depthThrough depth run = depth := by
  induction run generalizing depth with
  | nil => exact ⟨trivial, rfl⟩
  | cons token run ih =>
      have hk := h token List.mem_cons_self
      have hd : token.endsRun depth = false ∧ token.depthAfter depth = depth := by
        rw [Token.isInert] at hk
        cases ht : token.kind <;> simp_all [Token.endsRun, Token.depthAfter]
      obtain ⟨hu, hdepth⟩ := ih (fun t ht => h t (List.mem_cons_of_mem _ ht)) depth
      refine ⟨⟨hd.1, by rw [hd.2]; exact hu⟩, ?_⟩
      rw [depthThrough, List.foldl_cons, hd.2]
      exact hdepth

/-- Without an opening parenthesis the depth stays at zero. -/
theorem depthThrough_eq_zero {run : List Token} (h : ∀ token ∈ run, token.kind ≠ .openParen) :
    depthThrough 0 run = 0 := by
  induction run with
  | nil => rfl
  | cons token run ih =>
      have hd : token.depthAfter 0 = 0 := by
        have hk := h token List.mem_cons_self
        unfold Token.depthAfter
        cases ht : token.kind <;> simp_all
      rw [depthThrough, List.foldl_cons, hd]
      exact ih fun t ht => h t (List.mem_cons_of_mem _ ht)

theorem Formed.ne_openParen {tokens : List Token} (h : Formed tokens)
    (hp : '(' ∉ Token.textOf tokens) : ∀ token ∈ tokens, token.kind ≠ .openParen := by
  intro token ht hk
  have hf := h token ht
  simp only [Lexeme.Formed, hk] at hf
  exact hp (List.mem_flatMap.2 ⟨token, ht, by rw [hf]; exact List.mem_cons_self⟩)

/-! ### Tokens in front of another text -/

section
variable {dialect : Dialect} {t t' : Text}

/-- White space is read in front of every text that does not go on with it. -/
theorem Reads.swap_spaces {ls : List Lexeme} {text : Text} (h : Reads dialect text ls t)
    (hk : ∀ l ∈ ls, l.kind = .space) (ht : ∀ c, t'.head? = some c → isSpace c = false) :
    Reads dialect (Lexeme.textOf ls ++ t') ls t' := by
  induction h with
  | done => exact .done t'
  | @more c text left _ l ls h hr ih =>
      have hr' := ih fun m hm => hk m (List.mem_cons_of_mem _ hm)
      have hs := Opening.shows_of dialect c text
      have hl := hk l List.mem_cons_self
      cases Lexeme.read_eq_ok_iff.1 h with
      | space ho =>
          rw [ho] at hs
          -- what follows begins as before, or with the other text
          have hnext : ∀ d, (Lexeme.textOf ls ++ t').head? = some d → isSpace d = false := by
            intro d hd
            cases ls with
            | nil => exact ht d hd
            | cons m ms =>
                obtain ⟨e, rest, hm⟩ := List.exists_cons_of_ne_nil (hr.ne_nil List.mem_cons_self)
                have hn := List.head?_dropWhile_not isSpace text
                rw [hr.text_eq] at hn
                simp only [Lexeme.textOf_cons, hm, List.cons_append, List.head?_cons] at hd hn
                cases hd
                exact hn
          obtain ⟨e₁, e₂⟩ := run_append (p := isSpace) (w := text.takeWhile isSpace)
            (List.all_eq_true.1 List.all_takeWhile) hnext
          have htake : Lexeme.Takes dialect c
              (text.takeWhile isSpace ++ (Lexeme.textOf ls ++ t')) _ _ :=
            .space (by rw [Opening.of, if_pos (show isSpace c = true from hs)])
          rw [e₁, e₂] at htake
          rw [Lexeme.textOf_cons, List.append_assoc, List.cons_append]
          exact .more (Lexeme.read_eq_ok_iff.2 htake) hr'
      | punctuation ho =>
          rw [ho] at hs
          cases hl
          simp only [Opening.Shows, punctuation?] at hs
          split at hs <;> cases hs
      | blockComment | lineComment | string | atWord | word => cases hl

/-- Spaces are read alike before anything but a space. -/
theorem ReadBefore.swap_spaces {tokens : List Token} (h : ReadBefore dialect tokens t)
    (hk : ∀ token ∈ tokens, token.kind = .space)
    (ht : ∀ c, t'.head? = some c → isSpace c = false) : ReadBefore dialect tokens t' := by
  have hl : ∀ l ∈ tokens.map Token.toLexeme, l.kind = .space := by
    intro l hl
    obtain ⟨token, hm, rfl⟩ := List.mem_map.1 hl
    exact hk token hm
  have hs := Reads.swap_spaces h hl ht
  rwa [← Token.textOf_eq] at hs

/-- A phrase in front of a text that ends it is made of words and white space. -/
theorem Phrase.exists_tokens {p : Text} (hp : Phrase p) (ht : EndsPlain dialect t) :
    ∃ tokens, ReadBefore dialect tokens t ∧ Token.textOf tokens = p ∧
      (∀ token, tokens.head? = some token → token.kind = .word) ∧
      ∀ token ∈ tokens, token.kind = .word ∨ token.kind = .space := by
  obtain ⟨first, others, hr, hw, hk⟩ := hp.reads ht
  have htext : p = Lexeme.textOf (first :: others) := List.append_cancel_right hr.text_eq
  refine ⟨locate .start (first :: others), ?_, ?_, ?_, ?_⟩
  · rw [ReadBefore, toLexeme_locate, textOf_locate, ← htext]
    exact hr
  · rw [textOf_locate, htext]
  · intro token hh
    cases hh
    exact hw
  · intro token hm
    rcases List.mem_cons.1 (mem_of_mem_locate hm) with he | hm
    · exact .inl ((congrArg Lexeme.kind he).trans hw)
    · exact hk _ hm

end

/-! ### Declarations with another value -/

namespace Layout

variable {value : List Token}

/-- The layout with other tokens for its value. -/
def withValue (l : Layout) (value : List Token)
    (hv : ∀ token, value.head? = some token → token.kind ≠ .space) : Layout :=
  { l with value := value, value_kind := hv }

theorem exists_tokens_withValue {l : Layout} {first : Token} {others : List Token}
    (h : l.tokens = first :: others)
    (hv : ∀ token, value.head? = some token → token.kind ≠ .space) :
    ∃ others', (l.withValue value hv).tokens = first :: others' := by
  obtain ⟨token, rest, hp⟩ := List.exists_cons_of_ne_nil l.prop_ne_nil
  have hfirst := head_eq h
  simp only [hp, List.head_cons] at hfirst
  refine ⟨rest ++ l.gap ++ l.colon :: (l.lead ++ value), ?_⟩
  simp only [tokens, withValue, hp, hfirst, List.cons_append]

/-- **What is in front of a value does not notice which value it is**: the white space ends where the
value begins, and the colon by itself. -/
theorem readBefore_withValue {dialect : Dialect} {fs : List Token} {t t' : Text} {l : Layout}
    (hv : ∀ token, value.head? = some token → token.kind ≠ .space)
    (h : ReadBefore dialect (fs ++ l.tokens) t) (hr : ReadBefore dialect value t')
    (hs : ∀ c, (Token.textOf value ++ t').head? = some c → isSpace c = false) :
    ReadBefore dialect (fs ++ (l.withValue value hv).tokens) t' := by
  have hcut : ∀ v, fs ++ (l.prop ++ l.gap ++ l.colon :: (l.lead ++ v)) =
      (fs ++ l.prop ++ l.gap) ++ ([l.colon] ++ (l.lead ++ v)) := by simp
  rw [tokens, hcut] at h
  obtain ⟨hfront, hrest⟩ := readBefore_append.1 h
  have hcolon : l.colon.text = [':'] := by
    simpa only [Lexeme.Formed, l.colon_kind] using hrest.formed l.colon List.mem_cons_self
  have hlead := (readBefore_append.1 (readBefore_append.1 hrest).2).1
  rw [tokens, withValue, hcut]
  refine readBefore_append.2 ⟨hfront.swap ?_, readBefore_append.2
    ⟨readBefore_mark hcolon (by rw [l.colon_kind]; rfl), readBefore_append.2
      ⟨hlead.swap_spaces l.lead_kind hs, hr⟩⟩⟩
  simp only [Token.textOf_append, Token.textOf_cons, hcolon]
  exact beginAlike_cons _ _ rfl (by decide) (by decide)

/-- What stands behind the property neither ends a run nor changes its depth, if the value is made of
words. -/
theorem unbroken_behind_prop (l : Layout)
    (hk : ∀ token ∈ value, token.kind = .word ∨ token.kind = .space) (depth : Nat) :
    Unbroken depth (l.gap ++ l.colon :: (l.lead ++ value)) ∧
      depthThrough depth (l.gap ++ l.colon :: (l.lead ++ value)) = depth := by
  refine unbroken_inert (fun token hm => ?_) depth
  rcases List.mem_append.1 hm with hm | hm
  · simp [Token.isInert, l.gap_kind token hm]
  · rcases List.mem_cons.1 hm with rfl | hm
    · simp [Token.isInert, l.colon_kind]
    · rcases List.mem_append.1 hm with hm | hm
      · simp [Token.isInert, l.lead_kind token hm]
      · rcases hk token hm with hk | hk <;> simp [Token.isInert, hk]

/-- A run goes on through a value of words, and ends as deep as the property left it. -/
theorem unbroken_withValue {l : Layout}
    (hv : ∀ token, value.head? = some token → token.kind ≠ .space) (hu : Unbroken 0 l.tokens)
    (hk : ∀ token ∈ value, token.kind = .word ∨ token.kind = .space) :
    Unbroken 0 (l.withValue value hv).tokens ∧
      depthThrough 0 (l.withValue value hv).tokens = depthThrough 0 l.prop := by
  have hcut : (l.withValue value hv).tokens = l.prop ++ (l.gap ++ l.colon :: (l.lead ++ value)) :=
    List.append_assoc _ _ _
  obtain ⟨hrest, hend⟩ := l.unbroken_behind_prop hk (depthThrough 0 l.prop)
  rw [tokens, List.append_assoc, unbroken_append] at hu
  rw [hcut, unbroken_append, depthThrough_append]
  exact ⟨⟨hu.1, hrest⟩, hend⟩

end Layout

/-! ### Open parentheses -/

/-- How many parentheses are open where the value of the declaration begins.  A property may open
some and leave it to the value to close them. -/
def Declaration.leftOpen (dialect : Dialect) (decl : Declaration) : Nat :=
  match Token.scan dialect (decl.prop ++ decl.between) with
  | .ok tokens => depthThrough 0 tokens
  | .error _   => 0

namespace Stated

variable {dialect : Dialect} {fs others : List Token} {first : Token} {next next' value : Text}
  {decl : Declaration}

/-- **A declaration that was read** has a layout. -/
theorem exists_layout (h : Stated dialect fs first others next decl) :
    ∃ l : Layout, l.tokens = first :: others ∧
      decl = l.declaration (Token.textOf fs) decl.semicolon :=
  Declaration.ofRun?_eq_some_iff.1 (Node.ofStatement?_eq_declaration_iff.1 h.node).2

/-- **The parentheses that are open** are those that the tokens of the property leave so. -/
theorem leftOpen_eq (h : Stated dialect fs first others next decl) {l : Layout}
    (hl : l.tokens = first :: others)
    (hd : decl = l.declaration (Token.textOf fs) decl.semicolon) :
    decl.leftOpen dialect = depthThrough 0 l.prop := by
  have hnil : ∀ token, ([] : List Token).head? = some token → token.kind ≠ .space := nofun
  have hnone : ∀ token ∈ ([] : List Token), token.kind = .word ∨ token.kind = .space := nofun
  -- the property is read in front of its colon as it is in front of the whole value
  have hr : ReadBefore dialect (l.withValue [] hnil).tokens [] := by
    have hfront := (readBefore_append.1 h.read).2
    rw [← hl, ← List.nil_append l.tokens] at hfront
    exact Layout.readBefore_withValue hnil hfront (.done []) nofun
  have htext : decl.prop ++ decl.between = Token.textOf (l.withValue [] hnil).tokens := by
    rw [hd, Layout.tokens, Layout.withValue, List.append_nil, List.append_assoc,
      Token.textOf_append l.prop]
    rfl
  have hscan : Token.scan dialect (decl.prop ++ decl.between) =
      .ok (locate .start ((l.withValue [] hnil).tokens.map Token.toLexeme)) := by
    rw [htext, Token.scan_eq_ok_iff]
    rw [ReadBefore, List.append_nil] at hr
    exact ⟨_, hr, rfl⟩
  have halike := alike_of_lexemes
    (toLexeme_locate .start ((l.withValue [] hnil).tokens.map Token.toLexeme))
  rw [Declaration.leftOpen, hscan]
  calc depthThrough 0 (locate .start ((l.withValue [] hnil).tokens.map Token.toLexeme))
      = depthThrough 0 (l.withValue [] hnil).tokens := halike.depthThrough 0
    _ = depthThrough 0 (l.prop ++ (l.gap ++ l.colon :: (l.lead ++ []))) := by
        rw [Layout.tokens, List.append_assoc]; rfl
    _ = depthThrough 0 l.prop := by
        rw [depthThrough_append, (l.unbroken_behind_prop hnone _).2]

/-- A property without an opening parenthesis leaves none open. -/
theorem leftOpen_eq_zero (h : Stated dialect fs first others next decl) (hp : '(' ∉ decl.prop) :
    decl.leftOpen dialect = 0 := by
  obtain ⟨l, hl, hd⟩ := h.exists_layout
  have hf : Formed l.prop := fun token hm => h.read.formed token (by simp [← hl, Layout.tokens, hm])
  rw [h.leftOpen_eq hl hd]
  rw [hd] at hp
  exact depthThrough_eq_zero (hf.ne_openParen hp)

/-- **A declaration with another value** is read with the same first token, in front of every text
that ends a plain word. -/
theorem tell (h : Stated dialect fs first others next decl) (hv : PlainValue value)
    (important : Bool) (hp : decl.semicolon = true → decl.leftOpen dialect = 0)
    (ht : EndsPlain dialect next') :
    ∃ others', Stated dialect fs first others' next' (decl.tell value important) := by
  obtain ⟨l, hl, hd⟩ := h.exists_layout
  have hphrase := hv.phrase_spellPlain important
  obtain ⟨tokens, hread, htext, hfirst, hkinds⟩ := hphrase.exists_tokens ht
  have hword : ∀ token, tokens.head? = some token → token.kind ≠ .space := by
    intro token hh hspace
    rw [hfirst token hh] at hspace
    cases hspace
  have hspace : ∀ c, (Token.textOf tokens ++ next').head? = some c → isSpace c = false := by
    intro c hc
    obtain ⟨d, rest, hd, hplain⟩ := hphrase.exists_first
    rw [htext, hd] at hc
    cases hc
    exact isSpace_of_isPlain hplain
  -- without comments the new value is what was spelled
  have hclean : (l.withValue tokens hword).cleaned = spellPlain value important := by
    have hfilter : tokens.filter (!·.isComment) = tokens := by
      rw [List.filter_eq_self]
      intro token hm
      rcases hkinds token hm with hk | hk <;> simp [Token.isComment, hk]
    rw [Layout.cleaned, Layout.withValue, hfilter, htext, hphrase.trim]
  obtain ⟨others', hl'⟩ := Layout.exists_tokens_withValue hl hword
  obtain ⟨hu, hdepth⟩ := Layout.unbroken_withValue hword (hl ▸ h.unbroken) hkinds
  have hr := Layout.readBefore_withValue hword (hl ▸ h.read) hread hspace
  rw [hl'] at hr hu hdepth
  refine ⟨others', hr, hu, fun hs => ?_, Node.ofStatement?_eq_declaration_iff.2
    ⟨(Node.ofStatement?_eq_declaration_iff.1 h.node).1,
      Declaration.ofRun?_eq_some_iff.2 ⟨_, hl', ?_⟩⟩⟩
  · rw [hdepth, ← h.leftOpen_eq hl hd]
    exact hp hs
  · have hspelled : Token.textOf (l.withValue tokens hword).value = spellPlain value important :=
      htext
    rw [hd]
    simp only [Layout.declaration, hclean, hv.splitImportant_spellPlain, Declaration.tell,
      hspelled]
    rfl

end Stated

/-- **A declaration can be told with another value and mark.**  If a semicolon ends it, the property
must not leave a parenthesis open. -/
theorem Declaration.rereads_tell {dialect : Dialect} {decl : Declaration} {value : Text}
    (hv : PlainValue value) (important : Bool)
    (hp : decl.semicolon = true → decl.leftOpen dialect = 0) :
    Rereads dialect decl (decl.tell value important) :=
  ⟨rfl, fun h ht => h.tell hv important hp ht⟩

theorem Declaration.rereads_give (dialect : Dialect) {decl : Declaration} {value : Text}
    (hv : PlainValue value) (hp : '(' ∉ decl.prop) : Rereads dialect decl (decl.give value) :=
  ⟨rfl, fun h ht => h.tell hv decl.important (fun _ => h.leftOpen_eq_zero hp) ht⟩

/-! ### Revised nodes -/

/-- A part of a text to exchange for another: from which byte on, what stands there, and what is to
stand there. -/
structure Edit where
  start : Nat
  old : Text
  new : Text
deriving DecidableEq, Repr

/-- The edit that gives the declaration a value: it begins behind the colon and the white space
there. -/
def Declaration.edit (decl : Declaration) (value : Text) : Edit where
  start := offsetOf decl.source + (decl.prop ++ decl.between).size
  old := decl.printValue
  new := spellPlain value decl.important

/-- The second list is the first one with another value for some declarations, at any depth, and
these are the edits, in order.  A declaration gets a value only if it stands in a block, so the
nodes are `inside` one or only what they hold is revised. -/
inductive Revised : Bool → List Node → List Node → List Edit → Prop where
  | nil (inside : Bool) : Revised inside [] [] []
  | leaf {inside : Bool} {node : Node} {rest rest' : List Node} {edits : List Edit}
      (hn : ∀ head body after, node ≠ .block head body after)
      (t : Revised inside rest rest' edits) :
      Revised inside (node :: rest) (node :: rest') edits
  | value {decl : Declaration} {value : Text} {rest rest' : List Node} {edits : List Edit}
      (hv : PlainValue value) (hp : '(' ∉ decl.prop) (hd : value ≠ decl.value)
      (t : Revised true rest rest' edits) :
      Revised true (.declaration decl :: rest) (.declaration (decl.give value) :: rest')
        (decl.edit value :: edits)
  | block {inside : Bool} {head : Head} {after : Text} {body body' rest rest' : List Node}
      {inner edits : List Edit} (b : Revised true body body' inner)
      (t : Revised inside rest rest' edits) :
      Revised inside (.block head body after :: rest) (.block head body' after :: rest')
        (inner ++ edits)

/-- A node that is no block stays as it is, or it is a declaration in a block that gets a value. -/
theorem Revised.leaf_inv {inside : Bool} {node : Node} {rest nodes' : List Node}
    {edits : List Edit} (h : Revised inside (node :: rest) nodes' edits)
    (hn : ∀ head body after, node ≠ .block head body after) :
    (∃ rest', nodes' = node :: rest' ∧ Revised inside rest rest' edits) ∨
      ∃ decl value rest' edits', inside = true ∧ node = .declaration decl ∧
        nodes' = .declaration (decl.give value) :: rest' ∧
        edits = decl.edit value :: edits' ∧ PlainValue value ∧ '(' ∉ decl.prop ∧
        Revised inside rest rest' edits' := by
  cases h with
  | leaf _ t => exact .inl ⟨_, rfl, t⟩
  | value hv hp _ t => exact .inr ⟨_, _, _, _, rfl, rfl, rfl, rfl, hv, hp, t⟩
  | block => exact absurd rfl (hn _ _ _)

theorem Revised.comment_inv {inside : Bool} {c : Comment} {rest nodes' : List Node}
    {edits : List Edit} (h : Revised inside (.comment c :: rest) nodes' edits) :
    ∃ rest', nodes' = .comment c :: rest' ∧ Revised inside rest rest' edits := by
  cases h with
  | leaf _ t => exact ⟨_, rfl, t⟩

/-- A block is revised by what is done in its body. -/
theorem Revised.block_inv {inside : Bool} {head : Head} {after : Text}
    {body rest nodes' : List Node} {edits : List Edit}
    (h : Revised inside (.block head body after :: rest) nodes' edits) :
    ∃ body' rest' inner edits', nodes' = .block head body' after :: rest' ∧
      edits = inner ++ edits' ∧ Revised true body body' inner ∧
      Revised inside rest rest' edits' := by
  cases h with
  | leaf hn => exact absurd rfl (hn _ _ _)
  | block b t => exact ⟨_, _, _, _, rfl, rfl, b, t⟩

/-- To give a value is to tell a declaration anew. -/
theorem Revised.retold {inside : Bool} {nodes nodes' : List Node} {edits : List Edit}
    (h : Revised inside nodes nodes' edits) (dialect : Dialect) :
    Retold (Rereads dialect) nodes nodes' := by
  induction h with
  | nil => exact .nil
  | leaf _ _ ih => exact .keep _ ih
  | value hv hp _ _ ih => exact .declaration (Declaration.rereads_give dialect hv hp) ih
  | block _ _ ihb ih => exact .inside _ _ ihb ih

/-- **A revised sheet is read back from its text.** -/
theorem Sheet.readsBack_of_revised {dialect : Dialect} {source : Text} {sheet revised : Sheet}
    {edits : List Edit} (h : Sheet.parse dialect source = .ok sheet)
    (hb : revised.bom = sheet.bom) (ha : revised.after = sheet.after)
    (hv : Revised false sheet.nodes revised.nodes edits) : revised.ReadsBack dialect :=
  Sheet.readsBack_of_retold h hb ha (hv.retold dialect)

end Restyle
