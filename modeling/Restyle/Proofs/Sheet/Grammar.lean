import Restyle.Proofs.Sheet.Layout
import Restyle.Proofs.Sheet.RoundTrip

/-!
# The grammar of accepted texts

`Grammar.Contents kinds` is the grammar of a container in terms of the kinds of its tokens alone: no
nodes, no texts, no builder.  A statement is told by what ends it, and parentheses hide semicolons
but no braces.

* `Grammar.Run`, `Grammar.AtRule`, `Grammar.Declares`: what may stand between two ends.
* `Items.contents`, `Grammar.Contents.items`: items have kinds that the grammar derives, and tokens
  of such kinds are items.
* `Sheet.parse_isOk_iff_contents`: **a text with tokens is a sheet** just when the grammar derives
  the kinds of its tokens.  A byte-order mark in front of the text is not among them.
* `Sheet.parse_mark_underivable`: with the mark among the tokens this fails.
-/

namespace Restyle

namespace Grammar

/-! ### Runs -/

/-- The depth of parentheses after one more token.  A closing one with none open changes nothing. -/
def depthAfter : Nat → Kind → Nat
  | depth, .openParen  => depth + 1
  | depth, .closeParen => depth - 1
  | depth, _           => depth

/-- The depth of parentheses after tokens of these kinds. -/
def depth (kinds : List Kind) : Nat := kinds.foldl depthAfter 0

/-- No brace, and no semicolon outside parentheses. -/
def Run (kinds : List Kind) : Prop :=
  ∀ front kind back, kinds = front ++ kind :: back →
    kind ≠ .openBrace ∧ kind ≠ .closeBrace ∧ (kind = .semicolon → depth front ≠ 0)

/-- The first token, if any, is none that stands between statements and no at-word. -/
def Opens (kinds : List Kind) : Prop :=
  ∀ kind, kinds.head? = some kind →
    kind ≠ .space ∧ kind ≠ .semicolon ∧ (∀ inline, kind ≠ .comment inline) ∧
      ∀ name, kind ≠ .atWord name

/-- A run that can be the prelude of a rule.  It may be empty. -/
def Prelude (kinds : List Kind) : Prop := Run kinds ∧ Opens kinds

/-- An at-word and a run behind it. -/
def AtRule (kinds : List Kind) : Prop := ∃ name run, kinds = .atWord name :: run ∧ Run run

/-- Before the first colon stands a property: it is not empty and holds no white space, but white
space may follow it. -/
def HasProperty (kinds : List Kind) : Prop :=
  ∃ prop spaces value, kinds = prop ++ spaces ++ .colon :: value ∧ prop ≠ [] ∧
    (∀ kind ∈ prop, kind ≠ .colon ∧ kind ≠ .space) ∧ ∀ kind ∈ spaces, kind = .space

/-- A run that is a declaration. -/
def Declares (kinds : List Kind) : Prop := Run kinds ∧ Opens kinds ∧ HasProperty kinds

/-! ### Containers -/

/-- The contents of a container.  A statement without a semicolon stands last, in front of the
closing brace or the end. -/
inductive Contents : List Kind → Prop where
  | nil : Contents []
  | filler {kind : Kind} {rest : List Kind} (hk : kind = .space ∨ kind = .semicolon)
      (t : Contents rest) : Contents (kind :: rest)
  | comment {inline : Bool} {rest : List Kind} (t : Contents rest) :
      Contents (.comment inline :: rest)
  | block {prelude inner rest : List Kind} (hp : Prelude prelude ∨ AtRule prelude)
      (i : Contents inner) (t : Contents rest) :
      Contents (prelude ++ .openBrace :: (inner ++ .closeBrace :: rest))
  | statement {run rest : List Kind} (hs : AtRule run ∨ Declares run) (hd : depth run = 0)
      (t : Contents rest) : Contents (run ++ .semicolon :: rest)
  | loose {run : List Kind} (hs : AtRule run ∨ Declares run) : Contents run

end Grammar

open Grammar

/-! ### Runs of tokens -/

theorem Token.depthAfter_eq (depth : Nat) (token : Token) :
    token.depthAfter depth = Grammar.depthAfter depth token.kind := by
  unfold Token.depthAfter
  cases token.kind <;> rfl

theorem depthThrough_eq (run : List Token) :
    depthThrough 0 run = depth (run.map (·.kind)) := by
  rw [depthThrough, depth, List.foldl_map]
  congr
  funext depth token
  exact Token.depthAfter_eq depth token

theorem Token.endsRun_eq_false_iff {depth : Nat} {token : Token} (he : token.kind ≠ .eof) :
    token.endsRun depth = false ↔
      token.kind ≠ .openBrace ∧ token.kind ≠ .closeBrace ∧
        (token.kind = .semicolon → depth ≠ 0) := by
  unfold Token.endsRun
  cases hk : token.kind with
  | eof => exact absurd hk he
  | semicolon => simp
  | space | comment | word | string | atWord | colon | openBrace | closeBrace | openParen
  | closeParen => simp

/-- No token of an unbroken run ends it, at the depth it stands at. -/
theorem unbroken_iff {depth : Nat} {run : List Token} :
    Unbroken depth run ↔ ∀ front token back, run = front ++ token :: back →
      token.endsRun (depthThrough depth front) = false := by
  induction run generalizing depth with
  | nil => simp [Unbroken]
  | cons first rest ih =>
      rw [Unbroken, ih]
      constructor
      · rintro ⟨h₁, hr⟩ front token back hs
        cases front with
        | nil => cases hs; exact h₁
        | cons other front => cases hs; exact hr front token back rfl
      · intro h
        refine ⟨h [] first rest rfl, fun front token back hs => ?_⟩
        exact h (first :: front) token back (by rw [hs, List.cons_append])

theorem Unbroken.ne_eof {depth : Nat} {run : List Token} (h : Unbroken depth run) :
    ∀ token ∈ run, token.kind ≠ .eof := by
  intro token ht hk
  obtain ⟨front, back, rfl⟩ := List.append_of_mem ht
  have he := unbroken_iff.1 h front token back rfl
  simp [Token.endsRun, hk] at he

theorem run_iff_unbroken {run : List Token} (he : ∀ token ∈ run, token.kind ≠ .eof) :
    Run (run.map (·.kind)) ↔ Unbroken 0 run := by
  rw [unbroken_iff]
  constructor
  · rintro h front token back rfl
    have hk := h (front.map (·.kind)) token.kind (back.map (·.kind)) (by simp)
    rw [← depthThrough_eq] at hk
    exact (Token.endsRun_eq_false_iff (he token (by simp))).2 hk
  · intro h front kind back hs
    obtain ⟨front', left, rfl, rfl, hl⟩ := List.map_eq_append_iff.1 hs
    obtain ⟨token, back', rfl, rfl, -⟩ := List.map_eq_cons_iff.1 hl
    rw [← depthThrough_eq]
    exact (Token.endsRun_eq_false_iff (he token (by simp))).1 (h front' token back' rfl)

/-- A run is started by what is neither filler, comment nor brace. -/
theorem Token.startsRun_iff {token : Token} (he : token.kind ≠ .eof) :
    token.startsRun = true ↔ token.kind ≠ .space ∧ token.kind ≠ .semicolon ∧
      (∀ inline, token.kind ≠ .comment inline) ∧ token.kind ≠ .openBrace ∧
      token.kind ≠ .closeBrace := by
  unfold Token.startsRun
  cases hk : token.kind with
  | eof => exact absurd hk he
  | space | comment | word | string | atWord | colon | semicolon | openBrace | closeBrace
  | openParen | closeParen => simp

/-! ### Statements of tokens -/

/-- **A run is a declaration** just when it has a property. -/
theorem Declaration.ofRun?_isSome_iff {before : Text} {first : Token} {others : List Token}
    {semicolon : Bool} :
    (Declaration.ofRun? before first others semicolon).isSome = true ↔
      HasProperty ((first :: others).map (·.kind)) := by
  rw [Option.isSome_iff_exists]
  constructor
  · rintro ⟨decl, h⟩
    obtain ⟨l, hl, -⟩ := Declaration.ofRun?_eq_some_iff.1 h
    refine ⟨l.prop.map (·.kind), l.gap.map (·.kind), (l.lead ++ l.value).map (·.kind), ?_, ?_, ?_,
      ?_⟩
    · rw [← hl, Layout.tokens, List.map_append, List.map_append, List.map_cons, l.colon_kind]
    · simpa using l.prop_ne_nil
    · simpa using l.prop_kind
    · simpa using l.gap_kind
  · rintro ⟨propKinds, gapKinds, rightKinds, hs, hn, hp, hg⟩
    obtain ⟨left, right', he, hl, hr⟩ := List.map_eq_append_iff.1 hs
    obtain ⟨prop, gap, rfl, rfl, rfl⟩ := List.map_eq_append_iff.1 hl
    obtain ⟨colon, right, rfl, hc, -⟩ := List.map_eq_cons_iff.1 hr
    obtain ⟨l, hl⟩ := @exists_layout prop gap right colon (by simpa using hn) (by simpa using hp)
      (by simpa using hg) hc
    exact ⟨_, l.ofRun? (hl.trans he.symm) before semicolon⟩

/-- Whether tokens are a statement does not depend on what stands around them. -/
theorem Node.ofStatement?_isSome_iff {before : Text} {first : Token} {others : List Token}
    {semicolon : Bool} :
    (Node.ofStatement? before first others semicolon).isSome = true ↔
      (∃ name, first.kind = .atWord name) ∨ HasProperty ((first :: others).map (·.kind)) := by
  unfold Node.ofStatement?
  split
  · next name hk => exact iff_of_true rfl (.inl ⟨name, hk⟩)
  · next hk =>
    rw [Option.isSome_map, Declaration.ofRun?_isSome_iff]
    exact ⟨.inr, fun h => h.resolve_left fun ⟨name, ha⟩ => hk name ha⟩

/-- **The statements of the grammar** are the runs that form a node. -/
theorem statement_iff (before : Text) (semicolon : Bool) {first : Token} {others : List Token}
    (he : ∀ token ∈ first :: others, token.kind ≠ .eof) :
    (first.startsRun = true ∧ Unbroken 0 (first :: others) ∧
        (Node.ofStatement? before first others semicolon).isSome = true) ↔
      AtRule ((first :: others).map (·.kind)) ∨ Declares ((first :: others).map (·.kind)) := by
  have he₁ := he first List.mem_cons_self
  have heo : ∀ token ∈ others, token.kind ≠ .eof := fun t ht => he t (List.mem_cons_of_mem _ ht)
  rw [Node.ofStatement?_isSome_iff]
  constructor
  · rintro ⟨h₁, hu, hs⟩
    by_cases ha : ∃ name, first.kind = .atWord name
    · obtain ⟨name, hk⟩ := ha
      refine .inl ⟨name, others.map (·.kind), by rw [List.map_cons, hk], ?_⟩
      have ho := hu.2
      rw [Token.depthAfter_eq, hk] at ho
      exact (run_iff_unbroken heo).2 ho
    · refine .inr ⟨(run_iff_unbroken he).2 hu, ?_, hs.resolve_left ha⟩
      intro kind hk
      cases hk
      obtain ⟨hsp, hse, hco, -, -⟩ := (Token.startsRun_iff he₁).1 h₁
      exact ⟨hsp, hse, hco, fun name hn => ha ⟨name, hn⟩⟩
  · rintro (⟨name, run, hs, hr⟩ | ⟨hr, ho, hp⟩)
    · obtain ⟨hk, rfl⟩ : first.kind = .atWord name ∧ others.map (·.kind) = run :=
        List.cons.inj hs
      refine ⟨by simp [Token.startsRun, hk], ⟨by simp [Token.endsRun, hk], ?_⟩, .inl ⟨name, hk⟩⟩
      rw [Token.depthAfter_eq, hk]
      exact (run_iff_unbroken heo).1 hr
    · obtain ⟨hsp, hse, hco, -⟩ := ho first.kind rfl
      obtain ⟨hob, hcb, -⟩ := hr [] first.kind (others.map (·.kind)) rfl
      exact ⟨(Token.startsRun_iff he₁).2 ⟨hsp, hse, hco, hob, hcb⟩, (run_iff_unbroken he).1 hr,
        .inr hp⟩

/-- A statement is not empty. -/
theorem exists_first_of_statement {run : List Token}
    (h : AtRule (run.map (·.kind)) ∨ Declares (run.map (·.kind))) :
    ∃ first others, run = first :: others := by
  refine List.exists_cons_of_ne_nil ?_
  rintro rfl
  rcases h with ⟨name, rest, hs, -⟩ | ⟨-, -, prop, spaces, value, hs, -⟩
  · cases hs
  · simp at hs

/-- The preludes of the grammar are the runs that a block may start with. -/
theorem prelude_iff {prelude : List Token} (he : ∀ token ∈ prelude, token.kind ≠ .eof) :
    ((∀ token, prelude.head? = some token → token.startsRun = true) ∧ Unbroken 0 prelude) ↔
      Prelude (prelude.map (·.kind)) ∨ AtRule (prelude.map (·.kind)) := by
  cases prelude with
  | nil => simp [Prelude, AtRule, Run, Opens, Unbroken]
  | cons first others =>
      have he₁ := he first List.mem_cons_self
      have heo : ∀ token ∈ others, token.kind ≠ .eof :=
        fun t ht => he t (List.mem_cons_of_mem _ ht)
      constructor
      · rintro ⟨h₁, hu⟩
        have hstart := h₁ first rfl
        by_cases ha : ∃ name, first.kind = .atWord name
        · obtain ⟨name, hk⟩ := ha
          refine .inr ?_
          exact ((statement_iff [] false he).1
            ⟨hstart, hu, Node.ofStatement?_isSome_iff.2 (.inl ⟨name, hk⟩)⟩).resolve_right
              fun hd => (hd.2.1 first.kind rfl).2.2.2 name hk
        · refine .inl ⟨(run_iff_unbroken he).2 hu, fun kind hk => ?_⟩
          cases hk
          obtain ⟨hsp, hse, hco, -, -⟩ := (Token.startsRun_iff he₁).1 hstart
          exact ⟨hsp, hse, hco, fun name hn => ha ⟨name, hn⟩⟩
      · rintro (⟨hr, ho⟩ | ha)
        · obtain ⟨hsp, hse, hco, -⟩ := ho first.kind rfl
          obtain ⟨hob, hcb, -⟩ := hr [] first.kind (others.map (·.kind)) rfl
          refine ⟨fun token ht => ?_, (run_iff_unbroken he).1 hr⟩
          cases ht
          exact (Token.startsRun_iff he₁).2 ⟨hsp, hse, hco, hob, hcb⟩
        · obtain ⟨h₁, hu, -⟩ :=
            (statement_iff [] false he).2 (.inl ha)
          exact ⟨fun token ht => by cases ht; exact h₁, hu⟩

/-! ### Items and the grammar -/

/-- Filler may stand in front of anything. -/
theorem Grammar.Contents.fillers {fs : List Token} {rest : List Kind}
    (hf : ∀ token ∈ fs, token.isFiller = true) (h : Contents rest) :
    Contents (fs.map (·.kind) ++ rest) := by
  induction fs with
  | nil => exact h
  | cons token fs ih =>
      exact .filler (Token.isFiller_iff.1 (hf token List.mem_cons_self))
        (ih fun t ht => hf t (List.mem_cons_of_mem _ ht))

/-- **Items have kinds that the grammar derives.** -/
theorem Items.contents {tokens : List Token} {nodes : List Node} {after : Text}
    (h : Items tokens nodes after) : Contents (tokens.map (·.kind)) := by
  induction h with
  | last hf => simpa using Contents.nil.fillers hf
  | loose hf h₁ hr hn =>
      have hs := (statement_iff _ _ hr.ne_eof).1 ⟨h₁, hr, Option.isSome_of_eq_some hn⟩
      rw [List.map_append]
      exact (Contents.loose hs).fillers hf
  | statement hf h₁ hr hd hk hn _ ih =>
      have hs := (statement_iff _ _ hr.ne_eof).1 ⟨h₁, hr, Option.isSome_of_eq_some hn⟩
      rw [depthThrough_eq] at hd
      simpa [hk] using (Contents.statement hs hd ih).fillers hf
  | comment hf hk _ ih => simpa [hk] using (Contents.comment ih).fillers hf
  | block hf h₁ hr hb _ hc _ ihi ih =>
      have hp := (prelude_iff hr.ne_eof).1 ⟨h₁, hr⟩
      simpa [hb, hc] using (Contents.block hp ihi ih).fillers hf

/-- Filler in front of items becomes part of what comes first. -/
theorem Items.filler {token : Token} {tokens : List Token} {nodes : List Node} {after : Text}
    (hk : token.isFiller = true) (h : Items tokens nodes after) :
    ∃ nodes' after', Items (token :: tokens) nodes' after' := by
  have cons : ∀ {fs : List Token}, (∀ t ∈ fs, t.isFiller = true) →
      ∀ t ∈ token :: fs, t.isFiller = true := by
    intro fs hf t ht
    rcases List.mem_cons.1 ht with rfl | ht
    · exact hk
    · exact hf t ht
  have node : ∀ {before first others semicolon} {node : Node} (before' : Text),
      Node.ofStatement? before first others semicolon = some node →
      ∃ node', Node.ofStatement? before' first others semicolon = some node' := by
    intro before first others semicolon node before' hn
    rw [← Option.isSome_iff_exists, Node.ofStatement?_isSome_iff, ← Node.ofStatement?_isSome_iff]
    exact Option.isSome_of_eq_some hn
  cases h with
  | last hf => exact ⟨_, _, .last (cons hf)⟩
  | loose hf h₁ hr hn =>
      obtain ⟨_, hn'⟩ := node _ hn
      exact ⟨_, _, .loose (cons hf) h₁ hr hn'⟩
  | statement hf h₁ hr hd hs hn t =>
      obtain ⟨_, hn'⟩ := node _ hn
      exact ⟨_, _, .statement (cons hf) h₁ hr hd hs hn' t⟩
  | comment hf hc t => exact ⟨_, _, .comment (cons hf) hc t⟩
  | block hf h₁ hr hb i hc t => exact ⟨_, _, .block (cons hf) h₁ hr hb i hc t⟩

/-- **Tokens whose kinds the grammar derives are items.** -/
theorem Grammar.Contents.items {kinds : List Kind} (h : Contents kinds) :
    ∀ {tokens : List Token}, tokens.map (·.kind) = kinds →
      (∀ token ∈ tokens, token.kind ≠ .eof) → ∃ nodes after, Items tokens nodes after := by
  induction h with
  | nil =>
      intro tokens hs _
      obtain rfl := List.map_eq_nil_iff.1 hs
      exact ⟨_, _, .last nofun⟩
  | filler hk _ ih =>
      intro tokens hs he
      obtain ⟨token, rest, rfl, rfl, hr⟩ := List.map_eq_cons_iff.1 hs
      obtain ⟨nodes, after, hi⟩ := ih hr fun t ht => he t (List.mem_cons_of_mem _ ht)
      exact hi.filler (Token.isFiller_iff.2 hk)
  | comment _ ih =>
      intro tokens hs he
      obtain ⟨token, rest, rfl, hk, hr⟩ := List.map_eq_cons_iff.1 hs
      obtain ⟨nodes, after, hi⟩ := ih hr fun t ht => he t (List.mem_cons_of_mem _ ht)
      exact ⟨_, _, @Items.comment [] rest token _ nodes after nofun hk hi⟩
  | block hp _ _ ihi ih =>
      intro tokens hs he
      obtain ⟨prelude, _, rfl, rfl, hs₁⟩ := List.map_eq_append_iff.1 hs
      obtain ⟨brace, _, rfl, hb, hs₂⟩ := List.map_eq_cons_iff.1 hs₁
      obtain ⟨inner, _, rfl, hin, hs₃⟩ := List.map_eq_append_iff.1 hs₂
      obtain ⟨close, rest, rfl, hc, hr⟩ := List.map_eq_cons_iff.1 hs₃
      obtain ⟨h₁, hu⟩ := (prelude_iff fun t ht => he t (by simp [ht])).2 hp
      obtain ⟨body, bodyAfter, hi⟩ := ihi hin fun t ht => he t (by simp [ht])
      obtain ⟨nodes, after, ht⟩ := ih hr fun t ht => he t (by simp [ht])
      exact ⟨_, _, @Items.block [] prelude inner rest brace close body nodes bodyAfter after nofun
        h₁ hu hb hi hc ht⟩
  | statement hs hd _ ih =>
      intro tokens ht he
      obtain ⟨run, _, rfl, rfl, hl⟩ := List.map_eq_append_iff.1 ht
      obtain ⟨semicolon, rest, rfl, hk, hr⟩ := List.map_eq_cons_iff.1 hl
      obtain ⟨first, others, rfl⟩ := exists_first_of_statement hs
      obtain ⟨h₁, hu, hn⟩ := (statement_iff [] true
        fun t ht => he t (List.mem_append_left _ ht)).2 hs
      obtain ⟨node, hn⟩ := Option.isSome_iff_exists.1 hn
      obtain ⟨nodes, after, hi⟩ := ih hr fun t ht => he t (by simp [ht])
      rw [← depthThrough_eq] at hd
      exact ⟨_, _, @Items.statement [] others rest first semicolon node nodes after nofun h₁ hu hd hk
        hn hi⟩
  | loose hs =>
      intro tokens ht he
      subst ht
      obtain ⟨first, others, rfl⟩ := exists_first_of_statement hs
      obtain ⟨h₁, hu, hn⟩ := (statement_iff [] false he).2 hs
      obtain ⟨node, hn⟩ := Option.isSome_iff_exists.1 hn
      exact ⟨_, _, @Items.loose [] others first node nofun h₁ hu hn⟩

/-! ### Accepted texts -/

/-- **A text with tokens is a sheet** just when the grammar derives the kinds of its tokens.  They
are the tokens of what stands behind the byte-order mark, if there is one, without the last, which
marks the end. -/
theorem Sheet.parse_isOk_iff_contents {dialect : Dialect} {source text : Text} {bom : Bool}
    {tokens : List Token} (hm : Sheet.splitMark source = (bom, text))
    (ht : Token.tokenize dialect text = .ok tokens) :
    (∃ sheet, Sheet.parse dialect source = .ok sheet) ↔
      Contents (tokens.dropLast.map (·.kind)) := by
  obtain ⟨ls, hr, rfl⟩ := Token.tokenize_eq_ok_iff.1 ht
  have he := (formed_locate .start hr).ne_eof
  rw [List.dropLast_concat]
  constructor
  · rintro ⟨sheet, hp⟩
    obtain ⟨text', ls', hm', hr', hi⟩ := Sheet.parse_eq_ok_iff.1 hp
    obtain rfl : text = text' := by
      rw [hm] at hm'
      exact (Prod.mk.inj hm').2
    exact hr'.unique hr ▸ hi.contents
  · intro hc
    obtain ⟨nodes, after, hi⟩ := hc.items rfl he
    exact ⟨⟨bom, nodes, after⟩, Sheet.parse_eq_ok_iff.2 ⟨text, ls, hm, hr, hi⟩⟩

/-- A mark, an at-rule whose parentheses hide a semicolon, a statement without one: accepted.  A
property with white space in it: rejected. -/
theorem Sheet.parse_isOk_iff_contents_sample :
    (∃ tokens, Token.tokenize .scss "@a (;)\x7b b :c;/**/d:e \x7d".toList = .ok tokens ∧
      Contents (tokens.dropLast.map (·.kind))) ∧
    ∃ tokens, Token.tokenize .css "a b:c;".toList = .ok tokens ∧
      ¬ Contents (tokens.dropLast.map (·.kind)) := by
  generalize hs : "@a (;)\x7b b :c;/**/d:e \x7d".toList = good
  generalize hs' : "a b:c;".toList = bad
  have hg : (Token.tokenize .scss good).isOk = true ∧
      (Sheet.parse .scss (byteOrderMark :: good)).isOk = true := by
    subst hs
    decide +kernel
  have hb : (Token.tokenize .css bad).isOk = true ∧ (Sheet.parse .css bad).isOk = false ∧
      Sheet.splitMark bad = (false, bad) := by
    subst hs'
    decide +kernel
  obtain ⟨tokens, ht⟩ := exists_of_isOk hg.1
  obtain ⟨tokens', ht'⟩ := exists_of_isOk hb.1
  refine ⟨⟨tokens, ht, ?_⟩, tokens', ht', fun hc => ?_⟩
  · have hm : Sheet.splitMark (byteOrderMark :: good) = (true, good) := rfl
    exact (Sheet.parse_isOk_iff_contents hm ht).1 (exists_of_isOk hg.2)
  · obtain ⟨sheet, hp⟩ := (Sheet.parse_isOk_iff_contents hb.2.2 ht').2 hc
    rw [hp] at hb
    cases hb.2.1

/-- **The mark must not be among the tokens.**  Read as part of the text it is a word, and a word
alone is no statement; but the text is a sheet. -/
theorem Sheet.parse_mark_underivable :
    (Token.tokenize .scss [byteOrderMark]).toOption.map (·.map (·.kind)) = some [.word, .eof] ∧
      (Sheet.parse .scss [byteOrderMark]).isOk = true ∧ ¬ Contents [.word] := by
  refine ⟨by decide +kernel, by decide +kernel, fun h => ?_⟩
  generalize hk : [Kind.word] = kinds at h
  cases h with
  | nil | comment => cases hk
  | filler hf =>
      cases hk
      rcases hf with hf | hf <;> cases hf
  | block => simp [List.cons_eq_append_iff] at hk
  | statement => simp [List.cons_eq_append_iff] at hk
  | loose hs =>
      subst hk
      rcases hs with ⟨name, run, ha, -⟩ | ⟨-, -, prop, spaces, value, hd, -⟩
      · cases ha
      · have hc : Kind.colon ∈ [Kind.word] := by simp [hd]
        simp at hc

end Restyle
