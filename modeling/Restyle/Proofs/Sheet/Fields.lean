import Restyle.Proofs.Indexed.Slice
import Restyle.Proofs.Sheet.Earliest
import Restyle.Proofs.Sheet.Origin

/-!
# The fields of a declaration

A declaration that was read keeps its statement twice: letter by letter, for printing, and as a
property and a value, for everything else.  Both are told here from the tokens of the statement.

* `Text.Trims text core`: the text is `core` with blanks around it.
* `Marking text value important`: the text is the value, or the value with the mark of importance
  behind it.
* `splitImportant_marking`: **the mark is split off** just when the text ends with it.
* `Begins.cuts`, `Items.readFrom`: items are cut into statements, and each declaration is read from
  one of them.
* `Declaration.HasFields`: what the fields are, for a statement that is laid out so.
* `Sheet.parse_hasFields`: **every declaration of a sheet has the fields of its statement**.
-/

namespace Restyle

open Relation

/-! ### Blanks around a text -/

namespace Text

/-- No blank stands at either end. -/
structure Tight (text : Text) : Prop where
  head : ∀ c, text.head? = some c → isBlank c = false
  last : ∀ c, text.getLast? = some c → isBlank c = false

/-- The text is `core` with blanks around it, none of which belongs to `core`. -/
def Trims (text core : Text) : Prop :=
  core.Tight ∧ ∃ left right, text = left ++ core ++ right ∧ left.all isBlank = true ∧
    right.all isBlank = true

/-- A text that begins with no blank is tight without its trailing ones. -/
theorem tight_trimEnd {text : Text} (h : ∀ c, text.head? = some c → isBlank c = false) :
    (trimEnd text).Tight := by
  refine ⟨fun c hc => h c (head?_of_head?_dropTrailing hc), fun c hc => ?_⟩
  have hne : trimEnd text ≠ [] := by
    rintro he
    rw [he] at hc
    cases hc
  rw [List.getLast?_eq_some_getLast hne] at hc
  cases hc
  exact Bool.eq_false_iff.2 (List.rdropWhile_last_not isBlank text hne)

theorem trims_trim (text : Text) : text.Trims (trim text) := by
  have hhead : ∀ c, (trimStart text).head? = some c → isBlank c = false := by
    intro c hc
    have hn := List.head?_dropWhile_not isBlank text
    rw [← trimStart, hc] at hn
    exact hn
  refine ⟨tight_trimEnd hhead, text.takeWhile isBlank, takeTrailing isBlank (trimStart text), ?_,
    List.all_takeWhile, all_takeTrailing isBlank _⟩
  rw [List.append_assoc, trim, trimEnd, dropTrailing_eq_rdropWhile, takeTrailing_eq_rtakeWhile,
    List.rdropWhile_append_rtakeWhile, trimStart, List.takeWhile_append_dropWhile]

end Text

/-! ### The mark of importance -/

/-- The text is the value and does not end with the mark of importance; or, if it is important, it
is the value, blanks, if any, and the mark, in any case of letters. -/
def Marking (text value : Text) : Bool → Prop
  | false => text = value ∧
      ∀ front mark, text = front ++ mark → Text.sameLetters mark importantMark = false
  | true  => ∃ blanks mark, text = value ++ blanks ++ mark ∧ blanks.all isBlank = true ∧
      Text.sameLetters mark importantMark = true

/-- **The mark is split off** just when the text ends with it. -/
theorem splitImportant_marking (text : Text) :
    Marking text (splitImportant text).1 (splitImportant text).2 := by
  rw [splitImportant]
  split
  · next hs =>
    refine ⟨_, _, ?_, all_takeTrailing isBlank (text.take (text.length - importantMark.length)), hs⟩
    rw [Text.trimEnd, dropTrailing_eq_rdropWhile, takeTrailing_eq_rtakeWhile,
      List.rdropWhile_append_rtakeWhile, List.take_append_drop]
  · next hs =>
    refine ⟨rfl, fun front mark he => ?_⟩
    rw [← Bool.not_eq_true]
    intro hm
    -- a mark at the end has the length at which the text was cut
    have hlength := (Text.extent_of_sameLetters hm).1
    rw [he, List.length_append, hlength, Nat.add_sub_cancel, List.drop_left] at hs
    exact hs hm

/-- A value has no blanks around it, when the text that it was split from has none. -/
theorem tight_splitImportant {text : Text} (h : text.Tight) : (splitImportant text).1.Tight := by
  rw [splitImportant]
  split
  · refine Text.tight_trimEnd fun c hc => h.head c ?_
    rw [← List.take_append_drop (text.length - importantMark.length) text, List.head?_append, hc]
    rfl
  · exact h

/-! ### Cutting items into statements -/

theorem suffix_of_cuts {tokens rest : List Token} (h : ReflTransGen Cuts tokens rest) :
    rest <:+ tokens := by
  induction h with
  | refl => exact List.suffix_refl tokens
  | tail _ hc ih =>
      refine List.IsSuffix.trans ?_ ih
      cases hc with
      | between => exact List.suffix_cons _ _
      | @statement first others _ _ => exact ⟨first :: others, rfl⟩

/-- **The first piece is cut off**, its brace or semicolon after what stands before it. -/
theorem Begins.cuts {tokens rest : List Token} {piece : Piece} (h : Begins tokens piece rest) :
    ReflTransGen Cuts tokens rest := by
  cases h with
  | filler hf => exact .single (.between (Token.startsRun_of_isFiller hf))
  | comment hk => exact .single (.between (by simp [Token.startsRun, hk]))
  | closing hk => exact .single (.between (by simp [Token.startsRun, hk]))
  | @opening prelude _ brace h₁ hr hk =>
      have hbrace : Cuts (brace :: rest) rest := .between (by simp [Token.startsRun, hk])
      cases prelude with
      | nil => exact .single hbrace
      | cons first others =>
          have hs : IsStatement first others (brace :: rest) := by
            refine hr.isStatement (h₁ first rfl) fun stop hs => ?_
            cases hs
            exact .inl hk
          exact .head (.statement hs) (.single hbrace)
  | @statement others _ first semicolon h₁ hr hd hk =>
      have hs := (Begins.statement h₁ hr hd hk : Begins _ _ rest).isStatement.1
      exact .head (.statement hs) (.single (.between (by simp [Token.startsRun, hk])))
  | loose h₁ hr hl => exact .single (.statement (hr.isStatement h₁ hl.endsBefore))

theorem cuts_fillers {fs : List Token} (rest : List Token)
    (hf : ∀ token ∈ fs, token.isFiller = true) : ReflTransGen Cuts (fs ++ rest) rest := by
  induction fs with
  | nil => exact .refl
  | cons token fs ih =>
      have hfirst : Begins (token :: (fs ++ rest)) _ _ := .filler (hf token List.mem_cons_self)
      exact hfirst.cuts.trans (ih fun t ht => hf t (List.mem_cons_of_mem _ ht))

/-- **Items are cut off whole**, in front of a closing brace or the end. -/
theorem Items.cuts {tokens : List Token} {nodes : List Node} {after : Text}
    (h : Items tokens nodes after) :
    ∀ {later : List Token}, AtClose later → ReflTransGen Cuts (tokens ++ later) later := by
  induction h with
  | last hf => exact fun {later} _ => cuts_fillers later hf
  | loose hf h₁ hr =>
      intro later hl
      rw [List.append_assoc]
      exact (cuts_fillers _ hf).trans (Begins.loose h₁ hr hl).cuts
  | statement hf h₁ hr hd hk _ _ ih =>
      intro later hl
      simp only [List.append_assoc, List.cons_append]
      exact ((cuts_fillers _ hf).trans (Begins.statement h₁ hr hd hk).cuts).trans (ih hl)
  | comment hf hk _ ih =>
      intro later hl
      rw [List.append_assoc, List.cons_append]
      exact ((cuts_fillers _ hf).trans (Begins.comment hk).cuts).trans (ih hl)
  | @block fs prelude inner rest brace close _ _ _ _ hf h₁ hr hb _ hc _ ihi ih =>
      intro later hl
      have hin : AtClose (close :: (rest ++ later)) := .inr ⟨close, rest ++ later, rfl, hc⟩
      simp only [List.append_assoc, List.cons_append]
      exact ((((cuts_fillers _ hf).trans (Begins.opening h₁ hr hb).cuts).trans (ihi hin)).trans
        (Begins.closing hc).cuts).trans (ih hl)

/-- The declaration is read from one of the statements that the tokens are cut into. -/
def Declaration.ReadFrom (decl : Declaration) (tokens : List Token) : Prop :=
  ∃ here rest before first others semicolon, ReflTransGen Cuts tokens here ∧
    Begins here (.statement first others semicolon) rest ∧
    Declaration.ofRun? before first others semicolon.isSome = some decl

theorem Declaration.ReadFrom.behind {decl : Declaration} {tokens rest : List Token}
    (h : decl.ReadFrom rest) (hc : ReflTransGen Cuts tokens rest) : decl.ReadFrom tokens := by
  obtain ⟨here, left, before, first, others, semicolon, hh, hb, hd⟩ := h
  exact ⟨here, left, before, first, others, semicolon, hc.trans hh, hb, hd⟩

/-- A statement that is a declaration is read from where it begins. -/
theorem Begins.readFrom {decl : Declaration} {here rest others : List Token} {first : Token}
    {semicolon : Option Token} {before : Text}
    (hb : Begins here (.statement first others semicolon) rest)
    (hn : Node.ofStatement? before first others semicolon.isSome = some (.declaration decl)) :
    decl.ReadFrom here := by
  rcases Node.ofStatement?_cases hn with ⟨name, -, he⟩ | ⟨decl', hd, he⟩
  · cases he
  · cases he
    exact ⟨here, rest, before, first, others, semicolon, .refl, hb, hd⟩

/-- **Each declaration is read from a statement** of the tokens, at whatever depth it stands. -/
theorem Items.readFrom {tokens : List Token} {nodes : List Node} {after : Text}
    {decl : Declaration} (h : Items tokens nodes after) :
    ∀ {later : List Token}, AtClose later → .declaration decl ∈ Node.partsAll nodes →
      decl.ReadFrom (tokens ++ later) := by
  induction h with
  | last => exact fun _ => nofun
  | loose hf h₁ hr hn =>
      intro later hl hm
      rw [Node.partsAll, Node.partsAll, List.append_nil,
        Node.parts_of_ne_block (Node.ofStatement?_ne_block hn), List.mem_singleton] at hm
      subst hm
      rw [List.append_assoc]
      exact ((Begins.loose h₁ hr hl).readFrom hn).behind (cuts_fillers _ hf)
  | @statement _ _ rest _ _ _ _ _ hf h₁ hr hd hk hn _ ih =>
      intro later hl hm
      have hb : Begins _ _ (rest ++ later) := .statement h₁ hr hd hk
      simp only [List.append_assoc, List.cons_append]
      rw [Node.partsAll, Node.parts_of_ne_block (Node.ofStatement?_ne_block hn), List.mem_append,
        List.mem_singleton] at hm
      rcases hm with rfl | hm
      · exact (hb.readFrom hn).behind (cuts_fillers _ hf)
      · exact (ih hl hm).behind ((cuts_fillers _ hf).trans hb.cuts)
  | comment hf hk _ ih =>
      intro later hl hm
      rw [List.append_assoc, List.cons_append]
      rw [Node.partsAll, List.mem_append] at hm
      rcases hm with hm | hm
      · cases List.mem_singleton.1 hm
      · exact (ih hl hm).behind ((cuts_fillers _ hf).trans (Begins.comment hk).cuts)
  | @block fs prelude inner rest brace close _ _ _ _ hf h₁ hr hb i hc _ ihi ih =>
      intro later hl hm
      have hin : AtClose (close :: (rest ++ later)) := .inr ⟨close, rest ++ later, rfl, hc⟩
      simp only [List.append_assoc, List.cons_append]
      have hopen : ReflTransGen Cuts _ (inner ++ close :: (rest ++ later)) :=
        (cuts_fillers _ hf).trans (Begins.opening h₁ hr hb).cuts
      rw [Node.partsAll, Node.parts, List.mem_append, List.mem_cons] at hm
      rcases hm with (hm | hm) | hm
      · cases hm
      · exact (ihi hin hm).behind hopen
      · -- the body goes whole before what follows the block
        exact (ih hl hm).behind ((hopen.trans (i.cuts hin)).trans (Begins.closing hc).cuts)

/-! ### Fields -/

/-- **The declaration has the fields of a statement** that is laid out so.  The layout says of the
property that it has tokens, none of them a colon or white space, and of the value that it goes on
to the end of the statement. -/
structure Declaration.HasFields (decl : Declaration) (l : Layout) : Prop where
  /-- The property is the text of its tokens. -/
  prop : decl.prop = Token.textOf l.prop
  prop_ne_nil : decl.prop ≠ []
  /-- Between the property and the value stand white space, one colon and white space. -/
  between : decl.between = Token.textOf l.gap ++ ':' :: Token.textOf l.lead ∧
    (Token.textOf l.gap).all isSpace = true ∧ (Token.textOf l.lead).all isSpace = true
  /-- The spelling is that of the value, and its raw text is the rest of the statement. -/
  spelling : decl.spelling = some ⟨decl.value, Token.textOf l.value⟩
  /-- Without comments, and without blanks around it, the raw text is the value, with the mark of
  importance behind it or not. -/
  value : ∃ core, (Token.textOf (l.value.filter (!·.isComment))).Trims core ∧
    Marking core decl.value decl.important
  /-- There are no blanks around the value. -/
  tight : decl.value.Tight
  /-- The declaration remembers the first token of its property. -/
  source : decl.source = some (l.prop.head l.prop_ne_nil).span

theorem Layout.hasFields {l : Layout} (hf : Formed l.tokens)
    (hm : ∀ token ∈ l.tokens, token.toLexeme.Made) (hn : ∀ token ∈ l.tokens, token.text ≠ [])
    (before : Text) (semicolon : Bool) : (l.declaration before semicolon).HasFields l where
  prop := rfl
  prop_ne_nil := by
    obtain ⟨first, others, hp⟩ := List.exists_cons_of_ne_nil l.prop_ne_nil
    have hfirst := hn first (by simp [tokens, hp])
    simp [declaration, hp, hfirst]
  between := by
    have hcolon : l.colon.text = [':'] := by
      simpa only [Lexeme.Formed, l.colon_kind] using hf l.colon (by simp [tokens])
    refine ⟨by simp [declaration, hcolon], ?_, ?_⟩
    · exact Token.all_isSpace_textOf (fun t ht => hm t (by simp [tokens, ht])) l.gap_isSpace
    · exact Token.all_isSpace_textOf (fun t ht => hm t (by simp [tokens, ht]))
        fun t ht => Token.isSpace_iff.2 (l.lead_kind t ht)
  spelling := rfl
  value := ⟨l.cleaned, Text.trims_trim _, splitImportant_marking l.cleaned⟩
  tight := tight_splitImportant (Text.trims_trim _).1
  source := rfl

/-- **Every declaration of a sheet has the fields of its statement**, at whatever depth it stands.
The tokens are those of what stands behind the byte-order mark, if there is one, without the last,
which marks the end.  They are cut into statements; the one of the declaration goes on to a
semicolon outside its parentheses, a closing brace or the end. -/
theorem Sheet.parse_hasFields {dialect : Dialect} {source : Text} {sheet : Sheet}
    {decl : Declaration} (h : Sheet.parse dialect source = .ok sheet)
    (hd : .declaration decl ∈ Node.partsAll sheet.nodes) :
    ∃ text tokens first others back, ∃ l : Layout,
      Sheet.splitMark source = (sheet.bom, text) ∧ Token.tokenize dialect text = .ok tokens ∧
      ReflTransGen Cuts tokens.dropLast (first :: (others ++ back)) ∧
      IsStatement first others back ∧
      (∀ stop, back.head? = some stop → stop.kind ≠ .openBrace) ∧
      l.tokens = first :: others ∧ decl.HasFields l := by
  obtain ⟨text, ls, hm, hr, hi⟩ := Sheet.parse_eq_ok_iff.1 h
  have hread : decl.ReadFrom (locate .start ls ++ []) := hi.readFrom (.inl rfl) hd
  rw [List.append_nil] at hread
  obtain ⟨here, rest, before, first, others, semicolon, hcuts, hb, hrun⟩ := hread
  obtain ⟨l, hl, rfl⟩ := Declaration.ofRun?_eq_some_iff.1 hrun
  obtain ⟨hs, hstop⟩ := hb.isStatement
  have hhere : here = first :: (others ++ (semicolon.toList ++ rest)) := by
    simpa [Piece.tokens] using hb.split
  rw [hhere] at hcuts
  have hmem : ∀ token ∈ l.tokens, token ∈ locate .start ls := by
    intro token ht
    rw [hl] at ht
    exact (suffix_of_cuts hcuts).subset (List.mem_append_left _ ht)
  refine ⟨text, _, first, others, _, l, hm, Token.tokenize_eq_ok_iff.2 ⟨ls, hr, rfl⟩,
    by rwa [List.dropLast_concat], hs, hstop, hl, l.hasFields ?_ ?_ ?_ before semicolon.isSome⟩
  · exact fun token ht => formed_locate .start hr token (hmem token ht)
  · exact fun token ht => hr.made (mem_of_mem_locate (hmem token ht))
  · exact fun token ht => hr.ne_nil (mem_of_mem_locate (hmem token ht))

/-- Behind a mark, and in a block: a comment in the property, a tabulator before the colon, a
semicolon in parentheses, comments in front of, inside and behind the mark of importance, and a
blank at the end that is no white space between tokens. -/
theorem Sheet.parse_hasFields_sample :
    ∃ sheet decl, Sheet.parse .scss
        "\ufeff@a\x7bb/**/c\t: é(;) /*x*/!Impor/**/TANT /*!important*/\u00a0\x7d".toList =
          .ok sheet ∧
      .declaration decl ∈ Node.partsAll sheet.nodes ∧ decl.prop = "b/**/c".toList ∧
      decl.value = "é(;)".toList ∧ decl.important = true ∧ ∃ l, decl.HasFields l := by
  generalize hs :
    "\ufeff@a\x7bb/**/c\t: é(;) /*x*/!Impor/**/TANT /*!important*/\u00a0\x7d".toList = source
  have ho : (Sheet.parse .scss source).toOption.map (fun sheet =>
      (Node.declarations (Node.partsAll sheet.nodes)).map fun d => (d.prop, d.value, d.important)) =
        some [("b/**/c".toList, "é(;)".toList, true)] := by
    subst hs
    decide +kernel
  obtain ⟨sheet, h, hdecls⟩ := exists_of_map_toOption ho
  obtain ⟨decl, rest, hlist, hfields, -⟩ := List.map_eq_cons_iff.1 hdecls
  have hd : .declaration decl ∈ Node.partsAll sheet.nodes :=
    Node.mem_declarations.1 (by rw [hlist]; exact List.mem_cons_self)
  obtain ⟨-, -, -, -, -, l, -, -, -, -, -, -, hl⟩ := Sheet.parse_hasFields h hd
  simp only [Prod.mk.injEq] at hfields
  exact ⟨sheet, decl, h, hd, hfields.1, hfields.2.1, hfields.2.2, l, hl⟩

end Restyle
