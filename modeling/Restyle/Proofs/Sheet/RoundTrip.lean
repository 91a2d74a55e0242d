import Restyle.Proofs.Sheet.Items
import Restyle.Proofs.Text.Trailing

/-!
# A sheet prints as the text it was read from

Every token of a text ends up in one field of one node, and printing puts the fields back in the
order of the tokens.

* `Sheet.parse_eq_ok_iff`: a text is a sheet when its lexemes, with their places, are the items of
  that sheet.
* `Node.print_loose`, `Node.print_statement`, `Node.print_comment`, `Node.print_block`: a node prints
  as its tokens.
* `Items.print`: the nodes of items print as the text of the tokens, up to the last filler.
* `Sheet.print_of_parse`: a sheet prints as the text it was read from.
-/

namespace Restyle

/-- **What a text is read as.**  It is a sheet when its lexemes, each at its place, are the items
of the sheet. -/
theorem Sheet.parse_eq_ok_iff {dialect : Dialect} {source : Text} {sheet : Sheet} :
    Sheet.parse dialect source = .ok sheet ↔
      ∃ text ls, Sheet.splitMark source = (sheet.bom, text) ∧ Reads dialect text ls [] ∧
        Items (locate .start ls) sheet.nodes sheet.after := by
  rw [Sheet.parse]
  cases hm : Sheet.splitMark source with
  | mk bom text =>
      dsimp only
      constructor
      · intro h
        split at h
        · cases h
        · next tokens ht =>
          obtain ⟨ls, hr, rfl⟩ := Token.scan_eq_ok_iff.1 ht
          obtain ⟨hb, hi⟩ := (Sheet.ofTokens_eq_ok_iff (formed_locate _ hr).ne_eof).1 h
          exact ⟨text, ls, by rw [hb], hr, hi⟩
      · rintro ⟨text', ls, he, hr, hi⟩
        cases he
        rw [Token.scan_eq_ok_iff.2 ⟨ls, hr, rfl⟩]
        exact (Sheet.ofTokens_eq_ok_iff (formed_locate _ hr).ne_eof).2 ⟨rfl, hi⟩

/-! ### The text of a node -/

/-- No text is lost where tokens are divided from the front. -/
theorem Token.textOf_leading (p : Token → Bool) (tokens : List Token) :
    Token.textOf (tokens.takeWhile p) ++ Token.textOf (tokens.dropWhile p) =
      Token.textOf tokens := by
  rw [← Token.textOf_append, List.takeWhile_append_dropWhile]

theorem Token.textOf_trailing (p : Token → Bool) (tokens : List Token) :
    Token.textOf (dropTrailing p tokens) ++ Token.textOf (takeTrailing p tokens) =
      Token.textOf tokens := by
  rw [← Token.textOf_append, dropTrailing_eq_rdropWhile, takeTrailing_eq_rtakeWhile,
    List.rdropWhile_append_rtakeWhile]

/-- The head of a rule prints as its tokens. -/
theorem RuleHead.print_ofPrelude (before : Text) (prelude : List Token) (brace : Token) :
    (RuleHead.ofPrelude before prelude brace).print = before ++ Token.textOf prelude := by
  rw [RuleHead.print, RuleHead.ofPrelude, List.append_assoc, Token.textOf_trailing]

theorem AtHead.print_ofRun {before name : Text} {word : Token} {run : List Token}
    {semicolon : Bool} (hw : word.text = '@' :: name) :
    (AtHead.ofRun before name word run semicolon).print =
      before ++ Token.textOf (word :: run) := by
  rw [Token.textOf_cons, hw, ← Token.textOf_leading Token.isSpace run,
    ← Token.textOf_trailing Token.isSpace (run.dropWhile Token.isSpace)]
  simp only [AtHead.print, AtHead.ofRun, List.append_assoc, List.cons_append]

theorem Head.print_ofPrelude (before : Text) {prelude : List Token} (brace : Token)
    (hf : Formed prelude) :
    (Head.ofPrelude before prelude brace).print = before ++ Token.textOf prelude := by
  unfold Head.ofPrelude
  split
  · exact RuleHead.print_ofPrelude before [] brace
  · next first run =>
    split
    · next name hk =>
      have hw := hf first List.mem_cons_self
      simp only [Lexeme.Formed, hk] at hw
      exact AtHead.print_ofRun hw
    · exact RuleHead.print_ofPrelude before (first :: run) brace

/-- A declaration prints as the tokens of its statement: the property, the colon with the space
around it, the value as it was spelled. -/
theorem Declaration.print_ofRun? {before : Text} {first : Token} {others : List Token}
    {semicolon : Bool} {decl : Declaration}
    (h : Declaration.ofRun? before first others semicolon = some decl) :
    decl.print = before ++ Token.textOf (first :: others) ++ printSemicolon semicolon := by
  rw [Declaration.ofRun?] at h
  dsimp only at h
  split at h
  · cases h
  · next colon right hc =>
    split at h
    · cases h
    · cases h
      -- the run in order: property, space, colon, space, value
      have hrun := Token.textOf_leading (·.kind != .colon) (first :: others)
      rw [hc] at hrun
      rw [← hrun, Token.textOf_cons, ← Token.textOf_leading Token.isSpace right,
        ← Token.textOf_trailing Token.isSpace (List.takeWhile _ _)]
      simp only [Declaration.print, Declaration.printValue, if_true, Token.textOf_append,
        Token.textOf_cons, List.append_assoc]

/-- **A statement prints as its tokens**, and as its semicolon if there is one. -/
theorem Node.print_ofStatement? {before : Text} {first : Token} {others : List Token}
    {semicolon : Bool} {node : Node} (hf : first.toLexeme.Formed)
    (h : Node.ofStatement? before first others semicolon = some node) :
    node.print = before ++ Token.textOf (first :: others) ++ printSemicolon semicolon := by
  rcases Node.ofStatement?_cases h with ⟨name, hk, rfl⟩ | ⟨decl, hd, rfl⟩
  · simp only [Lexeme.Formed, hk] at hf
    rw [Node.print, AtHead.print_ofRun hf]
    rfl
  · rw [Node.print, Declaration.print_ofRun? hd]

theorem Comment.print_ofToken {before : Text} {token : Token} {inline : Bool}
    (hk : token.kind = .comment inline) (hf : token.toLexeme.Formed) :
    (Comment.ofToken before token inline).print = before ++ token.text := by
  cases inline with
  | false =>
      simp only [Lexeme.Formed, hk] at hf
      obtain ⟨inner, hi⟩ := hf
      simp [Comment.print, Comment.ofToken, hi]
  | true =>
      simp only [Lexeme.Formed, hk] at hf
      obtain ⟨inner, hi⟩ := hf
      simp [Comment.print, Comment.ofToken, hi]

/-! ### The text of a sheet -/

theorem Formed.append {a b : List Token} (h : Formed (a ++ b)) : Formed a ∧ Formed b :=
  ⟨fun t ht => h t (List.mem_append_left b ht), fun t ht => h t (List.mem_append_right a ht)⟩

theorem Formed.cons {token : Token} {tokens : List Token} (h : Formed (token :: tokens)) :
    token.toLexeme.Formed ∧ Formed tokens :=
  ⟨h token List.mem_cons_self, fun t ht => h t (List.mem_cons_of_mem _ ht)⟩

/-- The text of a token whose kind is a punctuation mark. -/
theorem text_of_kind {token : Token} (hf : token.toLexeme.Formed) :
    (token.kind = .semicolon → token.text = [';']) ∧
      (token.kind = .openBrace → token.text = ['{']) ∧
      (token.kind = .closeBrace → token.text = ['}']) := by
  refine ⟨fun hk => ?_, fun hk => ?_, fun hk => ?_⟩ <;>
    simpa only [Lexeme.Formed, hk] using hf

section
variable {fs others prelude inner : List Token} {first semicolon token brace close : Token}

/-- A statement without a semicolon prints as its tokens. -/
theorem Node.print_loose {node : Node} (hf : Formed (fs ++ first :: others))
    (hn : Node.ofStatement? (Token.textOf fs) first others false = some node) :
    node.print = Token.textOf (fs ++ first :: others) := by
  rw [Node.print_ofStatement? hf.append.2.cons.1 hn, Token.textOf_append]
  exact List.append_nil _

/-- A statement prints as its tokens, the semicolon included. -/
theorem Node.print_statement {node : Node} (hf : Formed (fs ++ first :: (others ++ [semicolon])))
    (hk : semicolon.kind = .semicolon)
    (hn : Node.ofStatement? (Token.textOf fs) first others true = some node) :
    node.print = Token.textOf (fs ++ first :: (others ++ [semicolon])) := by
  have ht := (text_of_kind (hf semicolon (by simp))).1 hk
  simp [Node.print_ofStatement? hf.append.2.cons.1 hn, ht, printSemicolon]

/-- A comment prints as its tokens. -/
theorem Node.print_comment {inline : Bool} (hf : Formed (fs ++ [token]))
    (hk : token.kind = .comment inline) :
    (Node.comment (.ofToken (Token.textOf fs) token inline)).print =
      Token.textOf (fs ++ [token]) := by
  rw [Node.print, Comment.print_ofToken hk hf.append.2.cons.1]
  simp

/-- The head of a block and its brace print as their tokens. -/
theorem Head.print_opening (hf : Formed (fs ++ (prelude ++ [brace])))
    (hb : brace.kind = .openBrace) :
    (Head.ofPrelude (Token.textOf fs) prelude brace).print ++ ['{'] =
      Token.textOf (fs ++ (prelude ++ [brace])) := by
  have ht := (text_of_kind hf.append.2.append.2.cons.1).2.1 hb
  simp [Head.print_ofPrelude (Token.textOf fs) brace hf.append.2.append.1, ht]

/-- A block prints as its tokens, if what it holds does. -/
theorem Node.print_block {body : List Node} {after : Text}
    (hf : Formed (fs ++ (prelude ++ brace :: (inner ++ [close]))))
    (hb : brace.kind = .openBrace) (hc : close.kind = .closeBrace)
    (hi : Node.printAll body ++ after = Token.textOf inner) :
    (Node.block (.ofPrelude (Token.textOf fs) prelude brace) body after).print =
      Token.textOf (fs ++ (prelude ++ brace :: (inner ++ [close]))) := by
  have hbt := (text_of_kind (hf brace (by simp))).2.1 hb
  have hct := (text_of_kind (hf close (by simp))).2.2 hc
  simp [Node.print, Head.print_ofPrelude (Token.textOf fs) brace hf.append.2.append.1, hbt, hct,
    ← hi]

end

/-- **Items print as their tokens.**  Nothing of the tokens is lost in the nodes, and nothing is
added. -/
theorem Items.print {tokens : List Token} {nodes : List Node} {after : Text}
    (h : Items tokens nodes after) (hf : Formed tokens) :
    Node.printAll nodes ++ after = Token.textOf tokens := by
  induction h with
  | last => rfl
  | loose _ _ _ hn =>
      rw [← Node.print_loose hf hn, Node.printAll, Node.printAll, List.append_nil, List.append_nil]
  | statement _ _ _ _ hk hn _ ih =>
      rw [statement_append] at hf ⊢
      rw [Token.textOf_append, ← Node.print_statement hf.append.1 hk hn, ← ih hf.append.2,
        Node.printAll, List.append_assoc]
  | comment _ hk _ ih =>
      rw [List.append_cons] at hf ⊢
      rw [Token.textOf_append, ← Node.print_comment hf.append.1 hk, ← ih hf.append.2,
        Node.printAll, List.append_assoc]
  | block _ _ _ hb _ hc _ ihi ih =>
      rw [block_append] at hf ⊢
      have hi := ihi hf.append.1.append.2.append.2.cons.2.append.1
      rw [Token.textOf_append, ← Node.print_block hf.append.1 hb hc hi, ← ih hf.append.2,
        Node.printAll, List.append_assoc]

/-- A text is cut at its mark, and what begins with a mark has one. -/
theorem Sheet.splitMark_eq_iff {source text : Text} {bom : Bool} :
    Sheet.splitMark source = (bom, text) ↔
      source = (if bom then [byteOrderMark] else []) ++ text ∧
        (bom = false → text.head? ≠ some byteOrderMark) := by
  cases source with
  | nil => cases bom <;> cases text <;> simp [Sheet.splitMark]
  | cons c rest =>
      by_cases hc : c = byteOrderMark
      · rw [Sheet.splitMark, if_pos hc]
        cases bom with
        | false =>
            constructor
            · intro h
              cases h
            · intro h
              refine absurd ?_ (h.2 rfl)
              rw [← h.1.trans (List.nil_append text), hc]
              rfl
        | true => simp [hc]
      · rw [Sheet.splitMark, if_neg hc]
        cases bom with
        | false =>
            constructor
            · intro h
              cases h
              exact ⟨rfl, fun _ hh => hc (Option.some.inj hh)⟩
            · intro h
              rw [h.1]
              rfl
        | true => simp [hc]

/-- What is left of a text without its mark is what the nodes print as, and the last filler. -/
theorem Sheet.splitMark_of_parse {dialect : Dialect} {source : Text} {sheet : Sheet}
    (h : Sheet.parse dialect source = .ok sheet) :
    Sheet.splitMark source = (sheet.bom, Node.printAll sheet.nodes ++ sheet.after) := by
  obtain ⟨text, ls, hm, hr, hi⟩ := Sheet.parse_eq_ok_iff.1 h
  have hp := hi.print (formed_locate _ hr)
  rw [Token.textOf_eq, toLexeme_locate] at hp
  rw [hm, hp, hr.text_eq, List.append_nil]

/-- Behind the mark, the text is what the nodes print and the filler at the end. -/
theorem Sheet.text_of_parse {dialect : Dialect} {source text : Text} {bom : Bool} {sheet : Sheet}
    (h : Sheet.parse dialect source = .ok sheet) (hm : Sheet.splitMark source = (bom, text)) :
    text = Node.printAll sheet.nodes ++ sheet.after :=
  (Prod.mk.inj (hm.symm.trans (Sheet.splitMark_of_parse h))).2

theorem Sheet.print_of_splitMark {source : Text} {sheet : Sheet}
    (h : Sheet.splitMark source = (sheet.bom, Node.printAll sheet.nodes ++ sheet.after)) :
    sheet.print = source := by
  rw [Sheet.print, List.append_assoc, (Sheet.splitMark_eq_iff.1 h).1]

/-- **A sheet prints as the text it was read from**, character by character, whatever the dialect
and however the text was laid out. -/
theorem Sheet.print_of_parse {dialect : Dialect} {source : Text} {sheet : Sheet}
    (h : Sheet.parse dialect source = .ok sheet) : sheet.print = source :=
  Sheet.print_of_splitMark (Sheet.splitMark_of_parse h)

/-- A mark, a stray semicolon, a comment in a value, a spelling of `!important` and no last
semicolon: all of it is printed again. -/
theorem Sheet.print_of_parse_sample :
    ∃ sheet, Sheet.parse .scss "\ufeff; .a \x7b b : c/**/!IMPORTANT \x7d\n;".toList = .ok sheet ∧
      sheet.print = "\ufeff; .a \x7b b : c/**/!IMPORTANT \x7d\n;".toList := by
  generalize hs : "\ufeff; .a \x7b b : c/**/!IMPORTANT \x7d\n;".toList = source
  have ho : (Sheet.parse .scss source).isOk = true := by
    subst hs
    decide +kernel
  obtain ⟨sheet, h⟩ := exists_of_isOk ho
  exact ⟨sheet, h, Sheet.print_of_parse h⟩

end Restyle
