import Restyle.Proofs.Indexed.Scanner
import Restyle.Proofs.Sheet.Layout

/-!
# Statements by index

A statement can be told from tokens without their texts: by the index of its first mark and the index
of the mark that ends it.  Every text of it is sliced out of the source.  An index or a slice that is not
valid has no result, and then nothing has.

* `Covers tokens i j part`: the tokens hold `part` from index `i` to index `j`.  What each reader gives is
  told from there.
* `Covers.textRange_eq`: **the slice between two marks** is the text of the tokens between them.
* `Covers.declaration_eq`, `Covers.atHead_eq`, `Covers.ruleHead_eq`: **a statement by index** is the
  statement that its tokens are.
-/

namespace Restyle

namespace Indexed

/-! ### Readers -/

section
variable (source : Text) (marks : List Mark)

/-- The mark at the index.  Behind the last one there is nothing. -/
def markAt (i : Nat) : Mark := marks[i]?.getD ⟨.eof, ⟨⟨0, 0, 0⟩, 0⟩⟩

/-- The kind of the mark at the index. -/
def kindAt (i : Nat) : Kind := (markAt marks i).kind

/-- The first index from `i` up to `stop` at which the kind does not satisfy `p`. -/
def skip (p : Kind → Bool) (stop i : Nat) : Nat :=
  if i < stop ∧ p (kindAt marks i) = true then skip p stop (i + 1) else i
termination_by stop - i

/-- The index `stop` moved back over white space, but not past `start`. -/
def trimTrailing (start : Nat) : Nat → Nat
  | 0        => 0
  | stop + 1 =>
    if start < stop + 1 ∧ kindAt marks stop = .space then trimTrailing start stop else stop + 1

/-- The index of the mark that ends the statement which goes on at the index, in as many
parentheses. -/
def statementEnd (depth i : Nat) : Nat :=
  if i < marks.length then
    match kindAt marks i with
    | .eof | .openBrace | .closeBrace => i
    | .semicolon                      => if depth = 0 then i else statementEnd depth (i + 1)
    | .openParen                      => statementEnd (depth + 1) (i + 1)
    | .closeParen                     => statementEnd (depth - 1) (i + 1)
    | _                               => statementEnd depth (i + 1)
  else i
termination_by marks.length - i

/-- The source from the mark at `start` up to the mark at `stop`. -/
def textRange (start stop : Nat) : Option Text :=
  if stop ≤ start then some []
  else do
    let first ← marks[start]?
    let last ← marks[stop - 1]?
    source.slice? first.span.start.offset last.span.stop

/-- The source of the mark at the index. -/
def textAt (i : Nat) : Option Text := textRange source marks i (i + 1)

/-- The source from the mark at `i` up to the mark at `stop`, without the comments. -/
def uncommented (stop i : Nat) : Option Text :=
  if i < stop then
    match kindAt marks i with
    | .comment _ => uncommented stop (i + 1)
    | _          => do
      let text ← textAt source marks i
      let rest ← uncommented stop (i + 1)
      return text ++ rest
  else some []
termination_by stop - i

/-- A comment without its delimiters. -/
def commentText (inline : Bool) (raw : Text) : Option Text :=
  if inline then raw.slice? 2 raw.size
  else if 2 ≤ raw.size then raw.slice? 2 (raw.size - 2) else none

/-- The comment at the index. -/
def comment (before : Text) (inline : Bool) (i : Nat) : Option Comment := do
  let raw ← textAt source marks i
  let text ← commentText inline raw
  return ⟨before, text, inline, some (markAt marks i).span⟩

/-- A value and whether it was marked as important, by its last bytes. -/
def splitImportant (value : Text) : Option (Text × Bool) :=
  let cut := value.size - importantMark.size
  match value.cut? cut with
  | none       => some (value, false)
  | some parts =>
    if Text.sameLetters parts.rest importantMark then
      (value.slice? 0 cut).map fun plain => (Text.trimEnd plain, true)
    else some (value, false)

/-- The index of the first colon from `start` up to `stop`. -/
def colonAt (start stop : Nat) : Nat := skip marks (· != .colon) stop start

/-- The index at which the property before the colon ends. -/
def propEnd (start stop : Nat) : Nat := trimTrailing marks start (colonAt marks start stop)

/-- The index at which the value after the colon starts. -/
def valueStart (start stop : Nat) : Nat := skip marks (· == .space) stop (colonAt marks start stop + 1)

/-- There is no colon, nothing before it, or white space in what is before it. -/
def isUnknown (start stop : Nat) : Bool :=
  colonAt marks start stop == stop || propEnd marks start stop == start ||
    decide (skip marks (· != .space) (propEnd marks start stop) start < propEnd marks start stop)

/-- The declaration from the mark at `start` up to the mark at `stop`, if it is one. -/
def declared (before : Text) (start stop : Nat) : Option Declaration := do
  let first ← marks[start]?
  let prop ← textRange source marks start (propEnd marks start stop)
  let between ← textRange source marks (propEnd marks start stop) (valueStart marks start stop)
  let raw ← textRange source marks (valueStart marks start stop) stop
  let cleaned ← uncommented source marks stop (valueStart marks start stop)
  let (value, important) ← splitImportant (Text.trim cleaned)
  return {
    before := before
    prop := prop
    between := between
    value := value
    important := important
    spelling := some ⟨value, raw⟩
    semicolon := kindAt marks stop == .semicolon
    source := some first.span }

/-- The statement from the mark at `start` up to the mark at `stop` as a declaration. -/
def declaration (before : Text) (start stop : Nat) : Option (Except ParseError Declaration) := do
  let first ← marks[start]?
  if isUnknown marks start stop then
    return .error ⟨.unknownWord, first.span.start⟩
  let decl ← declared source marks before start stop
  return .ok decl

/-- The at-rule at the index, up to the mark that ends it, and the index of that one. -/
def atHead (before name : Text) (i : Nat) : Option (AtHead × Nat) := do
  let start := skip marks (· == .space) marks.length (i + 1)
  let stop := statementEnd marks 0 start
  let paramsEnd := trimTrailing marks start stop
  let afterName ← textRange source marks (i + 1) start
  let params ← textRange source marks start paramsEnd
  let between ← textRange source marks paramsEnd stop
  return (⟨before, name, afterName, params, between, kindAt marks stop == .semicolon,
    some (markAt marks i).span⟩, stop)

/-- The head of the rule from the mark at `start` up to the brace at `stop`. -/
def ruleHead (before : Text) (start stop : Nat) : Option RuleHead := do
  let first ← marks[start]?
  let selectorEnd := trimTrailing marks start stop
  let selector ← textRange source marks start selectorEnd
  let between ← textRange source marks selectorEnd stop
  return ⟨before, selector, between, some first.span⟩

end

end Indexed

/-! ### Parts of the tokens -/

/-- The tokens hold `part` from index `i` to index `j`. -/
def Covers (tokens : List Token) (i j : Nat) (part : List Token) : Prop :=
  ∃ before after, tokens = before ++ part ++ after ∧ before.length = i ∧ i + part.length = j

theorem Abut.stop_eq {n m : Nat} {tokens : List Token} {token : Token}
    (h : Abut n (tokens ++ [token]) m) : token.stop = m := by
  cases h.append_inv.2 with
  | cons _ t => cases t; rfl

/-- A search stops early just when there is something to find. -/
theorem length_takeWhile_lt_iff {α : Type} {p : α → Bool} {xs : List α} :
    (xs.takeWhile (!p ·)).length < xs.length ↔ xs.any p = true := by
  induction xs with
  | nil => simp
  | cons x xs ih => cases hx : p x <;> simp [hx, ih]

namespace Indexed

/-- A comment is long enough for its delimiters. -/
theorem commentText_eq {token : Token} {inline : Bool} (hf : token.toLexeme.Formed)
    (hk : token.kind = .comment inline) :
    commentText inline token.text =
      some (if inline then token.text.drop 2 else (token.text.drop 2).dropLast.dropLast) := by
  simp only [Lexeme.Formed, hk] at hf
  cases inline with
  | true =>
      obtain ⟨inner, hi⟩ := hf
      rw [commentText, if_pos rfl, if_pos rfl, hi, Text.slice?_eq_some_iff]
      exact ⟨['/', '/'], [], by simp, rfl, Nat.add_assoc 1 1 _⟩
  | false =>
      obtain ⟨inner, hi⟩ := hf
      have hsize : token.text.size = 2 + Text.size inner + 2 := by
        rw [hi, Text.size_append, Text.size_cons, Text.size_cons, ← Nat.add_assoc]
        rfl
      have hinner : (token.text.drop 2).dropLast.dropLast = inner := by simp [hi]
      rw [commentText, if_neg Bool.false_ne_true, if_pos (by omega), if_neg Bool.false_ne_true,
        hinner, hsize, Nat.add_sub_cancel, Text.slice?_eq_some_iff]
      exact ⟨['/', '*'], ['*', '/'], by simp [hi], rfl, rfl⟩

/-- The mark of importance is cut off at its first byte just when it is cut off at its first letter. -/
theorem splitImportant_eq (value : Text) :
    splitImportant value = some (Restyle.splitImportant value) := by
  simp only [splitImportant, Restyle.splitImportant]
  by_cases hs :
      Text.sameLetters (value.drop (value.length - importantMark.length)) importantMark = true
  · have hc := Text.cut?_of_sameLetters_drop hs
    obtain ⟨hw, hn⟩ := Text.cut?_eq_some_iff.1 hc
    have hslice : value.slice? 0 (value.size - importantMark.size) =
        some (value.take (value.length - importantMark.length)) := by
      rw [Text.slice?_eq_some_iff]
      exact ⟨[], _, hw, rfl, by rw [← hn, Nat.zero_add]⟩
    simp only [hc, hs, hslice, if_true, Option.map_some]
  · rw [if_neg hs]
    split
    · rfl
    · next cut hc => rw [if_neg fun hr => hs (Text.sameLetters_drop_of_cut? hc hr)]

end Indexed

/-- White space in front of a run does not change where it ends. -/
theorem Unbroken.dropWhile_isSpace {depth : Nat} {run : List Token} (h : Unbroken depth run) :
    Unbroken depth (run.dropWhile Token.isSpace) ∧
      depthThrough depth (run.dropWhile Token.isSpace) = depthThrough depth run := by
  induction run generalizing depth with
  | nil => exact ⟨trivial, rfl⟩
  | cons token rest ih =>
      rw [List.dropWhile_cons]
      split
      · next hs =>
        have hdepth : token.depthAfter depth = depth := by
          rw [Token.depthAfter, eq_of_beq hs]
        obtain ⟨hu, hd⟩ := ih h.2
        rw [hdepth] at hu hd
        refine ⟨hu, hd.trans ?_⟩
        rw [depthThrough, depthThrough, List.foldl_cons, hdepth]
      · exact ⟨h, rfl⟩

namespace Covers

variable {source : Text} {tokens part p q : List Token} {token : Token} {i j : Nat}

/-- The indices of a part are those of its first half, and more. -/
theorem left (h : Covers tokens i j (p ++ q)) : Covers tokens i (i + p.length) p := by
  obtain ⟨before, after, rfl, hi, -⟩ := h
  exact ⟨before, q ++ after, by simp, hi, rfl⟩

theorem right (h : Covers tokens i j (p ++ q)) : Covers tokens (i + p.length) j q := by
  obtain ⟨before, after, rfl, rfl, rfl⟩ := h
  exact ⟨before ++ p, after, by simp, by simp, by simp; omega⟩

theorem tail (h : Covers tokens i j (token :: part)) : Covers tokens (i + 1) j part :=
  @right tokens [token] part i j h

theorem stop_eq (h : Covers tokens i j part) : j = i + part.length := by
  obtain ⟨-, -, -, -, h⟩ := h
  exact h.symm

/-- The mark at the first index of a part is that of its first token. -/
theorem getElem? (h : Covers tokens i j (token :: part)) :
    (tokens.map Token.mark)[i]? = some token.mark := by
  obtain ⟨before, after, rfl, rfl, -⟩ := h
  simp

theorem lt_length (h : Covers tokens i j (token :: part)) : i < (tokens.map Token.mark).length := by
  obtain ⟨before, after, rfl, rfl, -⟩ := h
  simp

theorem markAt (h : Covers tokens i j (token :: part)) :
    Indexed.markAt (tokens.map Token.mark) i = token.mark := by
  rw [Indexed.markAt, h.getElem?, Option.getD_some]

theorem kindAt (h : Covers tokens i j (token :: part)) :
    Indexed.kindAt (tokens.map Token.mark) i = token.kind := by
  rw [Indexed.kindAt, h.markAt, Token.mark]

/-! ### Each reader over a part of the tokens -/

/-- Skipping goes over the tokens that satisfy `f`. -/
theorem skip_eq (f : Kind → Bool) (h : Covers tokens i j part) :
    Indexed.skip (tokens.map Token.mark) f j i =
      i + (part.takeWhile fun token => f token.kind).length := by
  induction part generalizing i with
  | nil =>
      obtain rfl := h.stop_eq
      rw [Indexed.skip, if_neg (by simp)]
      rfl
  | cons token part ih =>
      have hlt : i < j := by rw [h.stop_eq, List.length_cons]; omega
      rw [Indexed.skip, h.kindAt]
      by_cases hf : f token.kind = true
      · rw [if_pos ⟨hlt, hf⟩, ih h.tail, List.takeWhile_cons, if_pos hf, List.length_cons]
        omega
      · rw [if_neg (by simp [hf]), List.takeWhile_cons, if_neg hf]
        rfl

/-- Moving back over white space is dropping it at the end of the part. -/
theorem trimTrailing_eq (h : Covers tokens i j part) :
    Indexed.trimTrailing (tokens.map Token.mark) i j =
      i + (dropTrailing Token.isSpace part).length := by
  -- on the index at which the part ends, since white space is dropped from there
  induction j generalizing part with
  | zero =>
      have hj := h.stop_eq
      obtain rfl : part = [] := List.eq_nil_of_length_eq_zero (by omega)
      exact hj
  | succ j ih =>
      have hj := h.stop_eq
      rw [Indexed.trimTrailing]
      rcases List.eq_nil_or_concat part with rfl | ⟨front, last, rfl⟩
      · rw [if_neg (by simp at hj; omega)]
        exact hj
      · rw [List.concat_eq_append] at h hj ⊢
        obtain rfl : j = i + front.length := by simp at hj; omega
        rw [h.right.kindAt, dropTrailing_eq_rdropWhile, List.rdropWhile_concat]
        by_cases hk : last.kind = .space
        · rw [if_pos ⟨by omega, hk⟩, ih h.left, if_pos (by simp [Token.isSpace, hk])]
          rfl
        · rw [if_neg (by simp [hk]), if_neg (by simp [Token.isSpace, hk])]
          exact hj

/-- A statement ends at a token or goes on with the one after it. -/
theorem statementEnd_cons (depth : Nat) (h : Covers tokens i j (token :: part)) :
    Indexed.statementEnd (tokens.map Token.mark) depth i =
      if token.endsRun depth then i
      else Indexed.statementEnd (tokens.map Token.mark) (token.depthAfter depth) (i + 1) := by
  rw [Indexed.statementEnd, if_pos h.lt_length, h.kindAt]
  cases hk : token.kind <;> simp [Token.endsRun, Token.depthAfter, hk]

/-- A statement ends at the first token that ends it. -/
theorem statementEnd_eq {depth : Nat} {stop : Token} {later : List Token}
    (h : Covers tokens i j (part ++ stop :: later)) (hr : Unbroken depth part)
    (hs : stop.endsRun (depthThrough depth part) = true) :
    Indexed.statementEnd (tokens.map Token.mark) depth i = i + part.length := by
  induction part generalizing i depth with
  | nil => rw [h.statementEnd_cons, if_pos (show stop.endsRun depth = true from hs)]; rfl
  | cons token part ih =>
      rw [h.statementEnd_cons, if_neg (by simp [hr.1]), ih h.tail hr.2 hs, List.length_cons]
      omega

/-- The source holds the tokens of a part from where the first one starts to where the last one
ends. -/
theorem slice (ht : Tiling source tokens) (h : Covers tokens i j (token :: part)) :
    ∃ last, (tokens.map Token.mark)[j - 1]? = some last ∧
      source.Slice token.start.offset last.span.stop (Token.textOf (token :: part)) := by
  obtain ⟨habut, rfl⟩ := ht
  obtain ⟨front, last, hlast⟩ : ∃ front last, token :: part = front ++ [last] := by
    rcases List.eq_nil_or_concat (token :: part) with he | ⟨front, last, he⟩
    · cases he
    · exact ⟨front, last, by rw [he, List.concat_eq_append]⟩
  have hj := h.stop_eq
  refine ⟨last.mark, ?_, ?_⟩
  · rw [hlast] at h hj
    rw [show j - 1 = i + front.length by simp at hj; omega]
    exact h.right.getElem?
  · obtain ⟨before, after, rfl, -, -⟩ := h
    have hfirst := habut.append_inv.1
    have hstart : token.start.offset = (Token.textOf before).size := by
      rw [hfirst.start_eq, Nat.zero_add]
    have hstop : last.stop = (Token.textOf before).size + (Token.textOf (token :: part)).size := by
      rw [hlast, ← List.append_assoc] at hfirst
      rw [hfirst.stop_eq, List.append_assoc, ← hlast, Token.textOf_append, Text.size_append,
        Nat.zero_add]
    refine ⟨Token.textOf before, Token.textOf after, ?_, hstart.symm, ?_⟩
    · rw [Token.textOf_append, Token.textOf_append]
    · rw [hstart]
      exact hstop.symm

/-- **The slice between two marks** is the text of the tokens between them. -/
theorem textRange_eq (ht : Tiling source tokens) (h : Covers tokens i j part) :
    Indexed.textRange source (tokens.map Token.mark) i j = some (Token.textOf part) := by
  have hj := h.stop_eq
  rw [Indexed.textRange]
  cases part with
  | nil => rw [if_pos (by rw [hj]; exact Nat.le_refl i)]; rfl
  | cons first rest =>
      obtain ⟨last, hl, hs⟩ := h.slice ht
      rw [if_neg (by rw [List.length_cons] at hj; omega), h.getElem?, hl]
      exact Text.slice?_eq_some_iff.2 hs

/-- **The source of a mark** is the text of its token. -/
theorem textAt_eq (ht : Tiling source tokens) (h : Covers tokens i j (token :: part)) :
    Indexed.textAt source (tokens.map Token.mark) i = some token.text := by
  have hone : Covers tokens i (i + 1) [token] := @left tokens [token] part i j h
  rw [Indexed.textAt, hone.textRange_eq ht, Token.textOf_cons, Token.textOf_nil, List.append_nil]

/-- The source without comments is the text of the other tokens. -/
theorem uncommented_eq (ht : Tiling source tokens) (h : Covers tokens i j part) :
    Indexed.uncommented source (tokens.map Token.mark) j i =
      some (Token.textOf (part.filter (!·.isComment))) := by
  induction part generalizing i with
  | nil =>
      obtain rfl := h.stop_eq
      rw [Indexed.uncommented, if_neg (by simp)]
      rfl
  | cons token part ih =>
      have hlt : i < j := by rw [h.stop_eq, List.length_cons]; omega
      rw [Indexed.uncommented, if_pos hlt, h.kindAt, h.textAt_eq ht, ih h.tail]
      cases hk : token.kind <;> simp [Token.isComment, hk]

/-! ### Comments, heads and declarations -/

/-- The comment at an index is the one that the token is. -/
theorem comment_eq {before : Text} {inline : Bool} (ht : Tiling source tokens)
    (h : Covers tokens i j (token :: part)) (hf : token.toLexeme.Formed)
    (hk : token.kind = .comment inline) :
    Indexed.comment source (tokens.map Token.mark) before inline i =
      some (.ofToken before token inline) := by
  rw [Indexed.comment, h.textAt_eq ht, Option.bind_eq_bind, Option.bind_some,
    Indexed.commentText_eq hf hk, h.markAt]
  rfl

/-- A part without the white space at its end, and that white space. -/
theorem trimmed (ht : Tiling source tokens) (h : Covers tokens i j part) :
    Indexed.textRange source (tokens.map Token.mark) i
        (Indexed.trimTrailing (tokens.map Token.mark) i j) =
        some (Token.textOf (dropTrailing Token.isSpace part)) ∧
      Indexed.textRange source (tokens.map Token.mark)
        (Indexed.trimTrailing (tokens.map Token.mark) i j) j =
        some (Token.textOf (takeTrailing Token.isSpace part)) := by
  have hcut : dropTrailing Token.isSpace part ++ takeTrailing Token.isSpace part = part :=
    List.rdropWhile_append_rtakeWhile
  rw [h.trimTrailing_eq]
  rw [← hcut] at h
  exact ⟨h.left.textRange_eq ht, h.right.textRange_eq ht⟩

theorem ruleHead_eq {before : Text} {prelude later : List Token} {brace : Token}
    (ht : Tiling source tokens) (h : Covers tokens i j (prelude ++ brace :: later)) :
    Indexed.ruleHead source (tokens.map Token.mark) before i (i + prelude.length) =
      some (.ofPrelude before prelude brace) := by
  have hfirst : (tokens.map Token.mark)[i]? = some (prelude.headD brace).mark := by
    cases prelude with
    | nil => exact h.getElem?
    | cons first rest => exact h.getElem?
  obtain ⟨hselector, hbetween⟩ := h.left.trimmed ht
  simp only [Indexed.ruleHead, hfirst, hselector, hbetween, Option.bind_eq_bind, Option.bind_some]
  rfl

/-- The spaces behind an at-word are those of its run: what ends the run is no space. -/
theorem skip_spaces_eq {stop : Token} {later : List Token} {depth : Nat}
    (h : Covers tokens i tokens.length (part ++ stop :: later)) (hs : stop.endsRun depth = true) :
    Indexed.skip (tokens.map Token.mark) (· == .space) (tokens.map Token.mark).length i =
      i + (part.takeWhile Token.isSpace).length := by
  have hstop : stop.isSpace = false := by
    rw [Token.isSpace]
    cases hk : stop.kind <;> simp [Token.endsRun, hk] at hs ⊢
  rw [List.length_map, h.skip_eq, List.takeWhile_append, List.takeWhile_cons]
  split
  · next hall =>
    rw [if_neg (by rw [← Token.isSpace, hstop]; exact Bool.false_ne_true), List.append_nil]
    exact congrArg (i + ·) hall.symm
  · rfl

theorem atHead_eq {before name : Text} {others later : List Token} {stop : Token}
    (ht : Tiling source tokens)
    (h : Covers tokens i tokens.length (token :: others ++ stop :: later))
    (hk : token.kind = .atWord name) (hr : Unbroken 0 (token :: others))
    (hs : stop.endsRun (depthThrough 0 (token :: others)) = true) :
    Indexed.atHead source (tokens.map Token.mark) before name i =
      some (.ofRun before name token others (stop.kind == .semicolon),
        i + (token :: others).length) := by
  have hsplit : Covers tokens (i + 1) tokens.length (others ++ stop :: later) := h.tail
  rw [← List.takeWhile_append_dropWhile (p := Token.isSpace) (l := others), List.append_assoc]
    at hsplit
  -- neither the at-word nor the spaces behind it are parentheses
  have hdepth : token.depthAfter 0 = 0 := by simp [Token.depthAfter, hk]
  have hr' : Unbroken 0 others := hdepth ▸ hr.2
  have hs' : stop.endsRun (depthThrough 0 others) = true := by
    rw [← hs, depthThrough, depthThrough, List.foldl_cons, hdepth]
  rw [← hr'.dropWhile_isSpace.2] at hs'
  have hstart := h.tail.skip_spaces_eq hs
  have hstop := hsplit.right.statementEnd_eq hr'.dropWhile_isSpace.1 hs'
  have hend : i + 1 + (others.takeWhile Token.isSpace).length +
      (others.dropWhile Token.isSpace).length = i + (token :: others).length := by
    rw [Nat.add_assoc, ← List.length_append, List.takeWhile_append_dropWhile, List.length_cons]
    omega
  obtain ⟨hparams, hbetween⟩ := hsplit.right.left.trimmed ht
  simp only [Indexed.atHead, hstart, hstop, hsplit.left.textRange_eq ht, hparams, hbetween,
    hsplit.right.right.kindAt, h.markAt, Option.bind_eq_bind, Option.bind_some]
  rw [hend]
  rfl

/-- The tests by index fail just when the run is no declaration. -/
theorem isUnknown_eq (before : Text) (semicolon : Bool) (h : Covers tokens i j (token :: part)) :
    Indexed.isUnknown (tokens.map Token.mark) i j =
      (Declaration.ofRun? before token part semicolon).isNone := by
  have hcolon : Indexed.colonAt (tokens.map Token.mark) i j =
      i + ((token :: part).takeWhile (·.kind != .colon)).length := h.skip_eq _
  have hj := h.stop_eq
  have hcut := List.takeWhile_append_dropWhile (p := (·.kind != .colon)) (l := token :: part)
  rw [Indexed.isUnknown, Indexed.propEnd, hcolon, Declaration.ofRun?]
  dsimp only
  generalize (token :: part).takeWhile (·.kind != .colon) = left at hcut ⊢
  cases hd : (token :: part).dropWhile (·.kind != .colon) with
  | nil =>
      rw [hd, List.append_nil] at hcut
      rw [hcut, ← hj]
      simp
  | cons colon right =>
      rw [hd] at hcut
      rw [← hcut] at h hj
      have hleft := h.left
      have htrim : dropTrailing Token.isSpace left ++ takeTrailing Token.isSpace left = left :=
        List.rdropWhile_append_rtakeWhile
      rw [hleft.trimTrailing_eq]
      rw [← htrim] at hleft
      have hspaced := hleft.left.skip_eq (· != .space)
      generalize dropTrailing Token.isSpace left = prop at hleft hspaced ⊢
      -- there is a colon, so only what is before it counts
      have hne : (i + left.length == j) = false := by rw [hj]; simp
      have hempty : (i + prop.length == i) = prop.isEmpty := by cases prop <;> simp
      have hany : decide (i + (prop.takeWhile (·.kind != .space)).length < i + prop.length) =
          prop.any Token.isSpace := by
        rw [Bool.eq_iff_iff, decide_eq_true_iff, Nat.add_lt_add_iff_left]
        exact length_takeWhile_lt_iff
      rw [hspaced, hne, hempty, hany, Bool.false_or]
      dsimp only
      cases prop.isEmpty || prop.any Token.isSpace <;> rfl

/-- In a declaration, the property ends where its layout has it. -/
theorem propEnd_eq (l : Layout) (h : Covers tokens i j l.tokens) :
    Indexed.propEnd (tokens.map Token.mark) i j = i + l.prop.length := by
  rw [Indexed.propEnd, Indexed.colonAt, h.skip_eq, l.takeWhile_tokens, h.left.trimTrailing_eq,
    dropTrailing_append l.prop_isSpace l.gap_isSpace]

theorem valueStart_eq (l : Layout) (h : Covers tokens i j l.tokens) :
    Indexed.valueStart (tokens.map Token.mark) i j =
      i + l.prop.length + (l.gap ++ l.colon :: l.lead).length := by
  have hlead : Indexed.skip (tokens.map Token.mark) (· == .space) j
      (i + (l.prop ++ l.gap).length + 1) =
      i + (l.prop ++ l.gap).length + 1 + l.lead.length := by
    rw [h.right.tail.skip_eq]
    exact congrArg (fun lead => i + (l.prop ++ l.gap).length + 1 + lead.length) l.takeWhile_right
  rw [Indexed.valueStart, Indexed.colonAt, h.skip_eq, l.takeWhile_tokens, hlead]
  simp
  omega

/-- A declaration that is laid out in tokens is read by index. -/
theorem declared_eq {before : Text} {later : List Token} {stop : Token} (ht : Tiling source tokens)
    (l : Layout) (h : Covers tokens i j (l.tokens ++ stop :: later)) :
    Indexed.declared source (tokens.map Token.mark) before i (i + l.tokens.length) =
      some (l.declaration before (stop.kind == .semicolon)) := by
  have hparts : Covers tokens i (i + l.tokens.length)
      (l.prop ++ ((l.gap ++ l.colon :: l.lead) ++ l.value)) := by
    have hl := h.left
    rw [Layout.tokens] at hl ⊢
    simpa using hl
  have hfirst : (tokens.map Token.mark)[i]? = some (l.prop.head l.prop_ne_nil).mark := by
    have hprop := hparts.left
    rw [← List.cons_head_tail l.prop_ne_nil] at hprop
    exact hprop.getElem?
  have hvalue := hparts.right.right
  simp only [Indexed.declared, hfirst, h.left.propEnd_eq, h.left.valueStart_eq,
    hparts.left.textRange_eq ht, hparts.right.left.textRange_eq ht, hvalue.textRange_eq ht,
    hvalue.uncommented_eq ht, h.right.kindAt, Indexed.splitImportant_eq, Option.bind_eq_bind,
    Option.bind_some]
  rfl

/-- A statement is a declaration, or its first word is unknown. -/
theorem declaration_eq {before : Text} {others later : List Token} {stop : Token}
    (ht : Tiling source tokens) (h : Covers tokens i j (token :: others ++ stop :: later)) :
    Indexed.declaration source (tokens.map Token.mark) before i (i + (token :: others).length) =
      some (match Declaration.ofRun? before token others (stop.kind == .semicolon) with
        | none      => .error ⟨.unknownWord, token.start⟩
        | some decl => .ok decl) := by
  rw [Indexed.declaration, h.left.getElem?, Option.bind_eq_bind, Option.bind_some,
    h.left.isUnknown_eq before (stop.kind == .semicolon)]
  cases hd : Declaration.ofRun? before token others (stop.kind == .semicolon) with
  | none => rfl
  | some decl =>
      obtain ⟨l, hl, rfl⟩ := Declaration.ofRun?_eq_some_iff.1 hd
      rw [← hl] at h ⊢
      rw [h.declared_eq ht]
      rfl

end Covers

end Restyle
