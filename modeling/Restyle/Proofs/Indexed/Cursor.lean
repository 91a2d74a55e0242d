import Restyle.Proofs.Indexed.Slice

/-!
# A cursor in a text

A text can be read without taking it apart: a cursor moves over the characters by their index, and keeps
the byte offset and the line along.  What it went over is not kept, so whoever wants a text has to slice
it out.  A slice or an index that is out of range has no result.

* `Cursor.between`: the cursor between two parts of a text.  What each reader does is told from there.
* `Cursor.quoted_between`, `Cursor.interpolated_between`, `Cursor.word_between`: a string, an
  interpolation and a word are gone over as they are read off the front of a text.
* `Cursor.urlArgument_between`: **the argument of `url`**, with the slice of its name and the characters
  behind its parenthesis in range.
-/

namespace Restyle

/-- A place in a text by the number of characters before it, with its offset, line and column. -/
structure Cursor where
  pos : Nat
  place : Position
deriving DecidableEq, Repr

/-- The characters from the index `i` on, unless it is behind the end. -/
def Text.from? (text : Text) (i : Nat) : Option Text :=
  if i ≤ text.length then some (text.drop i) else none

namespace Cursor

/-! ### Readers -/

section
variable (chars : Text)

/-- The character at the cursor, or a NUL at the end. -/
def peek (c : Cursor) : Char := chars[c.pos]?.getD '\x00'

/-- The character after the one at the cursor, or a NUL if there is none. -/
def peekNext (c : Cursor) : Char := chars[c.pos + 1]?.getD '\x00'

/-- The cursor is behind the last character. -/
def atEnd (c : Cursor) : Bool := decide (chars.length ≤ c.pos)

/-- The cursor after one more character.  At the end it stays. -/
def advance (c : Cursor) : Cursor :=
  match chars[c.pos]? with
  | none   => c
  | some d => ⟨c.pos + 1, c.place.advance d chars[c.pos + 1]?⟩

/-- A cursor never moves back. -/
theorem pos_le_advance (c : Cursor) : c.pos ≤ (c.advance chars).pos := by
  rw [advance]
  split
  · exact Nat.le_refl _
  · exact Nat.le_succ _

theorem pos_advance {c : Cursor} (h : c.pos < chars.length) :
    (c.advance chars).pos = c.pos + 1 := by
  rw [advance, List.getElem?_eq_getElem h]

/-- The characters from the cursor on for which `more` holds of the character and the next one, and
the cursor behind them. -/
def gather (more : Char → Char → Bool) (c : Cursor) : Text × Cursor :=
  if _h : c.pos < chars.length then
    if more (c.peek chars) (c.peekNext chars) then
      let (taken, stop) := gather more (c.advance chars)
      (c.peek chars :: taken, stop)
    else ([], c)
  else ([], c)
termination_by chars.length - c.pos
decreasing_by
  have := pos_advance chars _h
  omega

/-- The cursor at the next quote that is not escaped, or at the end. -/
def quoted (quote : Char) (c : Cursor) : Cursor :=
  if _h : c.pos < chars.length then
    if c.peek chars = quote then c
    else if c.peek chars = '\\' then quoted quote ((c.advance chars).advance chars)
    else quoted quote (c.advance chars)
  else c
termination_by chars.length - c.pos
decreasing_by
  · have := pos_advance chars _h
    have := pos_le_advance chars (c.advance chars)
    omega
  · have := pos_advance chars _h
    omega

theorem pos_le_quoted (quote : Char) (c : Cursor) : c.pos ≤ (c.quoted chars quote).pos := by
  fun_induction quoted chars quote c with
  | case1 | case4 => exact Nat.le_refl _
  | case2 c h _ _ ih =>
      have := pos_le_advance chars c
      have := pos_le_advance chars (c.advance chars)
      omega
  | case3 c h _ _ ih =>
      have := pos_le_advance chars c
      omega

/-- The cursor behind the brace that closes the last of `depth` open ones, or at the end, and the
number of braces that are left open. -/
def interpolated (depth : Nat) (c : Cursor) : Nat × Cursor :=
  if _h : c.pos < chars.length ∧ 0 < depth then
    if c.peek chars = '{' then interpolated (depth + 1) (c.advance chars)
    else if c.peek chars = '}' then interpolated (depth - 1) (c.advance chars)
    else if isQuote (c.peek chars) then
      interpolated depth (((c.advance chars).quoted chars (c.peek chars)).advance chars)
    else interpolated depth (c.advance chars)
  else (depth, c)
termination_by chars.length - c.pos
decreasing_by
  · have := pos_advance chars _h.1
    omega
  · have := pos_advance chars _h.1
    omega
  · have := pos_advance chars _h.1
    have := pos_le_quoted chars (c.peek chars) (c.advance chars)
    have := pos_le_advance chars ((c.advance chars).quoted chars (c.peek chars))
    omega
  · have := pos_advance chars _h.1
    omega

theorem pos_le_interpolated (depth : Nat) (c : Cursor) :
    c.pos ≤ (c.interpolated chars depth).2.pos := by
  fun_induction interpolated chars depth c with
  | case1 depth c h _ ih | case2 depth c h _ _ ih =>
      have := pos_le_advance chars c
      omega
  | case3 depth c h _ _ _ ih =>
      have := pos_le_advance chars c
      have := pos_le_quoted chars (c.peek chars) (c.advance chars)
      have := pos_le_advance chars ((c.advance chars).quoted chars (c.peek chars))
      omega
  | case4 depth c h _ _ _ ih =>
      have := pos_le_advance chars c
      omega
  | case5 => exact Nat.le_refl _

/-- The cursor behind a word, without the argument of `url`. -/
def word (dialect : Dialect) (c : Cursor) : Except LexError Cursor :=
  if _h : c.pos < chars.length then
    if dialect = .scss ∧ c.peek chars = '#' ∧ c.peekNext chars = '{' then
      let inner := ((c.advance chars).advance chars).interpolated chars 1
      if 0 < inner.1 then .error ⟨.interpolation, c.place⟩ else word dialect inner.2
    else if endsWord dialect [c.peek chars, c.peekNext chars] then .ok c
    else word dialect (c.advance chars)
  else .ok c
termination_by chars.length - c.pos
decreasing_by
  · have := pos_advance chars _h
    have := pos_le_advance chars (c.advance chars)
    have := pos_le_interpolated chars 1 ((c.advance chars).advance chars)
    omega
  · have := pos_advance chars _h
    omega

/-- The cursor behind an argument of `url`, where the cursor stands at its parenthesis.  The cursor
stays if the argument is quoted. -/
def argument (mark : Position) (c : Cursor) : Option (Except LexError Cursor) :=
  (chars.from? (c.pos + 1)).map fun inner =>
    if startsQuoted inner then .ok c
    else
      let stop := (c.gather chars fun d _ => d != ')').2
      if stop.atEnd chars then .error ⟨.url, mark⟩ else .ok (stop.advance chars)

/-- The cursor behind the argument of a word from `mark` on, if the word is `url`. -/
def urlArgument (mark : Position) (c : Cursor) : Option (Except LexError Cursor) :=
  if c.peek chars = '(' then
    (chars.slice? mark.offset c.place.offset).bind fun name =>
      if isUrl name then c.argument chars mark else some (.ok c)
  else some (.ok c)

end

/-! ### Between two parts of a text -/

/-- The cursor between two parts of a text. -/
def between (before rest : Text) : Cursor := ⟨before.length, Position.start.past before rest.head?⟩

/-- The character at a cursor between two parts is the first one of the second part. -/
theorem peek_between (before rest : Text) :
    (between before rest).peek (before ++ rest) = rest.head?.getD '\x00' := by
  rw [peek, between, List.getElem?_append_right (Nat.le_refl _), Nat.sub_self]
  cases rest <;> rfl

theorem peekNext_between (before rest : Text) :
    (between before rest).peekNext (before ++ rest) = rest.tail.head?.getD '\x00' := by
  rw [peekNext, between, List.getElem?_append_right (Nat.le_add_right _ 1), Nat.add_sub_cancel_left]
  cases rest with
  | nil => rfl
  | cons c rest => cases rest <;> rfl

theorem peek_cons (before : Text) (c : Char) (rest : Text) :
    (between before (c :: rest)).peek (before ++ c :: rest) = c := peek_between before (c :: rest)

theorem peekNext_cons (before : Text) (c : Char) (rest : Text) :
    (between before (c :: rest)).peekNext (before ++ c :: rest) = rest.head?.getD '\x00' :=
  peekNext_between before (c :: rest)

theorem pos_between_lt {before : Text} {c : Char} {rest : Text} :
    (between before (c :: rest)).pos < (before ++ c :: rest).length := by
  simp [between]

theorem atEnd_between (before rest : Text) :
    (between before rest).atEnd (before ++ rest) = rest.isEmpty := by
  cases rest <;> simp [atEnd, between]

/-- The cursor goes over one character. -/
theorem advance_between (before : Text) (c : Char) (rest : Text) :
    (between before (c :: rest)).advance (before ++ c :: rest) = between (before ++ [c]) rest := by
  have hnext : (before ++ c :: rest)[before.length + 1]? = rest.head? := by
    rw [List.getElem?_append_right (Nat.le_add_right _ 1), Nat.add_sub_cancel_left]
    cases rest <;> rfl
  rw [advance, between, List.getElem?_append_right (Nat.le_refl _), Nat.sub_self]
  simp only [List.getElem?_cons_zero, hnext]
  rw [between, Position.past_append, List.length_append]
  rfl

theorem advance_end (before : Text) : (between before []).advance before = between before [] := by
  rw [advance, between, List.getElem?_eq_none (Nat.le_refl _)]

/-- The error for a construct that opens at the cursor. -/
theorem toError_between (construct : Unclosed) (before rest : Text) :
    Failure.toError (before ++ rest) ⟨construct, rest⟩ =
      ⟨construct, (between before rest).place⟩ := by
  simp [Failure.toError, between]

end Cursor

/-- The text up to the first character for which `more` does not hold of it and the next one. -/
def Text.spanNext (more : Char → Char → Bool) : Text → Cut
  | []        => ⟨[], []⟩
  | c :: rest =>
    if more c (rest.head?.getD '\x00') then (Text.spanNext more rest).grow [c] else ⟨[], c :: rest⟩

theorem Text.whole_spanNext (more : Char → Char → Bool) (text : Text) :
    (text.spanNext more).whole = text := by
  fun_induction Text.spanNext more text with
  | case1 => rfl
  | case2 c rest _ ih => rw [Cut.whole_grow, ih]; rfl
  | case3 c rest => rfl

namespace Cursor

/-- **What a cursor gathers** is what a list of the same characters gives. -/
theorem gather_between (more : Char → Char → Bool) (before rest : Text) :
    (between before rest).gather (before ++ rest) more =
      ((rest.spanNext more).taken,
        between (before ++ (rest.spanNext more).taken) (rest.spanNext more).rest) := by
  induction rest generalizing before with
  | nil =>
      rw [gather, dif_neg (by simp [between]), Text.spanNext]
      simp
  | cons c rest ih =>
      rw [gather, dif_pos pos_between_lt, peek_cons, peekNext_cons, Text.spanNext]
      by_cases hm : more c (rest.head?.getD '\x00') = true
      · rw [if_pos hm, if_pos hm, advance_between, List.append_cons, ih]
        simp [Cut.grow]
      · rw [if_neg hm, if_neg hm]
        simp

theorem atEnd_gather (more : Char → Char → Bool) (before rest : Text) :
    ((between before rest).gather (before ++ rest) more).2.atEnd (before ++ rest) =
      (rest.spanNext more).rest.isEmpty := by
  have hw : before ++ rest =
      before ++ (rest.spanNext more).taken ++ (rest.spanNext more).rest := by
    rw [List.append_assoc, ← Cut.whole, Text.whole_spanNext]
  rw [gather_between, hw, atEnd_between]

/-- The cursor goes over the character that stopped it. -/
theorem advance_gather {more : Char → Char → Bool} {rest inner left : Text} {d : Char}
    (h : rest.spanNext more = ⟨inner, d :: left⟩) (before : Text) :
    ((between before rest).gather (before ++ rest) more).2.advance (before ++ rest) =
      between (before ++ inner ++ [d]) left := by
  have hw : before ++ rest = before ++ inner ++ d :: left := by
    rw [List.append_assoc, ← Text.whole_spanNext more rest, h, Cut.whole]
  rw [gather_between, h, hw, advance_between]

end Cursor

/-! ### What the loops stop at -/

namespace Text

/-- Without a look at the next character it is a span of the library. -/
theorem spanNext_eq (p : Char → Bool) (text : Text) :
    text.spanNext (fun c _ => p c) = ⟨text.takeWhile p, text.dropWhile p⟩ := by
  induction text with
  | nil => rfl
  | cons c rest ih =>
      by_cases hc : p c = true
      · rw [spanNext, if_pos hc, ih, List.takeWhile_cons_of_pos hc, List.dropWhile_cons_of_pos hc]
        rfl
      · rw [spanNext, if_neg hc, List.takeWhile_cons_of_neg hc, List.dropWhile_cons_of_neg hc]

/-- The argument of `url` ends at the first character that is to stop it, if there is one. -/
theorem through_spanNext (stop : Char) (text : Text) :
    (through stop text = none ∧ (text.spanNext fun c _ => c != stop).rest = []) ∨
      ∃ inner rest, text.spanNext (fun c _ => c != stop) = ⟨inner, stop :: rest⟩ ∧
        through stop text = some ⟨inner ++ [stop], rest⟩ := by
  fun_induction through stop text with
  | case1 => exact .inl ⟨rfl, rfl⟩
  | case2 rest => exact .inr ⟨[], rest, by simp [spanNext], rfl⟩
  | case3 c rest hc ih =>
      rw [spanNext, if_pos (by simpa using hc)]
      rcases ih with ⟨hn, hr⟩ | ⟨inner, left, hs, ht⟩
      · exact .inl ⟨by rw [hn]; rfl, hr⟩
      · exact .inr ⟨c :: inner, left, by rw [hs]; rfl, by rw [ht]; rfl⟩

/-- A block comment ends at the first asterisk with a slash behind it, if there is one. -/
theorem throughComment_spanNext (text : Text) :
    (throughComment text = none ∧
        (text.spanNext fun c next => !(c == '*' && next == '/')).rest = []) ∨
      ∃ inner rest,
        text.spanNext (fun c next => !(c == '*' && next == '/')) = ⟨inner, '*' :: '/' :: rest⟩ ∧
        throughComment text = some ⟨inner ++ ['*', '/'], rest⟩ := by
  fun_induction throughComment text with
  | case1 rest => exact .inr ⟨[], rest, by simp [spanNext], rfl⟩
  | case2 c rest hc ih =>
      have hmore : (!(c == '*' && rest.head?.getD '\x00' == '/')) = true := by
        rw [Bool.not_eq_true', Bool.and_eq_false_iff, beq_eq_false_iff_ne, beq_eq_false_iff_ne]
        by_cases hs : c = '*'
        · right
          cases rest with
          | nil => decide
          | cons d rest =>
              rintro rfl
              exact hc rest hs rfl
        · exact .inl hs
      rw [spanNext, if_pos hmore]
      rcases ih with ⟨hn, hr⟩ | ⟨inner, left, hs, ht⟩
      · exact .inl ⟨by rw [hn]; rfl, hr⟩
      · exact .inr ⟨c :: inner, left, by rw [hs]; rfl, by rw [ht]; rfl⟩
  | case3 => exact .inl ⟨rfl, rfl⟩

end Text

namespace Cursor

/-- A cursor goes up to the quote at which a list is cut, or to the end. -/
theorem quoted_between {quote : Char} (hq : isQuote quote = true) (before rest : Text) :
    (throughQuote quote rest = none ∧
        (between before rest).quoted (before ++ rest) quote = between (before ++ rest) []) ∨
      ∃ inner left, throughQuote quote rest = some ⟨inner ++ [quote], left⟩ ∧
        (between before rest).quoted (before ++ rest) quote =
          between (before ++ inner) (quote :: left) := by
  have hb : '\\' ≠ quote := by rintro rfl; cases hq
  fun_induction throughQuote quote rest generalizing before with
  | case1 =>
      refine .inl ⟨rfl, ?_⟩
      rw [quoted, dif_neg (by simp [between]), List.append_nil]
  | case2 c rest ih =>
      have hstep : (between before ('\\' :: c :: rest)).quoted (before ++ '\\' :: c :: rest) quote =
          (between (before ++ ['\\', c]) rest).quoted (before ++ ['\\', c] ++ rest) quote := by
        rw [quoted, dif_pos pos_between_lt, peek_cons, if_neg hb, if_pos rfl, advance_between,
          List.append_cons, advance_between]
        simp only [List.append_assoc, List.cons_append, List.nil_append]
      rw [hstep]
      rcases ih (before ++ ['\\', c]) with ⟨hn, he⟩ | ⟨inner, left, hs, he⟩
      · exact .inl ⟨by rw [hn]; rfl, by rw [he]; simp⟩
      · exact .inr ⟨'\\' :: c :: inner, left, by rw [hs]; rfl, by rw [he]; simp⟩
  | case3 rest =>
      refine .inr ⟨[], rest, rfl, ?_⟩
      rw [quoted, dif_pos pos_between_lt, peek_cons, if_pos rfl, List.append_nil]
  | case4 c rest hc hn ih =>
      -- a backslash that nothing follows takes nothing along
      have hstep : (between before (c :: rest)).quoted (before ++ c :: rest) quote =
          (between (before ++ [c]) rest).quoted (before ++ [c] ++ rest) quote := by
        rw [quoted, dif_pos pos_between_lt, peek_cons, if_neg hn, advance_between,
          List.append_cons]
        split
        · next hs =>
            cases rest with
            | nil => rw [List.append_nil, advance_end]
            | cons d rest => exact absurd rfl (hc d rest hs)
        · rfl
      rw [hstep]
      rcases ih (before ++ [c]) with ⟨ht, he⟩ | ⟨inner, left, hs, he⟩
      · exact .inl ⟨by rw [ht]; rfl, by rw [he]; simp⟩
      · exact .inr ⟨c :: inner, left, by rw [hs]; rfl, by rw [he]; simp⟩

/-- An interpolation is followed to the brace that closes it, or some brace is left open. -/
theorem interpolated_between (depth : Nat) (before rest : Text) :
    (throughInterpolation depth rest = none ∧
        0 < ((between before rest).interpolated (before ++ rest) (depth + 1)).1) ∨
      ∃ cut, throughInterpolation depth rest = some cut ∧
        (between before rest).interpolated (before ++ rest) (depth + 1) =
          (0, between (before ++ cut.taken) cut.rest) := by
  fun_induction throughInterpolation depth rest generalizing before with
  | case1 depth =>
      refine .inl ⟨rfl, ?_⟩
      rw [interpolated, dif_neg (by simp [between])]
      exact Nat.succ_pos depth
  | case2 depth rest ih =>
      rw [interpolated, dif_pos ⟨pos_between_lt, Nat.succ_pos _⟩, peek_cons, if_pos rfl,
        advance_between, List.append_cons]
      rcases ih (before ++ ['{']) with ⟨hn, he⟩ | ⟨cut, hs, he⟩
      · exact .inl ⟨by rw [hn]; rfl, he⟩
      · exact .inr ⟨cut.grow ['{'], by rw [hs]; rfl, by rw [he]; simp [Cut.grow]⟩
  | case3 rest =>
      refine .inr ⟨_, rfl, ?_⟩
      rw [interpolated, dif_pos ⟨pos_between_lt, Nat.succ_pos _⟩, peek_cons, if_neg (by decide),
        if_pos rfl, advance_between, interpolated, dif_neg (by simp)]
  | case4 rest depth ih =>
      rw [interpolated, dif_pos ⟨pos_between_lt, Nat.succ_pos _⟩, peek_cons, if_neg (by decide),
        if_pos rfl, advance_between, List.append_cons]
      rcases ih (before ++ ['}']) with ⟨hn, he⟩ | ⟨cut, hs, he⟩
      · exact .inl ⟨by rw [hn]; rfl, he⟩
      · exact .inr ⟨cut.grow ['}'], by rw [hs]; rfl, by rw [Nat.add_sub_cancel, he]; simp [Cut.grow]⟩
  | case5 depth c rest h₁ h₂ hc hq =>
      refine .inl ⟨rfl, ?_⟩
      rw [interpolated, dif_pos ⟨pos_between_lt, Nat.succ_pos _⟩, peek_cons, if_neg h₁, if_neg h₂,
        if_pos hc, advance_between, List.append_cons]
      rcases quoted_between hc (before ++ [c]) rest with ⟨-, he⟩ | ⟨inner, left, hs, -⟩
      · rw [he, advance_end, interpolated, dif_neg (by simp [between])]
        exact Nat.succ_pos depth
      · rw [hq] at hs
        cases hs
  | case6 depth c rest h₁ h₂ hc quoted hq ih =>
      rcases quoted_between hc (before ++ [c]) rest with ⟨hn, -⟩ | ⟨inner, left, hs, he⟩
      · rw [hq] at hn
        cases hn
      · rw [hq] at hs
        cases hs
        have hw : inner ++ c :: left = rest := by
          rw [← whole_of_throughQuote hq, Cut.whole, List.append_assoc]
          rfl
        -- the string is passed with its closing quote
        have hstep : (between before (c :: rest)).interpolated (before ++ c :: rest) (depth + 1) =
            (between (before ++ c :: (inner ++ [c])) left).interpolated
              (before ++ c :: (inner ++ [c]) ++ left) (depth + 1) := by
          rw [interpolated, dif_pos ⟨pos_between_lt, Nat.succ_pos _⟩, peek_cons, if_neg h₁,
            if_neg h₂, if_pos hc, advance_between, List.append_cons, he, ← hw,
            ← List.append_assoc, advance_between]
          simp only [List.append_assoc, List.cons_append, List.nil_append]
        rw [hstep]
        rcases ih (before ++ c :: (inner ++ [c])) with ⟨hn, he⟩ | ⟨cut, hs, he⟩
        · exact .inl ⟨by rw [hn]; rfl, he⟩
        · refine .inr ⟨_, by rw [hs]; rfl, he.trans ?_⟩
          rw [Cut.grow, List.append_assoc]
  | case7 depth c rest h₁ h₂ hc ih =>
      rw [interpolated, dif_pos ⟨pos_between_lt, Nat.succ_pos _⟩, peek_cons, if_neg h₁, if_neg h₂,
        if_neg hc, advance_between, List.append_cons]
      rcases ih (before ++ [c]) with ⟨hn, he⟩ | ⟨cut, hs, he⟩
      · exact .inl ⟨by rw [hn]; rfl, he⟩
      · exact .inr ⟨cut.grow [c], by rw [hs]; rfl, by rw [he]; simp [Cut.grow]⟩

/-- One character behind the first is enough to see what opens. -/
theorem opening_of_head (dialect : Dialect) (c : Char) (rest : Text) :
    Opening.of dialect c [rest.head?.getD '\x00'] = Opening.of dialect c rest := by
  cases rest with
  | nil => simp [Opening.of, isNameChar]
  | cons d rest => exact Opening.of_congr rfl

/-- A NUL at the end stands for a character that is not there. -/
theorem endsWord_of_head (dialect : Dialect) (c : Char) (rest : Text) :
    endsWord dialect [c, rest.head?.getD '\x00'] = endsWord dialect (c :: rest) := by
  rw [endsWord, endsWord, opening_of_head]

/-- The characters that open an interpolation, seen one by one. -/
theorem not_interpolation {dialect : Dialect} {c : Char} {rest : Text}
    (h : ∀ rest', dialect = .scss → c = '#' → rest = '{' :: rest' → False) :
    ¬ (dialect = .scss ∧ c = '#' ∧ rest.head?.getD '\x00' = '{') := by
  rintro ⟨hd, hc, hr⟩
  cases rest with
  | nil => cases hr
  | cons d rest => exact h rest hd hc (congrArg (· :: rest) hr)

/-- **A cursor passes a word** as a list is cut behind it. -/
theorem word_between (dialect : Dialect) (before rest : Text) :
    (between before rest).word (before ++ rest) dialect =
      match wordBody dialect rest with
      | .error failure => .error (failure.toError (before ++ rest))
      | .ok cut        => .ok (between (before ++ cut.taken) cut.rest) := by
  fun_induction wordBody dialect rest generalizing before with
  | case1 =>
      rw [word, dif_neg (by simp [between])]
      simp
  | case2 rest hi =>
      rw [word, dif_pos pos_between_lt, peek_cons, peekNext_cons, if_pos ⟨rfl, rfl, rfl⟩,
        advance_between, List.append_cons, advance_between, List.append_cons]
      rcases interpolated_between 0 (before ++ ['#'] ++ ['{']) rest with ⟨-, he⟩ | ⟨cut, hs, -⟩
      · simp only [if_pos he]
        rw [← toError_between]
        simp
      · rw [hi] at hs
        cases hs
  | case3 rest inner hi ih =>
      have hw : inner.taken ++ inner.rest = rest := whole_of_throughInterpolation hi
      have hchars : before ++ ['#'] ++ ['{'] ++ rest =
          before ++ '#' :: '{' :: inner.taken ++ inner.rest := by simp [← hw]
      have hstep : (between before ('#' :: '{' :: rest)).word (before ++ '#' :: '{' :: rest) .scss =
          (between (before ++ '#' :: '{' :: inner.taken) inner.rest).word
            (before ++ '#' :: '{' :: inner.taken ++ inner.rest) .scss := by
        rw [word, dif_pos pos_between_lt, peek_cons, peekNext_cons, if_pos ⟨rfl, rfl, rfl⟩,
          advance_between, List.append_cons, advance_between, List.append_cons]
        rcases interpolated_between 0 (before ++ ['#'] ++ ['{']) rest with ⟨hn, -⟩ | ⟨cut, hs, he⟩
        · rw [hi] at hn
          cases hn
        · rw [hi] at hs
          cases hs
          rw [Nat.zero_add] at he
          simp only [he, Nat.lt_irrefl, if_false]
          rw [hchars]
          simp only [List.append_assoc, List.cons_append, List.nil_append]
      rw [hstep, ih, ← hchars]
      cases wordBody .scss inner.rest with
      | error failure => simp [Except.map]
      | ok cut => simp [Except.map, Cut.grow]
  | case4 dialect c rest hi he =>
      rw [word, dif_pos pos_between_lt, peek_cons, peekNext_cons, if_neg (not_interpolation hi),
        endsWord_of_head, if_pos he]
      simp
  | case5 dialect c rest hi he ih =>
      rw [word, dif_pos pos_between_lt, peek_cons, peekNext_cons, if_neg (not_interpolation hi),
        endsWord_of_head, if_neg he, advance_between, List.append_cons, ih]
      cases wordBody dialect rest with
      | error failure => rfl
      | ok cut => simp [Except.map, Cut.grow]

/-- What follows a parenthesis is there to be looked at. -/
theorem argument_between (mark : Position) (before inner : Text) :
    (between before ('(' :: inner)).argument (before ++ '(' :: inner) mark =
      some (if startsQuoted inner then .ok (between before ('(' :: inner))
        else match through ')' inner with
          | none      => .error ⟨.url, mark⟩
          | some tail => .ok (between (before ++ '(' :: tail.taken) tail.rest)) := by
  have hfrom : Text.from? (before ++ '(' :: inner) ((between before ('(' :: inner)).pos + 1) =
      some inner := by
    rw [Text.from?, if_pos (by simp [between])]
    exact congrArg some (by simp [between, List.drop_append])
  rw [argument, hfrom, Option.map_some]
  congr 2
  have hspan : Text.spanNext (fun d _ => d != ')') ('(' :: inner) =
      (inner.spanNext fun d _ => d != ')').grow ['('] := by rw [Text.spanNext, if_pos (by decide)]
  dsimp only
  rw [atEnd_gather, hspan, Cut.rest_grow]
  rcases Text.through_spanNext ')' inner with ⟨hn, hr⟩ | ⟨body, left, hs, ht⟩
  · rw [hn, hr]
    rfl
  · rw [hs] at hspan
    rw [hs, ht, advance_gather hspan]
    simp

/-- **The argument of `url`**: the name is sliced out of the text. -/
theorem urlArgument_between {dialect : Dialect} {before text taken rest : Text}
    (h : wordBody dialect text = .ok ⟨taken, rest⟩) :
    (between (before ++ taken) rest).urlArgument (before ++ text) (between before text).place =
      some (match readWord dialect text with
        | .error failure => .error (failure.toError (before ++ text))
        | .ok cut        => .ok (between (before ++ cut.taken) cut.rest)) := by
  have hw : taken ++ rest = text := whole_of_wordBody h
  have hchars : before ++ text = before ++ taken ++ rest := by simp [← hw]
  have hname : (before ++ taken ++ rest).slice? (between before text).place.offset
      (between (before ++ taken) rest).place.offset = some taken := by
    refine Text.slice?_eq_some_iff.2 ⟨before, rest, rfl, ?_, ?_⟩
    · simp [between, Position.start]
    · simp [between, Position.start]
  by_cases hp : ∃ inner, rest = '(' :: inner
  · obtain ⟨inner, rfl⟩ := hp
    have hread : readWord dialect text =
        if isUrl taken && !startsQuoted inner then
          match through ')' inner with
          | none      => .error ⟨.url, text⟩
          | some tail => .ok (tail.grow (taken ++ ['(']))
        else .ok ⟨taken, '(' :: inner⟩ := by
      rw [readWord, h]
      rfl
    rw [urlArgument, hchars, peek_cons, if_pos rfl, hname, Option.bind_some, argument_between,
      ← toError_between, hread, hchars]
    cases isUrl taken with
    | false => rfl
    | true =>
        cases startsQuoted inner with
        | true => rfl
        | false =>
            cases through ')' inner with
            | none => rfl
            | some tail => simp [Cut.grow]
  · have hhead : rest.head?.getD '\x00' ≠ '(' := by
      cases rest with
      | nil => decide
      | cons d rest => exact fun hd => hp ⟨rest, congrArg (· :: rest) hd⟩
    have hread : readWord dialect text = .ok ⟨taken, rest⟩ := by
      rw [readWord, h]
      dsimp only
      split
      · exact absurd ⟨_, rfl⟩ hp
      · rfl
    rw [urlArgument, hchars, peek_between, if_neg hhead, hread]

end Cursor

end Restyle
