import Mathlib.Logic.Relation
import Restyle.Proofs.Sheet.Grammar
import Restyle.Proofs.Token.Braces

/-!
# Where reading fails

What is wrong with a list of tokens is told from the list alone, in one pass that knows no blocks.
The tokens are cut into statements, at every brace and every semicolon outside parentheses, and the
braces are counted.

* `Cuts`, `Violation`: the cut, and the two things that can go wrong on the way, a closing brace too
  many and a statement that is neither an at-rule nor a declaration.
* `Reports`: an error names the earliest violation; when there is none, the last opening brace that
  nothing closes.
* `Scanned`: the builder has come past everything before the current token without a violation, and
  its open blocks are those of the braces that are still free.  `Scanned.step_ok` and
  `Scanned.step_error` take it past one piece, `Scanned.run_error` to the end.
* `Sheet.parse_error_earliest`: **the error of a text that is no sheet** is the earliest violation.
* `Sheet.parse_error_behind_mark`: with a byte-order mark among the tokens this fails.
-/

namespace Restyle

open Grammar Relation

/-! ### Statements of a list of tokens -/

/-- A statement ends before these tokens: at their end, at a brace, or at a semicolon outside its
parentheses. -/
def EndsBefore (run back : List Token) : Prop :=
  ∀ stop, back.head? = some stop → stop.kind = .openBrace ∨ stop.kind = .closeBrace ∨
    stop.kind = .semicolon ∧ depth (run.map (·.kind)) = 0

/-- The tokens from `first` on are a statement, up to what stands behind it. -/
structure IsStatement (first : Token) (others back : List Token) : Prop where
  starts : first.startsRun = true
  run : Run ((first :: others).map (·.kind))
  ends : EndsBefore (first :: others) back

/-- One cut: a token between statements goes, or a whole statement. -/
inductive Cuts : List Token → List Token → Prop where
  | between {token : Token} {rest : List Token} (h : token.startsRun = false) :
      Cuts (token :: rest) rest
  | statement {first : Token} {others back : List Token} (h : IsStatement first others back) :
      Cuts (first :: (others ++ back)) back

/-- What is wrong with the tokens, where it starts among them, and where in the text.

* A closing brace is one too many.
* A statement in front of a closing brace, a semicolon or the end is neither an at-rule nor a
  declaration. -/
inductive Violation (tokens : List Token) : Nat → String → Position → Prop where
  | brace {front back : List Token} {brace : Token} (hs : tokens = front ++ brace :: back)
      (hk : brace.kind = .closeBrace)
      (h : opened (front ++ [brace]) < closed (front ++ [brace])) :
      Violation tokens front.length "Unexpected \x7d" brace.start
  | word {front others back : List Token} {first : Token}
      (hs : tokens = front ++ first :: (others ++ back))
      (hc : ReflTransGen Cuts tokens (first :: (others ++ back)))
      (h : IsStatement first others back)
      (hb : ∀ stop, back.head? = some stop → stop.kind ≠ .openBrace)
      (ha : ∀ name, first.kind ≠ .atWord name)
      (hp : ¬ HasProperty ((first :: others).map (·.kind))) :
      Violation tokens front.length "Unknown word" first.start

/-- The error is the earliest violation.  Without any, it is a block that is not closed: the last
opening brace that nothing matches. -/
def Reports (tokens : List Token) (e : ParseError) : Prop :=
  (∃ n, Violation tokens n e.cause.detail e.position ∧
      ∀ m detail position, Violation tokens m detail position → n ≤ m) ∨
    (∀ m detail position, ¬ Violation tokens m detail position) ∧
      ∃ brace, (unmatched tokens).getLast? = some brace ∧
        e.cause.detail = "Unclosed block" ∧ e.position = brace.start

/-! ### Cutting -/

section
variable {tokens front part rest back back' others others' : List Token} {first token : Token}

/-- A run and its end do not fit inside a longer run. -/
theorem EndsBefore.eq_nil {run mid : List Token} (he : EndsBefore run (mid ++ back))
    (hr : Run ((run ++ mid).map (·.kind))) : mid = [] := by
  cases mid with
  | nil => rfl
  | cons stop mid =>
      obtain ⟨ho, hc, hs⟩ :=
        hr (run.map (·.kind)) stop.kind (mid.map (·.kind)) (by rw [List.map_append, List.map_cons])
      rcases he stop rfl with h | h | ⟨h, hd⟩
      · exact absurd h ho
      · exact absurd h hc
      · exact absurd hd (hs h)

/-- **Where a statement ends** is settled by where it starts. -/
theorem IsStatement.unique (h : IsStatement first others back)
    (h' : IsStatement first others' back') (hs : others ++ back = others' ++ back') :
    others = others' ∧ back = back' := by
  rcases List.append_eq_append_iff.1 hs with ⟨mid, rfl, rfl⟩ | ⟨mid, rfl, rfl⟩
  · obtain rfl := h.ends.eq_nil h'.run
    exact ⟨by simp, rfl⟩
  · obtain rfl := h'.ends.eq_nil h.run
    exact ⟨by simp, rfl⟩

theorem Cuts.right_unique : Relator.RightUnique Cuts := by
  intro tokens rest rest' h h'
  cases h with
  | between hf =>
      cases h' with
      | between => rfl
      | statement hs => exact absurd hs.starts (by simp [hf])
  | @statement first others _ hs =>
      generalize ht : first :: (others ++ rest) = tokens at h'
      cases h' with
      | between hf =>
          cases ht
          exact absurd hs.starts (by simp [hf])
      | statement hs' =>
          obtain ⟨rfl, ho⟩ := List.cons.inj ht
          exact (hs.unique hs' ho).2

theorem Cuts.length_lt (h : Cuts tokens rest) : rest.length < tokens.length := by
  cases h with
  | between => exact Nat.lt_succ_self _
  | statement => rw [List.length_cons, List.length_append]; omega

theorem length_le_of_cuts (h : ReflTransGen Cuts tokens rest) : rest.length ≤ tokens.length := by
  induction h with
  | refl => exact Nat.le_refl _
  | tail _ hc ih => exact Nat.le_trans (Nat.le_of_lt hc.length_lt) ih

/-- No place inside what one cut takes away is ever reached. -/
theorem Cuts.apart (hc : Cuts rest back) (hr : ReflTransGen Cuts tokens rest)
    (ho : ReflTransGen Cuts tokens back') :
    rest.length ≤ back'.length ∨ back'.length ≤ back.length := by
  rcases hr.total_of_right_unique Cuts.right_unique ho with h | h
  · rcases h.cases_head with rfl | ⟨next, hc', h⟩
    · exact .inl (Nat.le_refl _)
    · obtain rfl := Cuts.right_unique hc hc'
      exact .inr (length_le_of_cuts h)
  · exact .inl (length_le_of_cuts h)

/-- A cut takes one token, or tokens that are no braces. -/
theorem Cuts.part_cases (h : Cuts (part ++ rest) rest) :
    (∃ token, part = [token]) ∨ ∀ token ∈ part, token.kind ≠ .closeBrace := by
  generalize ht : part ++ rest = tokens at h
  cases h with
  | @between token _ hf =>
      exact .inl ⟨token, List.append_cancel_right (show part ++ rest = [token] ++ rest from ht)⟩
  | @statement first others _ hs =>
      obtain rfl : part = first :: others :=
        List.append_cancel_right (show part ++ rest = (first :: others) ++ rest from ht)
      refine .inr fun token hm => ?_
      obtain ⟨front, back, hb⟩ := List.append_of_mem (List.mem_map.2 ⟨token, hm, rfl⟩)
      exact (hs.run front token.kind back hb).2.1

/-! ### What may be wrong at a token -/

/-- A violation that starts with a given token. -/
theorem Violation.at {n : Nat} {detail : String} {position : Position}
    (h : Violation tokens n detail position) (hs : tokens = front ++ token :: rest)
    (hn : front.length = n) :
    token.kind = .closeBrace ∧ opened (front ++ [token]) < closed (front ++ [token]) ∨
      detail = "Unknown word" ∧ ∃ others back, rest = others ++ back ∧
        IsStatement token others back ∧
        (∀ stop, back.head? = some stop → stop.kind ≠ .openBrace) ∧
        (∀ name, token.kind ≠ .atWord name) ∧
        ¬ HasProperty ((token :: others).map (·.kind)) := by
  cases h with
  | brace hs' hk h =>
      obtain ⟨rfl, ht⟩ := List.append_inj (hs.symm.trans hs') hn
      obtain ⟨rfl, rfl⟩ := List.cons.inj ht
      exact .inl ⟨hk, h⟩
  | word hs' hc h hb ha hp =>
      obtain ⟨rfl, ht⟩ := List.append_inj (hs.symm.trans hs') hn
      obtain ⟨rfl, rfl⟩ := List.cons.inj ht
      exact .inr ⟨rfl, _, _, rfl, h, hb, ha, hp⟩

theorem Violation.lt_length {n : Nat} {detail : String} {position : Position}
    (h : Violation tokens n detail position) : n < tokens.length := by
  cases h with
  | brace hs => rw [hs]; simp
  | word hs => rw [hs]; simp

/-! ### Past a cut -/

/-- The tokens before `rest` are cut into statements, and no violation starts among them. -/
structure Passed (tokens front rest : List Token) : Prop where
  split : tokens = front ++ rest
  cuts : ReflTransGen Cuts tokens rest
  clear : ∀ n detail position, Violation tokens n detail position → front.length ≤ n

/-- **One cut further**, when no violation starts here: none starts inside what is cut off either. -/
theorem Passed.cut (h : Passed tokens front (part ++ rest)) (hc : Cuts (part ++ rest) rest)
    (hf : ∀ detail position, ¬ Violation tokens front.length detail position) :
    Passed tokens (front ++ part) rest where
  split := by rw [h.split, List.append_assoc]
  cuts := h.cuts.tail hc
  clear n detail position hv := by
    have hle := h.clear n detail position hv
    have hne : n ≠ front.length := by
      rintro rfl
      exact hf detail position hv
    rw [List.length_append]
    cases hv with
    | @brace front' back brace hs hk _ =>
        by_contra hlt
        rcases hc.part_cases with ⟨token, rfl⟩ | hp
        · simp at hlt; omega
        · refine hp brace ?_ hk
          have hb : tokens[front'.length]? = some brace := by rw [hs]; simp
          rw [h.split, List.getElem?_append_right hle,
            List.getElem?_append_left (by omega)] at hb
          exact List.mem_of_getElem? hb
    | word hs hcs =>
        have hl := congrArg List.length (h.split.symm.trans hs)
        have ha := hc.apart h.cuts hcs
        simp only [List.length_append, List.length_cons] at hl ha
        omega

theorem Passed.between (h : Passed tokens front (token :: rest)) (hf : token.startsRun = false)
    (hk : token.kind = .closeBrace → closed (front ++ [token]) ≤ opened (front ++ [token])) :
    Passed tokens (front ++ [token]) rest := by
  refine @Passed.cut tokens front [token] rest h (.between hf) fun detail position hv => ?_
  rcases hv.at h.split rfl with ⟨hc, hlt⟩ | ⟨-, others, back, -, hs, -⟩
  · have := hk hc
    omega
  · exact absurd hs.starts (by simp [hf])

theorem Passed.statement (h : Passed tokens front (first :: (others ++ back)))
    (hs : IsStatement first others back)
    (hok : (∃ stop, back.head? = some stop ∧ stop.kind = .openBrace) ∨
      (∃ name, first.kind = .atWord name) ∨ HasProperty ((first :: others).map (·.kind))) :
    Passed tokens (front ++ first :: others) back := by
  refine @Passed.cut tokens front (first :: others) back h (.statement hs)
    fun detail position hv => ?_
  rcases hv.at h.split rfl with ⟨hc, -⟩ | ⟨-, others', back', ht, hs', hb, ha, hp⟩
  · have := hs.starts
    simp [Token.startsRun, hc] at this
  · obtain ⟨rfl, rfl⟩ := hs.unique hs' ht
    rcases hok with ⟨stop, hh, hk⟩ | ⟨name, hk⟩ | hprop
    · exact hb stop hh hk
    · exact ha name hk
    · exact hp hprop

/-! ### The builder on its way -/

/-- The builder has come to `rest` without a violation, and its open blocks are those of the opening
braces that are still free. -/
structure Scanned (tokens front rest : List Token) (b : Builder) : Prop
    extends Passed tokens front rest where
  even : surplus front = 0
  free : unmatched front = (b.frames.map (·.brace)).reverse

theorem Unbroken.isStatement (h₁ : first.startsRun = true) (hr : Unbroken 0 (first :: others))
    (he : EndsBefore (first :: others) back) : IsStatement first others back :=
  ⟨h₁, (run_iff_unbroken hr.ne_eof).2 hr, he⟩

theorem AtClose.endsBefore {run : List Token} (h : AtClose back) : EndsBefore run back := by
  rcases h with rfl | ⟨close, rest, rfl, hc⟩
  · exact nofun
  · intro stop hs
    cases hs
    exact .inr (.inl hc)

/-- The statement of a piece that is one, in front of no block. -/
theorem Begins.isStatement {semicolon : Option Token}
    (h : Begins tokens (.statement first others semicolon) rest) :
    IsStatement first others (semicolon.toList ++ rest) ∧
      ∀ stop, (semicolon.toList ++ rest).head? = some stop → stop.kind ≠ .openBrace := by
  cases h with
  | statement h₁ hr hd hk =>
      refine ⟨hr.isStatement h₁ fun stop hs => ?_, fun stop hs => ?_⟩
      · cases hs
        exact .inr (.inr ⟨hk, by rwa [← depthThrough_eq]⟩)
      · cases hs
        simp [hk]
  | loose h₁ hr hl =>
      refine ⟨hr.isStatement h₁ hl.endsBefore, fun stop hs => ?_⟩
      rcases hl with rfl | ⟨close, later, rfl, hc⟩
      · cases hs
      · cases hs
        simp [hc]

/-- **A piece that is rejected** is a violation. -/
theorem Scanned.step_error {b : Builder} {piece : Piece} {e : ParseError}
    (h : Scanned tokens front back b) (hb : Begins back piece rest) (hs : b.step piece = .error e) :
    Violation tokens front.length e.cause.detail e.position := by
  cases piece with
  | filler | comment | opening => cases hs
  | closing brace =>
      cases hb with
      | closing hk =>
          rw [Builder.step] at hs
          split at hs
          · next hf =>
            cases hs
            have hu : unmatched front = [] := by rw [h.free, hf]; rfl
            have hone : surplus (front ++ [brace]) = 1 := by
              rw [surplus_append, h.even, hu, surplus_cons_close hk]
              rfl
            have ho := opened_add_surplus (front ++ [brace])
            rw [hone, unmatched_concat_close _ hk, hu, List.dropLast_nil, List.length_nil] at ho
            exact .brace h.split hk (by omega)
          · cases hs
  | statement first others semicolon =>
      rw [Builder.step] at hs
      split at hs
      · next hn =>
        cases hs
        obtain ⟨hst, hstop⟩ := hb.isStatement
        obtain rfl := hb.split
        have hno : ¬ ((∃ name, first.kind = .atWord name) ∨
            HasProperty ((first :: others).map (·.kind))) := by
          rw [← Node.ofStatement?_isSome_iff, hn]
          exact Bool.false_ne_true
        rw [Piece.tokens, List.cons_append, List.append_assoc] at h
        exact .word h.split h.cuts hst hstop (fun name hk => hno (.inl ⟨name, hk⟩))
          fun hp => hno (.inr hp)
      · cases hs

/-- Tokens without braces change nothing about the open blocks. -/
theorem Scanned.of_isBrace {b b' : Builder} (h : Scanned tokens front back b)
    (hp : Passed tokens (front ++ part) rest) (hn : ∀ token ∈ part, token.isBrace = false)
    (hf : b'.frames = b.frames) : Scanned tokens (front ++ part) rest b' :=
  { hp with
    even := by rw [(balanced_of_isBrace hn).append_surplus, h.even]
    free := by rw [(balanced_of_isBrace hn).append_unmatched, h.free, hf] }

/-- Past a token that is no brace and starts no statement. -/
theorem Scanned.between {b b' : Builder} (h : Scanned tokens front (token :: rest) b)
    (hr : token.startsRun = false) (hn : token.isBrace = false) (hf : b'.frames = b.frames) :
    Scanned tokens (front ++ [token]) rest b' := by
  have hk := (Token.isBrace_eq_false_iff.1 hn).2
  refine h.of_isBrace (h.toPassed.between hr fun hc => absurd hc hk) ?_ hf
  intro t ht
  rw [List.mem_singleton.1 ht, hn]

/-- **A block opens**: its brace is the last one that is free. -/
theorem Scanned.opening {b : Builder} {prelude : List Token} {brace : Token} {frame : Frame}
    {nodes : List Node} {filler : Text}
    (h : Scanned tokens front (prelude ++ brace :: rest) b)
    (h₁ : ∀ token, prelude.head? = some token → token.startsRun = true)
    (hr : Unbroken 0 prelude) (hk : brace.kind = .openBrace) (hf : frame.brace = brace) :
    Scanned tokens (front ++ (prelude ++ [brace])) rest ⟨frame :: b.frames, nodes, filler⟩ := by
  -- the brace is a cut of its own, behind that of the prelude
  have hp : Passed tokens (front ++ prelude) (brace :: rest) := by
    cases prelude with
    | nil => simpa using h.toPassed
    | cons first others =>
        refine h.toPassed.statement (hr.isStatement (h₁ first rfl) ?_) (.inl ⟨brace, rfl, hk⟩)
        intro stop hs
        cases hs
        exact .inl hk
  have hs := h.of_isBrace hp hr.isBrace rfl
  rw [← List.append_assoc]
  refine { hp.between (by simp [Token.startsRun, hk]) (by simp [hk]) with
    even := by rw [surplus_concat_open _ hk, hs.even]
    free := ?_ }
  rw [unmatched_concat_open _ hk, hs.free]
  simp [hf]

/-- **A block closes**: the last free brace is free no more. -/
theorem Scanned.closing {b : Builder} {brace : Token} {frame : Frame} {frames : List Frame}
    {nodes : List Node} {filler : Text} (h : Scanned tokens front (brace :: rest) b)
    (hk : brace.kind = .closeBrace) (hf : b.frames = frame :: frames) :
    Scanned tokens (front ++ [brace]) rest ⟨frames, nodes, filler⟩ := by
  have hu : unmatched front = (frames.map (·.brace)).reverse ++ [frame.brace] := by
    rw [h.free, hf, List.map_cons, List.reverse_cons]
  have hs : surplus (front ++ [brace]) = 0 := by
    rw [surplus_concat_close hk (by simp [hu]), h.even]
  have ho := opened_add_surplus (front ++ [brace])
  refine { h.toPassed.between (by simp [Token.startsRun, hk]) (fun _ => by omega) with
    even := hs
    free := ?_ }
  rw [unmatched_concat_close _ hk, hu, List.dropLast_concat]

/-- **A piece that is accepted** is no violation and holds none. -/
theorem Scanned.step_ok {b b' : Builder} {piece : Piece} (h : Scanned tokens front back b)
    (hb : Begins back piece rest) (hs : b.step piece = .ok b') :
    Scanned tokens (front ++ piece.tokens) rest b' := by
  cases piece with
  | filler token =>
      cases hs
      cases hb with
      | filler hf =>
          exact h.between (Token.startsRun_of_isFiller hf) (Token.isBrace_of_isFiller hf) rfl
  | comment token inline =>
      cases hs
      cases hb with
      | comment hk =>
          exact h.between (by simp [Token.startsRun, hk]) (by simp [Token.isBrace, hk]) rfl
  | opening prelude brace =>
      cases hs
      cases hb with
      | opening h₁ hr hk => exact h.opening h₁ hr hk rfl
  | closing brace =>
      cases hb with
      | closing hk =>
          rw [Builder.step] at hs
          split at hs
          · cases hs
          · next frame frames hf =>
            cases hs
            exact h.closing hk hf
  | statement first others semicolon =>
      rw [Builder.step] at hs
      split at hs
      · cases hs
      · next node hn =>
        cases hs
        have hst := hb.isStatement.1
        have hok := Node.ofStatement?_isSome_iff.1 (Option.isSome_of_eq_some hn)
        cases hb with
        | loose h₁ hr hl =>
            have hrun : Scanned tokens (front ++ first :: others) rest (b.push node) :=
              h.of_isBrace (h.toPassed.statement hst (.inr hok)) hr.isBrace rfl
            simpa [Piece.tokens] using hrun
        | @statement _ _ _ semicolon h₁ hr hd hk =>
            have hrun : Scanned tokens (front ++ first :: others) (semicolon :: rest) (b.push node) :=
              h.of_isBrace (h.toPassed.statement hst (.inr hok)) hr.isBrace rfl
            have hsemi : Scanned tokens (front ++ first :: others ++ [semicolon]) rest (b.push node) :=
              hrun.between (by simp [Token.startsRun, hk]) (by simp [Token.isBrace, hk]) rfl
            simpa [Piece.tokens] using hsemi

/-! ### The whole way -/

/-- **The builder reports the earliest violation.** -/
theorem Scanned.run_error {b : Builder} {e : ParseError} (h : Scanned tokens front rest b)
    (he : ∀ token ∈ rest, token.kind ≠ .eof) (hr : b.run (pieces rest) = .error e) :
    Reports tokens e := by
  -- on the number of tokens left, piece by piece
  induction hl : rest.length using Nat.strongRecOn generalizing front rest b with
  | ind n ih =>
      cases rest with
      | nil =>
          rw [pieces, Builder.run, Builder.finish] at hr
          split at hr
          · cases hr
          · next frame frames hf =>
            cases hr
            obtain rfl : tokens = front := by rw [h.split, List.append_nil]
            refine .inr ⟨fun m detail position hv => ?_, frame.brace, ?_, rfl, rfl⟩
            · have := h.clear m detail position hv
              have := hv.lt_length
              omega
            · rw [h.free, hf, List.map_cons, List.reverse_cons, List.getLast?_concat]
      | cons token rest =>
          obtain ⟨piece, left, hb⟩ := exists_begins he
          rw [hb.pieces_eq, Builder.run] at hr
          split at hr
          · next e' hs =>
            cases hr
            exact .inl ⟨front.length, h.step_error hb hs, h.clear⟩
          · next b' hs =>
            exact ih left.length (hl ▸ hb.length_lt) (h.step_ok hb hs) (hb.ne_eof he) hr rfl

theorem scanned_start (tokens : List Token) : Scanned tokens [] tokens .empty where
  split := rfl
  cuts := .refl
  clear _ _ _ _ := Nat.zero_le _
  even := rfl
  free := rfl

end

/-! ### Texts that are no sheets -/

/-- **The error of a text that is no sheet**, though it has tokens, is the earliest violation among
them: a closing brace too many, at that brace, or a statement that is neither an at-rule nor a
declaration, at its first token.  Without either it is the last block that is not closed, at its
brace.  The tokens are those of what stands behind the byte-order mark, if there is one, without the
last, which marks the end. -/
theorem Sheet.parse_error_earliest {dialect : Dialect} {source text : Text} {bom : Bool}
    {tokens : List Token} {e : ParseError} (hm : Sheet.splitMark source = (bom, text))
    (ht : Token.tokenize dialect text = .ok tokens) (h : Sheet.parse dialect source = .error e) :
    Reports tokens.dropLast e := by
  obtain ⟨ls, hr, rfl⟩ := Token.tokenize_eq_ok_iff.1 ht
  have he := (formed_locate .start hr).ne_eof
  rw [List.dropLast_concat]
  rw [Sheet.parse, hm] at h
  simp only [Token.scan_eq_ok_iff.2 ⟨ls, hr, rfl⟩] at h
  rw [Sheet.ofTokens] at h
  split at h
  · next e' hrun =>
    cases h
    exact (scanned_start _).run_error he hrun
  · cases h

/-- Three things are wrong: a property with a blank in it, a closing brace too many, and a block that
is not closed.  The first one in the text is reported. -/
theorem Sheet.parse_error_earliest_sample :
    ∃ tokens, Token.tokenize .scss "a\x7bb c;\x7d\x7dd\x7b".toList = .ok tokens ∧
      Sheet.parse .scss "a\x7bb c;\x7d\x7dd\x7b".toList = .error ⟨.unknownWord, ⟨2, 1, 3⟩⟩ ∧
      Reports tokens.dropLast ⟨.unknownWord, ⟨2, 1, 3⟩⟩ := by
  generalize hs : "a\x7bb c;\x7d\x7dd\x7b".toList = source
  have ho : (Token.tokenize .scss source).isOk = true ∧
      Sheet.parse .scss source = .error ⟨.unknownWord, ⟨2, 1, 3⟩⟩ ∧
      Sheet.splitMark source = (false, source) := by
    subst hs
    decide +kernel
  obtain ⟨tokens, ht⟩ := exists_of_isOk ho.1
  exact ⟨tokens, ht, ho.2.1, Sheet.parse_error_earliest ho.2.2 ht ho.2.1⟩

/-- **The mark must not be among the tokens.**  Read as part of the text it is a word, and as a
statement it is the earliest violation; but the error is the closing brace behind it. -/
theorem Sheet.parse_error_behind_mark :
    ∃ tokens e, Token.tokenize .scss [byteOrderMark, '}'] = .ok tokens ∧
      Sheet.parse .scss [byteOrderMark, '}'] = .error e ∧
      Violation tokens.dropLast 0 "Unknown word" Position.start ∧
      e.cause.detail = "Unexpected \x7d" ∧ ¬ Reports tokens.dropLast e := by
  let mark : Token := ⟨⟨.word, [byteOrderMark]⟩, .start⟩
  let brace : Token := ⟨⟨.closeBrace, ['}']⟩, ⟨3, 1, 2⟩⟩
  have hs : IsStatement mark [] [brace] := by
    refine Unbroken.isStatement rfl ⟨rfl, trivial⟩ fun stop hs => ?_
    cases hs
    exact .inr (.inl rfl)
  have hp : ¬ HasProperty [Kind.word] := by
    rintro ⟨prop, spaces, value, hk, -⟩
    have hc : Kind.colon ∈ [Kind.word] := by simp [hk]
    simp at hc
  have hv : Violation [mark, brace] 0 "Unknown word" Position.start := by
    refine @Violation.word [mark, brace] [] [] [brace] mark rfl .refl hs (fun stop hs => ?_) nofun hp
    cases hs
    exact nofun
  refine ⟨[mark, brace, ⟨⟨.eof, []⟩, ⟨4, 1, 3⟩⟩], ⟨.unexpectedBrace, .start⟩, by decide +kernel,
    by decide +kernel, hv, rfl, ?_⟩
  rintro (⟨n, hn, hmin⟩ | ⟨hno, -⟩)
  · obtain rfl : n = 0 := Nat.le_zero.1 (hmin 0 _ _ hv)
    have hsplit : [mark, brace] = [] ++ mark :: [brace] := rfl
    rcases hn.at hsplit rfl with ⟨hk, -⟩ | ⟨hd, -⟩
    · cases hk
    · exact absurd hd (by decide)
  · exact hno 0 _ _ hv

end Restyle
