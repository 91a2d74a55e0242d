import Restyle.Token.Basic

/-!
# Which braces match

Closing braces match opening ones as parentheses do: each takes the last opening brace before it that
is still free.  Read from the right, an opening brace takes one of the closing ones that are still
free behind it.

* `opened`, `closed`: how many braces of either sort there are.
* `surplus`: how many closing braces have no opening one among the tokens to match.
* `unmatched`: the opening braces that no closing one among the tokens matches.
* `surplus_append`, `unmatched_append`: what closing braces further on take away.
* `Balanced`: every brace has its match.
-/

namespace Restyle

/-- The number of opening braces. -/
def opened (tokens : List Token) : Nat := tokens.countP (·.kind == .openBrace)

/-- The number of closing braces. -/
def closed (tokens : List Token) : Nat := tokens.countP (·.kind == .closeBrace)

/-- The number of closing braces that match no opening one among the tokens. -/
def surplus : List Token → Nat
  | []            => 0
  | token :: rest =>
    match token.kind with
    | .openBrace  => surplus rest - 1
    | .closeBrace => surplus rest + 1
    | _           => surplus rest

/-- The opening braces that no closing one among the tokens matches, in order. -/
def unmatched : List Token → List Token
  | []            => []
  | token :: rest =>
    if token.kind = .openBrace ∧ surplus rest = 0 then token :: unmatched rest else unmatched rest

/-- The token is a brace. -/
def Token.isBrace (token : Token) : Bool := token.kind == .openBrace || token.kind == .closeBrace

theorem Token.isBrace_eq_false_iff {token : Token} :
    token.isBrace = false ↔ token.kind ≠ .openBrace ∧ token.kind ≠ .closeBrace := by
  rw [isBrace, Bool.or_eq_false_iff, beq_eq_false_iff_ne, beq_eq_false_iff_ne]

section
variable {token : Token} {rest a b : List Token}

/-! ### One token more in front -/

/-- An opening brace in front takes one closing brace, if one is left. -/
theorem surplus_cons_open (h : token.kind = .openBrace) :
    surplus (token :: rest) = surplus rest - 1 := by
  rw [surplus, h]

/-- A closing brace in front is one more without a match. -/
theorem surplus_cons_close (h : token.kind = .closeBrace) :
    surplus (token :: rest) = surplus rest + 1 := by
  rw [surplus, h]

theorem surplus_cons (h : token.isBrace = false) : surplus (token :: rest) = surplus rest := by
  obtain ⟨ho, hc⟩ := Token.isBrace_eq_false_iff.1 h
  rw [surplus]
  split
  · next hk => exact absurd hk ho
  · next hk => exact absurd hk hc
  · rfl

/-- An opening brace has no match if none is left behind it. -/
theorem unmatched_cons_free (h : token.kind = .openBrace) (hs : surplus rest = 0) :
    unmatched (token :: rest) = token :: unmatched rest := by
  rw [unmatched, if_pos ⟨h, hs⟩]

theorem unmatched_cons_taken (hs : surplus rest ≠ 0) :
    unmatched (token :: rest) = unmatched rest := by
  rw [unmatched, if_neg fun h => hs h.2]

/-- Only an opening brace in front can be without a match. -/
theorem unmatched_cons (h : token.kind ≠ .openBrace) :
    unmatched (token :: rest) = unmatched rest := by
  rw [unmatched, if_neg fun hk => h hk.1]

/-- A token is an opening brace, a closing one, or neither. -/
theorem Token.brace_cases (token : Token) :
    token.kind = .openBrace ∨ token.kind = .closeBrace ∨ token.isBrace = false := by
  cases hb : token.isBrace with
  | false => exact .inr (.inr rfl)
  | true =>
      rw [isBrace, Bool.or_eq_true, beq_iff_eq, beq_iff_eq] at hb
      exact hb.imp_right .inl

/-! ### Side by side -/

/-- **Closing braces that are free among the second tokens** match the opening ones that the first
tokens leave, as far as these go. -/
theorem surplus_append (a b : List Token) :
    surplus (a ++ b) = surplus a + (surplus b - (unmatched a).length) := by
  induction a with
  | nil => rw [List.nil_append, surplus, unmatched, List.length_nil]; omega
  | cons token a ih =>
      rw [List.cons_append]
      rcases token.brace_cases with ho | hc | hn
      · rw [surplus_cons_open ho, surplus_cons_open ho, ih]
        by_cases hs : surplus a = 0
        · rw [unmatched_cons_free ho hs, List.length_cons]; omega
        · rw [unmatched_cons_taken hs]; omega
      · rw [surplus_cons_close hc, surplus_cons_close hc, ih, unmatched_cons (by simp [hc])]
        omega
      · rw [surplus_cons hn, surplus_cons hn, ih,
          unmatched_cons (Token.isBrace_eq_false_iff.1 hn).1]

/-- **What the first tokens leave open** is taken by the closing braces behind it, the last first. -/
theorem unmatched_append (a b : List Token) :
    unmatched (a ++ b) =
      (unmatched a).take ((unmatched a).length - surplus b) ++ unmatched b := by
  induction a with
  | nil => rw [List.nil_append, show unmatched [] = [] from rfl, List.take_nil, List.nil_append]
  | cons token a ih =>
      rw [List.cons_append]
      by_cases ho : token.kind = .openBrace
      · have hab := surplus_append a b
        by_cases hs : surplus a = 0
        · rw [unmatched_cons_free ho hs, List.length_cons]
          by_cases hb : surplus b ≤ (unmatched a).length
          · rw [unmatched_cons_free ho (by omega), ih, Nat.succ_sub hb, List.take_succ_cons,
              List.cons_append]
          · -- all that the first tokens leave is taken, this brace too
            rw [unmatched_cons_taken (by omega), ih, show (unmatched a).length - surplus b = 0 by omega,
              show (unmatched a).length + 1 - surplus b = 0 by omega, List.take_zero, List.take_zero]
        · rw [unmatched_cons_taken hs, unmatched_cons_taken (by omega), ih]
      · rw [unmatched_cons ho, unmatched_cons ho, ih]

/-- All braces of either sort are matched, or left over. -/
theorem opened_add_surplus (tokens : List Token) :
    opened tokens + surplus tokens = closed tokens + (unmatched tokens).length := by
  induction tokens with
  | nil => rfl
  | cons token rest ih =>
      rw [opened, closed] at ih ⊢
      rw [List.countP_cons, List.countP_cons]
      rcases token.brace_cases with ho | hc | hn
      · rw [surplus_cons_open ho]
        by_cases hs : surplus rest = 0
        · rw [unmatched_cons_free ho hs, List.length_cons]
          simp [ho]; omega
        · rw [unmatched_cons_taken hs]
          simp [ho]; omega
      · rw [surplus_cons_close hc, unmatched_cons (by simp [hc])]
        simp [hc]; omega
      · obtain ⟨ho, hc⟩ := Token.isBrace_eq_false_iff.1 hn
        rw [surplus_cons hn, unmatched_cons ho]
        simp [ho, hc]; omega

/-! ### One token more behind -/

theorem unmatched_concat_open (tokens : List Token) (h : token.kind = .openBrace) :
    unmatched (tokens ++ [token]) = unmatched tokens ++ [token] := by
  have hs : surplus [token] = 0 := by rw [surplus_cons_open h]; rfl
  have hu : unmatched [token] = [token] := by rw [unmatched_cons_free h rfl]; rfl
  rw [unmatched_append, hs, hu, Nat.sub_zero, List.take_length]

theorem surplus_concat_open (tokens : List Token) (h : token.kind = .openBrace) :
    surplus (tokens ++ [token]) = surplus tokens := by
  have hs : surplus [token] = 0 := by rw [surplus_cons_open h]; rfl
  rw [surplus_append, hs, Nat.zero_sub, Nat.add_zero]

/-- A closing brace at the end matches the last opening one that had none. -/
theorem unmatched_concat_close (tokens : List Token) (h : token.kind = .closeBrace) :
    unmatched (tokens ++ [token]) = (unmatched tokens).dropLast := by
  have hs : surplus [token] = 1 := by rw [surplus_cons_close h]; rfl
  have hu : unmatched [token] = [] := by rw [unmatched_cons (by simp [h])]; rfl
  rw [unmatched_append, hs, hu, List.append_nil, List.dropLast_eq_take]

theorem surplus_concat_close {tokens : List Token} (h : token.kind = .closeBrace)
    (hu : unmatched tokens ≠ []) : surplus (tokens ++ [token]) = surplus tokens := by
  have hl := List.length_pos_iff.2 hu
  rw [surplus_append, surplus_cons_close h, show surplus [] = 0 from rfl]
  omega

/-! ### Balanced tokens -/

/-- Every brace among the tokens has its match among them. -/
def Balanced (tokens : List Token) : Prop := surplus tokens = 0 ∧ unmatched tokens = []

/-- Tokens without braces are balanced. -/
theorem balanced_of_isBrace {tokens : List Token} (h : ∀ token ∈ tokens, token.isBrace = false) :
    Balanced tokens := by
  induction tokens with
  | nil => exact ⟨rfl, rfl⟩
  | cons token rest ih =>
      have hn := h token List.mem_cons_self
      obtain ⟨hs, hu⟩ := ih fun t ht => h t (List.mem_cons_of_mem _ ht)
      exact ⟨by rw [surplus_cons hn, hs],
        by rw [unmatched_cons (Token.isBrace_eq_false_iff.1 hn).1, hu]⟩

/-- Balanced tokens in front do not matter. -/
theorem Balanced.surplus_append (h : Balanced a) (b : List Token) : surplus (a ++ b) = surplus b := by
  rw [Restyle.surplus_append, h.1, h.2]
  simp

/-- Balanced tokens in front match no brace behind them. -/
theorem Balanced.unmatched_append (h : Balanced a) (b : List Token) :
    unmatched (a ++ b) = unmatched b := by
  rw [Restyle.unmatched_append, h.2, List.take_nil, List.nil_append]

/-- Balanced tokens behind do not matter. -/
theorem Balanced.append_surplus (a : List Token) (h : Balanced b) : surplus (a ++ b) = surplus a := by
  rw [Restyle.surplus_append, h.1, Nat.zero_sub, Nat.add_zero]

/-- Balanced tokens at the end match no brace before them. -/
theorem Balanced.append_unmatched (a : List Token) (h : Balanced b) :
    unmatched (a ++ b) = unmatched a := by
  rw [Restyle.unmatched_append, h.1, h.2, Nat.sub_zero, List.take_length, List.append_nil]

theorem Balanced.append (ha : Balanced a) (hb : Balanced b) : Balanced (a ++ b) :=
  ⟨by rw [ha.surplus_append, hb.1], by rw [ha.unmatched_append, hb.2]⟩

/-- A block with a balanced body is balanced. -/
theorem Balanced.block {brace close : Token} {inner : List Token} (ho : brace.kind = .openBrace)
    (h : Balanced inner) (hc : close.kind = .closeBrace) : Balanced (brace :: (inner ++ [close])) := by
  have hs : surplus (inner ++ [close]) = 1 := by
    rw [h.surplus_append, surplus_cons_close hc]
    rfl
  refine ⟨by rw [surplus_cons_open ho, hs], ?_⟩
  rw [unmatched_cons_taken (by omega), h.unmatched_append, unmatched_cons (by simp [hc])]
  rfl

end

end Restyle
