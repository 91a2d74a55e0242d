import Mathlib.Data.List.TakeWhile
import Restyle.Proofs.Sheet.Items
import Restyle.Proofs.Text.Trailing

/-!
# How a declaration is laid out

A run that is a declaration has five parts in a row: the property, white space, a colon, white space
and the value.  A `Layout` is a run cut so.

* `Declaration.ofRun?_eq_some_iff`: **a run is a declaration** just when it can be laid out, and its
  fields are the texts of the parts.
-/

namespace Restyle

theorem Token.isSpace_iff {token : Token} : token.isSpace = true ↔ token.kind = .space := by
  rw [Token.isSpace, beq_iff_eq]

/-! ### Layouts -/

/-- A run cut into the parts of a declaration. -/
structure Layout where
  prop : List Token
  /-- The white space before the colon. -/
  gap : List Token
  colon : Token
  /-- The white space after the colon. -/
  lead : List Token
  value : List Token
  prop_ne_nil : prop ≠ []
  prop_kind : ∀ token ∈ prop, token.kind ≠ .colon ∧ token.kind ≠ .space
  gap_kind : ∀ token ∈ gap, token.kind = .space
  colon_kind : colon.kind = .colon
  lead_kind : ∀ token ∈ lead, token.kind = .space
  value_kind : ∀ token, value.head? = some token → token.kind ≠ .space

namespace Layout

/-- The run that is laid out so. -/
def tokens (l : Layout) : List Token := l.prop ++ l.gap ++ l.colon :: (l.lead ++ l.value)

/-- The value without comments, with its mark if it has one. -/
def cleaned (l : Layout) : Text := Text.trim (Token.textOf (l.value.filter (!·.isComment)))

/-- The declaration that is laid out so. -/
def declaration (l : Layout) (before : Text) (semicolon : Bool) : Declaration where
  before := before
  prop := Token.textOf l.prop
  between := Token.textOf (l.gap ++ l.colon :: l.lead)
  value := (splitImportant l.cleaned).1
  important := (splitImportant l.cleaned).2
  spelling := some ⟨(splitImportant l.cleaned).1, Token.textOf l.value⟩
  semicolon := semicolon
  source := some (l.prop.head l.prop_ne_nil).span

/-- The first token belongs to the property. -/
theorem head_eq {l : Layout} {first : Token} {others : List Token}
    (h : l.tokens = first :: others) : l.prop.head l.prop_ne_nil = first := by
  obtain ⟨token, rest, hp⟩ := List.exists_cons_of_ne_nil l.prop_ne_nil
  simp only [tokens, hp, List.cons_append, List.cons.injEq] at h
  simp only [hp, List.head_cons, h.1]

/-- The colon of the declaration is the first one in its run. -/
theorem not_colon (l : Layout) : ∀ token ∈ l.prop ++ l.gap, (token.kind != .colon) = true := by
  intro token ht
  rcases List.mem_append.1 ht with ht | ht
  · simpa using (l.prop_kind token ht).1
  · simp [l.gap_kind token ht]

/-- What stands before the colon is the property and the blanks behind it. -/
theorem takeWhile_tokens (l : Layout) :
    l.tokens.takeWhile (·.kind != .colon) = l.prop ++ l.gap := by
  rw [tokens, List.takeWhile_append_of_pos l.not_colon,
    List.takeWhile_cons_of_neg (by simp [l.colon_kind]), List.append_nil]

/-- From the colon on stand the blanks before the value, and the value. -/
theorem dropWhile_tokens (l : Layout) :
    l.tokens.dropWhile (·.kind != .colon) = l.colon :: (l.lead ++ l.value) := by
  rw [tokens, List.dropWhile_append_of_pos l.not_colon,
    List.dropWhile_cons_of_neg (by simp [l.colon_kind])]

theorem prop_isSpace (l : Layout) : ∀ token ∈ l.prop, token.isSpace = false := by
  intro token ht
  rw [← Bool.not_eq_true, Token.isSpace_iff]
  exact (l.prop_kind token ht).2

theorem gap_isSpace (l : Layout) : ∀ token ∈ l.gap, token.isSpace = true := fun token ht =>
  Token.isSpace_iff.2 (l.gap_kind token ht)

/-- The blanks behind the colon end where the value starts. -/
theorem takeWhile_right (l : Layout) : (l.lead ++ l.value).takeWhile Token.isSpace = l.lead := by
  rw [List.takeWhile_append_of_pos fun t ht => Token.isSpace_iff.2 (l.lead_kind t ht)]
  cases hv : l.value with
  | nil => simp
  | cons token rest =>
      have hk := l.value_kind token (by rw [hv]; rfl)
      rw [List.takeWhile_cons_of_neg (by rwa [Token.isSpace_iff]), List.append_nil]

theorem dropWhile_right (l : Layout) : (l.lead ++ l.value).dropWhile Token.isSpace = l.value := by
  have h := List.takeWhile_append_dropWhile (p := Token.isSpace) (l := l.lead ++ l.value)
  rw [l.takeWhile_right] at h
  exact List.append_cancel_left h

/-- **A run with this layout** is read as the declaration. -/
theorem ofRun? (l : Layout) {first : Token} {others : List Token} (h : l.tokens = first :: others)
    (before : Text) (semicolon : Bool) :
    Declaration.ofRun? before first others semicolon = some (l.declaration before semicolon) := by
  have hp : (l.prop.isEmpty || l.prop.any Token.isSpace) = false := by
    rw [Bool.or_eq_false_iff, List.isEmpty_eq_false_iff, List.any_eq_false]
    exact ⟨l.prop_ne_nil, fun token ht => by simp [l.prop_isSpace token ht]⟩
  simp only [Declaration.ofRun?, ← h, dropWhile_tokens, takeWhile_tokens,
    dropTrailing_append l.prop_isSpace l.gap_isSpace,
    takeTrailing_append l.prop_isSpace l.gap_isSpace, hp, takeWhile_right, dropWhile_right,
    declaration, cleaned, head_eq h]
  rfl

end Layout

/-- A run with a property before its first colon can be laid out. -/
theorem exists_layout {prop gap right : List Token} {colon : Token} (hn : prop ≠ [])
    (hp : ∀ token ∈ prop, token.kind ≠ .colon ∧ token.kind ≠ .space)
    (hg : ∀ token ∈ gap, token.kind = .space) (hc : colon.kind = .colon) :
    ∃ l : Layout, l.tokens = prop ++ gap ++ colon :: right := by
  have hv : ∀ token, (right.dropWhile Token.isSpace).head? = some token → token.kind ≠ .space := by
    intro token ht hk
    have hd := List.head?_dropWhile_not Token.isSpace right
    rw [ht] at hd
    simp [Token.isSpace_iff.2 hk] at hd
  have hl : ∀ token ∈ right.takeWhile Token.isSpace, token.kind = .space :=
    fun token ht => Token.isSpace_iff.1 (List.mem_takeWhile_imp ht)
  refine ⟨⟨prop, gap, colon, _, _, hn, hp, hg, hc, hl, hv⟩, ?_⟩
  rw [Layout.tokens, List.takeWhile_append_dropWhile]

/-- What is taken for a declaration has a property before its first colon. -/
theorem Declaration.exists_layout_of_ofRun? {before : Text} {first : Token} {others : List Token}
    {semicolon : Bool} {decl : Declaration}
    (h : Declaration.ofRun? before first others semicolon = some decl) :
    ∃ l : Layout, l.tokens = first :: others := by
  have hrun := List.takeWhile_append_dropWhile (p := (·.kind != .colon)) (l := first :: others)
  have hleft := @List.mem_takeWhile_imp _ (·.kind != .colon) (first :: others)
  have hcolon := List.head?_dropWhile_not (·.kind != .colon) (first :: others)
  rw [Declaration.ofRun?] at h
  dsimp only at h
  generalize (first :: others).takeWhile _ = left at h hrun hleft
  split at h
  · cases h
  · next colon right hc =>
    rw [hc] at hrun hcolon
    have hcut : dropTrailing Token.isSpace left ++ takeTrailing Token.isSpace left = left :=
      List.rdropWhile_append_rtakeWhile
    by_cases hp : ((dropTrailing Token.isSpace left).isEmpty ||
        (dropTrailing Token.isSpace left).any Token.isSpace) = true
    · rw [if_pos hp] at h
      cases h
    · rw [Bool.or_eq_true, not_or] at hp
      rw [← hrun, ← hcut]
      refine exists_layout (by simpa using hp.1) (fun token ht => ⟨?_, fun hk => ?_⟩)
        (fun token ht => Token.isSpace_iff.1 (List.mem_rtakeWhile_imp ht)) (by simpa using hcolon)
      · rw [← hcut] at hleft
        simpa using hleft (List.mem_append_left _ ht)
      · exact hp.2 (List.any_eq_true.2 ⟨token, ht, Token.isSpace_iff.2 hk⟩)

/-- **A run is a declaration** just when it can be laid out, and then it is the declaration of its
layout. -/
theorem Declaration.ofRun?_eq_some_iff {before : Text} {first : Token} {others : List Token}
    {semicolon : Bool} {decl : Declaration} :
    Declaration.ofRun? before first others semicolon = some decl ↔
      ∃ l : Layout, l.tokens = first :: others ∧ decl = l.declaration before semicolon := by
  constructor
  · intro h
    obtain ⟨l, hl⟩ := Declaration.exists_layout_of_ofRun? h
    rw [l.ofRun? hl] at h
    exact ⟨l, hl, (Option.some.inj h).symm⟩
  · rintro ⟨l, hl, rfl⟩
    exact l.ofRun? hl before semicolon

end Restyle
