import Restyle.Feature
import Restyle.Proofs.Token.Reads

/-!
# Where the dialects agree

Line comments and interpolations are all that the dialects differ in, and each begins with a pair of
characters.  A text without these pairs is the same text in both dialects.  Nothing of the lexer can
tell them apart: it looks at a text only through its suffixes, and a suffix has no more pairs than
the text.

* `Common text`: neither pair stands anywhere in the text.
* `Common.of_suffix`: **what a reader leaves of such a text** is such a text.
* `Lexeme.read_eq_of_common`, `lexemes_eq_of_common`: one lexeme, and then all of them, are the same
  in both dialects, and so are the failures.
* `Feature.dialects_agree`: **both dialects have the same tokens and the same sheet**, or the same
  error.
-/

namespace Restyle

/-- The text holds neither what begins a line comment nor what begins an interpolation. -/
structure Common (text : Text) : Prop where
  noLineComment : ¬ "//".toList <:+: text
  noInterpolation : ¬ "#\x7b".toList <:+: text

namespace Common

variable {text rest : Text} {c : Char}

/-- **What a reader leaves of the text** is common to the dialects too. -/
theorem of_suffix (h : Common text) (hs : rest <:+ text) : Common rest :=
  ⟨fun hi => h.noLineComment (hi.trans hs.isInfix), fun hi => h.noInterpolation (hi.trans hs.isInfix)⟩

theorem tail (h : Common (c :: rest)) : Common rest := h.of_suffix (List.suffix_cons c rest)

theorem ne_lineComment (h : Common (c :: rest)) : ¬ (c = '/' ∧ rest.head? = some '/') := by
  rintro ⟨rfl, hr⟩
  obtain ⟨more, rfl⟩ := List.head?_eq_some_iff.1 hr
  exact h.noLineComment (List.prefix_append "//".toList more).isInfix

theorem ne_interpolation (h : Common (c :: rest)) {more : Text} (hr : rest = '{' :: more) :
    c ≠ '#' := by
  rintro rfl
  subst hr
  exact h.noInterpolation (List.prefix_append "#\x7b".toList more).isInfix

/-! ### Words -/

/-- **The first characters** open the same in both dialects. -/
theorem opening_eq (h : Common (c :: rest)) : Opening.of .scss c rest = Opening.of .css c rest := by
  have hn : (c == '/' && rest.head? == some '/') = false := by
    rw [← Bool.not_eq_true, Bool.and_eq_true, beq_iff_eq, beq_iff_eq]
    exact h.ne_lineComment
  rw [Opening.of, Opening.of, hn]
  rfl

/-- A word ends at the same place in both dialects. -/
theorem endsWord_eq (h : Common text) : endsWord .scss text = endsWord .css text := by
  cases text with
  | nil => rfl
  | cons c rest => rw [endsWord, endsWord, h.opening_eq]

/-- The text of a word is the same in both dialects. -/
theorem wordBody_eq (h : Common text) : wordBody .scss text = wordBody .css text := by
  induction text with
  | nil => rw [wordBody, wordBody]
  | cons c rest ih =>
      have hscss : ∀ more, Dialect.scss = .scss → c = '#' → rest = '{' :: more → False :=
        fun more _ hc hr => h.ne_interpolation hr hc
      have hcss : ∀ more, Dialect.css = .scss → c = '#' → rest = '{' :: more → False := by
        intro _ hd
        cases hd
      rw [wordBody.eq_3 .scss c rest hscss, wordBody.eq_3 .css c rest hcss, h.endsWord_eq,
        ih h.tail]

theorem readWord_eq (h : Common text) : readWord .scss text = readWord .css text := by
  rw [readWord, readWord, h.wordBody_eq]

end Common

/-! ### Lexemes -/

/-- The same lexeme is read in both dialects. -/
theorem Lexeme.read_eq_of_common {c : Char} {rest : Text} (h : Common (c :: rest)) :
    Lexeme.read .scss c rest = Lexeme.read .css c rest := by
  rw [Lexeme.read, Lexeme.read, h.opening_eq, h.readWord_eq]

/-- **The lexemes are the same in both dialects**, or the failure is. -/
theorem lexemes_eq_of_common {text : Text} (h : Common text) :
    lexemes .scss text = lexemes .css text := by
  fun_induction lexemes .scss text with
  | case1 => rw [lexemes_nil]
  | case2 c rest failure hr =>
      rw [Lexeme.read_eq_of_common h] at hr
      rw [lexemes_cons_error hr]
  | case3 c rest lexeme later hr ih =>
      have hsuffix : later <:+ c :: rest := ⟨lexeme.text, Lexeme.text_append_of_read hr⟩
      rw [Lexeme.read_eq_of_common h] at hr
      rw [lexemes_cons hr, ih (h.of_suffix hsuffix)]

/-! ### Tokens and sheets -/

theorem Token.scan_eq_of_common {source : Text} (h : Common source) :
    Token.scan .scss source = Token.scan .css source := by
  rw [Token.scan, Token.scan, lexemes_eq_of_common h]

/-- What stands behind the mark is an end of the source. -/
theorem Sheet.suffix_of_splitMark {source text : Text} {bom : Bool}
    (h : Sheet.splitMark source = (bom, text)) : text <:+ source := by
  unfold Sheet.splitMark at h
  split at h
  · cases h
    exact List.suffix_rfl
  · split at h
    · cases h
      exact List.suffix_cons _ _
    · cases h
      exact List.suffix_rfl

theorem Sheet.parse_eq_of_common {source : Text} (h : Common source) :
    Sheet.parse .scss source = Sheet.parse .css source := by
  cases hm : Sheet.splitMark source with
  | mk bom text =>
      have htext := h.of_suffix (Sheet.suffix_of_splitMark hm)
      simp only [Sheet.parse, hm, Token.scan_eq_of_common htext]

/-- **The dialects agree** on a source in which no line comment and no interpolation can begin: it has
the same tokens in both, or the same error, and the same sheet, or the same error.  So all features
see the same sheet. -/
theorem Feature.dialects_agree {source : Text} (hl : ¬ "//".toList <:+: source)
    (hi : ¬ "#\x7b".toList <:+: source) :
    Token.tokenize .scss source = Token.tokenize .css source ∧
      Sheet.parse .scss source = Sheet.parse .css source ∧
      ∀ feature other : Feature,
        Sheet.parse feature.dialect source = Sheet.parse other.dialect source := by
  have h : Common source := ⟨hl, hi⟩
  have hsheet := Sheet.parse_eq_of_common h
  refine ⟨?_, hsheet, fun feature other => ?_⟩
  · rw [Token.tokenize, Token.tokenize, Token.scan_eq_of_common h]
  · cases feature <;> cases other
    · rfl
    · exact hsheet
    · exact hsheet.symm
    · rfl

/-- Slashes and number signs that begin nothing, a comment, a url, and a string that is never closed:
the error is the same. -/
theorem Feature.dialects_agree_sample :
    (¬ "//".toList <:+: "a/ /**/# \x7b url(/b/) #c/'/".toList ∧
      ¬ "#\x7b".toList <:+: "a/ /**/# \x7b url(/b/) #c/'/".toList) ∧
    Token.tokenize .scss "a/ /**/# \x7b url(/b/) #c/'/".toList =
      Token.tokenize .css "a/ /**/# \x7b url(/b/) #c/'/".toList ∧
    (Token.tokenize .css "a/ /**/# \x7b url(/b/) #c/'/".toList).isOk = false := by
  generalize hs : "a/ /**/# \x7b url(/b/) #c/'/".toList = source
  have hl : ¬ "//".toList <:+: source := by subst hs; decide +kernel
  have hi : ¬ "#\x7b".toList <:+: source := by subst hs; decide +kernel
  have ho : (Token.tokenize .css source).isOk = false := by subst hs; decide +kernel
  exact ⟨⟨hl, hi⟩, (Feature.dialects_agree hl hi).1, ho⟩

end Restyle
