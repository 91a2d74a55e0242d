import Restyle.Proofs.Sheet.Exchanged
import Restyle.Proofs.Sheet.Revalue

/-!
# Assigning a value and a mark

A declaration may be given a value and be made important or not.  The text of the sheet is then read
as the edited sheet in all but two cases.  A value that is assigned again is printed as it was
spelled, with its old mark or without.  And a property may leave a parenthesis open; if a semicolon
ends the declaration, a value that does not close it hides that semicolon.

* `SimpleValue`: words of letters, digits, dots, hyphens and underscores.
* `Sheet.SameBut path a b`: the sheets differ in places and in one spelling at most.
* `Stated.leftOpen_eq_zero_of_value`: no parenthesis is left open for a value that closes none.
* `Sheet.assign_readsBack_iff`: **when the edited sheet is read back**.
-/

namespace Restyle

/-! ### Simple values -/

/-- The characters of the words of a simple value. -/
def isValueChar (c : Char) : Bool := c.isAlphanum || c == '.' || c == '-' || c == '_'

/-- One or more words with single spaces between them. -/
def SimpleValue (value : Text) : Prop :=
  ∃ words, words ≠ [] ∧ (∀ word ∈ words, word ≠ [] ∧ word.all isValueChar = true) ∧
    value = [' '].intercalate words

theorem lt_of_isAlphanum {c : Char} (h : c.isAlphanum = true) : c.toNat < 128 := by
  have hle : ∀ d : Char, d.toNat < 128 → c.val ≤ d.val → c.toNat < 128 :=
    fun d hd hc => Nat.lt_of_le_of_lt (UInt32.le_iff_toNat_le.1 hc) hd
  rcases Bool.or_eq_true_iff.1 h with h | h
  · rcases Bool.or_eq_true_iff.1 h with h | h
    · exact hle 'Z' (by decide) (of_decide_eq_true h).2
    · exact hle 'z' (by decide) (of_decide_eq_true (Bool.and_eq_true_iff.1 h).2)
  · exact hle '9' (by decide) (of_decide_eq_true (Bool.and_eq_true_iff.1 h).2)

theorem lt_of_isValueChar {c : Char} (h : isValueChar c = true) : c.toNat < 128 := by
  simp only [isValueChar, Bool.or_eq_true, beq_iff_eq] at h
  rcases h with ((h | rfl) | rfl) | rfl
  · exact lt_of_isAlphanum h
  · decide
  · decide
  · decide

/-- The characters of simple values are plain, and none of them closes a parenthesis or begins a
mark of importance. -/
theorem isValueChar_spec {c : Char} (h : isValueChar c = true) :
    isPlain c = true ∧ c.toLower ≠ '!' ∧ c ≠ ')' := by
  have hall : ∀ n < 128, isValueChar (Char.ofNat n) = true →
      isPlain (Char.ofNat n) = true ∧ (Char.ofNat n).toLower ≠ '!' ∧ Char.ofNat n ≠ ')' := by
    decide +kernel
  have hc := hall c.toNat (lt_of_isValueChar h)
  rw [Char.ofNat_toNat] at hc
  exact hc h

namespace SimpleValue

variable {value : Text}

theorem phrase (h : SimpleValue value) : Phrase value := by
  obtain ⟨words, hn, hw, rfl⟩ := h
  induction words with
  | nil => exact absurd rfl hn
  | cons word words ih =>
      obtain ⟨hne, hall⟩ := hw word List.mem_cons_self
      obtain ⟨c, rest, rfl⟩ := List.exists_cons_of_ne_nil hne
      have hfirst : Phrase (c :: rest) :=
        .word fun d hd => (isValueChar_spec (List.all_eq_true.1 hall d hd)).1
      cases words with
      | nil => rwa [List.intercalate_singleton]
      | cons word' words =>
          rw [List.intercalate_cons_cons, List.append_assoc]
          exact hfirst.append (ih (by simp) fun w h => hw w (List.mem_cons_of_mem _ h))

theorem mem (h : SimpleValue value) {c : Char} (hc : c ∈ value) :
    isValueChar c = true ∨ c = ' ' := by
  obtain ⟨words, hn, hw, rfl⟩ := h
  induction words with
  | nil => exact absurd rfl hn
  | cons word words ih =>
      have hfirst : c ∈ word → isValueChar c = true :=
        List.all_eq_true.1 (hw word List.mem_cons_self).2 c
      cases words with
      | nil => exact .inl (hfirst (by rwa [List.intercalate_singleton] at hc))
      | cons word' words =>
          rw [List.intercalate_cons_cons, List.append_assoc, List.mem_append] at hc
          rcases hc with hc | hc
          · exact .inl (hfirst hc)
          · rcases List.mem_cons.1 hc with rfl | hc
            · exact .inr rfl
            · exact ih (by simp) (fun w h => hw w (List.mem_cons_of_mem _ h)) hc

theorem ne_paren (h : SimpleValue value) : ')' ∉ value := by
  intro hc
  rcases h.mem hc with hv | hv
  · exact (isValueChar_spec hv).2.2 rfl
  · exact absurd hv (by decide)

/-- **A simple value is read as itself.** -/
theorem plain (h : SimpleValue value) : PlainValue value := by
  refine ⟨h.phrase, ?_⟩
  rw [splitImportant]
  refine if_neg fun hs => ?_
  -- the mark begins with a character that is in no simple value, whatever its case
  have hm : '!' ∈ (value.drop (value.length - importantMark.length)).map Char.toLower := by
    rw [eq_of_beq hs]
    decide
  obtain ⟨c, hc, hl⟩ := List.mem_map.1 hm
  rcases h.mem (List.mem_of_mem_drop hc) with hv | rfl
  · exact (isValueChar_spec hv).2.1 hl
  · exact absurd hl (by decide)

end SimpleValue

/-! ### Values that close no parenthesis -/

theorem mem_dropWhile {α : Type} {p : α → Bool} {x : α} {xs : List α} (h : x ∈ xs)
    (hx : p x = false) : x ∈ xs.dropWhile p := by
  rw [← List.takeWhile_append_dropWhile (p := p) (l := xs), List.mem_append] at h
  refine h.resolve_left fun ht => ?_
  rw [List.mem_takeWhile_imp ht] at hx
  cases hx

/-- A value keeps every character that is no blank and does not belong to its mark. -/
theorem mem_splitImportant {text : Text} {c : Char} (h : c ∈ text) (hb : isBlank c = false)
    (hm : c.toLower ∉ importantMark.map Char.toLower) : c ∈ (splitImportant text).1 := by
  rw [splitImportant]
  split
  · next hs =>
    rw [← List.take_append_drop (text.length - importantMark.length) text, List.mem_append] at h
    refine mem_dropTrailing (h.resolve_right fun hd => hm ?_) hb
    rw [← eq_of_beq hs]
    exact List.mem_map_of_mem hd
  · exact h

/-- Without a closing parenthesis the depth does not go down. -/
theorem le_depthThrough {run : List Token} (h : ∀ token ∈ run, token.kind ≠ .closeParen)
    (depth : Nat) : depth ≤ depthThrough depth run := by
  induction run generalizing depth with
  | nil => exact Nat.le_refl depth
  | cons token run ih =>
      have hd : depth ≤ token.depthAfter depth := by
        have hk := h token List.mem_cons_self
        unfold Token.depthAfter
        cases ht : token.kind <;> simp_all
      exact Nat.le_trans hd (ih (fun t ht => h t (List.mem_cons_of_mem _ ht)) _)

/-- A value that holds no closing parenthesis has no token for one. -/
theorem Layout.ne_closeParen {l : Layout} {before : Text} {semicolon : Bool}
    (hf : Formed l.value) (hv : ')' ∉ (l.declaration before semicolon).value) :
    ∀ token ∈ l.value, token.kind ≠ .closeParen := by
  intro token ht hk
  have htext : token.text = [')'] := by simpa only [Lexeme.Formed, hk] using hf token ht
  have hmem : ')' ∈ Token.textOf (l.value.filter (!·.isComment)) := by
    refine List.mem_flatMap.2 ⟨token, List.mem_filter.2 ⟨ht, ?_⟩, ?_⟩
    · simp [Token.isComment, hk]
    · simp [htext]
  have hblank : isBlank ')' = false := by decide
  have hclean : ')' ∈ l.cleaned := mem_dropTrailing (mem_dropWhile hmem hblank) hblank
  exact hv (mem_splitImportant hclean hblank (by decide))

/-- **No parenthesis is left open for a value that closes none**, if a semicolon ends the
declaration. -/
theorem Stated.leftOpen_eq_zero_of_value {dialect : Dialect} {fs others : List Token}
    {first : Token} {next : Text} {decl : Declaration}
    (h : Stated dialect fs first others next decl) (hs : decl.semicolon = true)
    (hv : ')' ∉ decl.value) : decl.leftOpen dialect = 0 := by
  obtain ⟨l, hl, hd⟩ := h.exists_layout
  have hf : Formed l.value := fun token hm =>
    h.read.formed token (by simp [← hl, Layout.tokens, hm])
  rw [hd] at hv
  have hnone : ∀ token ∈ ([] : List Token), token.kind = .word ∨ token.kind = .space :=
    fun token hm => absurd hm List.not_mem_nil
  have hcut : first :: others = l.prop ++ ((l.gap ++ l.colon :: (l.lead ++ [])) ++ l.value) := by
    rw [← hl, Layout.tokens]
    simp
  have hdepth := h.depth hs
  rw [hcut, depthThrough_append, depthThrough_append, (l.unbroken_behind_prop hnone _).2] at hdepth
  have hle := le_depthThrough (Layout.ne_closeParen hf hv) (depthThrough 0 l.prop)
  rw [hdepth] at hle
  rw [h.leftOpen_eq hl hd]
  exact Nat.le_zero.1 hle

/-! ### Sheets that differ in one spelling -/

/-- The declaration without its place and without how its value was spelled. -/
def Declaration.told (decl : Declaration) : Declaration :=
  { decl with spelling := none, source := none }

/-- The declaration without how its value was spelled. -/
def Node.unspelled : Node → Except EditError Node
  | .declaration decl => .ok (.declaration { decl with spelling := none })
  | _                 => .error .notDeclaration

/-- The two sheets have a declaration at the path.  They are the same but for places, and for how
the value of that declaration is spelled. -/
def Sheet.SameBut (path : List Nat) (a b : Sheet) : Prop :=
  ∃ bare, a.unplaced.modify path Node.unspelled = .ok bare ∧
    b.unplaced.modify path Node.unspelled = .ok bare

theorem Node.unspelled_eq_ok_iff {node node' : Node} :
    node.unspelled = .ok node' ↔
      ∃ decl, node = .declaration decl ∧ node' = .declaration { decl with spelling := none } := by
  cases node with
  | declaration decl =>
      constructor
      · intro h
        cases h
        exact ⟨decl, rfl, rfl⟩
      · rintro ⟨_, h, rfl⟩
        cases h
        rfl
  | block | atStatement | comment =>
      constructor
      · intro h
        cases h
      · rintro ⟨_, h, -⟩
        cases h

/-- What stands at the path when the spelling there is forgotten. -/
theorem Sheet.told_of_modify {sheet bare : Sheet} {path : List Nat}
    (h : sheet.unplaced.modify path Node.unspelled = .ok bare) :
    ∃ decl, sheet.at? path = some (.declaration decl) ∧
      bare.at? path = some (.declaration decl.told) := by
  obtain ⟨old, new, hc, hx, -⟩ := Sheet.modify_eq_ok_iff.1 h
  obtain ⟨decl', rfl, rfl⟩ := Node.unspelled_eq_ok_iff.1 hc
  have hold : (sheet.at? path).map Node.unplaced = some (.declaration decl') := by
    rw [Sheet.at?, ← Node.at?_unplacedAll]
    exact hx.at?.1
  obtain ⟨node, hn, hu⟩ := Option.map_eq_some_iff.1 hold
  cases node with
  | declaration decl => cases hu; exact ⟨decl, hn, hx.at?.2⟩
  | block | atStatement | comment => cases hu

namespace Sheet.SameBut

variable {a b : Sheet} {path : List Nat} {decl decl' : Declaration}

/-- The declarations at the path are the same, but for place and spelling. -/
theorem told (h : a.SameBut path b) (hb : b.at? path = some (.declaration decl')) :
    ∃ decl, a.at? path = some (.declaration decl) ∧ decl.told = decl'.told := by
  obtain ⟨bare, h₁, h₂⟩ := h
  obtain ⟨decl, hd, hbare⟩ := Sheet.told_of_modify h₁
  obtain ⟨decl'', hd'', hbare'⟩ := Sheet.told_of_modify h₂
  rw [hb] at hd''
  cases hd''
  rw [hbare] at hbare'
  exact ⟨decl, hd, Node.declaration.inj (Option.some.inj hbare')⟩

/-- Declarations that differ in place and spelling can be exchanged. -/
theorem of_exchanged
    (hx : Exchanged (.declaration decl) (.declaration decl') path a.nodes b.nodes)
    (hb : b.bom = a.bom) (ha : b.after = a.after) (hd : decl.told = decl'.told) :
    a.SameBut path b := by
  have hu := hx.unplacedAll
  obtain ⟨nodes, hbare⟩ := Exchanged.exists_of_at? hu.at?.1 (.declaration decl.told)
  refine ⟨⟨a.bom, nodes, a.after⟩, Sheet.modify_eq_ok_iff.2 ⟨_, _, rfl, hbare, rfl, rfl⟩,
    Sheet.modify_eq_ok_iff.2 ⟨_, _, ?_, hu.symm.trans hbare, hb.symm, ha.symm⟩⟩
  rw [hd]
  rfl

end Sheet.SameBut

/-! ### Assigning -/

/-- The declaration with another value and mark.  It remembers the spelling of the old value. -/
def Declaration.assigned (decl : Declaration) (value : Text) (important : Bool) : Declaration :=
  { decl with value := value, important := important }

/-- The sheet with a value and a mark assigned to the declaration at the path. -/
def Sheet.assign (sheet : Sheet) (path : List Nat) (value : Text) (important : Bool) :
    Except EditError Sheet :=
  match sheet.modify path (Node.setValue value) with
  | .error e   => .error e
  | .ok sheet' => sheet'.modify path (Node.setImportant important)

theorem Sheet.exists_assign {sheet : Sheet} {path : List Nat} {decl : Declaration}
    (h : sheet.at? path = some (.declaration decl)) (value : Text) (important : Bool) :
    ∃ edited, sheet.assign path value important = .ok edited ∧
      edited.bom = sheet.bom ∧ edited.after = sheet.after ∧
      Exchanged (.declaration decl) (.declaration (decl.assigned value important)) path
        sheet.nodes edited.nodes := by
  obtain ⟨nodes, hx⟩ := Exchanged.exists_of_at? h (.declaration { decl with value := value })
  obtain ⟨nodes', hx'⟩ :=
    Exchanged.exists_of_at? hx.at?.2 (.declaration (decl.assigned value important))
  have h₁ : sheet.modify path (Node.setValue value) = .ok ⟨sheet.bom, nodes, sheet.after⟩ :=
    Sheet.modify_eq_ok_iff.2 ⟨_, _, rfl, hx, rfl, rfl⟩
  have h₂ : Sheet.modify ⟨sheet.bom, nodes, sheet.after⟩ path (Node.setImportant important) =
      .ok ⟨sheet.bom, nodes', sheet.after⟩ :=
    Sheet.modify_eq_ok_iff.2 ⟨_, _, rfl, hx', rfl, rfl⟩
  refine ⟨⟨sheet.bom, nodes', sheet.after⟩, ?_, rfl, rfl, hx.trans hx'⟩
  rw [Sheet.assign, h₁]
  exact h₂

/-- The declarations are told anew in the place where they are exchanged. -/
theorem Exchanged.retold {R : Declaration → Declaration → Prop} {decl decl' : Declaration}
    {path : List Nat} {nodes nodes' : List Node}
    (h : Exchanged (.declaration decl) (.declaration decl') path nodes nodes')
    (hr : R decl decl') : Retold R nodes nodes' := by
  induction h with
  | here rest => exact .declaration hr (.refl rest)
  | later node _ ih => exact .keep node ih
  | inside head after rest _ ih => exact .inside head after ih (.refl rest)

section
variable {decl : Declaration} {value : Text}

/-- A value that is assigned again is printed as it was spelled. -/
theorem Declaration.print_assigned_same (h : decl.respelled = decl) (important : Bool) :
    (decl.assigned decl.value important).print = decl.print := by
  have hs : decl.spelling = some ⟨decl.value, decl.printValue⟩ :=
    (congrArg Declaration.spelling h).symm
  have hp : (decl.assigned decl.value important).printValue = decl.printValue := by
    rw [Declaration.printValue, Declaration.assigned]
    simp only [hs, if_true]
  rw [Declaration.print, hp]
  rfl

/-- Another value is printed plainly. -/
theorem Declaration.print_assigned (h : decl.respelled = decl) (hv : value ≠ decl.value)
    (important : Bool) :
    (decl.assigned value important).print = (decl.tell value important).print := by
  have hs : decl.spelling = some ⟨decl.value, decl.printValue⟩ :=
    (congrArg Declaration.spelling h).symm
  have hp : (decl.assigned value important).printValue = spellPlain value important := by
    rw [Declaration.printValue, Declaration.assigned]
    simp only [hs, if_neg hv.symm]
    rfl
  have ht : (decl.tell value important).printValue = spellPlain value important := if_pos rfl
  rw [Declaration.print, Declaration.print, hp, ht]
  rfl

end

/-- The text of the sheet is read as that sheet, but for places and the spelling at the path. -/
def Sheet.ReadsBackBut (dialect : Dialect) (path : List Nat) (sheet : Sheet) : Prop :=
  ∃ again, Sheet.parse dialect sheet.print = .ok again ∧ again.SameBut path sheet

section
variable {dialect : Dialect} {source value : Text} {sheet edited : Sheet} {path : List Nat}
  {decl : Declaration} {important : Bool}

/-- Where the old value is assigned again, the text is that of the old sheet. -/
theorem Sheet.readsBackBut_same_iff (h : Sheet.parse dialect source = .ok sheet)
    (hd : sheet.at? path = some (.declaration decl)) (hb : edited.bom = sheet.bom)
    (ha : edited.after = sheet.after)
    (hx : Exchanged (.declaration decl) (.declaration (decl.assigned decl.value important)) path
      sheet.nodes edited.nodes) :
    edited.ReadsBackBut dialect path ↔ important = decl.important := by
  have hself := Node.declaration.inj (Node.respelled_of_at? (Sheet.respelledAll_of_parse h) hd)
  have hprint : edited.print = source := by
    rw [← Sheet.print_of_splitMark (Sheet.splitMark_of_parse h), Sheet.print, Sheet.print, hb, ha,
      hx.printAll_eq (Declaration.print_assigned_same hself important)]
  rw [Sheet.ReadsBackBut, hprint]
  constructor
  · rintro ⟨again, hp, hsame⟩
    rw [h] at hp
    cases hp
    obtain ⟨decl', hd', htold⟩ := hsame.told hx.at?.2
    rw [hd] at hd'
    cases hd'
    exact (congrArg Declaration.important htold).symm
  · rintro rfl
    exact ⟨sheet, h, .of_exchanged hx hb ha rfl⟩

/-- Another value is read back, unless it hides the semicolon behind it. -/
theorem Sheet.readsBackBut_other_iff (h : Sheet.parse dialect source = .ok sheet)
    (hd : sheet.at? path = some (.declaration decl)) (hv : SimpleValue value)
    (hne : value ≠ decl.value) (hb : edited.bom = sheet.bom) (ha : edited.after = sheet.after)
    (hx : Exchanged (.declaration decl) (.declaration (decl.assigned value important)) path
      sheet.nodes edited.nodes) :
    edited.ReadsBackBut dialect path ↔
      (decl.semicolon = true → decl.leftOpen dialect = 0) := by
  constructor
  · rintro ⟨again, hp, hsame⟩ hs
    obtain ⟨decl', hd', htold⟩ := hsame.told hx.at?.2
    obtain ⟨text, ls, -, hr, hi⟩ := Sheet.parse_eq_ok_iff.1 hp
    obtain ⟨fs, first, others, next, hst⟩ :=
      hi.stated (readBefore_locate .start hr) (Node.mem_partsAll_of_at? hd')
    have hsemicolon : decl'.told.semicolon = true :=
      (congrArg Declaration.semicolon htold).trans hs
    have hvalue : decl'.told.value = value := congrArg Declaration.value htold
    have hzero := hst.leftOpen_eq_zero_of_value hsemicolon (hvalue ▸ hv.ne_paren)
    -- what stands in front of the value is the same, and nothing else is counted
    have hopen : decl'.told.leftOpen dialect = 0 := hzero
    rw [htold] at hopen
    exact hopen
  · intro hopen
    have hself := Node.declaration.inj (Node.respelled_of_at? (Sheet.respelledAll_of_parse h) hd)
    -- the edited sheet, spelled as it prints
    obtain ⟨nodes, hx'⟩ :=
      Exchanged.exists_of_at? hx.at?.2 (.declaration (decl.tell value important))
    have hretold := (hx.trans hx').retold (Declaration.rereads_tell hv.plain important hopen)
    have hback : Sheet.ReadsBack dialect ⟨sheet.bom, nodes, sheet.after⟩ :=
      Sheet.readsBack_of_retold h rfl rfl hretold
    obtain ⟨again, hp, hu⟩ := hback
    have hprint : edited.print = Sheet.print ⟨sheet.bom, nodes, sheet.after⟩ := by
      rw [Sheet.print, Sheet.print, hb, ha,
        hx'.printAll_eq (Declaration.print_assigned hself hne important).symm]
    have hsame : Sheet.SameBut path ⟨sheet.bom, nodes, sheet.after⟩ edited :=
      .of_exchanged hx'.symm hb ha rfl
    refine ⟨again, hprint ▸ hp, ?_⟩
    rwa [Sheet.SameBut, ← hu] at hsame

end

/-- **When an assignment is read back.**  A value and a mark can be assigned to every declaration of
a sheet that was read.  If the value is the old one, the text is read as the edited sheet just when
the mark is the old one too.  Another value is read back unless a semicolon ends the declaration and
the property leaves a parenthesis open.  A sheet that is the same up to places and the spelling there
has the value and the mark. -/
theorem Sheet.assign_readsBack_iff {dialect : Dialect} {source value : Text} {sheet : Sheet}
    {path : List Nat} {decl : Declaration} (h : Sheet.parse dialect source = .ok sheet)
    (hd : sheet.at? path = some (.declaration decl)) (hv : SimpleValue value) (important : Bool) :
    ∃ edited, sheet.assign path value important = .ok edited ∧
      edited.at? path = some (.declaration (decl.assigned value important)) ∧
      (edited.ReadsBackBut dialect path ↔
        if value = decl.value then important = decl.important
        else decl.semicolon = true → decl.leftOpen dialect = 0) ∧
      ∀ again : Sheet, again.SameBut path edited →
        ∃ decl', again.at? path = some (.declaration decl') ∧
          decl'.value = value ∧ decl'.important = important := by
  obtain ⟨edited, hassign, hb, ha, hx⟩ := Sheet.exists_assign hd value important
  refine ⟨edited, hassign, hx.at?.2, ?_, fun again hsame => ?_⟩
  · split
    · next hvalue => subst hvalue; exact Sheet.readsBackBut_same_iff h hd hb ha hx
    · next hvalue => exact Sheet.readsBackBut_other_iff h hd hv hvalue hb ha hx
  · obtain ⟨decl', hd', htold⟩ := hsame.told hx.at?.2
    exact ⟨decl', hd', congrArg Declaration.value htold, congrArg Declaration.important htold⟩

/-- The old value was spelled with a comment and a mark, and both go. -/
theorem Sheet.assign_readsBack_iff_sample :
    ∃ sheet edited decl,
      Sheet.parse .scss ".a\x7bb: c/**/d !Important;e(:f\x7d".toList = .ok sheet ∧
      sheet.at? [0, 0] = some (.declaration decl) ∧ SimpleValue "x-1 y.z".toList ∧
      sheet.assign [0, 0] "x-1 y.z".toList false = .ok edited ∧
      edited.ReadsBackBut .scss [0, 0] ∧
      ∀ again : Sheet, again.SameBut [0, 0] edited →
        ∃ decl', again.at? [0, 0] = some (.declaration decl') ∧
          decl'.value = "x-1 y.z".toList ∧ decl'.important = false := by
  generalize hs : ".a\x7bb: c/**/d !Important;e(:f\x7d".toList = source
  generalize hv : "x-1 y.z".toList = value
  generalize hdecl : Declaration.mk [] ['b'] [':', ' '] ['c', 'd'] true
    (some ⟨['c', 'd'], "c/**/d !Important".toList⟩) true (some ⟨⟨3, 1, 4⟩, 4⟩) = decl
  have ho : (Sheet.parse .scss source).toOption.map (·.at? [0, 0]) =
      some (some (.declaration decl)) := by
    subst hs hdecl
    decide +kernel
  have hsimple : SimpleValue value := by
    subst hv
    exact ⟨["x-1".toList, "y.z".toList], by decide, by decide, by decide⟩
  have hplain : value ≠ decl.value ∧ decl.leftOpen .scss = 0 := by
    subst hv hdecl
    decide +kernel
  obtain ⟨sheet, h, hd⟩ := exists_of_map_toOption ho
  obtain ⟨edited, ha, -, hi, hback⟩ := Sheet.assign_readsBack_iff h hd hsimple false
  rw [if_neg hplain.1] at hi
  exact ⟨sheet, edited, decl, h, hd, hsimple, ha, hi.2 fun _ => hplain.2, hback⟩

/-- **Two ways to lose an assignment.**  A mark that is assigned with the old value is not printed.
And the old value may have closed a parenthesis that the property opens: without it the semicolon is
part of the value. -/
theorem Sheet.assign_not_readsBack :
    (∃ sheet edited, Sheet.parse .scss ".a \x7b x: 1; \x7d".toList = .ok sheet ∧
      sheet.assign [0, 0] ['1'] true = .ok edited ∧
      edited.print = ".a \x7b x: 1; \x7d".toList ∧ ¬ edited.ReadsBackBut .scss [0, 0]) ∧
    ∃ sheet edited, Sheet.parse .scss ".a \x7b b(: x); y: 1 \x7d".toList = .ok sheet ∧
      sheet.assign [0, 0] ['z'] false = .ok edited ∧
      edited.print = ".a \x7b b(: z; y: 1 \x7d".toList ∧ ¬ edited.ReadsBackBut .scss [0, 0] := by
  constructor
  · generalize hs : ".a \x7b x: 1; \x7d".toList = source
    have ho : (Sheet.parse .scss source).toOption.map (fun sheet =>
        (sheet.at? [0, 0], (sheet.assign [0, 0] ['1'] true).toOption.map Sheet.print)) =
        some (some (.declaration ⟨[' '], ['x'], [':', ' '], ['1'], false, some ⟨['1'], ['1']⟩,
          true, some ⟨⟨5, 1, 6⟩, 6⟩⟩), some source) := by
      subst hs
      decide +kernel
    obtain ⟨sheet, h, ho⟩ := exists_of_map_toOption ho
    obtain ⟨hd, hprint⟩ := Prod.mk.inj ho
    obtain ⟨edited, he, hb, ha, hx⟩ := Sheet.exists_assign hd ['1'] true
    rw [he] at hprint
    refine ⟨sheet, edited, h, he, Option.some.inj hprint, ?_⟩
    rw [Sheet.readsBackBut_same_iff h hd hb ha hx]
    decide
  · generalize hs : ".a \x7b b(: x); y: 1 \x7d".toList = source
    generalize hp : ".a \x7b b(: z; y: 1 \x7d".toList = printed
    have ho : (Sheet.parse .scss source).toOption.map (fun sheet =>
        (sheet.at? [0, 0], (sheet.assign [0, 0] ['z'] false).toOption.map Sheet.print)) =
        some (some (.declaration ⟨[' '], ['b', '('], [':', ' '], ['x', ')'], false,
          some ⟨['x', ')'], ['x', ')']⟩, true, some ⟨⟨5, 1, 6⟩, 6⟩⟩), some printed) := by
      subst hs hp
      decide +kernel
    obtain ⟨sheet, h, ho⟩ := exists_of_map_toOption ho
    obtain ⟨hd, hprint⟩ := Prod.mk.inj ho
    obtain ⟨edited, he, hb, ha, hx⟩ := Sheet.exists_assign hd ['z'] false
    rw [he] at hprint
    have hsimple : SimpleValue ['z'] := ⟨[['z']], by decide, by decide, by decide⟩
    refine ⟨sheet, edited, h, he, Option.some.inj hprint, ?_⟩
    rw [Sheet.readsBackBut_other_iff h hd hsimple (by decide) hb ha hx]
    decide +kernel

end Restyle
