import Restyle.Proofs.Sheet.Revalue

/-!
# Revised sheets as edited texts

Giving values to declarations exchanges the spelling of each value for another, and leaves every
other character of the text alone.

* `Revised.mem_edits_iff`: there is an edit for each declaration that gets a value, and no other.
* `Edited n edits text text'`: the second text is the first with the edits carried out, where the
  first begins at byte `n`.
* `Items.edited`: revised items print as the edited text.
* `Sheet.edited_of_revised`: **a revised sheet prints as the text it was read from, edited**.
-/

namespace Restyle

/-! ### Which declarations are edited -/

/-- The declaration at the path gets the value, which is another one than it has. -/
def Gets (nodes nodes' : List Node) (path : List Nat) (decl : Declaration) (value : Text) : Prop :=
  Node.at? nodes path = some (.declaration decl) ∧
    Node.at? nodes' path = some (.declaration (decl.give value)) ∧ value ≠ decl.value

theorem not_gets_nil {nodes' : List Node} {path : List Nat} {decl : Declaration} {value : Text} :
    ¬ Gets [] nodes' path decl value := by
  rintro ⟨h, -⟩
  rw [Node.at?_nil] at h
  cases h

/-- A declaration that gets a value is the first node, or stands in it, or further on. -/
theorem exists_gets_cons {node node' : Node} {rest rest' : List Node} {decl : Declaration}
    {value : Text} :
    (∃ path, Gets (node :: rest) (node' :: rest') path decl value) ↔
      (node = .declaration decl ∧ node' = .declaration (decl.give value) ∧ value ≠ decl.value) ∨
        (∃ path, Gets node.children node'.children path decl value) ∨
        ∃ path, Gets rest rest' path decl value := by
  constructor
  · rintro ⟨path, h₁, h₂, hv⟩
    cases path with
    | nil => cases h₁
    | cons i path =>
        cases i with
        | succ i =>
            rw [Node.at?_cons_succ] at h₁ h₂
            exact .inr (.inr ⟨i :: path, h₁, h₂, hv⟩)
        | zero =>
            cases path with
            | nil => exact .inl ⟨Option.some.inj h₁, Option.some.inj h₂, hv⟩
            | cons j path =>
                rw [Node.at?_cons_zero] at h₁ h₂
                exact .inr (.inl ⟨j :: path, h₁, h₂, hv⟩)
  · rintro (⟨rfl, rfl, hv⟩ | ⟨path, h₁, h₂, hv⟩ | ⟨path, h₁, h₂, hv⟩)
    · exact ⟨[0], rfl, rfl, hv⟩
    · cases path with
      | nil => cases h₁
      | cons j path =>
          refine ⟨0 :: j :: path, ?_, ?_, hv⟩
          · rw [Node.at?_cons_zero, h₁]
          · rw [Node.at?_cons_zero, h₂]
    · cases path with
      | nil => cases h₁
      | cons i path =>
          refine ⟨(i + 1) :: path, ?_, ?_, hv⟩
          · rw [Node.at?_cons_succ, h₁]
          · rw [Node.at?_cons_succ, h₂]

/-- **The edits** are those of the declarations that get a value. -/
theorem Revised.mem_edits_iff {inside : Bool} {nodes nodes' : List Node} {edits : List Edit}
    (h : Revised inside nodes nodes' edits) {e : Edit} :
    e ∈ edits ↔ ∃ decl value, (∃ path, Gets nodes nodes' path decl value) ∧
      e = decl.edit value := by
  induction h with
  | nil => simp [not_gets_nil]
  | @leaf _ node rest rest' edits hn t ih =>
      -- the node itself keeps its value, and holds nothing
      have hc : node.children = [] := by
        cases node with
        | block => exact absurd rfl (hn _ _ _)
        | atStatement | declaration | comment => rfl
      have hself : ∀ decl value, ¬ (node = .declaration decl ∧
          node = .declaration (decl.give value) ∧ value ≠ decl.value) := by
        rintro decl value ⟨rfl, he, hv⟩
        exact hv (congrArg Declaration.value (Node.declaration.inj he)).symm
      simp only [exists_gets_cons, hc, not_gets_nil, exists_false, hself, false_or, ih]
  | @value decl value rest rest' edits _ _ hd t ih =>
      rw [List.mem_cons, ih]
      constructor
      · rintro (rfl | ⟨decl', value', hg, rfl⟩)
        · exact ⟨decl, value, exists_gets_cons.2 (.inl ⟨rfl, rfl, hd⟩), rfl⟩
        · exact ⟨decl', value', exists_gets_cons.2 (.inr (.inr hg)), rfl⟩
      · rintro ⟨decl', value', hg, rfl⟩
        rcases exists_gets_cons.1 hg with ⟨he, hv, -⟩ | ⟨path, hg⟩ | hg
        · cases he
          exact .inl (by rw [show value' = value from
            (congrArg Declaration.value (Node.declaration.inj hv)).symm])
        · exact absurd hg not_gets_nil
        · exact .inr ⟨decl', value', hg, rfl⟩
  | @block _ head after body body' rest rest' inner edits b t ihb ih =>
      rw [List.mem_append, ihb, ih]
      constructor
      · rintro (⟨decl, value, hg, rfl⟩ | ⟨decl, value, hg, rfl⟩)
        · exact ⟨decl, value, exists_gets_cons.2 (.inr (.inl hg)), rfl⟩
        · exact ⟨decl, value, exists_gets_cons.2 (.inr (.inr hg)), rfl⟩
      · rintro ⟨decl, value, hg, rfl⟩
        rcases exists_gets_cons.1 hg with ⟨he, -⟩ | hg | hg
        · cases he
        · exact .inl ⟨decl, value, hg, rfl⟩
        · exact .inr ⟨decl, value, hg, rfl⟩

/-! ### Edited texts -/

/-- The second text is the first one with the edits carried out, in order.  The first text begins at
byte `n`.  An edit stops in front of a semicolon or a closing brace; outside of the edits both texts
have the same characters. -/
inductive Edited : Nat → List Edit → Text → Text → Prop where
  | nil (n : Nat) : Edited n [] [] []
  | same {n : Nat} {edits : List Edit} {text text' : Text} (c : Char)
      (t : Edited (n + c.utf8Size) edits text text') : Edited n edits (c :: text) (c :: text')
  | edit {edits : List Edit} {text text' : Text} (e : Edit)
      (hs : text.head? = some ';' ∨ text.head? = some '}')
      (t : Edited (e.start + e.old.size) edits text text') :
      Edited e.start (e :: edits) (e.old ++ text) (e.new ++ text')

namespace Edited

variable {n : Nat} {edits : List Edit} {text text' : Text}

theorem append_same (front : Text) (h : Edited (n + front.size) edits text text') :
    Edited n edits (front ++ text) (front ++ text') := by
  induction front generalizing n with
  | nil => exact h
  | cons c front ih =>
      refine .same c (ih ?_)
      rwa [Text.size_cons, ← Nat.add_assoc] at h

/-- A declaration that gets a value is edited from behind its colon to its end. -/
theorem declaration {decl : Declaration} {value : Text}
    (hd : offsetOf decl.source = n + decl.before.size)
    (hs : decl.semicolon = false → text.head? = some '}')
    (h : Edited (n + decl.print.size) edits text text') :
    Edited n (decl.edit value :: edits) (decl.print ++ text)
      ((decl.give value).print ++ text') := by
  have hold : decl.print ++ text = (decl.before ++ (decl.prop ++ decl.between)) ++
      (decl.printValue ++ (printSemicolon decl.semicolon ++ text)) := by
    simp only [Declaration.print, List.append_assoc]
  have hnew : (decl.give value).print ++ text' = (decl.before ++ (decl.prop ++ decl.between)) ++
      (spellPlain value decl.important ++ (printSemicolon decl.semicolon ++ text')) := by
    simp only [Declaration.print, Declaration.give, Declaration.printValue, if_true,
      List.append_assoc]
  have hstop : (printSemicolon decl.semicolon ++ text).head? = some ';' ∨
      (printSemicolon decl.semicolon ++ text).head? = some '}' := by
    cases hb : decl.semicolon with
    | false => exact .inr (hs hb)
    | true => exact .inl rfl
  have hstart : n + (decl.before ++ (decl.prop ++ decl.between)).size = (decl.edit value).start := by
    rw [Declaration.edit, hd, Text.size_append, Nat.add_assoc]
  rw [hold, hnew]
  refine append_same _ ?_
  rw [hstart]
  refine .edit (decl.edit value) hstop (append_same _ ?_)
  have hend : (decl.edit value).start + (decl.edit value).old.size +
      (printSemicolon decl.semicolon).size = n + decl.print.size := by
    rw [← hstart, Declaration.print]
    simp only [Declaration.edit, Text.size_append]
    omega
  rw [hend]
  exact h

end Edited

/-- What a declaration was read from, as far as an edit asks. -/
theorem Node.ofStatement?_declaration {before : Text} {first : Token} {others : List Token}
    {semicolon : Bool} {decl : Declaration}
    (h : Node.ofStatement? before first others semicolon = some (.declaration decl)) :
    offsetOf decl.source = first.start.offset ∧ decl.before = before ∧
      decl.semicolon = semicolon := by
  obtain ⟨-, hd⟩ := Node.ofStatement?_eq_declaration_iff.1 h
  obtain ⟨l, hl, rfl⟩ := Declaration.ofRun?_eq_some_iff.1 hd
  refine ⟨?_, rfl, rfl⟩
  rw [Layout.declaration, Layout.head_eq hl]
  rfl

/-- A revised statement is an edited text, whatever follows: only a statement without a semicolon has
to stand in front of a closing brace. -/
theorem Revised.edited_statement {before : Text} {first : Token} {others : List Token}
    {semicolon inside : Bool} {node : Node} {rest nodes' : List Node} {edits : List Edit} {n : Nat}
    (h : Revised inside (node :: rest) nodes' edits)
    (hn : Node.ofStatement? before first others semicolon = some node)
    (hs : first.start.offset = n + before.size) :
    ∃ node' rest' own edits', nodes' = node' :: rest' ∧ edits = own ++ edits' ∧
      Revised inside rest rest' edits' ∧
      ∀ {later text text'}, (inside = true → semicolon = false → text.head? = some '}') →
        Edited (n + node.print.size) later text text' →
        Edited n (own ++ later) (node.print ++ text) (node'.print ++ text') := by
  rcases h.leaf_inv (Node.ofStatement?_ne_block hn) with ⟨rest', rfl, hr⟩ |
    ⟨decl, value, rest', edits', hi, rfl, rfl, rfl, -, -, hr⟩
  · exact ⟨node, rest', [], edits, rfl, rfl, hr, fun _ ht => ht.append_same node.print⟩
  · obtain ⟨ho, rfl, rfl⟩ := Node.ofStatement?_declaration hn
    refine ⟨_, rest', [decl.edit value], edits', rfl, rfl, hr, fun hc ht => ?_⟩
    exact ht.declaration (ho.trans hs) (hc hi)

/-- **Revised items print as the edited text.**  What follows them may be edited further. -/
theorem Items.edited {tokens : List Token} {nodes : List Node} {after : Text}
    (h : Items tokens nodes after) :
    ∀ {inside : Bool} {nodes' : List Node} {edits later : List Edit} {n m : Nat}
      {next next' : Text}, Revised inside nodes nodes' edits → Formed tokens → Abut n tokens m →
      (inside = true → next.head? = some '}') → Edited m later next next' →
      Edited n (edits ++ later) (Node.printAll nodes ++ (after ++ next))
        (Node.printAll nodes' ++ (after ++ next')) := by
  induction h with
  | @last fs hf =>
      intro inside nodes' edits later n m next next' hv _ ha _ hnext
      cases hv
      rw [ha.end_eq] at hnext
      exact hnext.append_same (Token.textOf fs)
  | loose _ _ _ hn =>
      intro inside nodes' edits later n m next next' hv hfm ha hin hnext
      obtain ⟨node', rest', own, edits', rfl, rfl, hrest, hedit⟩ :=
        hv.edited_statement hn ha.start_eq
      cases hrest
      rw [ha.end_eq, ← Node.print_loose hfm hn] at hnext
      have hown := hedit (fun hi _ => hin hi) hnext
      simpa [Node.printAll] using hown
  | statement _ _ _ _ hk hn _ ih =>
      intro inside nodes' edits later n m next next' hv hfm ha hin hnext
      obtain ⟨node', rest', own, edits', rfl, rfl, hrest, hedit⟩ :=
        hv.edited_statement hn ha.start_eq
      rw [statement_append] at hfm ha
      have htail := ih hrest hfm.append.2 ha.append_inv.2 hin hnext
      rw [← Node.print_statement hfm.append.1 hk hn] at htail
      have hown := hedit (fun _ hs => Bool.noConfusion hs) htail
      simpa [Node.printAll] using hown
  | comment _ hk _ ih =>
      intro inside nodes' edits later n m next next' hv hfm ha hin hnext
      obtain ⟨rest', rfl, hrest⟩ := hv.comment_inv
      rw [List.append_cons] at hfm ha
      have htail := ih hrest hfm.append.2 ha.append_inv.2 hin hnext
      rw [← Node.print_comment hfm.append.1 hk] at htail
      simpa [Node.printAll] using htail.append_same (Node.print _)
  | @block fs prelude inner rest brace close body nodes bodyAfter after hf h₁ hr hb _ hk _ ihi ih =>
      intro inside nodes' edits later n m next next' hv hfm ha hin hnext
      obtain ⟨body', rest', edits₁, edits₂, rfl, rfl, hvb, hvr⟩ := hv.block_inv
      have hct := (text_of_kind (hfm close (by simp))).2.2 hk
      rw [show fs ++ (prelude ++ brace :: (inner ++ close :: rest)) =
        (fs ++ (prelude ++ [brace])) ++ (inner ++ ([close] ++ rest)) by simp] at hfm ha
      obtain ⟨hfi, hfr⟩ := hfm.append.2.append
      obtain ⟨hai, har⟩ := ha.append_inv.2.append_inv
      have htail := ih hvr hfr.append.2 har.append_inv.2 hin hnext
      rw [Token.textOf_cons, Token.textOf_nil, List.append_nil, hct] at htail
      have hbody := ihi hvb hfi hai (fun _ => rfl) (htail.append_same ['}'])
      rw [← Head.print_opening hfm.append.1 hb] at hbody
      simpa [Node.printAll, Node.print] using hbody.append_same _

/-- **A revised sheet prints as the text it was read from, edited.**  The mark and every character
outside of the edits stay as they are. -/
theorem Sheet.edited_of_revised {dialect : Dialect} {source : Text} {sheet : Sheet}
    {nodes' : List Node} {edits : List Edit} (h : Sheet.parse dialect source = .ok sheet)
    (hv : Revised false sheet.nodes nodes' edits) :
    Edited 0 edits (Node.printAll sheet.nodes ++ sheet.after)
      (Node.printAll nodes' ++ sheet.after) := by
  obtain ⟨text, ls, -, hr, hi⟩ := Sheet.parse_eq_ok_iff.1 h
  have hed := hi.edited hv (formed_locate .start hr) (abut_locate .start ls) nofun (.nil _)
  simpa [Position.start] using hed

end Restyle
