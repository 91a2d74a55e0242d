import Mathlib.Data.List.Perm.Basic
import Restyle.Proofs.Prune.Removed
import Restyle.Proofs.Prune.Reread
import Restyle.Proofs.Sheet.Origin

/-!
# Where removal records point

A record names a block and a line.  Both can be checked against the text: there is a place on that
line where the named block begins.

* `Removal.PointsAt text n r`: the block that the record names begins at byte `n` of the text, on the
  line of the record.
* `Feature.clean_records_point`: **every record points at a block of the source**, each at another
  one.
-/

namespace Restyle

/-! ### What a head is made of -/

/-- White space stands behind the selector of a rule, and behind the name of an at-rule, which is a
name. -/
def Head.Made : Head → Prop
  | .rule head   => head.between.all isSpace = true
  | .atRule head =>
    head.name ≠ [] ∧ head.name.all isNameChar = true ∧ head.afterName.all isSpace = true

/-- The head of the node, if it has one, is made as heads are. -/
def Node.Made : Node → Prop
  | .block head _ _   => head.Made
  | .atStatement head => (Head.atRule head).Made
  | .declaration _    => True
  | .comment _        => True

theorem AtHead.made_ofRun {before name : Text} {word : Token} {run : List Token} {semicolon : Bool}
    (hk : word.kind = .atWord name) (hm : ∀ token ∈ word :: run, token.toLexeme.Made) :
    (Head.atRule (.ofRun before name word run semicolon)).Made := by
  have hword := hm word List.mem_cons_self
  simp only [Lexeme.Made, hk] at hword
  refine ⟨hword.1, hword.2, AtHead.gaps_ofRun (fun t ht => hm t ?_) _ List.mem_cons_self⟩
  exact List.mem_cons_of_mem _ ht

theorem RuleHead.made_ofPrelude {before : Text} {prelude : List Token} {brace : Token}
    (hm : ∀ token ∈ prelude, token.toLexeme.Made) :
    (Head.rule (.ofPrelude before prelude brace)).Made :=
  RuleHead.gaps_ofPrelude hm _ List.mem_cons_self

/-- What is read off a prelude is made as a head is, be it a rule or an at-rule. -/
theorem Head.made_ofPrelude {before : Text} {prelude : List Token} {brace : Token}
    (hm : ∀ token ∈ prelude, token.toLexeme.Made) : (Head.ofPrelude before prelude brace).Made := by
  unfold Head.ofPrelude
  split
  · exact RuleHead.made_ofPrelude hm
  · split
    · next hk => exact AtHead.made_ofRun hk hm
    · exact RuleHead.made_ofPrelude hm

theorem Node.made_ofStatement? {before : Text} {first : Token} {others : List Token}
    {semicolon : Bool} {node : Node} (hm : ∀ token ∈ first :: others, token.toLexeme.Made)
    (h : Node.ofStatement? before first others semicolon = some node) : node.Made := by
  rcases Node.ofStatement?_cases h with ⟨name, hk, rfl⟩ | ⟨decl, -, rfl⟩
  · exact AtHead.made_ofRun hk hm
  · trivial

/-- **Every head that was read** is made as heads are. -/
theorem Origin.made {tokens : List Token} {node : Node} (h : Origin tokens node)
    (hm : ∀ token ∈ tokens, token.toLexeme.Made) : node.Made := by
  cases h with
  | statement hs _ hn => exact Node.made_ofStatement? (fun t ht => hm t (hs (by simp [ht]))) hn
  | comment => trivial
  | block hs => exact Head.made_ofPrelude fun t ht => hm t (hs (by simp [ht]))

/-- **Heads that were read** are made as heads are. -/
theorem Items.made {tokens : List Token} {nodes : List Node} {after : Text}
    (h : Items tokens nodes after) (hm : ∀ token ∈ tokens, token.toLexeme.Made) :
    ∀ part ∈ Node.partsAll nodes, part.Made := fun part hp =>
  (h.origin part hp).made hm

/-! ### Records point at blocks -/

/-- The text begins with the block that the record names: the selector of a rule up to its brace, or
the at sign, the name and the parameters of an at-rule. -/
def Removal.Begins (r : Removal) (text : Text) : Prop :=
  (∃ spaces later, spaces.all isSpace = true ∧ text = r.selector ++ spaces ++ '{' :: later) ∨
    ∃ name spaces params later, name ≠ [] ∧ name.all isNameChar = true ∧
      spaces.all isSpace = true ∧ text = '@' :: name ++ spaces ++ params ++ later ∧
      r.selector = '@' :: name ++ ' ' :: params

/-- The block that the record names begins at byte `n` of the text, on the line of the record. -/
def Removal.PointsAt (text : Text) (n : Nat) (r : Removal) : Prop :=
  ∃ before rest, text = before ++ rest ∧ before.size = n ∧
    r.line = 1 + lineEnds before rest.head? ∧ r.Begins rest

/-- The record of a block is told from the first characters of the block. -/
theorem Node.begins_record {node : Node} (hb : node.isBlock = true) (hm : node.Made) (file : String)
    (later : Text) : (node.record file).Begins (node.own ++ later) := by
  cases node with
  | block head body after =>
      cases head with
      | rule head =>
          refine .inl ⟨head.between, printAll body ++ after ++ ['}'] ++ later, hm, ?_⟩
          simp [record, label, Head.label, own, Head.own]
      | atRule head =>
          obtain ⟨hn, hc, hs⟩ := hm
          refine .inr ⟨head.name, head.afterName, head.params,
            head.between ++ '{' :: printAll body ++ after ++ ['}'] ++ later, hn, hc, hs, ?_, rfl⟩
          simp [own, Head.own]
  | atStatement head =>
      obtain ⟨hn, hc, hs⟩ := hm
      refine .inr ⟨head.name, head.afterName, head.params,
        head.between ++ printSemicolon head.semicolon ++ later, hn, hc, hs, ?_, rfl⟩
      simp [own, Head.own]
  | declaration | comment => cases hb

/-- **Every record points at a block of the source**, and no two at the same one.  Offsets count from
behind the mark of the source, if it has one. -/
theorem Feature.clean_records_point {file : String} {source : Text} {out : Restyled}
    (h : Feature.clean.restyle file source = .ok out) :
    ∃ (bom : Bool) (text : Text) (offsets : List Nat), Sheet.splitMark source = (bom, text) ∧
      offsets.Nodup ∧
      List.Forall₂ (fun r n => r.file = file ∧ r.PointsAt text n) out.report.removals offsets := by
  obtain ⟨sheet, hp, rfl⟩ := Feature.restyle_clean_eq_ok_iff.1 h
  obtain ⟨text, ls, -, hr, hi⟩ := Sheet.parse_eq_ok_iff.1 hp
  have hplaced := Sheet.placedAll_of_parse hp
  have hmade := hi.made fun token ht => hr.made (mem_of_mem_locate ht)
  let parts := (Node.partsAll sheet.nodes).filter Node.goes
  have hpoint : List.Forall₂
      (fun r n => r.file = file ∧ r.PointsAt (Node.printAll sheet.nodes ++ sheet.after) n)
      (parts.map (Node.record file)) (parts.map (offsetOf ·.source)) := by
    rw [List.forall₂_map_left_iff, List.forall₂_map_right_iff, List.forall₂_same]
    intro part hpart
    obtain ⟨hmem, hgoes⟩ := List.mem_filter.1 hpart
    obtain ⟨front, rest, htext, hoffset, hline⟩ := hplaced.exists_split hmem
    refine ⟨rfl, front, part.own ++ rest, htext, ?_, hline, ?_⟩
    · rw [hoffset, Position.start, Nat.zero_add]
    · exact Node.begins_record (Node.isBlock_of_prune (Node.goes_iff.1 hgoes)) (hmade part hmem) file rest
  have hdistinct : (parts.map (offsetOf ·.source)).Nodup := by
    rw [List.nodup_iff_pairwise_ne, List.pairwise_map]
    refine (hplaced.pairwise_offset.filter _).imp_of_mem fun ha _ hlt => Nat.ne_of_lt (hlt ?_)
    exact Node.own_ne_nil_of_isBlock
      (Node.isBlock_of_prune (Node.goes_iff.1 (List.mem_filter.1 ha).2))
  obtain ⟨offsets, hall, hperm⟩ :=
    List.perm_comp_forall₂ (Node.removalsAll_perm file sheet.nodes) hpoint
  exact ⟨sheet.bom, _, offsets, Sheet.splitMark_of_parse hp, hperm.nodup_iff.2 hdistinct, hall⟩

/-- Three line ends of different kinds, a mark, and a rule in a rule. -/
theorem Feature.clean_records_point_sample :
    ∃ out text offsets,
      Feature.clean.restyle "a.scss" "\ufeff@a  b;\r\n.c\r.d /**/ \x7b\n.e\x7b\x7d \x7d".toList = .ok out ∧
      out.report.removals = [⟨"a.scss", ".e".toList, 4⟩, ⟨"a.scss", ".c\r.d /**/".toList, 2⟩,
        ⟨"a.scss", "@a b".toList, 1⟩] ∧
      offsets.Nodup ∧
      List.Forall₂ (fun r n => r.file = "a.scss" ∧ r.PointsAt text n) out.report.removals offsets := by
  generalize hs : "\ufeff@a  b;\r\n.c\r.d /**/ \x7b\n.e\x7b\x7d \x7d".toList = source
  have ho : (Feature.clean.restyle "a.scss" source).toOption.map (·.report.removals) =
      some [⟨"a.scss", ".e".toList, 4⟩, ⟨"a.scss", ".c\r.d /**/".toList, 2⟩,
        ⟨"a.scss", "@a b".toList, 1⟩] := by
    subst hs
    decide +kernel
  obtain ⟨out, h, hout⟩ := exists_of_map_toOption ho
  obtain ⟨-, text, offsets, -, hn, hall⟩ := Feature.clean_records_point h
  exact ⟨out, text, offsets, h, hout, hn, hall⟩

end Restyle
