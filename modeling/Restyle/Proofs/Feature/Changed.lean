import Restyle.Proofs.Prune.Reread
import Restyle.Proofs.Transition.Reread

/-!
# What counts as a change

A pass says whether it changed the sheet, and a text is written only if it says so.  It tells from
what it did, not from the text; here the two are the same.

* `Sheet.prune_changed_iff`: a block that is removed takes at least its brace or its at sign along,
  so a pruned text is shorter.
* `Sheet.narrow_changed_iff`: a placeholder that gets a value is read again with that value, so the
  text is not the one it was read from.
* `Feature.changed_iff`: **a pass reports a change** just when the output is another text.
-/

namespace Restyle

open Transition

/-! ### Pruning -/

namespace Node

theorem print_ne_nil {node : Node} (h : node.isBlock = true) : node.print ≠ [] := by
  cases node with
  | block => simp [print]
  | atStatement => simp [print, AtHead.print]
  | declaration | comment => cases h

mutual

theorem length_prune {kept : Node} : ∀ {node : Node}, node.prune = some kept →
    kept = node ∨ kept.print.length < node.print.length
  | .block head body after, h => by
      obtain ⟨-, rfl⟩ := prune_block_eq_some_iff.1 h
      rcases length_pruneAll body with hb | hb
      · exact .inl (by rw [hb])
      · right
        simp only [print, List.length_append, List.length_cons]
        omega
  | .declaration _, h | .comment _, h => by
      cases h
      exact .inl rfl

/-- **Pruning shortens the text**, if it does anything. -/
theorem length_pruneAll : ∀ nodes : List Node,
    pruneAll nodes = nodes ∨ (printAll (pruneAll nodes)).length < (printAll nodes).length
  | []           => .inl rfl
  | node :: rest => by
      have ih := length_pruneAll rest
      rw [pruneAll]
      cases hp : node.prune with
      | none =>
          have hn := List.length_pos_iff.2 (print_ne_nil (isBlock_of_prune hp))
          right
          simp only [printAll, List.length_append]
          rcases ih with hr | hr
          · rw [hr]
            omega
          · omega
      | some kept =>
          simp only [printAll, List.length_append, List.cons.injEq]
          rcases length_prune hp with hk | hk
          · rcases ih with hr | hr
            · exact .inl ⟨hk, hr⟩
            · rw [hk]
              omega
          · right
            rcases ih with hr | hr
            · rw [hr]
              omega
            · omega

end

end Node

/-- Pruning reports a change just when the text is another one. -/
theorem Sheet.prune_changed_iff (file : String) (sheet : Sheet) :
    (sheet.prune file).2.changed = true ↔ (sheet.prune file).1.print ≠ sheet.print := by
  rw [← Bool.not_eq_false, Sheet.prune_changed_eq_false_iff, Ne, not_iff_not]
  constructor
  · intro h
    rw [Sheet.prune_of_isTidyAll file h]
  · intro h
    rcases Node.length_pruneAll sheet.nodes with hp | hp
    · -- what pruning leaves is tidy
      exact hp ▸ Node.isTidyAll_pruneAll sheet.nodes
    · have hn : Node.printAll (Node.pruneAll sheet.nodes) = Node.printAll sheet.nodes :=
        List.append_cancel_left (List.append_cancel_right h)
      rw [hn] at hp
      exact absurd hp (Nat.lt_irrefl _)

/-! ### Narrowing -/

/-- A verdict is noted as a change when it gives a value. -/
theorem Transition.Verdict.any_isNarrowed_notes {file : String} {selector : Text} {v : Verdict} :
    (v.notes file selector).any Note.isNarrowed = true ↔ ∃ value, v = .narrow value := by
  cases v <;> simp [Verdict.notes, Note.isNarrowed]

theorem exists_firstPlaceholder {body : List Node}
    (h : ∃ decl ∈ Node.declarations body, Placeholder decl) : ∃ i, FirstPlaceholder body i := by
  induction body with
  | nil =>
      obtain ⟨decl, hd, -⟩ := h
      cases hd
  | cons node rest ih =>
      by_cases hn : ∃ decl, node = .declaration decl ∧ Placeholder decl
      · exact ⟨0, firstPlaceholder_zero.2 hn⟩
      · obtain ⟨decl, hd, hp⟩ := h
        rcases List.mem_cons.1 (Node.mem_declarations.1 hd) with he | hr
        · exact absurd ⟨decl, he.symm, hp⟩ hn
        · obtain ⟨i, hi⟩ := ih ⟨decl, Node.mem_declarations.2 hr, hp⟩
          exact ⟨i + 1, firstPlaceholder_succ.2 ⟨fun other ho hq => hn ⟨other, ho, hq⟩, hi⟩⟩

/-- A value that is coming further on is still coming with a node in front. -/
theorem Narrowed.cons {allowed : List Text} {rest : List Node} {path : List Nat} {value : Text}
    (h : Narrowed allowed rest path value) (node : Node) :
    ∃ path', Narrowed allowed (node :: rest) path' value := by
  cases h with
  | here hr hp ha hv => exact ⟨_, .here (i := _ + 1) hr hp ha hv⟩
  | inside hb h => exact ⟨_, .inside (i := _ + 1) hb h⟩

namespace Node

variable {file : String} {allowed : List Text}

/-- Values leave no notes, so a verdict does not show in the notes on what is inside. -/
theorem narrowNotesAll_apply (v : Verdict) (nodes : List Node) :
    narrowNotesAll file allowed (v.apply nodes) = narrowNotesAll file allowed nodes := by
  cases v with
  | narrow value =>
      rw [Verdict.apply]
      fun_induction assign value nodes with
      | case1 => rfl
      | case2 decl rest hp => simp only [narrowNotesAll, narrowNotes]
      | case3 decl rest hp ih => simp only [narrowNotesAll, narrowNotes, ih]
      | case4 node rest hn ih => simp only [narrowNotesAll, ih]
  | absent | noPseudoClass | noAllowedProperty => rfl

mutual

theorem narrow_of_notes : ∀ {node : Node},
    (node.narrowNotes file allowed).any Note.isNarrowed = false → node.narrow allowed = node
  | .block (.rule head) body after, h => by
      rw [narrowNotes, narrowNotesAll_apply, List.any_append, Bool.or_eq_false_iff] at h
      have happly : ∀ nodes, (verdict allowed body).apply nodes = nodes := by
        intro nodes
        cases hv : verdict allowed body with
        | narrow value => rw [hv] at h; cases h.1
        | absent | noPseudoClass | noAllowedProperty => rfl
      rw [narrow_rule, narrowAll_of_notes h.2, happly]
  | .block (.atRule head) body after, h => by
      rw [narrowNotes] at h
      rw [narrow, narrowAll_of_notes h]
  | .atStatement _, _ | .declaration _, _ | .comment _, _ => by rw [narrow]

/-- Where no value is noted, the pass does nothing. -/
theorem narrowAll_of_notes : ∀ {nodes : List Node},
    (narrowNotesAll file allowed nodes).any Note.isNarrowed = false →
      narrowAll allowed nodes = nodes
  | [],           _ => by rw [narrowAll]
  | node :: rest, h => by
      rw [narrowNotesAll, List.any_append, Bool.or_eq_false_iff] at h
      rw [narrowAll, narrow_of_notes h.1, narrowAll_of_notes h.2]

end

/-- The notes on a block are those on what is inside, and for a rule the one for its verdict. -/
theorem any_isNarrowed_block {head : Head} {body : List Node} {after : Text}
    (h : ((Node.block head body after).narrowNotes file allowed).any Note.isNarrowed = true) :
    (∃ rule value, head = .rule rule ∧ verdict allowed body = .narrow value) ∨
      (narrowNotesAll file allowed body).any Note.isNarrowed = true := by
  cases head with
  | rule rule =>
      rw [narrowNotes, narrowNotesAll_apply, List.any_append, Bool.or_eq_true,
        Verdict.any_isNarrowed_notes] at h
      exact h.imp_left fun ⟨value, hv⟩ => ⟨rule, value, rfl, hv⟩
  | atRule =>
      rw [narrowNotes] at h
      exact .inr h

/-- Where a value is noted, one is coming. -/
theorem exists_narrowed_of_notes : ∀ {nodes : List Node},
    (narrowNotesAll file allowed nodes).any Note.isNarrowed = true →
      ∃ path value, Narrowed allowed nodes path value
  | [],           h => by
      rw [narrowNotesAll] at h
      cases h
  | .block head body after :: rest, h => by
      rw [narrowNotesAll, List.any_append, Bool.or_eq_true] at h
      rcases h with h | h
      · rcases any_isNarrowed_block h with ⟨rule, value, rfl, hv⟩ | hb
        · obtain ⟨hp, ha, he⟩ := verdict_eq_narrow_iff.1 hv
          obtain ⟨j, hj⟩ := exists_firstPlaceholder hp
          exact ⟨[0, j], value, .here rfl hj ha he⟩
        · obtain ⟨path, value, hn⟩ := exists_narrowed_of_notes hb
          exact ⟨0 :: path, value, .inside rfl hn⟩
      · obtain ⟨path, value, hn⟩ := exists_narrowed_of_notes h
        obtain ⟨path', hn'⟩ := hn.cons (.block head body after)
        exact ⟨path', value, hn'⟩
  | .atStatement _ :: rest, h | .declaration _ :: rest, h | .comment _ :: rest, h => by
      rw [narrowNotesAll, narrowNotes, List.nil_append] at h
      obtain ⟨path, value, hn⟩ := exists_narrowed_of_notes h
      obtain ⟨path', hn'⟩ := hn.cons _
      exact ⟨path', value, hn'⟩

end Node

/-- A value that is coming changes the text: read again, it has that value. -/
theorem Narrowed.print_ne {source : Text} {sheet : Sheet} {path : List Nat} {value : Text}
    (file : String) (h : Sheet.parse .css source = .ok sheet)
    (hn : Narrowed properties sheet.nodes path value) :
    (sheet.narrow file properties).1.print ≠ source := by
  intro he
  obtain ⟨-, -, again, ha, hu⟩ := Sheet.exists_revised_narrow file h
  rw [Sheet.print_respelled, he, h] at ha
  cases ha
  obtain ⟨decl, hd, -⟩ := hn.at?
  obtain ⟨-, hg, hne⟩ :=
    (gets_iff_narrowed isPlainName_target (Sheet.respelledAll_of_parse h)).2 ⟨hn, hd⟩
  have hsame := Sheet.at?_of_unplaced_eq hu path
  rw [Sheet.at?, hd] at hsame
  have hdecl := hsame.trans (congrArg (Option.map Node.unplaced) hg)
  exact hne (congrArg Declaration.value (Node.declaration.inj (Option.some.inj hdecl))).symm

/-- The pass over transitions reports a change just when the text is another one. -/
theorem Sheet.narrow_changed_iff {source : Text} {sheet : Sheet} (file : String)
    (h : Sheet.parse .css source = .ok sheet) :
    (sheet.narrow file properties).2.changed = true ↔
      (sheet.narrow file properties).1.print ≠ source := by
  constructor
  · intro hc
    obtain ⟨path, value, hn⟩ := Node.exists_narrowed_of_notes hc
    exact hn.print_ne file h
  · intro hne
    rw [← Bool.not_eq_false]
    intro hc
    refine hne ?_
    have hp := Sheet.print_of_splitMark (Sheet.splitMark_of_parse h)
    rw [Sheet.narrow, Node.narrowAll_of_notes hc]
    exact hp

/-- **A pass reports a change** just when the output is another text than the source. -/
theorem Feature.changed_iff {feature : Feature} {file : String} {source : Text} {out : Restyled}
    (h : feature.restyle file source = .ok out) :
    out.report.changed = true ↔ out.output ≠ source := by
  obtain ⟨sheet, hp, rfl⟩ := Feature.restyle_eq_ok_iff.1 h
  cases feature with
  | clean =>
      have hs := Sheet.print_of_splitMark (Sheet.splitMark_of_parse hp)
      rw [← hs]
      exact Sheet.prune_changed_iff file sheet
  | transitions => exact Sheet.narrow_changed_iff file hp

/-- A block goes, and the text is another one.  A placeholder is noted but gets no value, and the text
is the same. -/
theorem Feature.changed_iff_sample :
    (∃ out, Feature.clean.restyle "a.scss" "a\x7b\x7d;b\x7bc:d\x7d".toList = .ok out ∧
      out.output ≠ "a\x7b\x7d;b\x7bc:d\x7d".toList) ∧
    ∃ out,
      Feature.transitions.restyle "a.css" "a\x7btransition:all/**/ 0.15s \x7d".toList = .ok out ∧
      out.output = "a\x7btransition:all/**/ 0.15s \x7d".toList := by
  generalize hs : "a\x7b\x7d;b\x7bc:d\x7d".toList = source
  generalize hs' : "a\x7btransition:all/**/ 0.15s \x7d".toList = source'
  have hc : (Feature.clean.restyle "a.scss" source).toOption.map (·.report.changed) =
      some true := by
    subst hs
    decide +kernel
  have hc' : (Feature.transitions.restyle "a.css" source').toOption.map (·.report.changed) =
      some false := by
    subst hs'
    decide +kernel
  obtain ⟨out, h, hout⟩ := exists_of_map_toOption hc
  obtain ⟨out', h', hout'⟩ := exists_of_map_toOption hc'
  refine ⟨⟨out, h, (Feature.changed_iff h).1 hout⟩, out', h', ?_⟩
  by_contra hne
  rw [(Feature.changed_iff h').2 hne] at hout'
  cases hout'

end Restyle
