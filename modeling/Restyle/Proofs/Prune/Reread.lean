import Restyle.Feature
import Restyle.Proofs.Prune.Tidy
import Restyle.Proofs.Sheet.Thinning

/-!
# Reading a cleaned text again

The text that the clean pass writes should mean what the pruned sheet says: read again, it gives
that sheet up to places, and a second pass finds nothing to do.

* `Feature.clean_readsBack_iff`: **this holds just when the pruned sheet is legible**.
* `Feature.clean_unreadable`: it does not always hold.  A line comment in front of a removed block
  loses the end of its line with that block, and then takes the brace behind it along.
-/

namespace Restyle

theorem thins_pruneAll : ∀ nodes : List Node, Thins nodes (Node.pruneAll nodes)
  | [] => .nil
  | .block head body after :: rest => by
      rw [Node.pruneAll, Node.prune]
      by_cases hv : head.isVacant (Node.pruneAll body) = true
      · simp only [if_pos hv]
        exact .drop _ (thins_pruneAll rest)
      · simp only [if_neg hv]
        exact .inside head after (thins_pruneAll body) (thins_pruneAll rest)
  | .atStatement head :: rest => .drop _ (thins_pruneAll rest)
  | .declaration decl :: rest => .keep _ (thins_pruneAll rest)
  | .comment c :: rest => .keep _ (thins_pruneAll rest)

/-- A text that the clean pass accepts is a sheet, and the pass prints what pruning leaves of it. -/
theorem Feature.restyle_clean_eq_ok_iff {file : String} {source : Text} {out : Restyled} :
    Feature.clean.restyle file source = .ok out ↔
      ∃ sheet, Sheet.parse .scss source = .ok sheet ∧
        out = ⟨(sheet.prune file).1.print, (sheet.prune file).2⟩ :=
  Feature.restyle_eq_ok_iff

/-- A pruned sheet that is read back is left alone by a second pass. -/
theorem Feature.restyle_of_readsBack {sheet : Sheet} {file : String} (file' : String)
    (h : (sheet.prune file).1.ReadsBack .scss) :
    Feature.clean.restyle file' (sheet.prune file).1.print =
      .ok ⟨(sheet.prune file).1.print, ⟨false, [], []⟩⟩ := by
  obtain ⟨again, hp, hu⟩ := h
  -- what is read back differs from a pruned sheet in places only, so it is tidy too
  have ht : Node.isTidyAll again.nodes = true := by
    have hn : Node.unplacedAll again.nodes = Node.unplacedAll (Node.pruneAll sheet.nodes) :=
      congrArg Sheet.nodes hu
    rw [← Node.isTidyAll_unplaced, hn, Node.isTidyAll_unplaced]
    exact Node.isTidyAll_pruneAll sheet.nodes
  refine Feature.restyle_clean_eq_ok_iff.2 ⟨again, hp, ?_⟩
  rw [Sheet.prune_of_isTidyAll file' ht, Sheet.print_of_splitMark (Sheet.splitMark_of_parse hp)]

/-- **A cleaned text means what the pruned sheet says** just when that sheet is legible: no line
comment has lost the end of its line, and the text has not come to begin with a byte-order mark.
Then a second pass changes nothing. -/
theorem Feature.clean_readsBack_iff {file : String} {source : Text} {out : Restyled}
    (h : Feature.clean.restyle file source = .ok out) :
    ∃ sheet, Sheet.parse .scss source = .ok sheet ∧ out.output = (sheet.prune file).1.print ∧
      (((sheet.prune file).1.ReadsBack .scss ∧
          ∀ file', Feature.clean.restyle file' out.output = .ok ⟨out.output, ⟨false, [], []⟩⟩) ↔
        (sheet.prune file).1.Legible) := by
  obtain ⟨sheet, hp, rfl⟩ := Feature.restyle_clean_eq_ok_iff.1 h
  have hback : (sheet.prune file).1.ReadsBack .scss ↔ (sheet.prune file).1.Legible :=
    Sheet.readsBack_iff_of_thins hp rfl (thins_pruneAll sheet.nodes)
  refine ⟨sheet, hp, rfl, fun hb => hback.1 hb.1, fun hl => ?_⟩
  have hb := hback.2 hl
  exact ⟨hb, fun file' => Feature.restyle_of_readsBack file' hb⟩

/-- A line comment in front of a rule that goes, where a line end stands behind that rule too. -/
theorem Feature.clean_readsBack_sample :
    ∃ out sheet,
      Feature.clean.restyle "a.scss" "// c\n.a\x7b\x7d\n.b \x7b x: 1 \x7d".toList = .ok out ∧
      Sheet.parse .scss "// c\n.a\x7b\x7d\n.b \x7b x: 1 \x7d".toList = .ok sheet ∧
      (sheet.prune "a.scss").1.ReadsBack .scss := by
  generalize hs : "// c\n.a\x7b\x7d\n.b \x7b x: 1 \x7d".toList = source
  have ho : (Feature.clean.restyle "a.scss" source).isOk = true := by
    subst hs
    decide +kernel
  have hl : ∀ sheet ∈ (Sheet.parse .scss source).toOption, (sheet.prune "a.scss").1.Legible := by
    subst hs
    decide +kernel
  obtain ⟨out, h⟩ := exists_of_isOk ho
  obtain ⟨sheet, hp, -, hiff⟩ := Feature.clean_readsBack_iff h
  exact ⟨out, sheet, h, hp, (hiff.2 (hl sheet (by rw [hp]; rfl))).1⟩

/-- **A cleaned text need not be readable**: here the comment takes the last brace along. -/
theorem Feature.clean_unreadable :
    (Feature.clean.restyle "a.scss" ".b \x7b x: 1; // c\n.a \x7b\x7d \x7d".toList).toOption.map
        (·.output) = some ".b \x7b x: 1; // c \x7d".toList ∧
      (Sheet.parse .scss ".b \x7b x: 1; // c \x7d".toList).isOk = false := by
  decide +kernel

end Restyle
