import Restyle.Proofs.Feature.Changed

/-!
# How many passes there are to make

A pass gives a value to one placeholder of a rule, so a rule with more of them needs more passes.
No pass makes a placeholder, and none changes what a rule asks for: each rule that asks for something
has one placeholder less after the pass, until it has none.

* `Transition.Usable`: the rules that ask for something, told from the nodes below them.
* `Transition.passes`: the largest number of placeholders in a rule that asks for something.
* `Stepped allowed step nodes nodes'`: the same rules and properties, with a step in the number of
  placeholders of each rule that asks for something.
* `Sheet.passes_reread`: the sheet that is read after a pass has one pass less to make.
* `Feature.transitions_settle`: **that many passes change the text**, and those after them do not.
-/

namespace Restyle

namespace Transition

/-! ### Placeholders that wait -/

/-- The number of placeholders among nodes that stand side by side. -/
def waiting (nodes : List Node) : Nat := (Node.declarations nodes).countP isPlaceholder

theorem waiting_declaration (decl : Declaration) (rest : List Node) :
    waiting (.declaration decl :: rest) = waiting rest + if isPlaceholder decl then 1 else 0 :=
  List.countP_cons

theorem waiting_cons {node : Node} (h : ∀ decl, node ≠ .declaration decl) (rest : List Node) :
    waiting (node :: rest) = waiting rest := by
  cases node with
  | declaration decl => exact absurd rfl (h decl)
  | block | atStatement | comment => rfl

/-- There is a placeholder among nodes just when one of them waits. -/
theorem waiting_pos {nodes : List Node} :
    0 < waiting nodes ↔ ∃ decl ∈ Node.declarations nodes, Placeholder decl := by
  rw [waiting, List.countP_pos_iff]
  simp only [isPlaceholder_iff]

/-- What makes no declaration and loses no placeholder leaves as many waiting. -/
theorem waiting_map {f : Node → Node}
    (hd : ∀ decl, ∃ decl', f (.declaration decl) = .declaration decl' ∧
      isPlaceholder decl' = isPlaceholder decl)
    (hn : ∀ node decl, f node = .declaration decl → ∃ decl', node = .declaration decl')
    (nodes : List Node) : waiting (nodes.map f) = waiting nodes := by
  induction nodes with
  | nil => rfl
  | cons node rest ih =>
      rw [List.map_cons]
      by_cases hnode : ∃ decl, node = .declaration decl
      · obtain ⟨decl, rfl⟩ := hnode
        obtain ⟨decl', he, hp⟩ := hd decl
        rw [he, waiting_declaration, waiting_declaration, hp, ih]
      · rw [waiting_cons fun decl he => hnode (hn node decl he),
          waiting_cons fun decl he => hnode ⟨decl, he⟩, ih]

theorem waiting_unplacedAll (nodes : List Node) :
    waiting (Node.unplacedAll nodes) = waiting nodes := by
  rw [Node.unplacedAll_eq_map]
  refine waiting_map (fun decl => ⟨decl.unplaced, rfl, rfl⟩) (fun node decl h => ?_) nodes
  cases node with
  | declaration decl => exact ⟨decl, rfl⟩
  | block | atStatement | comment => cases h

theorem waiting_respelledAll (nodes : List Node) :
    waiting (Node.respelledAll nodes) = waiting nodes := by
  rw [Node.respelledAll_eq_map]
  refine waiting_map (fun decl => ⟨decl.respelled, rfl, rfl⟩) (fun node decl h => ?_) nodes
  cases node with
  | declaration decl => exact ⟨decl, rfl⟩
  | block | atStatement | comment => cases h

/-- The pass over the nodes inside leaves the placeholders between them alone. -/
theorem waiting_narrowAll (allowed : List Text) (nodes : List Node) :
    waiting (Node.narrowAll allowed nodes) = waiting nodes := by
  rw [Node.narrowAll_eq_map]
  refine waiting_map (fun decl => ⟨decl, Node.narrow_eq_declaration.2 rfl, rfl⟩) ?_ nodes
  exact fun node decl h => ⟨decl, Node.narrow_eq_declaration.1 h⟩

/-- A value that is no placeholder leaves one less waiting. -/
theorem waiting_assign {value : Text} (hv : isPlaceholderValue value = false) (nodes : List Node) :
    waiting (assign value nodes) = waiting nodes - 1 := by
  fun_induction assign value nodes with
  | case1 => rfl
  | case2 decl rest hp =>
      have hnew : isPlaceholder { decl with value := value } = false := by
        rw [isPlaceholder, hv, Bool.and_false]
      rw [waiting_declaration, waiting_declaration, hnew, if_pos hp]
      rfl
  | case3 decl rest hp ih => rw [waiting_declaration, waiting_declaration, if_neg hp, ih]; rfl
  | case4 node rest hn ih => rw [waiting_cons hn, waiting_cons hn, ih]

/-- **A rule that asks for something has one placeholder less** after the verdict on it, if it had
one. -/
theorem waiting_verdict {allowed : List Text}
    (hallowed : ∀ prop ∈ allowed, isPlainName (target prop) = true) {body : List Node}
    (ha : asked allowed body ≠ []) :
    waiting ((verdict allowed body).apply (Node.narrowAll allowed body)) = waiting body - 1 := by
  by_cases hw : 0 < waiting body
  · have hv := verdict_eq_narrow_iff.2 ⟨waiting_pos.1 hw, ha, rfl⟩
    have hnot : isPlaceholderValue (askedValue allowed body) = false := by
      rw [← Bool.not_eq_true, isPlaceholderValue_iff]
      exact (askedValue_plain hallowed ha).2
    rw [hv, Verdict.apply, waiting_assign hnot, waiting_narrowAll]
  · have happly : (verdict allowed body).apply (Node.narrowAll allowed body) =
        Node.narrowAll allowed body := by
      cases hv : verdict allowed body with
      | narrow value => exact absurd (waiting_pos.2 (verdict_eq_narrow_iff.1 hv).1) hw
      | absent | noPseudoClass | noAllowedProperty => rfl
    rw [happly, waiting_narrowAll]
    omega

/-! ### Rules that ask for something -/

/-- The node is a rule, and among its children is a rule for a pseudo-class that has a declaration of
an allowed property in it, at any depth. -/
def Usable (allowed : List Text) (node : Node) : Prop :=
  node.isRule = true ∧
    ∃ head body after, .block (.rule head) body after ∈ node.children ∧
      PseudoSelector head.selector ∧
      ∃ decl, .declaration decl ∈ Node.partsAll body ∧ decl.prop ∈ allowed

/-- A pseudo-class child has the declarations at any depth in it. -/
theorem mem_pseudoDeclarations {decl : Declaration} {node : Node} :
    decl ∈ pseudoDeclarations node ↔
      ∃ head body after, node = .block (.rule head) body after ∧
        PseudoSelector head.selector ∧ .declaration decl ∈ Node.partsAll body := by
  constructor
  · intro h
    unfold pseudoDeclarations at h
    split at h
    · next head body after =>
      split at h
      · next hs => exact ⟨head, body, after, rfl, hs, Node.mem_declarations.1 h⟩
      · cases h
    · cases h
  · rintro ⟨head, body, after, rfl, hs, hd⟩
    rw [pseudoDeclarations, if_pos hs]
    exact Node.mem_declarations.2 hd

/-- Something is asked for when a declaration below a child has an allowed property. -/
theorem asked_ne_nil {allowed : List Text} {body : List Node} :
    asked allowed body ≠ [] ↔
      ∃ child ∈ body, ∃ decl ∈ pseudoDeclarations child, decl.prop ∈ allowed := by
  rw [asked, Ne, List.filter_eq_nil_iff]
  simp only [List.mem_map, List.mem_flatMap, List.contains_iff_mem]
  grind

/-- **The usable rules are those that ask for something.** -/
theorem usable_iff {allowed : List Text} {node : Node} :
    Usable allowed node ↔ node.isRule = true ∧ asked allowed node.children ≠ [] := by
  rw [Usable, asked_ne_nil]
  simp only [mem_pseudoDeclarations]
  grind

instance (allowed : List Text) : DecidablePred (Usable allowed) :=
  fun _ => decidable_of_iff _ usable_iff.symm

/-- The numbers of placeholders in the usable rules, at any depth. -/
def backlog (allowed : List Text) (nodes : List Node) : List Nat :=
  ((Node.partsAll nodes).filter (Usable allowed ·)).map (waiting ·.children)

/-- The number of passes to make: the largest number of placeholders in a usable rule. -/
def passes (allowed : List Text) (nodes : List Node) : Nat := (backlog allowed nodes).max?.getD 0

/-- A rule comes with its own placeholders, if it is usable, and with those in it. -/
theorem backlog_rule (allowed : List Text) (head : RuleHead) (body : List Node) (after : Text)
    (rest : List Node) :
    backlog allowed (.block (.rule head) body after :: rest) =
      (if asked allowed body ≠ [] then [waiting body] else []) ++ backlog allowed body ++
        backlog allowed rest := by
  have hu : Usable allowed (.block (.rule head) body after) ↔ asked allowed body ≠ [] := by
    rw [usable_iff]
    exact and_iff_right rfl
  simp only [backlog, Node.partsAll, Node.parts, List.cons_append, List.filter_cons,
    List.filter_append, decide_eq_true_eq, hu]
  split <;> simp [Node.children]

theorem backlog_cons {node : Node} (h : node.isRule = false) (allowed : List Text)
    (rest : List Node) :
    backlog allowed (node :: rest) = backlog allowed node.children ++ backlog allowed rest := by
  have hu : ¬ Usable allowed node := by
    rintro ⟨hr, -⟩
    rw [h] at hr
    cases hr
  cases node with
  | block | atStatement | declaration | comment =>
      simp [backlog, Node.partsAll, Node.parts, hu, Node.children]

/-- The numbers are those of the usable rules at any depth. -/
theorem mem_backlog {allowed : List Text} {nodes : List Node} {k : Nat} :
    k ∈ backlog allowed nodes ↔
      ∃ part ∈ Node.partsAll nodes, Usable allowed part ∧ waiting part.children = k := by
  simp only [backlog, List.mem_map, List.mem_filter, decide_eq_true_eq, and_assoc]

/-- There are more passes to make than a number just when a usable rule has more placeholders. -/
theorem lt_passes_iff {allowed : List Text} {nodes : List Node} {n : Nat} :
    n < passes allowed nodes ↔ ∃ k ∈ backlog allowed nodes, n < k := by
  constructor
  · intro h
    rw [passes] at h
    cases hm : (backlog allowed nodes).max? with
    | none =>
        rw [hm] at h
        cases h
    | some k =>
        rw [hm] at h
        exact ⟨k, (List.max?_eq_some_iff.1 hm).1, h⟩
  · rintro ⟨k, hk, h⟩
    exact Nat.lt_of_lt_of_le h (List.le_max?_getD_of_mem hk)

end Transition

open Transition

/-! ### A step in the numbers -/

/-- The second list is the first one with other values, and fields that do not bear on what a rule
asks for.  In each rule that asks for something, the number of placeholders makes the step. -/
inductive Stepped (allowed : List Text) (step : Nat → Nat) : List Node → List Node → Prop where
  | nil : Stepped allowed step [] []
  | rule {head head' : RuleHead} {body body' rest rest' : List Node} {after after' : Text}
      (hs : head'.selector = head.selector)
      (hw : asked allowed body ≠ [] → waiting body' = step (waiting body))
      (b : Stepped allowed step body body') (t : Stepped allowed step rest rest') :
      Stepped allowed step (.block (.rule head) body after :: rest)
        (.block (.rule head') body' after' :: rest')
  | atRule {head head' : AtHead} {body body' rest rest' : List Node} {after after' : Text}
      (b : Stepped allowed step body body') (t : Stepped allowed step rest rest') :
      Stepped allowed step (.block (.atRule head) body after :: rest)
        (.block (.atRule head') body' after' :: rest')
  | declaration {decl decl' : Declaration} {rest rest' : List Node} (hp : decl'.prop = decl.prop)
      (t : Stepped allowed step rest rest') :
      Stepped allowed step (.declaration decl :: rest) (.declaration decl' :: rest')
  | atStatement {head head' : AtHead} {rest rest' : List Node}
      (t : Stepped allowed step rest rest') :
      Stepped allowed step (.atStatement head :: rest) (.atStatement head' :: rest')
  | comment {c c' : Comment} {rest rest' : List Node} (t : Stepped allowed step rest rest') :
      Stepped allowed step (.comment c :: rest) (.comment c' :: rest')

namespace Stepped

variable {allowed : List Text} {step : Nat → Nat} {nodes nodes' : List Node}

/-- The properties stay, at any depth. -/
theorem props (h : Stepped allowed step nodes nodes') :
    (Node.declarations (Node.partsAll nodes')).map (·.prop) =
      (Node.declarations (Node.partsAll nodes)).map (·.prop) := by
  induction h with
  | nil => rfl
  | rule _ _ _ _ ihb iht | atRule _ _ ihb iht =>
      simp only [Node.partsAll, Node.parts, Node.declarations_append, List.map_append, iht]
      exact congrArg (· ++ _) ihb
  | declaration hp _ ih =>
      simp only [Node.partsAll, Node.parts, Node.declarations_append, List.map_append, ih]
      exact congrArg (· :: _) hp
  | atStatement _ ih | comment _ ih => exact ih

/-- **A rule asks for the same** as before. -/
theorem asked_eq (h : Stepped allowed step nodes nodes') :
    asked allowed nodes' = asked allowed nodes := by
  have hprops : (nodes'.flatMap pseudoDeclarations).map (·.prop) =
      (nodes.flatMap pseudoDeclarations).map (·.prop) := by
    induction h with
    | nil => rfl
    | @rule head head' _ _ _ _ _ _ hs _ b _ _ iht =>
        rw [List.flatMap_cons, List.flatMap_cons, List.map_append, List.map_append, iht,
          pseudoDeclarations, pseudoDeclarations, hs]
        split
        · rw [b.props]
        · rfl
    | atRule _ _ _ iht => exact iht
    | declaration _ _ ih | atStatement _ ih | comment _ ih => exact ih
  rw [asked, asked, hprops]

/-- **The numbers make the step.** -/
theorem backlog_eq (h : Stepped allowed step nodes nodes') :
    backlog allowed nodes' = (backlog allowed nodes).map step := by
  induction h with
  | nil => rfl
  | rule _ hw b _ ihb iht =>
      rw [backlog_rule, backlog_rule, b.asked_eq, ihb, iht, List.map_append, List.map_append]
      split
      · next ha => rw [hw ha]; rfl
      · rfl
  | atRule _ _ ihb iht =>
      rw [backlog_cons rfl, backlog_cons rfl, List.map_append, iht]
      exact congrArg (· ++ _) ihb
  | declaration _ _ ih | atStatement _ ih | comment _ ih =>
      rw [backlog_cons rfl, backlog_cons rfl, List.map_append, ih]
      rfl

theorem unplacedAll : ∀ nodes : List Node, Stepped allowed id nodes (Node.unplacedAll nodes)
  | [] => .nil
  | .block (.rule _) body _ :: rest =>
    .rule rfl (fun _ => waiting_unplacedAll body) (unplacedAll body) (unplacedAll rest)
  | .block (.atRule _) body _ :: rest => .atRule (unplacedAll body) (unplacedAll rest)
  | .declaration _ :: rest => .declaration rfl (unplacedAll rest)
  | .atStatement _ :: rest => .atStatement (unplacedAll rest)
  | .comment _ :: rest => .comment (unplacedAll rest)

theorem respelledAll : ∀ nodes : List Node, Stepped allowed id nodes (Node.respelledAll nodes)
  | [] => .nil
  | .block (.rule _) body _ :: rest =>
    .rule rfl (fun _ => waiting_respelledAll body) (respelledAll body) (respelledAll rest)
  | .block (.atRule _) body _ :: rest => .atRule (respelledAll body) (respelledAll rest)
  | .declaration _ :: rest => .declaration rfl (respelledAll rest)
  | .atStatement _ :: rest => .atStatement (respelledAll rest)
  | .comment _ :: rest => .comment (respelledAll rest)

/-- A verdict changes no property. -/
theorem apply (v : Verdict) (h : Stepped allowed step nodes nodes') :
    Stepped allowed step nodes (v.apply nodes') := by
  cases v with
  | narrow value =>
      rw [Verdict.apply]
      induction h with
      | nil => exact .nil
      | rule hs hw b _ _ iht => exact .rule hs hw b iht
      | atRule b _ _ iht => exact .atRule b iht
      | declaration hp t ih =>
          rw [assign]
          split
          · exact .declaration hp t
          · exact .declaration hp ih
      | atStatement _ ih => exact .atStatement ih
      | comment _ ih => exact .comment ih
  | absent | noPseudoClass | noAllowedProperty => exact h

/-- **The pass is a step down.** -/
theorem narrowAll (hallowed : ∀ prop ∈ allowed, isPlainName (target prop) = true) :
    ∀ nodes : List Node, Stepped allowed (· - 1) nodes (Node.narrowAll allowed nodes)
  | [] => by
      rw [Node.narrowAll]
      exact .nil
  | .block (.rule head) body after :: rest => by
      rw [Node.narrowAll, Node.narrow_rule]
      exact .rule rfl (waiting_verdict hallowed) ((narrowAll hallowed body).apply _)
        (narrowAll hallowed rest)
  | .block (.atRule head) body after :: rest => by
      rw [Node.narrowAll, Node.narrow]
      exact .atRule (narrowAll hallowed body) (narrowAll hallowed rest)
  | .declaration decl :: rest => by
      rw [Node.narrowAll, Node.narrow]
      exact .declaration rfl (narrowAll hallowed rest)
  | .atStatement head :: rest => by
      rw [Node.narrowAll, Node.narrow]
      exact .atStatement (narrowAll hallowed rest)
  | .comment c :: rest => by
      rw [Node.narrowAll, Node.narrow]
      exact .comment (narrowAll hallowed rest)

end Stepped

/-! ### One pass -/

namespace Transition

variable {allowed : List Text}

theorem backlog_unplacedAll (nodes : List Node) :
    backlog allowed (Node.unplacedAll nodes) = backlog allowed nodes := by
  rw [(Stepped.unplacedAll nodes).backlog_eq, List.map_id]

theorem backlog_respelledAll (nodes : List Node) :
    backlog allowed (Node.respelledAll nodes) = backlog allowed nodes := by
  rw [(Stepped.respelledAll nodes).backlog_eq, List.map_id]

/-- **A pass leaves one pass less** to make. -/
theorem passes_narrowAll (hallowed : ∀ prop ∈ allowed, isPlainName (target prop) = true)
    (nodes : List Node) :
    passes allowed (Node.narrowAll allowed nodes) = passes allowed nodes - 1 := by
  refine eq_of_forall_lt_iff fun n => ?_
  rw [Nat.lt_sub_iff_add_lt, lt_passes_iff, lt_passes_iff,
    (Stepped.narrowAll hallowed nodes).backlog_eq]
  simp only [List.mem_map, exists_exists_and_eq_and, Nat.lt_sub_iff_add_lt]

end Transition

/-- Where a value is coming, a usable rule has a placeholder. -/
theorem Narrowed.passes_pos {allowed : List Text} {nodes : List Node} {path : List Nat}
    {value : Text} (h : Narrowed allowed nodes path value) : 0 < passes allowed nodes := by
  rw [lt_passes_iff]
  induction h with
  | @here nodes body i j head after value hr hp ha hv =>
      have hu : Usable allowed (.block (.rule head) body after) := usable_iff.2 ⟨rfl, ha⟩
      refine ⟨waiting body, mem_backlog.2 ⟨_, ?_, hu, rfl⟩, ?_⟩
      · exact Node.mem_partsAll.2 ⟨_, List.mem_of_getElem? hr, Node.mem_parts_self _⟩
      · exact waiting_pos.2 hp.exists_mem
  | inside hb _ ih =>
      obtain ⟨k, hk, hpos⟩ := ih
      obtain ⟨part, hpart, hu, he⟩ := mem_backlog.1 hk
      refine ⟨k, mem_backlog.2 ⟨part, ?_, hu, he⟩, hpos⟩
      exact Node.mem_partsAll.2 ⟨_, List.mem_of_getElem? hb, Node.mem_parts_of_mem_children hpart⟩

/-- **A pass reports a change** just when there is a pass to make. -/
theorem Sheet.narrow_changed_iff_passes (file : String) (sheet : Sheet) :
    (sheet.narrow file properties).2.changed = true ↔ 0 < passes properties sheet.nodes := by
  constructor
  · intro hc
    obtain ⟨path, value, hn⟩ := Node.exists_narrowed_of_notes hc
    exact hn.passes_pos
  · intro hpos
    rw [← Bool.not_eq_false]
    intro hc
    -- a pass that does nothing cannot take one off
    have hless := passes_narrowAll isPlainName_target sheet.nodes
    rw [Node.narrowAll_of_notes hc] at hless
    omega

/-- **The sheet that is read after a pass** has one pass less to make. -/
theorem Sheet.passes_reread {source : Text} {sheet : Sheet} (file : String)
    (h : Sheet.parse .css source = .ok sheet) :
    ∃ again, Sheet.parse .css (sheet.narrow file properties).1.print = .ok again ∧
      passes properties again.nodes = passes properties sheet.nodes - 1 := by
  obtain ⟨-, -, again, ha, hu⟩ := Sheet.exists_revised_narrow file h
  rw [Sheet.print_respelled] at ha
  have hnodes := congrArg (fun s : Sheet => backlog properties s.nodes) hu
  simp only [Sheet.unplaced, Sheet.respelled, Sheet.narrow, backlog_unplacedAll,
    backlog_respelledAll] at hnodes
  refine ⟨again, ha, ?_⟩
  rw [← passes_narrowAll isPlainName_target, passes, hnodes, passes]

/-! ### Pass after pass -/

/-- The text after `n` passes, each over the output of the one before. -/
def Feature.repeated (feature : Feature) (file : String) : Nat → Text → Except ParseError Text
  | 0,     source => .ok source
  | n + 1, source =>
    match feature.restyle file source with
    | .error e => .error e
    | .ok out  => feature.repeated file n out.output

/-- **After `n` passes there are `n` passes less to make.** -/
theorem Feature.passes_repeated (file : String) {source : Text} {sheet : Sheet}
    (h : Sheet.parse .css source = .ok sheet) (n : Nat) :
    ∃ text again, Feature.transitions.repeated file n source = .ok text ∧
      Sheet.parse .css text = .ok again ∧
      passes properties again.nodes = passes properties sheet.nodes - n := by
  induction n generalizing source sheet with
  | zero => exact ⟨source, sheet, rfl, h, rfl⟩
  | succ n ih =>
      obtain ⟨next, hnext, hless⟩ := Sheet.passes_reread file h
      obtain ⟨text, again, ht, ha, hp⟩ := ih hnext
      have hpass : Feature.transitions.restyle file source =
          .ok ⟨(sheet.narrow file properties).1.print, (sheet.narrow file properties).2⟩ :=
        Feature.restyle_eq_ok_iff.2 ⟨sheet, h, rfl⟩
      refine ⟨text, again, ?_, ha, ?_⟩
      · rw [Feature.repeated, hpass]
        exact ht
      · rw [hp, hless]
        omega

/-- **Passes settle.**  Let `m` be the largest number of placeholders in a usable rule of a sheet
that was read.  The pass can be made over its own output again and again; the first `m` passes report
a change, and those after them report none and leave the text as it is. -/
theorem Feature.transitions_settle (file : String) {source : Text} {sheet : Sheet}
    (h : Sheet.parse .css source = .ok sheet) (n : Nat) :
    ∃ text out, Feature.transitions.repeated file n source = .ok text ∧
      Feature.transitions.restyle file text = .ok out ∧
      (out.report.changed = true ↔ n < passes properties sheet.nodes) ∧
      (passes properties sheet.nodes ≤ n → out.output = text) := by
  obtain ⟨text, again, ht, ha, hp⟩ := Feature.passes_repeated file h n
  have hchanged : (again.narrow file properties).2.changed = true ↔
      n < passes properties sheet.nodes := by
    rw [Sheet.narrow_changed_iff_passes, hp, Nat.sub_pos_iff_lt]
  refine ⟨text, _, ht, Feature.restyle_eq_ok_iff.2 ⟨again, ha, rfl⟩, hchanged, fun hle => ?_⟩
  by_contra hne
  exact Nat.not_lt.2 hle (hchanged.1 ((Sheet.narrow_changed_iff file ha).2 hne))

/-- Two placeholders in a usable rule, one of them important.  The second pass changes the text, and
the third one does not. -/
theorem Feature.transitions_settle_sample :
    ∃ source : Text,
      source = (".a\x7btransition:all 0.15s;transition:ALL  0.15S!important;" ++
        "&:hover\x7b@media x\x7bcolor:red\x7d\x7d\x7d").toList ∧
      (∃ sheet, Sheet.parse .css source = .ok sheet ∧ passes properties sheet.nodes = 2) ∧
      (∃ text out, Feature.transitions.repeated "a.css" 1 source = .ok text ∧
        Feature.transitions.restyle "a.css" text = .ok out ∧ out.report.changed = true) ∧
      ∃ text out, Feature.transitions.repeated "a.css" 2 source = .ok text ∧
        Feature.transitions.restyle "a.css" text = .ok out ∧ out.report.changed = false ∧
        out.output = text := by
  refine ⟨_, rfl, ?_⟩
  generalize hs : (".a\x7btransition:all 0.15s;transition:ALL  0.15S!important;" ++
    "&:hover\x7b@media x\x7bcolor:red\x7d\x7d\x7d").toList = source
  have hp : (Sheet.parse .css source).toOption.map (passes properties ·.nodes) = some 2 := by
    subst hs
    decide +kernel
  obtain ⟨sheet, h, hm⟩ := exists_of_map_toOption hp
  obtain ⟨text, out, ht, ho, hc, -⟩ := Feature.transitions_settle "a.css" h 1
  obtain ⟨text', out', ht', ho', hc', hsame⟩ := Feature.transitions_settle "a.css" h 2
  rw [hm] at hc hc' hsame
  refine ⟨⟨sheet, h, hm⟩, ⟨text, out, ht, ho, hc.2 (by decide)⟩, text', out', ht', ho', ?_, ?_⟩
  · rw [← Bool.not_eq_true, hc']
    decide
  · exact hsame (Nat.le_refl 2)

end Restyle
