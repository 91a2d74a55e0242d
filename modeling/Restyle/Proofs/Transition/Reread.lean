import Restyle.Feature
import Restyle.Proofs.Sheet.Edits
import Restyle.Proofs.Sheet.Respelled
import Restyle.Proofs.Transition.Pass

/-!
# Reading a text with narrowed transitions again

The pass over transitions gives values to placeholders, and each value is plain: names of properties
with a duration behind each.  So the text that the pass writes is the old one with these values in
the place of the old spellings, and it is read as the sheet that the pass leaves.

* `Transition.askedValue_plain`: what a rule asks for is read as itself, and is no placeholder.
* `exists_revised`: the pass revises the sheet.
* `gets_iff_narrowed`: the declarations that get a value are those that have one coming.
* `Feature.transitions_edited`: **the output is the source, edited, and means what the sheet after
  the pass says**.
-/

namespace Restyle

open Transition

/-! ### Plain values -/

namespace Transition

/-- The name can stand in a value: it is a plain word, and cannot be taken for the first word of a
placeholder. -/
def isPlainName (name : Text) : Bool :=
  name.all isPlain && name.head?.any (·.toLower != 'a')

theorem isPlainName_target : ∀ prop ∈ properties, isPlainName (target prop) = true := by
  decide

theorem phrase_of_isPlainName {name : Text} (h : isPlainName name = true) :
    Phrase (name ++ ' ' :: "0.15s".toList) := by
  rw [isPlainName, Bool.and_eq_true] at h
  cases name with
  | nil => cases h.2
  | cons c rest => exact .append (.of_all h.1) (.of_all rfl)

/-- The names, each with the duration. -/
def timed (names : List Text) : Text :=
  ", ".toList.intercalate (names.map fun name => name ++ " 0.15s".toList)

theorem timed_singleton (name : Text) : timed [name] = name ++ ' ' :: "0.15s".toList :=
  List.intercalate_singleton

theorem timed_cons_cons (name name' : Text) (names : List Text) :
    timed (name :: name' :: names) =
      (name ++ ' ' :: "0.15s".toList) ++ [','] ++ ' ' :: timed (name' :: names) := by
  simp only [timed, List.map_cons, List.intercalate_cons_cons]
  simp

theorem phrase_timed {name : Text} {names : List Text}
    (h : ∀ n ∈ name :: names, isPlainName n = true) : Phrase (timed (name :: names)) := by
  have hname := phrase_of_isPlainName (h name List.mem_cons_self)
  induction names generalizing name with
  | nil => rwa [timed_singleton]
  | cons name' names ih =>
      have h' : ∀ n ∈ name' :: names, isPlainName n = true :=
        fun n hn => h n (List.mem_cons_of_mem _ hn)
      rw [timed_cons_cons]
      exact (hname.concat rfl).append (ih h' (phrase_of_isPlainName (h' name' List.mem_cons_self)))

theorem getLast?_timed (name : Text) (names : List Text) :
    (timed (name :: names)).getLast? = some 's' := by
  induction names generalizing name with
  | nil => simp [timed_singleton]
  | cons name' names ih =>
      rw [timed_cons_cons, List.getLast?_append, List.getLast?_cons, ih]
      rfl

theorem head?_timed {name : Text} (hn : name ≠ []) (names : List Text) :
    (timed (name :: names)).head? = name.head? := by
  obtain ⟨c, rest, rfl⟩ := List.exists_cons_of_ne_nil hn
  cases names with
  | nil => simp [timed_singleton]
  | cons name' names => simp [timed_cons_cons]

/-- A value with another last letter than the mark of importance does not end with it. -/
theorem splitImportant_of_getLast? {value : Text} {c : Char} (h : value.getLast? = some c)
    (hc : c.toLower ≠ 't') : splitImportant value = (value, false) := by
  rw [splitImportant]
  refine if_neg fun hs => ?_
  have hlast := congrArg List.getLast? (eq_of_beq hs)
  rw [List.getLast?_map, List.getLast?_drop] at hlast
  split at hlast
  · cases hlast
  · rw [h] at hlast
    exact hc (Option.some.inj hlast)

/-- A phrase with another first letter is no placeholder. -/
theorem not_placeholderValue {value : Text} {c : Char} (hp : Phrase value)
    (h : value.head? = some c) (hc : c.toLower ≠ 'a') : ¬ PlaceholderValue value := by
  rintro ⟨all, blanks, time, hv, ha, -⟩
  rw [hp.trim] at hv
  cases all with
  | nil => cases ha
  | cons d all =>
      rw [hv] at h
      cases h
      exact hc (List.cons.inj (eq_of_beq ha)).1

/-- **What a rule asks for is plain**: it is read as itself, and is no placeholder. -/
theorem askedValue_plain {allowed : List Text} {body : List Node}
    (hallowed : ∀ prop ∈ allowed, isPlainName (target prop) = true)
    (ha : asked allowed body ≠ []) :
    PlainValue (askedValue allowed body) ∧ ¬ PlaceholderValue (askedValue allowed body) := by
  have hplain : ∀ name ∈ ((asked allowed body).map target).eraseDups, isPlainName name = true := by
    intro name hn
    obtain ⟨prop, hp, rfl⟩ := List.mem_map.1 (List.mem_eraseDups.1 hn)
    exact hallowed prop (by simpa using (List.mem_filter.1 hp).2)
  have heq : askedValue allowed body = timed ((asked allowed body).map target).eraseDups := rfl
  obtain ⟨prop, props, hprops⟩ := List.exists_cons_of_ne_nil ha
  rw [heq]
  cases hnames : ((asked allowed body).map target).eraseDups with
  | nil =>
      rw [hprops, List.map_cons, List.eraseDups_cons] at hnames
      cases hnames
  | cons name names =>
      rw [hnames] at hplain
      have hp := phrase_timed hplain
      have hname := hplain name List.mem_cons_self
      rw [isPlainName, Bool.and_eq_true] at hname
      obtain ⟨c, hh, hc⟩ := (Option.any_eq_true _ _).1 hname.2
      have hne : name ≠ [] := by
        rintro rfl
        cases hh
      refine ⟨⟨hp, splitImportant_of_getLast? (getLast?_timed name names) (by decide)⟩, ?_⟩
      exact not_placeholderValue hp ((head?_timed hne names).trans hh) (by simpa using hc)

end Transition

/-! ### The pass revises the sheet -/

/-- A verdict goes past everything that it has no value for. -/
theorem Transition.Verdict.apply_cons {v : Verdict} {node : Node} {rest : List Node}
    (h : ∀ decl value, node = .declaration decl → v = .narrow value → isPlaceholder decl = false) :
    v.apply (node :: rest) = node :: v.apply rest := by
  cases v with
  | narrow value =>
      cases node with
      | declaration decl => simp [Verdict.apply, assign, h decl value rfl rfl]
      | block | atStatement | comment => rfl
  | absent | noPseudoClass | noAllowedProperty => rfl

/-- The pass over a body is a verdict on what it leaves of the nodes in it. -/
theorem Node.narrowBody_eq_apply (allowed : List Text) (head : Head) (body : List Node) :
    ∃ v : Verdict, Node.narrowBody allowed head body = v.apply (Node.narrowAll allowed body) ∧
      ∀ value, v = .narrow value → verdict allowed body = .narrow value := by
  cases head with
  | rule => exact ⟨_, rfl, fun _ h => h⟩
  | atRule => exact ⟨.absent, rfl, nofun⟩

/-- A declaration that gets a value is respelled with it. -/
theorem Declaration.respelled_value {decl : Declaration} {value : Text}
    (hs : decl.respelled = decl) (hv : value ≠ decl.value) :
    { decl with value := value }.respelled = decl.give value := by
  have hp : { decl with value := value }.printValue = spellPlain value decl.important := by
    rw [← hs]
    exact if_neg (Ne.symm hv)
  rw [Declaration.respelled, hp, Declaration.give]

/-- A value is coming to a placeholder, and some rule asks for it. -/
theorem Narrowed.exists_asked {allowed : List Text} {nodes : List Node} {path : List Nat}
    {value : Text} (h : Narrowed allowed nodes path value) :
    (∃ decl, Node.at? nodes path = some (.declaration decl) ∧ Placeholder decl) ∧
      ∃ body, asked allowed body ≠ [] ∧ value = askedValue allowed body := by
  induction h with
  | @here nodes body i j head after value hr hp ha hv =>
      obtain ⟨⟨decl, hd, hplace⟩, -⟩ := hp
      refine ⟨⟨decl, ?_, hplace⟩, body, ha, hv⟩
      rw [Node.at?_block hr]
      exact hd
  | inside hb h ih =>
      obtain ⟨j, k, rest, rfl⟩ := h.path_eq
      rw [Node.at?_block hb]
      exact ih

theorem Node.map_bare_eq_declaration {node : Option Node} {decl : Declaration} :
    node.map Node.bare = some (.declaration decl) ↔ node = some (.declaration decl) := by
  cases node with
  | none => simp
  | some node => cases node <;> simp [Node.bare]

/-- At a path that gets no value the same declaration stands as before. -/
theorem at?_narrowAll_eq_declaration {allowed : List Text} {nodes : List Node} {path : List Nat}
    (h : ∀ value, ¬ Narrowed allowed nodes path value) {decl : Declaration} :
    Node.at? (Node.narrowAll allowed nodes) path = some (.declaration decl) ↔
      Node.at? nodes path = some (.declaration decl) := by
  rw [← Node.map_bare_eq_declaration, bare_at?_narrowAll h, Node.map_bare_eq_declaration]

/-- A node that gets no value is spelled as it was. -/
theorem bare_at?_respelledAll {allowed : List Text} {nodes : List Node}
    (hs : Node.respelledAll nodes = nodes) {path : List Nat}
    (h : ∀ value, ¬ Narrowed allowed nodes path value) :
    (Node.at? (Node.respelledAll (Node.narrowAll allowed nodes)) path).map Node.bare =
      (Node.at? (Node.narrowAll allowed nodes) path).map Node.bare := by
  rw [Node.at?_respelledAll]
  cases hn : Node.at? (Node.narrowAll allowed nodes) path with
  | none => rfl
  | some node =>
      cases node with
      | declaration decl =>
          rw [Option.map_some, Node.respelled_of_at? hs ((at?_narrowAll_eq_declaration h).1 hn)]
      | block | atStatement | comment => rfl

section
variable {allowed : List Text} (hallowed : ∀ prop ∈ allowed, isPlainName (target prop) = true)
include hallowed

/-- **The pass revises the nodes**, with a verdict on the rule they stand in. -/
theorem exists_revised : ∀ (nodes : List Node) (inside : Bool) (v : Verdict),
    (∀ value, v = .narrow value →
      inside = true ∧ PlainValue value ∧ ¬ PlaceholderValue value) →
    Node.respelledAll nodes = nodes →
    ∃ edits,
      Revised inside nodes (Node.respelledAll (v.apply (Node.narrowAll allowed nodes))) edits
  | [], inside, v, _, _ => by
      have hnil : v.apply [] = [] := by cases v <;> rfl
      rw [Node.narrowAll, hnil]
      exact ⟨[], .nil inside⟩
  | .block head body after :: rest, inside, v, hv, hs => by
      obtain ⟨hb, hr⟩ := List.cons.inj hs
      obtain ⟨v', he, hv'⟩ := Node.narrowBody_eq_apply allowed head body
      obtain ⟨inner, hinner⟩ := exists_revised body true v'
        (fun value h => by
          obtain ⟨-, ha, rfl⟩ := verdict_eq_narrow_iff.1 (hv' value h)
          exact ⟨rfl, askedValue_plain hallowed ha⟩)
        (Node.block.inj hb).2.1
      obtain ⟨edits, hedits⟩ := exists_revised rest inside v hv hr
      rw [Node.narrowAll, Node.narrow_block, Verdict.apply_cons, Node.respelledAll, Node.respelled,
        he]
      · exact ⟨_, .block hinner hedits⟩
      · intro _ _ h
        cases h
  | .declaration decl :: rest, inside, v, hv, hs => by
      obtain ⟨hd, hr⟩ := List.cons.inj hs
      rw [Node.narrowAll, Node.narrow]
      by_cases hp : ∃ value, v = .narrow value ∧ isPlaceholder decl = true
      · obtain ⟨value, rfl, hp⟩ := hp
        obtain ⟨rfl, hplain, hnot⟩ := hv value rfl
        obtain ⟨hprop, hvalue⟩ := isPlaceholder_iff.1 hp
        have hne : value ≠ decl.value := by
          rintro rfl
          exact hnot hvalue
        -- the rest of the rule has no verdict left
        obtain ⟨edits, hedits⟩ := exists_revised rest true .absent (fun _ h => by cases h) hr
        rw [Verdict.apply, assign, if_pos hp, Node.respelledAll, Node.respelled,
          Declaration.respelled_value (Node.declaration.inj hd) hne]
        exact ⟨_, .value hplain (by rw [hprop]; decide) hne hedits⟩
      · obtain ⟨edits, hedits⟩ := exists_revised rest inside v hv hr
        rw [Verdict.apply_cons, Node.respelledAll, hd]
        · exact ⟨edits, .leaf (fun _ _ _ h => by cases h) hedits⟩
        · intro other value ho hvalue
          cases ho
          rw [← Bool.not_eq_true]
          exact fun h => hp ⟨value, hvalue, h⟩
  | .atStatement _ :: rest, inside, v, hv, hs | .comment _ :: rest, inside, v, hv, hs => by
      obtain ⟨edits, hedits⟩ := exists_revised rest inside v hv (List.cons.inj hs).2
      rw [Node.narrowAll, Node.narrow, Verdict.apply_cons]
      · exact ⟨edits, .leaf (fun _ _ _ h => by cases h) hedits⟩
      · intro _ _ h
        cases h

/-- **The declarations that get a value** are those that have one coming. -/
theorem gets_iff_narrowed {nodes : List Node} (hs : Node.respelledAll nodes = nodes)
    {path : List Nat} {decl : Declaration} {value : Text} :
    Gets nodes (Node.respelledAll (Node.narrowAll allowed nodes)) path decl value ↔
      Narrowed allowed nodes path value ∧ Node.at? nodes path = some (.declaration decl) := by
  rw [Gets, Node.at?_respelledAll]
  constructor
  · rintro ⟨hd, hg, hne⟩
    obtain ⟨node, hn, hnode⟩ := Option.map_eq_some_iff.1 hg
    by_cases hv : ∃ value', Narrowed allowed nodes path value'
    · obtain ⟨value', hv⟩ := hv
      obtain ⟨decl', hd', hn'⟩ := hv.at?
      rw [hn] at hn'
      cases hn'
      have he : value' = value := congrArg Declaration.value (Node.declaration.inj hnode)
      exact ⟨he ▸ hv, hd⟩
    · rw [(at?_narrowAll_eq_declaration fun value' h => hv ⟨value', h⟩).2 hd] at hn
      cases hn
      have he : decl.value = value := congrArg Declaration.value (Node.declaration.inj hnode)
      exact absurd he.symm hne
  · rintro ⟨hv, hd⟩
    obtain ⟨decl', hd', hn⟩ := hv.at?
    obtain ⟨⟨decl'', hd'', hplace⟩, body, ha, he⟩ := hv.exists_asked
    rw [hd] at hd' hd''
    cases hd'
    cases hd''
    have hne : value ≠ decl.value := by
      intro hvalue
      exact (askedValue_plain hallowed ha).2 (he ▸ hvalue ▸ hplace.2)
    have hself := Node.declaration.inj (Node.respelled_of_at? hs hd)
    rw [hn, Option.map_some, Node.respelled, Declaration.respelled_value hself hne]
    exact ⟨hd, rfl, hne⟩

end

/-! ### The text after the pass -/

/-- **The pass revises a sheet that was read**, and the text after it is read again as the sheet that
the pass leaves, spelled as it prints. -/
theorem Sheet.exists_revised_narrow {source : Text} {sheet : Sheet} (file : String)
    (h : Sheet.parse .css source = .ok sheet) :
    ∃ edits, Revised false sheet.nodes (sheet.narrow file properties).1.respelled.nodes edits ∧
      (sheet.narrow file properties).1.respelled.ReadsBack .css := by
  obtain ⟨edits, hv⟩ := exists_revised isPlainName_target sheet.nodes false .absent nofun
    (Sheet.respelledAll_of_parse h)
  exact ⟨edits, hv, Sheet.readsBack_of_revised h rfl rfl hv⟩

/-- **What the pass over transitions writes.**  The output is the source, edited: for every
placeholder that has a value coming, from behind its colon up to its semicolon or brace.  The output
is read as the sheet after the pass, up to places and to the spelling of those values. -/
theorem Feature.transitions_edited {file : String} {source : Text} {out : Restyled}
    (h : Feature.transitions.restyle file source = .ok out) :
    ∃ sheet again edits, Sheet.parse .css source = .ok sheet ∧
      Sheet.parse .css out.output = .ok again ∧
      (∀ e, e ∈ edits ↔ ∃ path value decl, Narrowed properties sheet.nodes path value ∧
        sheet.at? path = some (.declaration decl) ∧ e = decl.edit value) ∧
      (∃ text text', Sheet.splitMark source = (sheet.bom, text) ∧
        Sheet.splitMark out.output = (sheet.bom, text') ∧ Edited 0 edits text text') ∧
      again.bom = sheet.bom ∧ again.after = sheet.after ∧
      ∀ path,
        (∀ value, Narrowed properties sheet.nodes path value →
          ∃ decl, (sheet.narrow file properties).1.at? path = some (.declaration decl) ∧
            decl.value = value ∧
            (again.at? path).map Node.unplaced = some (Node.declaration
              { decl with spelling := some ⟨value, spellPlain value decl.important⟩ }).unplaced) ∧
        ((∀ value, ¬ Narrowed properties sheet.nodes path value) →
          (again.at? path).map (·.unplaced.bare) =
            ((sheet.narrow file properties).1.at? path).map (·.unplaced.bare)) := by
  obtain ⟨sheet, hp, rfl⟩ := Feature.restyle_eq_ok_iff.1 h
  have hs := Sheet.respelledAll_of_parse hp
  obtain ⟨edits, hv, again, ha, hu⟩ := Sheet.exists_revised_narrow file hp
  have hbom : again.bom = sheet.bom := (congrArg Sheet.bom hu :)
  have hafter : again.after = sheet.after := (congrArg Sheet.after hu :)
  have hpath := Sheet.at?_of_unplaced_eq hu
  have hgets := @gets_iff_narrowed properties isPlainName_target sheet.nodes hs
  rw [Sheet.print_respelled] at ha
  refine ⟨sheet, again, edits, hp, ha, fun e => ?_, ⟨_, _, Sheet.splitMark_of_parse hp, ?_,
    Sheet.edited_of_revised hp hv⟩, hbom, hafter, fun path => ⟨fun value hn => ?_, fun hn => ?_⟩⟩
  · rw [hv.mem_edits_iff]
    constructor
    · rintro ⟨decl, value, ⟨path, hg⟩, rfl⟩
      obtain ⟨hn, hd⟩ := hgets.1 hg
      exact ⟨path, value, decl, hn, hd, rfl⟩
    · rintro ⟨path, value, decl, hn, hd, rfl⟩
      exact ⟨decl, value, ⟨path, hgets.2 ⟨hn, hd⟩⟩, rfl⟩
  · have hnodes := congrArg (fun s : Sheet => Node.printAll s.nodes) hu
    simp only [Sheet.unplaced, Node.printAll_unplaced] at hnodes
    rw [← hbom, ← hafter, ← hnodes]
    exact Sheet.splitMark_of_parse ha
  · obtain ⟨decl, hd, hnarrow⟩ := hn.at?
    obtain ⟨-, hg, -⟩ := hgets.2 ⟨hn, hd⟩
    refine ⟨_, hnarrow, rfl, ?_⟩
    rw [hpath]
    exact congrArg (Option.map Node.unplaced) hg
  · have hbare := congrArg (Option.map Node.unplaced) (bare_at?_respelledAll hs hn)
    have hagain := congrArg (Option.map Node.bare) (hpath path)
    simp only [Option.map_map, Function.comp_def, Node.bare_unplaced] at hagain hbare ⊢
    exact hagain.trans hbare

/-- A placeholder in front of a brace, with a comment in its value and a mark in capital letters. -/
theorem Feature.transitions_edited_sample :
    ∃ out again edits,
      Feature.transitions.restyle "a.css"
        ".a\x7b&:hover\x7bbackground:x\x7dtransition : All /**/0.15S!IMPORTANT \x7d".toList =
          .ok out ∧
      out.output =
        ".a\x7b&:hover\x7bbackground:x\x7dtransition : background-color 0.15s !important\x7d".toList ∧
      Sheet.parse .css out.output = .ok again ∧
      Edited 0 edits
        ".a\x7b&:hover\x7bbackground:x\x7dtransition : All /**/0.15S!IMPORTANT \x7d".toList
        out.output := by
  generalize hs :
    ".a\x7b&:hover\x7bbackground:x\x7dtransition : All /**/0.15S!IMPORTANT \x7d".toList = source
  generalize hn :
    ".a\x7b&:hover\x7bbackground:x\x7dtransition : background-color 0.15s !important\x7d".toList = new
  have ho : (Feature.transitions.restyle "a.css" source).toOption.map (·.output) = some new := by
    subst hs hn
    decide +kernel
  have hm : Sheet.splitMark source = (false, source) ∧ Sheet.splitMark new = (false, new) := by
    subst hs hn
    decide +kernel
  obtain ⟨out, hr, rfl⟩ := exists_of_map_toOption ho
  obtain ⟨sheet, again, edits, -, ha, -, ⟨text, text', ht, ht', he⟩, -⟩ :=
    Feature.transitions_edited hr
  obtain rfl : source = text := (Prod.mk.inj (hm.1.symm.trans ht)).2
  obtain rfl : out.output = text' := (Prod.mk.inj (hm.2.symm.trans ht')).2
  exact ⟨out, again, edits, hr, rfl, ha, he⟩

end Restyle
