import Mathlib.Data.List.Forall2
import Restyle.Proofs.Feature.Changed

/-!
# The notes on transitions

The pass leaves a note for each rule that holds a placeholder.  It does so on its way through the
sheet, when some of the values are given and others are not.  The notes can still be told from the
sheet as it was, and from the values that the placeholders have in the end.

* `Node.spotsAll`: the nodes of a tree with their paths, as they stand in the text.  Paths are in
  this order just when they are in the order of lists of numbers.
* `Node.narrowNotesAll_eq`: each rule is noted by itself.
* `updatedEntry`, `actionEntry`: what the log says of a placeholder that gets a value, and of one that
  stays.
* `Noted`: the entry of the log on the rule at a path.
* `Sheet.narrow_notes_exact`: **there is one entry for each rule that holds a placeholder**, in the
  order of the text, and it tells what became of the placeholder.
-/

namespace Restyle

open Transition

/-! ### Nodes with their paths -/

namespace Node

mutual

/-- The node and all nodes below it, in order, each with the path that leads to it from there. -/
def spots : Node → List (List Nat × Node)
  | .block head body after => ([], .block head body after) :: spotsAll 0 body
  | .atStatement head      => [([], .atStatement head)]
  | .declaration decl      => [([], .declaration decl)]
  | .comment c             => [([], .comment c)]

/-- The nodes and all nodes below them, in order, each with its path, where the first node has the
index `i`. -/
def spotsAll (i : Nat) : List Node → List (List Nat × Node)
  | []           => []
  | node :: rest => node.spots.map (fun s => (i :: s.1, s.2)) ++ spotsAll (i + 1) rest

end

theorem spots_eq_cons (node : Node) : node.spots = ([], node) :: spotsAll 0 node.children := by
  cases node <;> rfl

mutual

theorem map_snd_spots : ∀ node : Node, node.spots.map Prod.snd = node.parts
  | .block head body after => by rw [spots, parts, List.map_cons, map_snd_spotsAll 0 body]
  | .atStatement _ | .declaration _ | .comment _ => rfl

theorem map_snd_spotsAll (i : Nat) : ∀ nodes : List Node,
    (spotsAll i nodes).map Prod.snd = partsAll nodes
  | []           => rfl
  | node :: rest => by
      have hn : (node.spots.map fun s => (i :: s.1, s.2)).map Prod.snd = node.parts := by
        rw [List.map_map]
        exact map_snd_spots node
      rw [spotsAll, partsAll, List.map_append, hn, map_snd_spotsAll (i + 1) rest]

end

theorem mem_spotsAll {path : List Nat} {part : Node} {nodes : List Node} {i : Nat} :
    (path, part) ∈ spotsAll i nodes ↔
      ∃ j below node, path = (i + j) :: below ∧ nodes[j]? = some node ∧
        (below, part) ∈ node.spots := by
  induction nodes generalizing i with
  | nil => simp [spotsAll]
  | cons first nodes ih =>
      rw [spotsAll, List.mem_append, ih]
      constructor
      · rintro (hm | ⟨j, below, node, rfl, hj, hs⟩)
        · obtain ⟨⟨below, part'⟩, hs, he⟩ := List.mem_map.1 hm
          cases he
          exact ⟨0, below, first, rfl, rfl, hs⟩
        · exact ⟨j + 1, below, node, by rw [Nat.add_assoc, Nat.add_comm 1 j], hj, hs⟩
      · rintro ⟨j, below, node, rfl, hj, hs⟩
        cases j with
        | zero =>
            cases hj
            exact .inl (List.mem_map.2 ⟨(below, part), hs, rfl⟩)
        | succ j => exact .inr ⟨j, below, node, by rw [Nat.add_assoc, Nat.add_comm 1 j], hj, hs⟩

/-- **The list holds the nodes of the tree**, each at its path. -/
theorem mem_spotsAll_iff {part : Node} : ∀ {path : List Nat} {nodes : List Node},
    (path, part) ∈ spotsAll 0 nodes ↔ at? nodes path = some part
  | [],         nodes => by simp [mem_spotsAll, at?]
  | i :: below, nodes => by
      rw [mem_spotsAll, at?_cons_iff]
      simp only [Nat.zero_add, List.cons.injEq]
      constructor
      · rintro ⟨j, _, node, ⟨rfl, rfl⟩, hj, hs⟩
        rw [spots_eq_cons, List.mem_cons, Prod.mk.injEq, mem_spotsAll_iff] at hs
        exact ⟨node, hj, hs⟩
      · rintro ⟨node, hi, hp⟩
        refine ⟨i, below, node, ⟨rfl, rfl⟩, hi, ?_⟩
        rwa [spots_eq_cons, List.mem_cons, Prod.mk.injEq, mem_spotsAll_iff]

mutual

theorem pairwise_spots : ∀ node : Node, node.spots.Pairwise fun s t => s.1 < t.1
  | .block head body after => by
      refine List.pairwise_cons.2 ⟨?_, pairwise_spotsAll 0 body⟩
      -- the way to what a block holds begins with the way to the block
      rintro ⟨path, part⟩ hm
      obtain ⟨j, below, -, rfl, -⟩ := mem_spotsAll.1 hm
      exact List.nil_lt_cons _ _
  | .atStatement _ | .declaration _ | .comment _ => List.pairwise_singleton _ _

/-- **The nodes are listed in the order of the text**: what stands in a block comes after it, and
what stands in a sibling comes after all that stands in the ones before. -/
theorem pairwise_spotsAll (i : Nat) : ∀ nodes : List Node,
    (spotsAll i nodes).Pairwise fun s t => s.1 < t.1
  | []           => .nil
  | node :: rest => by
      rw [spotsAll, List.pairwise_append]
      refine ⟨?_, pairwise_spotsAll (i + 1) rest, ?_⟩
      · refine List.pairwise_map.2 ((pairwise_spots node).imp fun h => ?_)
        exact List.cons_lt_cons_self.2 h
      · rintro s hs ⟨path, part⟩ ht
        obtain ⟨s, -, rfl⟩ := List.mem_map.1 hs
        obtain ⟨j, below, -, rfl, -⟩ := mem_spotsAll.1 ht
        exact List.cons_lt_cons_iff.2 (.inl (by omega))

end

/-! ### Each rule is noted by itself -/

/-- The note on a rule, told from the rule alone. -/
def ownNotes (file : String) (allowed : List Text) : Node → List Note
  | .block (.rule head) body _ => (verdict allowed body).notes file head.selector
  | _                          => []

variable {file : String} {allowed : List Text}

mutual

theorem narrowNotes_eq : ∀ node : Node,
    node.narrowNotes file allowed = node.parts.flatMap (ownNotes file allowed)
  | .block (.rule head) body after => by
      rw [narrowNotes, narrowNotesAll_apply, parts, List.flatMap_cons, narrowNotesAll_eq body]
      rfl
  | .block (.atRule head) body after => by
      rw [narrowNotes, parts, List.flatMap_cons, narrowNotesAll_eq body]
      rfl
  | .atStatement _ | .declaration _ | .comment _ => by
      rw [narrowNotes]
      rfl

/-- **Each rule is noted by itself**, in the order of the text. -/
theorem narrowNotesAll_eq : ∀ nodes : List Node,
    narrowNotesAll file allowed nodes = (partsAll nodes).flatMap (ownNotes file allowed)
  | []           => by
      rw [narrowNotesAll]
      rfl
  | node :: rest => by
      rw [narrowNotesAll, partsAll, List.flatMap_append, narrowNotes_eq node,
        narrowNotesAll_eq rest]

end

end Node

/-! ### The words of the log -/

/-- The entry on a rule whose placeholder got a value. -/
def updatedEntry (file : String) (selector value : Text) : Level × String :=
  (.info, "[UPDATED] " ++ file ++ " @ \"" ++ String.ofList selector ++ "\" transition to \"" ++
    String.ofList value ++ "\"")

/-- The entry on a rule whose placeholder stays, with the line of the placeholder. -/
def actionEntry (file : String) (selector : Text) (line : Nat) (reason : String) : Level × String :=
  (.info, file ++ " @ \"" ++ String.ofList selector ++ "\" -> " ++ toString line ++
    " | Action should be taken (" ++ reason ++ ")")

/-- An entry tells one value. -/
theorem updatedEntry_inj {file : String} {selector value value' : Text} :
    updatedEntry file selector value = updatedEntry file selector value' ↔ value = value' := by
  rw [updatedEntry, updatedEntry, Prod.mk.injEq, String.append_left_inj, String.append_right_inj,
    String.ofList_inj]
  exact and_iff_right rfl

/-- An entry tells one reason. -/
theorem actionEntry_inj {file : String} {selector : Text} {line : Nat} {reason reason' : String} :
    actionEntry file selector line reason = actionEntry file selector line reason' ↔
      reason = reason' := by
  rw [actionEntry, actionEntry, Prod.mk.injEq, String.append_left_inj, String.append_right_inj]
  exact and_iff_right rfl

/-- The last characters tell the two kinds of entries apart. -/
theorem updatedEntry_ne_actionEntry {file file' : String} {selector selector' value : Text}
    {line : Nat} {reason : String} :
    updatedEntry file selector value ≠ actionEntry file' selector' line reason := by
  intro h
  have hlast := congrArg (fun entry => entry.2.toList.getLast?) h
  simp only [updatedEntry, actionEntry, String.toList_append] at hlast
  rw [show "\"".toList = ['"'] from rfl, show ")".toList = [')'] from rfl, List.getLast?_concat,
    List.getLast?_concat] at hlast
  cases hlast

/-- The reason may be told together with the words around it. -/
theorem actionEntry_eq {file : String} {selector : Text} {line : Nat} {reason wording : String}
    (h : wording = " | Action should be taken (" ++ reason ++ ")") :
    actionEntry file selector line reason =
      (.info, file ++ " @ \"" ++ String.ofList selector ++ "\" -> " ++ toString line ++ wording) := by
  rw [h, actionEntry]
  simp only [String.append_assoc]

/-- The entries on a rule with the selector, after a verdict. -/
def entriesOf (file : String) (selector : Text) : Verdict → List (Level × String)
  | .absent                 => []
  | .noPseudoClass line     =>
    [actionEntry file selector line "did not find child pseudo-classes"]
  | .noAllowedProperty line =>
    [actionEntry file selector line "no allowed properties modified in pseudo-elements"]
  | .narrow value           => [updatedEntry file selector value]

/-- **The notes of a verdict are in the log** under these entries. -/
theorem map_entry_notes (file : String) (selector : Text) : ∀ v : Verdict,
    (v.notes file selector).map (fun note => (note.level, note.message)) =
      entriesOf file selector v
  | .absent | .narrow _                           => rfl
  | .noPseudoClass line | .noAllowedProperty line => by
      rw [entriesOf, actionEntry_eq rfl]
      rfl

/-- A note is on a new value just when its entry tells of one. -/
theorem isNarrowed_iff {file : String} {selector : Text} {v : Verdict} {note : Note}
    (h : note ∈ v.notes file selector) :
    note.isNarrowed = true ↔
      ∃ selector' value, (note.level, note.message) = updatedEntry file selector' value := by
  have hentry := List.mem_map_of_mem (f := fun note : Note => (note.level, note.message)) h
  rw [map_entry_notes] at hentry
  cases v with
  | absent => cases h
  | noPseudoClass | noAllowedProperty =>
      cases List.mem_singleton.1 h
      rw [List.mem_singleton.1 hentry]
      refine iff_of_false nofun ?_
      rintro ⟨selector', value, he⟩
      exact updatedEntry_ne_actionEntry he.symm
  | narrow value =>
      cases List.mem_singleton.1 h
      exact iff_of_true rfl ⟨selector, value, rfl⟩

/-! ### What an entry tells -/

/-- A rule is among the nodes whose selector adds a pseudo-class. -/
def HasPseudoClass (body : List Node) : Prop :=
  ∃ head inner after, Node.block (.rule head) inner after ∈ body ∧ PseudoSelector head.selector

theorem pseudoBodies_ne_nil {body : List Node} : pseudoBodies body ≠ [] ↔ HasPseudoClass body := by
  rw [pseudoBodies, Ne, List.map_eq_nil_iff, List.filter_eq_nil_iff, HasPseudoClass]
  simp only [Node.rules, List.mem_filterMap, isPseudoSelector_iff, not_forall, not_not]
  constructor
  · rintro ⟨⟨head, inner⟩, ⟨node, hn, hr⟩, hs⟩
    split at hr
    · cases hr
      exact ⟨_, _, _, hn, hs⟩
    · cases hr
  · rintro ⟨head, inner, after, hn, hs⟩
    exact ⟨(head, inner), ⟨_, hn, rfl⟩, hs⟩

/-- The entry of the log tells what became of `decl`, the first placeholder of the rule at the path,
which is the child `i` of the rule and is reported at the line. -/
structure Noted (file : String) (allowed : List Text) (sheet : Sheet) (path : List Nat)
    (head : RuleHead) (body : List Node) (i : Nat) (decl : Declaration) (line : Nat)
    (entry : Level × String) : Prop where
  level : entry.1 = .info
  /-- It tells of a value just when the placeholder gets that value. -/
  updated : ∀ value, entry = updatedEntry file head.selector value ↔
    Narrowed allowed sheet.nodes (path ++ [i]) value
  /-- It misses pseudo-classes just when no child has one. -/
  noPseudoClass :
    entry = actionEntry file head.selector line "did not find child pseudo-classes" ↔
      ¬ HasPseudoClass body
  /-- It misses properties in all other cases. -/
  noAllowedProperty :
    entry = actionEntry file head.selector line
        "no allowed properties modified in pseudo-elements" ↔
      HasPseudoClass body ∧ ∀ value, ¬ Narrowed allowed sheet.nodes (path ++ [i]) value
  /-- A value that it tells of is there after the pass. -/
  after : ∀ value, entry = updatedEntry file head.selector value →
    (sheet.narrow file allowed).1.at? (path ++ [i]) =
      some (.declaration { decl with value := value })
  /-- If it tells of no value, the placeholder is as it was. -/
  stays : (∀ value, entry ≠ updatedEntry file head.selector value) →
    (sheet.narrow file allowed).1.at? (path ++ [i]) = some (.declaration decl)

/-- The rule at the path holds a placeholder. -/
def Waits (nodes : List Node) (path : List Nat) : Prop :=
  ∃ head body after, Node.at? nodes path = some (.block (.rule head) body after) ∧
    ∃ decl ∈ Node.declarations body, Placeholder decl

/-- What a rule at a path gives to a child is told from the rule. -/
theorem narrowed_at?_iff {allowed : List Text} {head : RuleHead} {body : List Node} {after : Text}
    {i : Nat} {value : Text} : ∀ {path : List Nat} {nodes : List Node},
    Node.at? nodes path = some (.block (.rule head) body after) →
      (Narrowed allowed nodes (path ++ [i]) value ↔
        FirstPlaceholder body i ∧ asked allowed body ≠ [] ∧ value = askedValue allowed body)
  | [k], nodes, h => by
      have hk : nodes[k]? = some (.block (.rule head) body after) := h
      constructor
      · intro hn
        cases hn with
        | here hr hp ha hv =>
            rw [hk] at hr
            cases hr
            exact ⟨hp, ha, hv⟩
        | inside _ hn => obtain ⟨_, _, _, he⟩ := hn.path_eq; cases he
      · rintro ⟨hp, ha, hv⟩
        exact .here hk hp ha hv
  | k :: j :: path, nodes, h => by
      obtain ⟨node, hk, ⟨he, -⟩ | hb⟩ := Node.at?_cons_iff.1 h
      · cases he
      · have hlong : path ++ [i] ≠ [] := by simp
        rw [← narrowed_at?_iff hb, List.cons_append, List.cons_append]
        generalize path ++ [i] = rest at hlong ⊢
        cases node with
        | block outer inner last =>
            constructor
            · intro hn
              cases hn with
              | here => exact absurd rfl hlong
              | inside hr hn =>
                  rw [hk] at hr
                  cases hr
                  exact hn
            · exact .inside hk
        | atStatement | declaration | comment => cases (Node.at?_nil _).symm.trans hb

/-! ### The note on a rule -/

/-- The placeholder that a rule has is the first one among its children. -/
theorem placeholder?_of_first {body : List Node} {i : Nat} {decl : Declaration}
    (h : FirstPlaceholder body i) (hd : body[i]? = some (.declaration decl)) :
    placeholder? body = some decl := by
  induction body generalizing i with
  | nil => cases hd
  | cons node rest ih =>
      cases i with
      | zero =>
          cases hd
          obtain ⟨_, he, hp⟩ := firstPlaceholder_zero.1 h
          cases he
          exact List.find?_cons_of_pos (isPlaceholder_iff.2 hp)
      | succ i =>
          obtain ⟨hn, hr⟩ := firstPlaceholder_succ.1 h
          have hrest := ih hr hd
          cases node with
          | declaration other =>
              rw [← hrest]
              exact List.find?_cons_of_neg fun hp => hn other rfl (isPlaceholder_iff.1 hp)
          | block | atStatement | comment => exact hrest

/-- The three verdicts on a rule that holds a placeholder. -/
theorem verdict_cases (allowed : List Text) {body : List Node} {decl : Declaration}
    (h : placeholder? body = some decl) :
    (¬ HasPseudoClass body ∧ verdict allowed body = .noPseudoClass (lineOf decl.source)) ∨
      (HasPseudoClass body ∧ asked allowed body = [] ∧
        verdict allowed body = .noAllowedProperty (lineOf decl.source)) ∨
      HasPseudoClass body ∧ asked allowed body ≠ [] ∧
        verdict allowed body = .narrow (askedValue allowed body) := by
  simp only [← pseudoBodies_ne_nil, ← valueOf_changedProps, ne_eq, ← changedProps_eq_nil, verdict,
    h]
  by_cases hp : pseudoBodies body = []
  · simp [hp]
  · cases hc : changedProps allowed body with
    | nil => simp [hp]
    | cons prop rest => simp [hp]

theorem Node.at?_append_singleton {node : Node} (i : Nat) : ∀ {path : List Nat} {nodes : List Node},
    at? nodes path = some node → at? nodes (path ++ [i]) = node.children[i]?
  | k :: below, nodes, h => by
      obtain ⟨outer, hk, ⟨rfl, rfl⟩ | hb⟩ := at?_cons_iff.1 h
      · cases node with
        | block => exact at?_block hk i []
        | atStatement | declaration | comment => exact at?_leaf (by simp [hk]) i []
      · cases outer with
        | block =>
            cases below with
            | nil => cases hb
            | cons j below =>
                rw [List.cons_append, List.cons_append, at?_block hk]
                exact at?_append_singleton i hb
        | atStatement | declaration | comment => cases (at?_nil _).symm.trans hb

/-- The log has one entry on a rule that holds a placeholder, the one for its verdict. -/
theorem exists_noted {file : String} {allowed : List Text} {sheet : Sheet} {path : List Nat}
    {head : RuleHead} {body : List Node} {after : Text} {i : Nat} {decl : Declaration}
    (h : sheet.at? path = some (.block (.rule head) body after)) (hf : FirstPlaceholder body i)
    (hd : body[i]? = some (.declaration decl)) :
    ∃ entry, ((verdict allowed body).notes file head.selector).map
          (fun note => (note.level, note.message)) = [entry] ∧
      Noted file allowed sheet path head body i decl (lineOf decl.source) entry := by
  have hat : sheet.at? (path ++ [i]) = some (.declaration decl) :=
    (Node.at?_append_singleton i h).trans hd
  have hgets : ∀ {value}, Narrowed allowed sheet.nodes (path ++ [i]) value ↔
      asked allowed body ≠ [] ∧ value = askedValue allowed body := by
    intro value
    rw [narrowed_at?_iff h]
    exact and_iff_right hf
  -- without a value, the placeholder stays as it was
  have hstays (ha : asked allowed body = []) :
      (sheet.narrow file allowed).1.at? (path ++ [i]) = some (.declaration decl) := by
    have hsame := bare_at?_narrowAll fun value hn => (hgets.1 hn).1 ha
    rw [show Node.at? sheet.nodes (path ++ [i]) = _ from hat] at hsame
    obtain ⟨node, hn, hb⟩ := Option.map_eq_some_iff.1 hsame
    cases node with
    | declaration => exact hn.trans (congrArg some hb)
    | block | atStatement | comment => cases hb
  have hnone (hp : ¬ HasPseudoClass body) : asked allowed body = [] :=
    asked_of_pseudoBodies (not_not.1 (mt pseudoBodies_ne_nil.1 hp))
  have hne {value line reason} : actionEntry file head.selector line reason ≠
      updatedEntry file head.selector value := updatedEntry_ne_actionEntry.symm
  rcases verdict_cases allowed (placeholder?_of_first hf hd) with
    ⟨hp, hv⟩ | ⟨hp, ha, hv⟩ | ⟨hp, ha, hv⟩
  · refine ⟨_, by rw [hv, map_entry_notes, entriesOf], rfl, ?_, ?_, ?_, ?_, fun _ =>
      hstays (hnone hp)⟩
    · simp [hgets, hnone hp, hne]
    · simp [hp]
    · simp [hp, actionEntry_inj]
    · exact fun value he => absurd he hne
  · refine ⟨_, by rw [hv, map_entry_notes, entriesOf], rfl, ?_, ?_, ?_, ?_, fun _ => hstays ha⟩
    · simp [hgets, ha, hne]
    · simp [hp, actionEntry_inj]
    · simp [hp, hgets, ha]
    · exact fun value he => absurd he hne
  · refine ⟨_, by rw [hv, map_entry_notes, entriesOf], rfl, ?_, ?_, ?_, ?_, fun hs =>
      absurd rfl (hs _)⟩
    · simp [hgets, ha, updatedEntry_inj, eq_comm]
    · simp [hp, hne.symm]
    · simp [hp, hgets, ha, hne.symm]
    · intro value he
      obtain ⟨old, ho, hn⟩ := (hgets.2 ⟨ha, rfl⟩).at?
      cases hat.symm.trans ho
      rw [← updatedEntry_inj.1 he]
      exact hn

/-- The node is a rule that holds a placeholder. -/
def Node.waits : Node → Bool
  | .block (.rule _) body _ => (placeholder? body).isSome
  | _                       => false

theorem Node.waits_iff {node : Node} :
    node.waits = true ↔ ∃ head body after, node = .block (.rule head) body after ∧
      ∃ decl ∈ Node.declarations body, Placeholder decl := by
  cases node with
  | block head body after => cases head <;> simp [waits, placeholder?_isSome]
  | atStatement | declaration | comment => simp [waits]

/-- A rule that holds no placeholder, and a node that is no rule, is not noted. -/
theorem Node.ownNotes_of_not_waits {file : String} {allowed : List Text} {node : Node}
    (h : node.waits = false) : node.ownNotes file allowed = [] := by
  cases node with
  | block head body after =>
      cases head with
      | rule head =>
          have hp : placeholder? body = none := by simpa [waits] using h
          rw [ownNotes, verdict, hp]
          rfl
      | atRule => rfl
  | atStatement | declaration | comment => rfl

/-- A note on a node is on a new value just when its entry tells of one. -/
theorem Node.isNarrowed_iff_of_mem {file : String} {allowed : List Text} {node : Node} {note : Note}
    (h : note ∈ node.ownNotes file allowed) :
    note.isNarrowed = true ↔
      ∃ selector value, (note.level, note.message) = updatedEntry file selector value := by
  unfold ownNotes at h
  split at h
  · exact isNarrowed_iff h
  · cases h

/-- Each of the items that are wanted gives one result, and the others give none. -/
theorem forall₂_filter_flatMap {α β : Type} {want : α → Bool} {f : α → List β} {R : α → β → Prop} :
    ∀ {items : List α}, (∀ a ∈ items, want a = true → ∃ b, f a = [b] ∧ R a b) →
      (∀ a ∈ items, want a = false → f a = []) →
      List.Forall₂ R (items.filter want) (items.flatMap f)
  | [],        _,  _  => .nil
  | a :: rest, hw, hn => by
      have ih := forall₂_filter_flatMap (fun b hb => hw b (List.mem_cons_of_mem a hb))
        fun b hb => hn b (List.mem_cons_of_mem a hb)
      rw [List.flatMap_cons]
      cases ha : want a with
      | true =>
          obtain ⟨b, hb, hr⟩ := hw a List.mem_cons_self ha
          rw [List.filter_cons_of_pos ha, hb]
          exact .cons hr ih
      | false =>
          rw [List.filter_cons_of_neg (by simp [ha]), hn a List.mem_cons_self ha]
          exact ih

/-- **The log of the pass.**  There is one entry for each rule that holds a placeholder, in the order
of the text, and it tells what became of the placeholder.  A change is reported just when the log
tells of a new value, and nothing is removed. -/
theorem Sheet.narrow_notes_exact (file : String) (allowed : List Text) (sheet : Sheet) :
    ∃ paths : List (List Nat),
      paths.Pairwise (· < ·) ∧ (∀ path, path ∈ paths ↔ Waits sheet.nodes path) ∧
      List.Forall₂ (fun path entry => ∃ head body after i decl line,
          sheet.at? path = some (.block (.rule head) body after) ∧ FirstPlaceholder body i ∧
          body[i]? = some (.declaration decl) ∧ ReportedAt decl.source line ∧
          Noted file allowed sheet path head body i decl line entry)
        paths ((sheet.narrow file allowed).2.notes.map fun note => (note.level, note.message)) ∧
      ((sheet.narrow file allowed).2.changed = true ↔
        ∃ selector value, updatedEntry file selector value ∈
          (sheet.narrow file allowed).2.notes.map fun note => (note.level, note.message)) ∧
      (sheet.narrow file allowed).2.removals = [] := by
  have hnotes : (sheet.narrow file allowed).2.notes =
      (Node.spotsAll 0 sheet.nodes).flatMap fun s => s.2.ownNotes file allowed := by
    rw [Sheet.narrow, Node.narrowNotesAll_eq, ← Node.map_snd_spotsAll 0, List.flatMap_map]
  refine ⟨((Node.spotsAll 0 sheet.nodes).filter (·.2.waits)).map Prod.fst, ?_, fun path => ?_, ?_,
    ?_, rfl⟩
  · exact List.pairwise_map.2 ((Node.pairwise_spotsAll 0 sheet.nodes).filter _)
  · rw [List.mem_map, Waits]
    constructor
    · rintro ⟨⟨path, node⟩, hm, rfl⟩
      obtain ⟨hm, hw⟩ := List.mem_filter.1 hm
      obtain ⟨head, body, after, rfl, hp⟩ := Node.waits_iff.1 hw
      exact ⟨head, body, after, Node.mem_spotsAll_iff.1 hm, hp⟩
    · rintro ⟨head, body, after, hn, hp⟩
      refine ⟨(path, _), List.mem_filter.2 ⟨Node.mem_spotsAll_iff.2 hn, ?_⟩, rfl⟩
      exact Node.waits_iff.2 ⟨head, body, after, rfl, hp⟩
  · rw [hnotes, List.map_flatMap, List.forall₂_map_left_iff]
    refine forall₂_filter_flatMap ?_ fun s _ hs => by rw [Node.ownNotes_of_not_waits hs]; rfl
    rintro ⟨path, node⟩ hm hs
    have hat : sheet.at? path = some node := Node.mem_spotsAll_iff.1 hm
    obtain ⟨head, body, after, rfl, hp⟩ := Node.waits_iff.1 hs
    obtain ⟨i, hf⟩ := exists_firstPlaceholder hp
    obtain ⟨⟨decl, hd, -⟩, -⟩ := id hf
    obtain ⟨entry, he, hn⟩ := exists_noted hat hf hd
    exact ⟨entry, he, head, body, after, i, decl, _, hat, hf, hd, reportedAt_lineOf decl.source, hn⟩
  · -- a change is told note by note
    have hchanged : ∀ note ∈ (sheet.narrow file allowed).2.notes, (note.isNarrowed = true ↔
        ∃ selector value, (note.level, note.message) = updatedEntry file selector value) := by
      intro note hm
      rw [hnotes, List.mem_flatMap] at hm
      obtain ⟨⟨path, node⟩, -, hm⟩ := hm
      exact Node.isNarrowed_iff_of_mem hm
    rw [Sheet.narrow, List.any_eq_true]
    constructor
    · rintro ⟨note, hm, hn⟩
      obtain ⟨selector, value, he⟩ := (hchanged note hm).1 hn
      exact ⟨selector, value, List.mem_map.2 ⟨note, hm, he⟩⟩
    · rintro ⟨selector, value, hm⟩
      obtain ⟨note, hm, he⟩ := List.mem_map.1 hm
      exact ⟨note, hm, (hchanged note hm).2 ⟨selector, value, he⟩⟩

end Restyle
