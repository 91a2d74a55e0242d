import Mathlib.Data.List.Nodup
import Restyle.Proofs.Prune.Reread
import Restyle.Proofs.Sheet.Places

/-!
# What cleaning deletes from a text

A block that goes takes the filler in front of it along and leaves everything else alone, so
cleaning deletes one stretch of the text for each block that goes, unless it goes with a block
around it.

* `Outermost nodes path node`: the node at the path goes, and no block around it does.
* `Deleted n gone text text'`: the second text is the first with the stretches taken out, where the
  first begins at byte `n`.
* `Feature.clean_deletes`: **cleaning deletes the stretches of the outermost blocks that go**.
-/

namespace Restyle

/-! ### Texts with stretches taken out -/

/-- A stretch of a text: from which byte on, and what stands there. -/
structure Stretch where
  start : Nat
  text : Text
deriving DecidableEq, Repr

/-- The byte at which the stretch ends. -/
def Stretch.stop (s : Stretch) : Nat := s.start + s.text.size

/-- The second text is the first one without the stretches, in order.  The first text begins at byte
`n`.  Outside of the stretches both texts have the same characters. -/
inductive Deleted : Nat → List Stretch → Text → Text → Prop where
  | nil (n : Nat) : Deleted n [] [] []
  | same {n : Nat} {gone : List Stretch} {text text' : Text} (c : Char)
      (t : Deleted (n + c.utf8Size) gone text text') : Deleted n gone (c :: text) (c :: text')
  | cut {gone : List Stretch} {text text' : Text} (s : Stretch)
      (t : Deleted s.stop gone text text') : Deleted s.start (s :: gone) (s.text ++ text) text'

namespace Deleted

variable {n : Nat} {gone : List Stretch} {text text' : Text}

theorem append_same (front : Text) (h : Deleted (n + front.size) gone text text') :
    Deleted n gone (front ++ text) (front ++ text') := by
  induction front generalizing n with
  | nil => exact h
  | cons c front ih =>
      refine .same c (ih ?_)
      rwa [Text.size_cons, ← Nat.add_assoc] at h

/-- Nothing is taken out of a text that stays. -/
theorem refl (n : Nat) (text : Text) : Deleted n [] text text := by
  simpa using append_same text (.nil (n + text.size))

/-- A stretch is what the text holds from where it starts to where it ends. -/
theorem slice (h : Deleted n gone text text') {s : Stretch} (hs : s ∈ gone) :
    ∃ before after, text = before ++ s.text ++ after ∧ n + before.size = s.start := by
  induction h with
  | nil => cases hs
  | same c _ ih =>
      obtain ⟨before, after, rfl, hn⟩ := ih hs
      exact ⟨c :: before, after, rfl, by rw [Text.size_cons, ← hn, Nat.add_assoc]⟩
  | @cut _ text _ first _ ih =>
      rcases List.mem_cons.1 hs with rfl | hs
      · exact ⟨[], text, rfl, rfl⟩
      · obtain ⟨before, after, rfl, hn⟩ := ih hs
        refine ⟨first.text ++ before, after, by simp, ?_⟩
        rw [Text.size_append, ← hn, Stretch.stop, Nat.add_assoc]

/-- **The stretches are disjoint**: each ends before the next one starts. -/
theorem pairwise_stop (h : Deleted n gone text text') : gone.Pairwise (·.stop ≤ ·.start) := by
  induction h with
  | nil => exact .nil
  | same _ _ ih => exact ih
  | cut first t ih =>
      refine .cons (fun s hs => ?_) ih
      obtain ⟨before, -, -, hn⟩ := t.slice hs
      omega

end Deleted

/-! ### The blocks that go -/

/-- The node at the path goes, and no block around it does. -/
inductive Outermost : List Node → List Nat → Node → Prop where
  | here {nodes : List Node} {i : Nat} {node : Node} (hi : nodes[i]? = some node)
      (hg : node.prune = none) : Outermost nodes [i] node
  | inside {nodes body : List Node} {i : Nat} {head : Head} {after : Text} {path : List Nat}
      {node : Node} (hi : nodes[i]? = some (.block head body after))
      (hk : (Node.block head body after).prune ≠ none) (t : Outermost body path node) :
      Outermost nodes (i :: path) node

namespace Outermost

variable {nodes : List Node} {path : List Nat} {node : Node}

theorem prune_eq_none (h : Outermost nodes path node) : node.prune = none := by
  induction h with
  | here _ hg => exact hg
  | inside _ _ _ ih => exact ih

theorem mem_partsAll (h : Outermost nodes path node) : node ∈ Node.partsAll nodes := by
  induction h with
  | @here nodes i node hi =>
      exact Node.mem_partsAll.2 ⟨node, List.mem_of_getElem? hi, node.mem_parts_self⟩
  | inside hi _ _ ih =>
      exact Node.mem_partsAll.2 ⟨_, List.mem_of_getElem? hi, List.mem_cons_of_mem _ ih⟩

theorem exists_cons (h : Outermost nodes path node) : ∃ i rest, path = i :: rest := by
  cases h with
  | here | inside => exact ⟨_, _, rfl⟩

/-- Nothing goes where there is nothing. -/
theorem not_nil : ¬ Outermost [] path node := by
  intro h
  cases h with
  | here hi | inside hi => cases hi

end Outermost

namespace Node

mutual

/-- The outermost nodes that go from the node, itself included, each with the path that leads to it
from there. -/
def goneIn : Node → List (List Nat × Node)
  | .block head body after =>
    if head.isVacant (pruneAll body) then [([], .block head body after)] else goneAll 0 body
  | .atStatement head      => [([], .atStatement head)]
  | .declaration _         => []
  | .comment _             => []

/-- The outermost nodes that go, each with its path, where the first node has the index `i`. -/
def goneAll (i : Nat) : List Node → List (List Nat × Node)
  | []           => []
  | node :: rest => node.goneIn.map (fun g => (i :: g.1, g.2)) ++ goneAll (i + 1) rest

end

mutual

theorem mem_goneIn {path : List Nat} {part : Node} : ∀ {node : Node},
    (path, part) ∈ node.goneIn ↔ path = [] ∧ part = node ∧ node.prune = none ∨
      node.prune ≠ none ∧ Outermost node.children path part
  | .block head body after => by
      rw [goneIn, Ne, prune_block_eq_none_iff, children]
      by_cases hv : head.isVacant (pruneAll body) = true
      · simp [hv]
      · rw [if_neg hv, mem_goneAll]
        constructor
        · rintro ⟨j, rest, rfl, ho⟩
          rw [Nat.zero_add]
          exact .inr ⟨hv, ho⟩
        · rintro (⟨-, -, h⟩ | ⟨-, ho⟩)
          · exact absurd h hv
          · obtain ⟨j, rest, rfl⟩ := ho.exists_cons
            exact ⟨j, rest, by rw [Nat.zero_add], ho⟩
  | .atStatement head => by simp [goneIn, prune]
  | .declaration _ | .comment _ => by
      simp only [goneIn, prune, children, List.not_mem_nil, false_iff]
      rintro (⟨-, -, h⟩ | ⟨-, ho⟩)
      · cases h
      · exact Outermost.not_nil ho

/-- **The list holds the outermost nodes that go.** -/
theorem mem_goneAll {path : List Nat} {part : Node} : ∀ {nodes : List Node} {i : Nat},
    (path, part) ∈ goneAll i nodes ↔
      ∃ j rest, path = (i + j) :: rest ∧ Outermost nodes (j :: rest) part
  | [], i => by
      simp only [goneAll, List.not_mem_nil, false_iff]
      rintro ⟨j, rest, -, ho⟩
      exact Outermost.not_nil ho
  | node :: nodes, i => by
      rw [goneAll, List.mem_append, @mem_goneAll path part nodes]
      constructor
      · rintro (hm | ⟨j, rest, rfl, ho⟩)
        · obtain ⟨⟨rest, part'⟩, hg, he⟩ := List.mem_map.1 hm
          cases he
          refine ⟨0, rest, rfl, ?_⟩
          rcases mem_goneIn.1 hg with ⟨rfl, rfl, hp⟩ | ⟨hk, ho⟩
          · exact .here rfl hp
          · cases node with
            | block head body after => exact .inside rfl hk ho
            | atStatement | declaration | comment => exact absurd ho Outermost.not_nil
        · refine ⟨j + 1, rest, by rw [Nat.add_assoc, Nat.add_comm 1 j], ?_⟩
          cases ho with
          | here hi hg => exact .here hi hg
          | inside hi hk t => exact .inside hi hk t
      · rintro ⟨j, rest, rfl, ho⟩
        cases j with
        | zero =>
            refine .inl (List.mem_map.2 ⟨(rest, part), mem_goneIn.2 ?_, rfl⟩)
            cases ho with
            | here hi hg =>
                cases hi
                exact .inl ⟨rfl, rfl, hg⟩
            | inside hi hk t =>
                cases hi
                exact .inr ⟨hk, t⟩
        | succ j =>
            refine .inr ⟨j, rest, by rw [Nat.add_assoc, Nat.add_comm 1 j], ?_⟩
            cases ho with
            | here hi hg => exact .here hi hg
            | inside hi hk t => exact .inside hi hk t

end

mutual

theorem nodup_goneIn : ∀ node : Node, (node.goneIn.map Prod.fst).Nodup
  | .block head body after => by
      rw [goneIn]
      split
      · exact List.nodup_singleton _
      · exact nodup_goneAll 0 body
  | .atStatement _ => List.nodup_singleton _
  | .declaration _ | .comment _ => List.nodup_nil

/-- No path comes twice. -/
theorem nodup_goneAll : ∀ (i : Nat) (nodes : List Node), ((goneAll i nodes).map Prod.fst).Nodup
  | _, [] => List.nodup_nil
  | i, node :: nodes => by
      have hfst : (node.goneIn.map fun g => (i :: g.1, g.2)).map Prod.fst =
          (node.goneIn.map Prod.fst).map (i :: ·) := by
        rw [List.map_map, List.map_map]
        rfl
      rw [goneAll, List.map_append, hfst, List.nodup_append]
      refine ⟨(nodup_goneIn node).map (fun _ _ h => (List.cons.inj h).2), nodup_goneAll _ nodes, ?_⟩
      -- the first index tells the first node from the others
      rintro a ha b hb rfl
      obtain ⟨rest, -, rfl⟩ := List.mem_map.1 ha
      obtain ⟨⟨path, part⟩, hm, he⟩ := List.mem_map.1 hb
      obtain ⟨j, rest', hp, -⟩ := mem_goneAll.1 hm
      have := (List.cons.inj (hp.symm.trans he)).1
      omega

end

/-! ### What is left of the text -/

/-- The stretch of a node in a text where `mark` bytes stand before what its place counts from: the
filler in front of it and its own text. -/
def stretch (mark : Nat) (node : Node) : Stretch :=
  ⟨mark + (offsetOf node.source - node.before.size), node.print⟩

/-- The stretch of a node begins where its filler does. -/
theorem Stands.stretch_start {p : Position} {next : Text} {node : Node} (h : node.Stands p next)
    (mark : Nat) : (node.stretch mark).start = mark + p.offset := by
  rw [stretch, h.offset, Nat.add_sub_cancel]

theorem Stands.deleted {p : Position} {next : Text} {node : Node} (h : node.Stands p next)
    {mark : Nat} {later : List Stretch} {text text' : Text}
    (ht : Deleted (mark + p.offset + node.print.size) later text text') :
    Deleted (mark + p.offset) (node.stretch mark :: later) (node.print ++ text) text' := by
  rw [← h.stretch_start mark] at ht ⊢
  exact .cut (node.stretch mark) ht

mutual

/-- What goes from a node is deleted from its text, whatever is deleted behind it. -/
theorem Placed.deleted {mark : Nat} {later : List Stretch} {text text' : Text} :
    ∀ {node : Node} {p : Position} {next : Text}, node.Placed p next →
      Deleted (mark + p.offset + node.print.size) later text text' →
      Deleted (mark + p.offset) (node.goneIn.map (·.2.stretch mark) ++ later) (node.print ++ text)
        (printAll node.prune.toList ++ text')
  | .block head body after, p, next, h, ht => by
      rw [goneIn, prune]
      split
      · exact h.1.deleted ht
      · have hbody : Deleted (mark + (p.offset + (head.print ++ ['{']).size) + (printAll body).size)
            later (after ++ '}' :: text) (after ++ '}' :: text') := by
          refine .append_same after (.same '}' ?_)
          have hsize : (Node.block head body after).print.size = (head.print ++ ['{']).size +
              (printAll body).size + after.size + '}'.utf8Size := by
            simp only [print, Text.size_append, Text.size_cons, Text.size_nil]
            omega
          rw [hsize] at ht
          convert ht using 1
          omega
        have hall := PlacedAll.deleted mark (i := 0) h.2
          (by rw [Position.offset_past]; exact hbody)
        rw [Position.offset_past, ← Nat.add_assoc] at hall
        simpa [print, printAll] using hall.append_same (head.print ++ ['{'])
  | .atStatement _, p, next, h, ht => Stands.deleted h ht
  | .declaration _, p, next, _, ht | .comment _, p, next, _, ht => by
      simpa [goneIn, prune, printAll] using ht.append_same _

/-- **What goes from nodes is deleted from their text**, whatever is deleted behind them. -/
theorem PlacedAll.deleted (mark : Nat) {later : List Stretch} {text text' : Text} :
    ∀ {nodes : List Node} {i : Nat} {p : Position} {next : Text}, PlacedAll p next nodes →
      Deleted (mark + p.offset + (printAll nodes).size) later text text' →
      Deleted (mark + p.offset) ((goneAll i nodes).map (·.2.stretch mark) ++ later)
        (printAll nodes ++ text) (printAll (pruneAll nodes) ++ text')
  | [], _, _, _, _, ht => ht
  | node :: rest, i, p, next, h, ht => by
      rw [printAll, Text.size_append, ← Nat.add_assoc] at ht
      have hrest := PlacedAll.deleted mark (i := i + 1) h.2
        (by rw [Position.offset_past, ← Nat.add_assoc]; exact ht)
      rw [Position.offset_past, ← Nat.add_assoc] at hrest
      have hnode := Placed.deleted h.1 hrest
      have hprune : printAll (pruneAll (node :: rest)) =
          printAll node.prune.toList ++ printAll (pruneAll rest) := by
        rw [pruneAll]
        cases node.prune <;> simp [printAll]
      rw [hprune]
      simpa [goneAll, printAll, Function.comp_def] using hnode

end

end Node

/-- The bytes in front of what places count from. -/
def Sheet.markSize (sheet : Sheet) : Nat := Text.size (if sheet.bom then [byteOrderMark] else [])

/-- What goes from a sheet that was read is deleted from its text. -/
theorem Sheet.deleted_of_parse {dialect : Dialect} {source : Text} {sheet : Sheet} (file : String)
    (h : Sheet.parse dialect source = .ok sheet) :
    Deleted 0 ((Node.goneAll 0 sheet.nodes).map (·.2.stretch sheet.markSize)) source
      (sheet.prune file).1.print := by
  have hsource : source = _ := (Sheet.print_of_splitMark (Sheet.splitMark_of_parse h)).symm
  have hall := (Sheet.placedAll_of_parse h).deleted sheet.markSize (i := 0) (.refl _ sheet.after)
  rw [List.append_nil] at hall
  rw [hsource, Sheet.print, Sheet.print, List.append_assoc, List.append_assoc]
  refine .append_same _ ?_
  rw [Nat.zero_add]
  exact hall

/-- **What cleaning deletes.**  The output is the source without the stretches of the blocks that
go, one for each that does not go with a block around it.  The stretches are disjoint, and each is
the filler in front of a block and the block itself, through its brace or semicolon. -/
theorem Feature.clean_deletes {file : String} {source : Text} {out : Restyled}
    (h : Feature.clean.restyle file source = .ok out) :
    ∃ (sheet : Sheet) (gone : List (List Nat × Node)), Sheet.parse .scss source = .ok sheet ∧
      (∀ path node, (path, node) ∈ gone ↔ Outermost sheet.nodes path node) ∧
      (gone.map Prod.fst).Nodup ∧
      Deleted 0 (gone.map (·.2.stretch sheet.markSize)) source out.output ∧
      (gone.map (·.2.stretch sheet.markSize)).Pairwise (·.stop ≤ ·.start) ∧
      ∀ path node, Outermost sheet.nodes path node → node.isBlock = true ∧
        source.Slice (node.stretch sheet.markSize).start (node.stretch sheet.markSize).stop
          (node.before ++ node.own) ∧
        (node.stretch sheet.markSize).start + node.before.size =
          sheet.markSize + offsetOf node.source := by
  obtain ⟨sheet, hp, rfl⟩ := Feature.restyle_clean_eq_ok_iff.1 h
  have hplaced := Sheet.placedAll_of_parse hp
  have hmem : ∀ path node, (path, node) ∈ Node.goneAll 0 sheet.nodes ↔
      Outermost sheet.nodes path node := by
    intro path node
    rw [Node.mem_goneAll]
    constructor
    · rintro ⟨i, rest, rfl, ho⟩
      rwa [Nat.zero_add]
    · intro ho
      obtain ⟨i, rest, rfl⟩ := ho.exists_cons
      exact ⟨i, rest, by rw [Nat.zero_add], ho⟩
  have hdel := Sheet.deleted_of_parse file hp
  refine ⟨sheet, _, hp, hmem, Node.nodup_goneAll 0 sheet.nodes, hdel, hdel.pairwise_stop,
    fun path node ho => ⟨Node.isBlock_of_prune ho.prune_eq_none, ?_, ?_⟩⟩
  · obtain ⟨before, after, hs, hn⟩ :=
      hdel.slice (List.mem_map_of_mem (f := (·.2.stretch sheet.markSize)) ((hmem path node).2 ho))
    rw [← Node.print_eq]
    exact ⟨before, after, hs, by rw [← hn, Nat.zero_add], rfl⟩
  · obtain ⟨front, back, -, hpart⟩ := hplaced.part ho.mem_partsAll
    rw [hpart.stands.stretch_start, hpart.stands.offset, Nat.add_assoc]

/-- Behind a mark, a statement goes, a rule with another one in it, and a statement without a
semicolon. -/
theorem Feature.clean_deletes_sample :
    ∃ out gone,
      Feature.clean.restyle "a.scss"
        "\ufeff@a b;.c \x7b d:e;.f\x7b.g\x7b\x7d\x7d @h \x7d".toList = .ok out ∧
      out.output = "\ufeff.c \x7b d:e;\x7d".toList ∧
      Deleted 0 gone "\ufeff@a b;.c \x7b d:e;.f\x7b.g\x7b\x7d\x7d @h \x7d".toList out.output := by
  generalize hs : "\ufeff@a b;.c \x7b d:e;.f\x7b.g\x7b\x7d\x7d @h \x7d".toList = source
  have ho : (Feature.clean.restyle "a.scss" source).toOption.map (·.output) =
      some "\ufeff.c \x7b d:e;\x7d".toList := by
    subst hs
    decide +kernel
  obtain ⟨out, h, hout⟩ := exists_of_map_toOption ho
  obtain ⟨sheet, gone, -, -, -, hdel, -⟩ := Feature.clean_deletes h
  exact ⟨out, _, h, hout, hdel⟩

end Restyle
