import Restyle.Proofs.Transition.Verdict
import Restyle.Sheet.Edit

/-!
# What the pass over transitions does

The pass gives a value to the placeholder of a rule before it visits the rules inside.  The order
does not show in the result: a value is told from the declarations below pseudo-class children, by
their properties, and the pass changes no property.  So every value can be told from the sheet as it
was.

* `Node.narrow_rule`: **parents first or children first**, a rule comes out the same.
* `Narrowed allowed nodes path value`: the declaration at the path gets the value, told from the
  nodes as they stand.
* `Sheet.narrow_exact`: **the pass gives these values**, and changes nothing else.
-/

namespace Restyle

open Transition

/-! ### Parents first or children first -/

namespace Node

theorem narrowAll_eq_map (allowed : List Text) (nodes : List Node) :
    narrowAll allowed nodes = nodes.map (narrow allowed) := by
  induction nodes with
  | nil => rw [narrowAll, List.map_nil]
  | cons node rest ih => rw [narrowAll, List.map_cons, ih]

/-- The pass neither makes nor loses declarations. -/
theorem narrow_eq_declaration {allowed : List Text} {node : Node} {decl : Declaration} :
    node.narrow allowed = .declaration decl ↔ node = .declaration decl := by
  cases node with
  | block head body after => cases head <;> simp [narrow]
  | atStatement | declaration | comment => simp [narrow]

/-- The pass over nodes leaves the declarations between them alone. -/
theorem narrowAll_declaration {allowed : List Text} {nodes : List Node} {i : Nat}
    {decl : Declaration} :
    (narrowAll allowed nodes)[i]? = some (.declaration decl) ↔
      nodes[i]? = some (.declaration decl) := by
  rw [narrowAll_eq_map, List.getElem?_map]
  cases nodes[i]? with
  | none => simp
  | some node => simp [narrow_eq_declaration]

/-- A value may be given before the pass goes inside or after it. -/
theorem narrowAll_assign (allowed : List Text) (value : Text) (nodes : List Node) :
    narrowAll allowed (assign value nodes) = assign value (narrowAll allowed nodes) := by
  fun_induction assign value nodes with
  | case1 => rw [narrowAll, assign]
  | case2 decl rest hp => simp only [narrowAll, narrow, assign, if_pos hp]
  | case3 decl rest hp ih => simp only [narrowAll, narrow, assign, if_neg hp, ih]
  | case4 node rest hn ih =>
      rw [narrowAll, narrowAll, ih, assign.eq_3]
      exact fun decl hd => hn decl (narrow_eq_declaration.1 hd)

theorem narrowAll_apply (allowed : List Text) (v : Verdict) (nodes : List Node) :
    narrowAll allowed (v.apply nodes) = v.apply (narrowAll allowed nodes) := by
  cases v with
  | narrow value => exact narrowAll_assign allowed value nodes
  | absent | noPseudoClass | noAllowedProperty => rfl

/-- **Parents first or children first.**  The verdict on a rule may be carried out after the visit
to the nodes in it. -/
theorem narrow_rule (allowed : List Text) (head : RuleHead) (body : List Node) (after : Text) :
    (Node.block (.rule head) body after).narrow allowed =
      .block (.rule head) ((verdict allowed body).apply (narrowAll allowed body)) after := by
  rw [narrow, narrowAll_apply]

theorem bare_narrow (allowed : List Text) (node : Node) : (node.narrow allowed).bare = node.bare := by
  cases node with
  | block head body after => cases head <;> rw [narrow] <;> rfl
  | atStatement | declaration | comment => rw [narrow]

end Node

/-! ### Where the value goes -/

/-- The first placeholder is the same before and after the pass goes inside. -/
theorem firstPlaceholder_narrowAll {allowed : List Text} {body : List Node} {i : Nat} :
    FirstPlaceholder (Node.narrowAll allowed body) i ↔ FirstPlaceholder body i := by
  simp only [FirstPlaceholder, Node.narrowAll_declaration]

/-- The value goes to the first placeholder. -/
theorem assign_firstPlaceholder (value : Text) {nodes : List Node} {i : Nat}
    (h : FirstPlaceholder nodes i) :
    ∃ decl, nodes[i]? = some (.declaration decl) ∧
      (assign value nodes)[i]? = some (.declaration { decl with value := value }) := by
  induction nodes generalizing i with
  | nil =>
      obtain ⟨⟨decl, hd, -⟩, -⟩ := h
      cases hd
  | cons node rest ih =>
      cases i with
      | zero =>
          obtain ⟨decl, rfl, hp⟩ := firstPlaceholder_zero.1 h
          refine ⟨decl, rfl, ?_⟩
          rw [assign, if_pos (isPlaceholder_iff.2 hp)]
          rfl
      | succ i =>
          obtain ⟨hn, hr⟩ := firstPlaceholder_succ.1 h
          obtain ⟨decl, hd, ha⟩ := ih hr
          refine ⟨decl, hd, ?_⟩
          cases node with
          | declaration other =>
              rw [assign, if_neg fun hp => hn other rfl (isPlaceholder_iff.1 hp)]
              exact ha
          | block | atStatement | comment => exact ha

/-- The value goes nowhere else. -/
theorem assign_getElem? {value : Text} {nodes : List Node} {i : Nat}
    (h : ¬ FirstPlaceholder nodes i) : (assign value nodes)[i]? = nodes[i]? := by
  induction nodes generalizing i with
  | nil => rfl
  | cons node rest ih =>
      cases node with
      | declaration decl =>
          by_cases hp : isPlaceholder decl = true
          · rw [assign, if_pos hp]
            cases i with
            | zero => exact absurd (firstPlaceholder_zero.2 ⟨decl, rfl, isPlaceholder_iff.1 hp⟩) h
            | succ i => rfl
          · rw [assign, if_neg hp]
            cases i with
            | zero => rfl
            | succ i =>
                refine ih fun hr => h (firstPlaceholder_succ.2 ⟨?_, hr⟩)
                intro other ho hq
                cases ho
                exact hp (isPlaceholder_iff.2 hq)
      | block | atStatement | comment =>
          cases i with
          | zero => rfl
          | succ i => exact ih fun hr => h (firstPlaceholder_succ.2 ⟨nofun, hr⟩)

/-! ### The nodes at a path -/

namespace Node

/-- The body of a block after the pass. -/
def narrowBody (allowed : List Text) (head : Head) (body : List Node) : List Node :=
  match head with
  | .rule _   => (verdict allowed body).apply (narrowAll allowed body)
  | .atRule _ => narrowAll allowed body

/-- The pass leaves the head of a block, and what stands before its closing brace. -/
theorem narrow_block (allowed : List Text) (head : Head) (body : List Node) (after : Text) :
    (Node.block head body after).narrow allowed =
      .block head (narrowBody allowed head body) after := by
  cases head with
  | rule head => exact narrow_rule allowed head body after
  | atRule head => rw [narrow]; rfl

theorem narrowAll_getElem? {allowed : List Text} {nodes body : List Node} {i : Nat} {head : Head}
    {after : Text} (h : nodes[i]? = some (.block head body after)) :
    (narrowAll allowed nodes)[i]? = some (.block head (narrowBody allowed head body) after) := by
  rw [narrowAll_eq_map, List.getElem?_map, h, Option.map_some, narrow_block]

/-- A new value is not seen from further down. -/
theorem at?_assign (value : Text) (nodes : List Node) (i j : Nat) (path : List Nat) :
    at? (assign value nodes) (i :: j :: path) = at? nodes (i :: j :: path) := by
  by_cases hf : FirstPlaceholder nodes i
  · obtain ⟨decl, hd, ha⟩ := assign_firstPlaceholder value hf
    rw [at?_leaf (by simp [ha]), at?_leaf (by simp [hd])]
  · rw [at?_cons_cons, at?_cons_cons, assign_getElem? hf]

/-- What a value does to a rule is not seen further inside. -/
theorem at?_narrowBody (allowed : List Text) (head : Head) (body : List Node) (i j : Nat)
    (path : List Nat) :
    at? (narrowBody allowed head body) (i :: j :: path) =
      at? (narrowAll allowed body) (i :: j :: path) := by
  cases head with
  | rule =>
      rw [narrowBody]
      cases verdict allowed body with
      | narrow value => exact at?_assign value _ i j path
      | absent | noPseudoClass | noAllowedProperty => rfl
  | atRule => rfl

end Node

/-! ### The values -/

/-- The declaration at the path gets the value, told from the nodes as they stand: it is the first
placeholder of a rule whose pseudo-class children set an allowed property. -/
inductive Narrowed (allowed : List Text) : List Node → List Nat → Text → Prop where
  | here {nodes body : List Node} {i j : Nat} {head : RuleHead} {after value : Text}
      (hr : nodes[i]? = some (.block (.rule head) body after)) (hp : FirstPlaceholder body j)
      (ha : asked allowed body ≠ []) (hv : value = askedValue allowed body) :
      Narrowed allowed nodes [i, j] value
  | inside {nodes body : List Node} {i : Nat} {head : Head} {after value : Text} {path : List Nat}
      (hb : nodes[i]? = some (.block head body after)) (h : Narrowed allowed body path value) :
      Narrowed allowed nodes (i :: path) value

/-- A placeholder stands in a rule, so its path has two steps at least. -/
theorem Narrowed.path_eq {allowed : List Text} {nodes : List Node} {path : List Nat} {value : Text}
    (h : Narrowed allowed nodes path value) : ∃ i j rest, path = i :: j :: rest := by
  cases h with
  | here => exact ⟨_, _, _, rfl⟩
  | inside _ h =>
      cases h with
      | here => exact ⟨_, _, _, rfl⟩
      | inside => exact ⟨_, _, _, rfl⟩

/-- **The pass gives the values**, and changes nothing else of the declarations that get them. -/
theorem Narrowed.at? {allowed : List Text} {nodes : List Node} {path : List Nat} {value : Text}
    (h : Narrowed allowed nodes path value) :
    ∃ decl, Node.at? nodes path = some (.declaration decl) ∧
      Node.at? (Node.narrowAll allowed nodes) path =
        some (.declaration { decl with value := value }) := by
  induction h with
  | @here nodes body i j head after value hr hp ha hv =>
      have hv := verdict_eq_narrow_iff.2 ⟨hp.exists_mem, ha, hv⟩
      -- the visit to the children leaves the placeholder where it was
      have hp' : FirstPlaceholder (Node.narrowAll allowed body) j :=
        firstPlaceholder_narrowAll.2 hp
      obtain ⟨decl, hd, hn⟩ := assign_firstPlaceholder value hp'
      refine ⟨decl, ?_, ?_⟩
      · rw [Node.at?_block hr]
        exact Node.narrowAll_declaration.1 hd
      · rw [Node.at?_block (Node.narrowAll_getElem? hr), Node.narrowBody, hv]
        exact hn
  | inside hb h ih =>
      obtain ⟨j, k, rest, rfl⟩ := h.path_eq
      obtain ⟨decl, hd, hn⟩ := ih
      refine ⟨decl, ?_, ?_⟩
      · rw [Node.at?_block hb, hd]
      · rw [Node.at?_block (Node.narrowAll_getElem? hb), Node.at?_narrowBody, hn]

/-- A child of a block is narrowed as it would be by itself, unless a value is coming to it. -/
theorem narrowBody_getElem? {allowed : List Text} {nodes body : List Node} {i j : Nat} {head : Head}
    {after : Text} (hb : nodes[i]? = some (.block head body after))
    (h : ∀ value, ¬ Narrowed allowed nodes [i, j] value) :
    (Node.narrowBody allowed head body)[j]? = (Node.narrowAll allowed body)[j]? := by
  cases head with
  | rule head =>
      rw [Node.narrowBody]
      cases hv : verdict allowed body with
      | narrow value =>
          obtain ⟨-, ha, -⟩ := verdict_eq_narrow_iff.1 hv
          refine assign_getElem? fun hf => ?_
          exact h _ (.here hb (firstPlaceholder_narrowAll.1 hf) ha rfl)
      | absent | noPseudoClass | noAllowedProperty => rfl
  | atRule head => rfl

/-- **The pass changes nothing else**: at every path that gets no value, the same node stands with
the same fields, or none. -/
theorem bare_at?_narrowAll {allowed : List Text} : ∀ {path : List Nat} {nodes : List Node},
    (∀ value, ¬ Narrowed allowed nodes path value) →
      (Node.at? (Node.narrowAll allowed nodes) path).map Node.bare =
        (Node.at? nodes path).map Node.bare
  | [], _, _ => rfl
  | [i], nodes, _ => by
      rw [Node.at?, Node.at?, Node.narrowAll_eq_map, List.getElem?_map, Option.map_map]
      exact Option.map_congr fun node _ => Node.bare_narrow allowed node
  | i :: j :: path, nodes, h => by
      by_cases hb : ∃ head body after, nodes[i]? = some (.block head body after)
      · obtain ⟨head, body, after, hb⟩ := hb
        have ih := bare_at?_narrowAll fun value hn => h value (.inside hb hn)
        -- only a direct child of a rule can get a value from it
        have hsame : Node.at? (Node.narrowBody allowed head body) (j :: path) =
            Node.at? (Node.narrowAll allowed body) (j :: path) := by
          cases path with
          | nil => exact narrowBody_getElem? hb h
          | cons k path => exact Node.at?_narrowBody allowed head body j k path
        rw [Node.at?_block (Node.narrowAll_getElem? hb), Node.at?_block hb, hsame, ih]
      · have hn : ∀ head body after,
            (Node.narrowAll allowed nodes)[i]? ≠ some (.block head body after) := by
          intro head body after he
          rw [Node.narrowAll_eq_map, List.getElem?_map] at he
          obtain ⟨node, hi, hnode⟩ := Option.map_eq_some_iff.1 he
          cases node with
          | block head' body' after' => exact hb ⟨head', body', after', hi⟩
          | atStatement | declaration | comment => rw [Node.narrow] at hnode; cases hnode
        have hb' : ∀ head body after, nodes[i]? ≠ some (.block head body after) :=
          fun head body after he => hb ⟨head, body, after, he⟩
        rw [Node.at?_leaf hn, Node.at?_leaf hb']

end Restyle
