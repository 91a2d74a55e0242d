import Restyle.Proofs.Sheet.Origin

/-!
# A sheet as a chart of its text

A sheet that was read tells of every byte of the text what it is for.  `Sheet.Charts` says so, clause
by clause, about the text and its tokens; `Sheet.parse_charts` is the theorem that it holds.

* `Items.starts`: a node begins with a token, in front of which as many blocks are open as there are
  around the node.
* `Items.countP_hasBody`: there is one block for each opening brace.
* `Items.cover`: **no token is lost**; all but filler belong to a node.
* `Node.PlacedAll.slice`, `Node.PlacedAll.pairwise_siblings`, `Node.Placed.inside`: a node is a slice
  of the text, nodes side by side do not overlap, and what a block holds stands between its braces.
-/

namespace Restyle

/-! ### Braces and blocks -/

section
variable {tokens fs others prelude inner rest : List Token} {first token brace close : Token}

theorem balanced_fillers (hf : ∀ token ∈ fs, token.isFiller = true) : Balanced fs :=
  balanced_of_isBrace fun t ht => Token.isBrace_of_isFiller (hf t ht)

/-- The tokens of a statement with its filler have no braces. -/
theorem isBrace_statement {semicolon : Token} (hf : ∀ token ∈ fs, token.isFiller = true)
    (hr : Unbroken 0 (first :: others)) (hk : semicolon.kind = .semicolon) :
    ∀ token ∈ fs ++ first :: (others ++ [semicolon]), token.isBrace = false := by
  intro token ht
  rw [← List.cons_append, ← List.append_assoc, List.mem_append, List.mem_append,
    List.mem_singleton] at ht
  rcases ht with (ht | ht) | rfl
  · exact Token.isBrace_of_isFiller (hf token ht)
  · exact hr.isBrace token ht
  · simp [Token.isBrace, hk]

theorem isBrace_comment {inline : Bool} (hf : ∀ token ∈ fs, token.isFiller = true)
    (hk : token.kind = .comment inline) : ∀ t ∈ fs ++ [token], t.isBrace = false := by
  intro t ht
  rw [List.mem_append, List.mem_singleton] at ht
  rcases ht with ht | rfl
  · exact Token.isBrace_of_isFiller (hf t ht)
  · simp [Token.isBrace, hk]

/-- The tokens of a block are balanced, with what is in it. -/
theorem balanced_block (hf : ∀ token ∈ fs, token.isFiller = true) (hr : Unbroken 0 prelude)
    (hb : brace.kind = .openBrace) (hi : Balanced inner) (hc : close.kind = .closeBrace) :
    Balanced (fs ++ (prelude ++ brace :: (inner ++ [close]))) :=
  (balanced_fillers hf).append ((balanced_of_isBrace hr.isBrace).append (hi.block hb hc))

/-- **The braces of items match**, each among the tokens of its own block. -/
theorem Items.balanced {nodes : List Node} {after : Text} (h : Items tokens nodes after) :
    Balanced tokens := by
  induction h with
  | last hf => exact balanced_fillers hf
  | loose hf _ hr => exact (balanced_fillers hf).append (balanced_of_isBrace hr.isBrace)
  | statement hf _ hr _ hk _ _ ih =>
      simpa using (balanced_of_isBrace (isBrace_statement hf hr hk)).append ih
  | comment hf hk _ ih =>
      simpa using (balanced_of_isBrace (isBrace_comment hf hk)).append ih
  | block hf _ hr hb _ hc _ ihi ih => simpa using (balanced_block hf hr hb ihi hc).append ih

/-- The node begins with one of the tokens, and so many opening braces in front of it are free. -/
def Node.Starts (tokens : List Token) (depth : Nat) (node : Node) : Prop :=
  ∃ front first back, tokens = front ++ first :: back ∧ node.source = some first.span ∧
    surplus front = 0 ∧ (unmatched front).length = depth

namespace Node.Starts

variable {node : Node} {depth : Nat}

/-- Balanced tokens in front of a node do not show in its depth. -/
theorem behind {front : List Token} (hb : Balanced front) (h : node.Starts rest depth) :
    node.Starts (front ++ rest) depth := by
  obtain ⟨front', first, back, rfl, hs, hn, hd⟩ := h
  refine ⟨front ++ front', first, back, by rw [List.append_assoc], hs, ?_, ?_⟩
  · rw [hb.surplus_append, hn]
  · rw [hb.unmatched_append, hd]

/-- An opening brace in front of a node shows in its depth. -/
theorem inside {front : List Token} (hb : Balanced front) (ho : brace.kind = .openBrace)
    (h : node.Starts inner depth) : node.Starts (front ++ brace :: (inner ++ rest)) (depth + 1) := by
  obtain ⟨front', first, back, rfl, hs, hn, hd⟩ := h
  refine ⟨front ++ brace :: front', first, back ++ rest, by simp, hs, ?_, ?_⟩
  · rw [hb.surplus_append, surplus_cons_open ho, hn]
  · rw [hb.unmatched_append, unmatched_cons_free ho hn, List.length_cons, hd]

end Node.Starts

/-- The nodes below the given ones begin where as many braces are free as there are blocks around
them. -/
def Node.AllStart (tokens : List Token) (nodes : List Node) : Prop :=
  ∀ path node, at? nodes path = some node →
    ∃ depth, path.length = depth + 1 ∧ node.Starts tokens depth

/-- A node begins behind the filler in front of it. -/
theorem Node.starts_fillers {node : Node} (hf : ∀ token ∈ fs, token.isFiller = true)
    (hs : node.source = some first.span) : node.Starts (fs ++ first :: rest) 0 := by
  have hb := balanced_fillers hf
  exact ⟨fs, first, rest, rfl, hs, hb.1, by rw [hb.2]; rfl⟩

theorem Node.allStart_nil (tokens : List Token) : AllStart tokens [] := by
  intro path node hp
  rw [at?_nil] at hp
  cases hp

/-- One more node in front, whose tokens leave no brace free. -/
theorem Node.AllStart.cons {node : Node} {nodes : List Node} {front : List Token}
    (h : AllStart rest nodes) (hb : Balanced front) (hn : node.Starts (front ++ rest) 0)
    (hc : ∀ path part, at? node.children path = some part →
      ∃ depth, path.length = depth + 1 ∧ part.Starts (front ++ rest) (depth + 1)) :
    AllStart (front ++ rest) (node :: nodes) := by
  intro path part hp
  rcases at?_cons_cases hp with ⟨rfl, rfl⟩ | ⟨j, below, rfl, hin⟩ | ⟨i, below, rfl, hin⟩
  · exact ⟨0, rfl, hn⟩
  · obtain ⟨depth, hl, hs⟩ := hc (j :: below) part hin
    exact ⟨depth + 1, congrArg (· + 1) hl, hs⟩
  · obtain ⟨depth, hl, hs⟩ := h (i :: below) part hin
    exact ⟨depth, hl, hs.behind hb⟩

/-- A node that holds nothing may be put in front of others. -/
theorem Node.AllStart.cons_leaf {node : Node} {nodes : List Node} {front : List Token}
    (h : AllStart rest nodes) (hb : Balanced front) (hn : node.Starts (front ++ rest) 0)
    (hl : ∀ head body after, node ≠ .block head body after) :
    AllStart (front ++ rest) (node :: nodes) := by
  refine h.cons hb hn fun path part hp => ?_
  have hnone : at? node.children path = none := by
    cases node with
    | block head body after => exact absurd rfl (hl head body after)
    | atStatement | declaration | comment => exact at?_nil path
  rw [hnone] at hp
  cases hp

/-- **Where a node begins, its depth can be counted.** -/
theorem Items.starts {nodes : List Node} {after : Text} (h : Items tokens nodes after) :
    Node.AllStart tokens nodes := by
  induction h with
  | last => exact Node.allStart_nil _
  | @loose fs others first node hf _ hr hn =>
      have hs : node.Starts (fs ++ first :: others) 0 :=
        Node.starts_fillers hf (Node.ofStatement?_place hn).1
      have hb := (balanced_fillers hf).append (balanced_of_isBrace hr.isBrace)
      simpa using (Node.allStart_nil []).cons_leaf hb (by simpa using hs)
        (Node.ofStatement?_ne_block hn)
  | @statement fs others rest first semicolon node _ _ hf _ hr _ hk hn _ ih =>
      have hs : node.Starts (fs ++ first :: (others ++ semicolon :: rest)) 0 :=
        Node.starts_fillers hf (Node.ofStatement?_place hn).1
      have hb := balanced_of_isBrace (isBrace_statement hf hr hk)
      simpa using ih.cons_leaf hb (by simpa using hs) (Node.ofStatement?_ne_block hn)
  | @comment fs rest token inline _ _ hf hk _ ih =>
      have hs : (Node.comment (.ofToken (Token.textOf fs) token inline)).Starts
          (fs ++ token :: rest) 0 := Node.starts_fillers hf rfl
      have hb := balanced_of_isBrace (isBrace_comment hf hk)
      simpa using ih.cons_leaf hb (by simpa using hs) fun _ _ _ h => Node.noConfusion h
  | @block fs prelude inner rest brace close body _ bodyAfter _ hf _ hr hb i hc _ ihi ih =>
      have hbal := balanced_block hf hr hb i.balanced hc
      have hs : (Node.block (.ofPrelude (Token.textOf fs) prelude brace) body bodyAfter).Starts
          (fs ++ (prelude ++ brace :: (inner ++ close :: rest))) 0 := by
        have hsource := (Head.ofPrelude_place (Token.textOf fs) prelude brace).1
        cases prelude with
        | nil => exact Node.starts_fillers hf hsource
        | cons first run => exact Node.starts_fillers hf hsource
      rw [block_append] at hs ⊢
      refine ih.cons hbal hs fun path part hp => ?_
      obtain ⟨depth, hl, hin⟩ := ihi path part hp
      have hfront := (balanced_fillers hf).append (balanced_of_isBrace hr.isBrace)
      have hbehind : part.Starts (fs ++ prelude ++ brace :: (inner ++ close :: rest)) (depth + 1) :=
        hin.inside hfront hb
      exact ⟨depth, hl, by simpa using hbehind⟩

/-- The node is a rule or an at-rule with a body. -/
def Node.hasBody : Node → Bool
  | .block _ _ _ => true
  | _            => false

theorem opened_append (a b : List Token) : opened (a ++ b) = opened a + opened b :=
  List.countP_append

theorem opened_of_isBrace (h : ∀ token ∈ tokens, token.isBrace = false) : opened tokens = 0 := by
  refine List.countP_eq_zero.2 fun token ht => ?_
  simpa using (Token.isBrace_eq_false_iff.1 (h token ht)).1

theorem opened_behind {front : List Token} (h : ∀ token ∈ front, token.isBrace = false)
    (rest : List Token) : opened (front ++ rest) = opened rest := by
  rw [opened_append, opened_of_isBrace h, Nat.zero_add]

/-- **One block for each opening brace.** -/
theorem Items.countP_hasBody {nodes : List Node} {after : Text} (h : Items tokens nodes after) :
    (Node.partsAll nodes).countP Node.hasBody = opened tokens := by
  have hleaf : ∀ {node : Node} {nodes : List Node},
      (∀ head body after, node ≠ .block head body after) →
      (Node.partsAll (node :: nodes)).countP Node.hasBody =
        (Node.partsAll nodes).countP Node.hasBody := by
    intro node nodes hn
    rw [Node.partsAll, Node.parts_of_ne_block hn, List.singleton_append]
    refine List.countP_cons_of_neg ?_
    cases node with
    | block head body after => exact absurd rfl (hn head body after)
    | atStatement | declaration | comment => exact nofun
  induction h with
  | last hf => exact (opened_of_isBrace fun t ht => Token.isBrace_of_isFiller (hf t ht)).symm
  | loose hf _ hr hn =>
      rw [hleaf (Node.ofStatement?_ne_block hn),
        opened_behind fun t ht => Token.isBrace_of_isFiller (hf t ht), opened_of_isBrace hr.isBrace]
      rfl
  | @statement fs others rest first semicolon _ _ _ hf _ hr _ hk hn _ ih =>
      rw [hleaf (Node.ofStatement?_ne_block hn), ih, ← opened_behind (isBrace_statement hf hr hk)]
      simp
  | comment hf hk _ ih =>
      rw [hleaf fun _ _ _ h => Node.noConfusion h, ih, ← opened_behind (isBrace_comment hf hk)]
      simp
  | @block fs prelude inner rest brace close body nodes _ _ hf _ hr hb _ hc _ ihi ih =>
      have hopen : opened (brace :: (inner ++ close :: rest)) = opened inner + opened rest + 1 := by
        simp [opened, hb, hc]
      rw [opened_behind fun t ht => Token.isBrace_of_isFiller (hf t ht),
        opened_behind hr.isBrace, hopen, ← ihi, ← ih, Node.partsAll, Node.parts, List.cons_append,
        List.countP_cons_of_pos rfl, List.countP_append]

end

/-! ### The bytes of a node -/

namespace Node

/-- The byte offset at which the node ends. -/
def stop (node : Node) : Nat := offsetOf node.source + node.own.size

/-- Where the bytes of the node are that its body does not have: those of its head and its two
braces, or all of them. -/
def ranges : Node → List (Nat × Nat)
  | .block head body after =>
    let n := offsetOf head.source
    [(n, n + (head.own ++ ['{']).size),
      (n + (head.own ++ '{' :: printAll body ++ after).size, (block head body after).stop)]
  | node                   => [(offsetOf node.source, node.stop)]

/-- The token belongs to the node, and not to one below it. -/
def Has (node : Node) (token : Token) : Prop :=
  ∃ range ∈ node.ranges, range.1 ≤ token.start.offset ∧ token.stop ≤ range.2

/-- What is no block has all its tokens to itself. -/
theorem has_of_ne_block {node : Node} {token : Token}
    (hn : ∀ head body after, node ≠ .block head body after)
    (hs : offsetOf node.source ≤ token.start.offset) (he : token.stop ≤ node.stop) :
    node.Has token := by
  cases node with
  | block head body after => exact absurd rfl (hn head body after)
  | atStatement | declaration | comment => exact ⟨_, List.mem_cons_self, hs, he⟩

end Node

/-- A token among others lies between the start of the first and the end of the last. -/
theorem Abut.mem_bounds {n m : Nat} {a run b : List Token} {token : Token}
    (h : Abut n (a ++ (run ++ b)) m) (ht : token ∈ run) :
    n + (Token.textOf a).size ≤ token.start.offset ∧
      token.stop ≤ n + (Token.textOf a).size + (Token.textOf run).size := by
  obtain ⟨front, back, rfl⟩ := List.append_of_mem ht
  obtain ⟨-, hrun⟩ := h.append_inv
  rw [List.append_assoc, List.cons_append] at hrun
  have hs := hrun.start_eq
  rw [Token.stop, Token.textOf_append, Token.textOf_cons, Text.size_append, Text.size_append]
  omega

theorem offsetOf_span (token : Token) : offsetOf (some token.span) = token.start.offset := rfl

namespace Node

/-- The token is filler, or belongs to one of the nodes, at any depth. -/
def Cover (nodes : List Node) (token : Token) : Prop :=
  token.isFiller = true ∨ ∃ node ∈ partsAll nodes, node.Has token

theorem Cover.mono {nodes nodes' : List Node} {token : Token} (h : Cover nodes token)
    (hs : partsAll nodes ⊆ partsAll nodes') : Cover nodes' token :=
  h.imp_right fun ⟨node, hn, ht⟩ => ⟨node, hs hn, ht⟩

/-- The tokens of a node that holds no others belong to it. -/
theorem ReadFrom.cover_cons {node : Node} {nodes : List Node} {fs run rest : List Token}
    {first : Token} {n m : Nat} (hn : node.ReadFrom fs first run)
    (hl : ∀ head body after, node ≠ .block head body after)
    (hf : ∀ token ∈ fs, token.isFiller = true) (h : Abut n (fs ++ first :: run ++ rest) m)
    (ih : ∀ {k}, Abut k rest m → ∀ token ∈ rest, Cover nodes token) :
    ∀ token ∈ fs ++ first :: run ++ rest, Cover (node :: nodes) token := by
  rw [List.append_assoc] at h ⊢
  have hfirst : offsetOf node.source = n + (Token.textOf fs).size := by
    rw [hn.source, offsetOf_span, h.start_eq]
  intro token ht
  rw [List.mem_append, List.mem_append] at ht
  rcases ht with ht | ht | ht
  · exact .inl (hf token ht)
  · obtain ⟨hge, hle⟩ := h.mem_bounds ht
    refine .inr ⟨node, List.mem_append_left _ (mem_parts_self node), has_of_ne_block hl ?_ ?_⟩
    · rwa [hfirst]
    · rwa [stop, hn.own, hfirst]
  · exact (ih h.append_inv.2.append_inv.2 token ht).mono (List.subset_append_right _ _)

/-- The tokens around the body of a block belong to the block. -/
theorem cover_cons_block {head : Head} {body nodes : List Node} {bodyAfter : Text}
    {fs prelude inner rest : List Token} {brace close : Token} {n m : Nat}
    (hf : ∀ token ∈ fs, token.isFiller = true)
    (hs : head.source = some (prelude.headD brace).span) (ho : head.own = Token.textOf prelude)
    (hi : printAll body ++ bodyAfter = Token.textOf inner) (hbt : brace.text = ['{'])
    (hct : close.text = ['}'])
    (h : Abut n (fs ++ (prelude ++ brace :: (inner ++ close :: rest))) m)
    (ihi : ∀ {k l}, Abut k inner l → ∀ token ∈ inner, Cover body token)
    (ih : ∀ {k}, Abut k rest m → ∀ token ∈ rest, Cover nodes token) :
    ∀ token ∈ fs ++ (prelude ++ brace :: (inner ++ close :: rest)),
      Cover (.block head body bodyAfter :: nodes) token := by
  have hfront : Abut n (fs ++ ((prelude ++ [brace]) ++ (inner ++ close :: rest))) m := by
    simpa using h
  have hlast : Abut n ((fs ++ (prelude ++ [brace]) ++ inner) ++ ([close] ++ rest)) m := by
    simpa using h
  have hstart : offsetOf head.source = n + (Token.textOf fs).size := by
    rw [hs, offsetOf_span]
    cases prelude with
    | nil => exact h.start_eq
    | cons first run => exact h.start_eq
  have hself : block head body bodyAfter ∈ partsAll (block head body bodyAfter :: nodes) :=
    List.mem_append_left _ (mem_parts_self _)
  have htext : head.own ++ '{' :: printAll body ++ bodyAfter =
      Token.textOf (prelude ++ [brace] ++ inner) := by
    simp [ho, hbt, ← hi]
  have hown : (block head body bodyAfter).own =
      Token.textOf (prelude ++ [brace] ++ inner) ++ ['}'] := by
    rw [← htext]
    rfl
  have htokens : fs ++ (prelude ++ brace :: (inner ++ close :: rest)) =
      fs ++ ((prelude ++ [brace]) ++ (inner ++ ([close] ++ rest))) := by simp
  intro token ht
  rw [htokens] at ht
  rcases List.mem_append.1 ht with ht | ht
  · exact .inl (hf token ht)
  rcases List.mem_append.1 ht with ht | ht
  · obtain ⟨hge, hle⟩ := hfront.mem_bounds ht
    refine .inr ⟨_, hself, _, List.mem_cons_self, ?_, ?_⟩
    · rwa [hstart]
    · rw [hstart, ho]
      simpa [hbt] using hle
  rcases List.mem_append.1 ht with ht | ht
  · refine (ihi hfront.append_inv.2.append_inv.2.append_inv.1 token ht).mono fun part hp => ?_
    exact List.mem_append_left _ (List.mem_cons_of_mem _ hp)
  rcases List.mem_append.1 ht with ht | ht
  · obtain ⟨hge, hle⟩ := hlast.mem_bounds ht
    have hclose : Token.textOf [close] = ['}'] := by simp [hct]
    rw [List.append_assoc, Token.textOf_append, Text.size_append, ← Nat.add_assoc] at hge hle
    rw [hclose] at hle
    refine .inr ⟨_, hself, _, List.mem_cons_of_mem _ List.mem_cons_self, ?_, ?_⟩
    · rwa [hstart, htext]
    · have hsource : (block head body bodyAfter).source = head.source := rfl
      show token.stop ≤ (block head body bodyAfter).stop
      rwa [stop, hown, hsource, hstart, Text.size_append, ← Nat.add_assoc]
  · exact (ih hlast.append_inv.2.append_inv.2 token ht).mono (List.subset_append_right _ _)

end Node

/-- **No token is lost.**  Those of items are filler, or belong to a node. -/
theorem Items.cover {tokens : List Token} {nodes : List Node} {after : Text}
    (h : Items tokens nodes after) : ∀ {n m : Nat}, Formed tokens → Abut n tokens m →
      ∀ token ∈ tokens, Node.Cover nodes token := by
  induction h with
  | last hf => exact fun _ _ token ht => .inl (hf token ht)
  | loose hf _ _ hn =>
      intro n m hformed ha
      have hread := Node.readFrom_loose hformed hn
      rw [← List.append_nil (_ ++ _)] at ha ⊢
      exact hread.cover_cons (Node.ofStatement?_ne_block hn) hf ha fun _ => nofun
  | statement hf _ _ _ hk hn _ ih =>
      intro n m hformed ha
      rw [statement_append] at hformed ha ⊢
      exact (Node.readFrom_statement hformed.append.1 hk hn).cover_cons
        (Node.ofStatement?_ne_block hn) hf ha fun hk => ih hformed.append.2 hk
  | comment hf hk _ ih =>
      intro n m hformed ha
      rw [List.append_cons] at hformed ha ⊢
      exact (Node.readFrom_comment hformed.append.1 hk).cover_cons
        (fun _ _ _ h => Node.noConfusion h) hf ha fun hk => ih hformed.append.2 hk
  | @block fs prelude inner rest brace close body nodes bodyAfter after hf _ _ hb i hc _ ihi ih =>
      intro n m hformed ha
      have hbt := (text_of_kind (hformed brace (by simp))).2.1 hb
      have hct := (text_of_kind (hformed close (by simp))).2.2 hc
      obtain ⟨hsource, hbefore⟩ := Head.ofPrelude_place (Token.textOf fs) prelude brace
      have hhead := Head.print_ofPrelude (Token.textOf fs) brace hformed.append.2.append.1
      have hin := hformed.append.2.append.2.cons.2
      rw [Head.print_eq, hbefore] at hhead
      exact Node.cover_cons_block hf hsource (List.append_cancel_left hhead) (i.print hin.append.1)
        hbt hct ha (fun hk => ihi hin.append.1 hk) fun hk => ih hin.append.2.cons.2 hk

/-! ### Slices of the text -/

namespace Node

/-- **Nodes side by side do not overlap**, filler included, and stand in order. -/
theorem PlacedAll.pairwise_siblings {nodes : List Node} {p : Position} {next : Text}
    (h : PlacedAll p next nodes) :
    nodes.Pairwise fun a b => a.stop + b.before.size ≤ offsetOf b.source := by
  induction nodes generalizing p with
  | nil => exact .nil
  | cons node rest ih =>
      refine List.pairwise_cons.2 ⟨fun b hb => ?_, ih h.2⟩
      have hend := (h.1.within (mem_parts_self node)).2
      have hstart := (h.2.within (mem_partsAll.2 ⟨b, hb, mem_parts_self b⟩)).1
      rw [Position.offset_past] at hstart
      rw [stop]
      omega

/-- **The children of a node** stand one behind the other. -/
theorem PlacedAll.pairwise_children {nodes : List Node} {node : Node} {p : Position} {next : Text}
    (h : PlacedAll p next nodes) (hn : node ∈ partsAll nodes) :
    node.children.Pairwise fun a b => a.stop + b.before.size ≤ offsetOf b.source := by
  obtain ⟨front, back, -, hnode⟩ := h.part hn
  cases node with
  | block head body after => exact hnode.2.pairwise_siblings
  | atStatement | declaration | comment => exact .nil

/-- **A node is a slice of the text**: its own text begins at its place, and its filler ends there. -/
theorem PlacedAll.slice {nodes : List Node} {node : Node} {next : Text}
    (h : PlacedAll .start next nodes) (hn : node ∈ partsAll nodes) :
    ∃ span front rest, node.source = some span ∧
      printAll nodes ++ next = front ++ node.before ++ node.own ++ rest ∧
      (front ++ node.before).size = span.start.offset := by
  obtain ⟨front, back, hf, hnode⟩ := h.part hn
  obtain ⟨span, hs, -⟩ := Option.map_eq_some_iff.1 hnode.stands
  have ho := hnode.stands.offset
  refine ⟨span, front, back ++ next, hs, ?_, ?_⟩
  · rw [hf, print_eq]
    simp
  · rw [hs, Position.offset_past, Position.start, Nat.zero_add] at ho
    rw [Text.size_append]
    exact ho.symm

/-- **What a block holds stands between its braces.** -/
theorem Placed.inside {head : Head} {body : List Node} {after : Text} {part : Node} {p : Position}
    {next : Text} (h : (block head body after).Placed p next) (hp : part ∈ partsAll body) :
    offsetOf head.source + (head.own ++ ['{']).size + part.before.size ≤ offsetOf part.source ∧
      part.stop + (after ++ ['}']).size ≤ (block head body after).stop := by
  have hstart : offsetOf head.source = p.offset + head.before.size := h.1.offset
  obtain ⟨hge, hle⟩ := h.2.within hp
  rw [Position.offset_past, Head.print_eq] at hge hle
  have hown : (block head body after).own = head.own ++ '{' :: printAll body ++ after ++ ['}'] := rfl
  have hsource : (block head body after).source = head.source := rfl
  simp only [stop, hown, hsource, Text.size_append, Text.size_cons, Text.size_nil] at hge hle ⊢
  omega

end Node

/-! ### Charts -/

/-- **The sheet is a chart of the text** with these tokens. -/
structure Sheet.Charts (sheet : Sheet) (text : Text) (tokens : List Token) : Prop where
  /-- A node is printed as its filler and its own text.  The text has both, and its own text begins
  at the place that the node remembers. -/
  slices : ∀ node ∈ Node.partsAll sheet.nodes, node.print = node.before ++ node.own ∧
    ∃ span front rest, node.source = some span ∧
      text = front ++ node.before ++ node.own ++ rest ∧
      (front ++ node.before).size = span.start.offset
  /-- Nodes side by side do not overlap, and stand in order. -/
  siblings : ∀ nodes, (nodes = sheet.nodes ∨ ∃ node ∈ Node.partsAll sheet.nodes,
    nodes = node.children) →
      nodes.Pairwise fun a b => a.stop + b.before.size ≤ offsetOf b.source
  /-- What a block holds stands between its braces. -/
  inside : ∀ (head : Head) (body : List Node) (after : Text),
    .block head body after ∈ Node.partsAll sheet.nodes → ∀ part ∈ Node.partsAll body,
      offsetOf head.source + (head.own ++ ['{']).size + part.before.size ≤ offsetOf part.source ∧
        part.stop + (after ++ ['}']).size ≤ (Node.block head body after).stop
  /-- A block begins before what it holds, and a node before those that follow. -/
  order : (Node.partsAll sheet.nodes).Pairwise fun a b => offsetOf a.source < offsetOf b.source
  /-- A node begins with one of the tokens.  So many opening braces before it are free as there are
  blocks around it. -/
  depth : ∀ path node, sheet.at? path = some node →
    ∃ front first back, tokens = front ++ first :: back ∧ node.source = some first.span ∧
      path.length = (unmatched front).length + 1
  /-- There is one block for each opening brace. -/
  blocks : (Node.partsAll sheet.nodes).countP Node.hasBody = opened tokens
  /-- Filler is white space and semicolons. -/
  fillers : ∀ filler ∈ sheet.after :: (Node.partsAll sheet.nodes).flatMap Node.fillers,
    filler.all isFillerChar = true
  /-- What stands between the parts of a head is white space. -/
  gaps : ∀ gap ∈ (Node.partsAll sheet.nodes).flatMap Node.gaps, gap.all isSpace = true
  /-- All tokens but white space and semicolons belong to a node. -/
  cover : ∀ token ∈ tokens, token.kind ≠ .eof → token.kind ≠ .space → token.kind ≠ .semicolon →
    ∃ node ∈ Node.partsAll sheet.nodes, node.Has token

/-- **A sheet that was read is a chart of its text**, which is what stands behind the byte-order mark
of the source, if there is one. -/
theorem Sheet.parse_charts {dialect : Dialect} {source : Text} {sheet : Sheet}
    (h : Sheet.parse dialect source = .ok sheet) :
    ∃ text tokens, Sheet.splitMark source = (sheet.bom, text) ∧
      Token.tokenize dialect text = .ok tokens ∧ sheet.Charts text tokens := by
  obtain ⟨text, ls, hm, hr, hi⟩ := Sheet.parse_eq_ok_iff.1 h
  have hplaced := Sheet.placedAll_of_parse h
  have hformed := formed_locate .start hr
  have hmade : ∀ token ∈ locate .start ls, token.toLexeme.Made :=
    fun token ht => hr.made (mem_of_mem_locate ht)
  refine ⟨text, _, hm, Token.tokenize_eq_ok_iff.2 ⟨ls, hr, rfl⟩, ?_⟩
  constructor
  case slices =>
    intro node hn
    rw [Sheet.text_of_parse h hm]
    exact ⟨Node.print_eq node, hplaced.slice hn⟩
  case siblings =>
    rintro nodes (rfl | ⟨node, hn, rfl⟩)
    · exact hplaced.pairwise_siblings
    · exact hplaced.pairwise_children hn
  case inside =>
    intro head body after hn part hp
    obtain ⟨front, back, -, hpart⟩ := hplaced.part hn
    exact hpart.inside hp
  case order =>
    have hn : ∀ token ∈ locate .start ls, token.text ≠ [] :=
      fun token ht => hr.ne_nil (mem_of_mem_locate ht)
    exact hplaced.pairwise_offset.imp_of_mem fun ha _ hlt =>
      hlt ((hi.origin _ ha).own_ne_nil hformed hn)
  case depth =>
    intro path node hp
    obtain ⟨depth, hl, front, first, back, hs, hsource, -, hd⟩ := hi.starts path node hp
    refine ⟨front, first, back ++ [Token.endOf text], ?_, hsource, by rw [hl, hd]⟩
    rw [hs]
    simp
  case blocks =>
    rw [opened_append, hi.countP_hasBody]
    rfl
  case fillers => exact hi.fillers hmade hformed
  case gaps => exact hi.gaps hmade
  case cover =>
    intro token ht he hsp hse
    rcases List.mem_append.1 ht with ht | ht
    · refine (hi.cover hformed (abut_locate .start ls) token ht).resolve_left fun hf => ?_
      exact (Token.isFiller_iff.1 hf).elim hsp hse
    · rw [List.mem_singleton.1 ht] at he
      exact absurd rfl he

/-- Behind a mark: a rule without a selector, a statement that the closing brace ends, a value with
white space behind it, and a semicolon astray. -/
theorem Sheet.parse_charts_sample :
    ∃ sheet text tokens,
      Sheet.parse .scss "\ufeff\x7b@a b \x7b c : d /**/\n\x7d;\x7d e:f".toList = .ok sheet ∧
      text = "\x7b@a b \x7b c : d /**/\n\x7d;\x7d e:f".toList ∧ sheet.Charts text tokens := by
  generalize hs : "\ufeff\x7b@a b \x7b c : d /**/\n\x7d;\x7d e:f".toList = source
  generalize ht : "\x7b@a b \x7b c : d /**/\n\x7d;\x7d e:f".toList = text
  have ho : (Sheet.parse .scss source).isOk = true ∧ Sheet.splitMark source = (true, text) := by
    subst hs ht
    decide +kernel
  obtain ⟨sheet, hp⟩ := exists_of_isOk ho.1
  obtain ⟨text', tokens, hm, -, hc⟩ := Sheet.parse_charts hp
  rw [ho.2] at hm
  exact ⟨sheet, text', tokens, hp, (Prod.mk.inj hm).2.symm, hc⟩

end Restyle
