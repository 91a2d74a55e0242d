import Restyle.Proofs.Sheet.Parts
import Restyle.Transition

/-!
# What a rule asks for

The verdict on a rule is told from the direct children of the rule and from what stands below its
pseudo-class children.

* `Transition.Placeholder`: the declarations that wait for a value, by the form of their value.
* `Transition.FirstPlaceholder`: where the declaration stands that gets the value.
* `Transition.PseudoSelector`: the selectors that add a pseudo-class, by their form.
* `Transition.asked`: the allowed properties that the pseudo-class children set, with repetitions.
* `Transition.verdict_eq_narrow_iff`: **a rule gets a value** just when it has a placeholder and
  asks for something, and then it gets the value that it asks for.
-/

namespace Restyle

namespace Transition

/-! ### Placeholders -/

/-- The value is `all`, blanks and the duration, in any case of letters, with blanks around it. -/
def PlaceholderValue (value : Text) : Prop :=
  ∃ all blanks time, Text.trim value = all ++ blanks ++ time ∧
    Text.sameLetters all "all".toList = true ∧ blanks ≠ [] ∧ (∀ c ∈ blanks, isBlank c = true) ∧
    Text.sameLetters time "0.15s".toList = true

/-- The declaration is a transition that waits for a value. -/
def Placeholder (decl : Declaration) : Prop :=
  decl.prop = "transition".toList ∧ PlaceholderValue decl.value

/-- The case of letters does not bear on the length. -/
theorem length_of_sameLetters {a b : Text} (h : Text.sameLetters a b = true) :
    a.length = b.length := by
  have := congrArg List.length (eq_of_beq h)
  simpa using this

/-- Only the digit itself is the digit in lower case. -/
theorem eq_zero_of_toLower {c : Char} (h : c.toLower = '0') : c = '0' := by
  unfold Char.toLower at h
  split at h
  · next hc =>
    have hn : (c.val + ('a'.val - 'A'.val)).toNat = 48 := congrArg (fun d => d.val.toNat) h
    simp [UInt32.le_iff_toNat_le] at hc hn
    omega
  · exact h

/-- The duration does not begin with a blank, in any case of letters. -/
theorem trimStart_of_duration {time : Text} (h : Text.sameLetters time duration = true) :
    Text.trimStart time = time := by
  cases time with
  | nil => rfl
  | cons c rest =>
      have hc : c.toLower = '0' := (List.cons.inj (eq_of_beq h)).1
      rw [eq_zero_of_toLower hc]
      rfl

/-- **The check of a value** finds the values of this form. -/
theorem isPlaceholderValue_iff {value : Text} :
    isPlaceholderValue value = true ↔ PlaceholderValue value := by
  simp only [isPlaceholderValue, PlaceholderValue, Bool.and_eq_true]
  constructor
  · rintro ⟨⟨ha, hb⟩, ht⟩
    refine ⟨_, ((Text.trim value).drop 3).takeWhile isBlank, _, ?_, ha, ?_, ?_, ht⟩
    · rw [List.append_assoc, Text.trimStart, List.takeWhile_append_dropWhile,
        List.take_append_drop]
    · intro he
      cases hd : (Text.trim value).drop 3 with
      | nil => rw [hd] at hb; cases hb
      | cons c rest =>
          rw [hd] at hb he
          rw [List.takeWhile_cons_of_pos (by simpa using hb)] at he
          cases he
    · intro c hc
      exact List.all_eq_true.1 List.all_takeWhile c hc
  · rintro ⟨all, blanks, time, hv, ha, hb, hs, ht⟩
    -- the name has three characters, and the blanks run up to the duration
    have hl : all.length = 3 := length_of_sameLetters ha
    have htake : (Text.trim value).take 3 = all := by
      rw [hv, List.append_assoc, ← hl, List.take_left]
    have hdrop : (Text.trim value).drop 3 = blanks ++ time := by
      rw [hv, List.append_assoc, ← hl, List.drop_left]
    obtain ⟨c, rest, rfl⟩ := List.exists_cons_of_ne_nil hb
    rw [htake, hdrop]
    refine ⟨⟨ha, by simpa using hs c List.mem_cons_self⟩, ?_⟩
    rw [Text.trimStart, List.dropWhile_append_of_pos hs]
    rw [show List.dropWhile isBlank time = time from trimStart_of_duration ht]
    exact ht

/-- **The check of a declaration** finds the placeholders. -/
theorem isPlaceholder_iff {decl : Declaration} : isPlaceholder decl = true ↔ Placeholder decl := by
  rw [isPlaceholder, Bool.and_eq_true, beq_iff_eq, isPlaceholderValue_iff, Placeholder]

/-- The declaration at the index is a placeholder, and none stands before it. -/
def FirstPlaceholder (body : List Node) (i : Nat) : Prop :=
  (∃ decl, body[i]? = some (.declaration decl) ∧ Placeholder decl) ∧
    ∀ j < i, ∀ decl, body[j]? = some (.declaration decl) → ¬ Placeholder decl

/-- The first child is the first placeholder if it is one. -/
theorem firstPlaceholder_zero {node : Node} {rest : List Node} :
    FirstPlaceholder (node :: rest) 0 ↔ ∃ decl, node = .declaration decl ∧ Placeholder decl := by
  simp [FirstPlaceholder]

/-- A later child is the first placeholder if no child before it is one. -/
theorem firstPlaceholder_succ {node : Node} {rest : List Node} {i : Nat} :
    FirstPlaceholder (node :: rest) (i + 1) ↔
      (∀ decl, node = .declaration decl → ¬ Placeholder decl) ∧ FirstPlaceholder rest i := by
  simp only [FirstPlaceholder, List.getElem?_cons_succ]
  constructor
  · rintro ⟨hp, hb⟩
    refine ⟨fun decl hd => hb 0 (Nat.zero_lt_succ i) decl (by simp [hd]), hp, fun j hj => ?_⟩
    exact hb (j + 1) (Nat.succ_lt_succ hj)
  · rintro ⟨hn, hp, hb⟩
    refine ⟨hp, fun j hj decl hd => ?_⟩
    cases j with
    | zero => exact hn decl (by simpa using hd)
    | succ j => exact hb j (Nat.lt_of_succ_lt_succ hj) decl hd

theorem FirstPlaceholder.exists_mem {body : List Node} {i : Nat} (h : FirstPlaceholder body i) :
    ∃ decl ∈ Node.declarations body, Placeholder decl := by
  obtain ⟨⟨decl, hd, hp⟩, -⟩ := h
  exact ⟨decl, Node.mem_declarations.2 (List.mem_of_getElem? hd), hp⟩

theorem placeholder?_isSome {body : List Node} :
    (placeholder? body).isSome = true ↔ ∃ decl ∈ Node.declarations body, Placeholder decl := by
  rw [placeholder?, List.find?_isSome]
  simp only [isPlaceholder_iff]

/-! ### Pseudo-classes -/

/-- A letter or a digit of ASCII, or an underscore. -/
def WordChar (c : Char) : Prop :=
  'a' ≤ c ∧ c ≤ 'z' ∨ 'A' ≤ c ∧ c ≤ 'Z' ∨ '0' ≤ c ∧ c ≤ '9' ∨ c = '_'

/-- The selector is the enclosing one with a colon behind it, and then a character of a name. -/
def PseudoSelector (selector : Text) : Prop :=
  ∃ c rest, selector = '&' :: ':' :: c :: rest ∧ WordChar c

theorem isWordChar_iff {c : Char} : isWordChar c = true ↔ WordChar c := by
  have hupper : c.isUpper = true ↔ 'A' ≤ c ∧ c ≤ 'Z' := decide_eq_true_iff
  have hlower : c.isLower = true ↔ 'a' ≤ c ∧ c ≤ 'z' :=
    Bool.and_eq_true_iff.trans (and_congr decide_eq_true_iff decide_eq_true_iff)
  have hdigit : c.isDigit = true ↔ '0' ≤ c ∧ c ≤ '9' :=
    Bool.and_eq_true_iff.trans (and_congr decide_eq_true_iff decide_eq_true_iff)
  have hc : isWordChar c = (c.isUpper || c.isLower || c.isDigit || c == '_') := rfl
  simp only [hc, WordChar, Bool.or_eq_true, hupper, hlower, hdigit, beq_iff_eq]
  rw [or_assoc, or_assoc, or_left_comm]

/-- **A selector adds a pseudo-class** just when it has the form of one that does. -/
theorem isPseudoSelector_iff {selector : Text} :
    isPseudoSelector selector = true ↔ PseudoSelector selector := by
  constructor
  · intro h
    unfold isPseudoSelector at h
    split at h
    · next c rest => exact ⟨c, rest, rfl, isWordChar_iff.1 h⟩
    · cases h
  · rintro ⟨c, rest, rfl, hc⟩
    exact isWordChar_iff.2 hc

instance : DecidablePred PseudoSelector := fun _ => decidable_of_iff _ isPseudoSelector_iff

/-! ### What the pseudo-class children set -/

/-- The declarations below a pseudo-class child, in order. -/
def pseudoDeclarations : Node → List Declaration
  | .block (.rule head) body _ =>
    if PseudoSelector head.selector then Node.declarations (Node.partsAll body) else []
  | _                          => []

/-- The allowed properties that the pseudo-class children set, in order and with repetitions. -/
def asked (allowed : List Text) (body : List Node) : List Text :=
  ((body.flatMap pseudoDeclarations).map (·.prop)).filter allowed.contains

/-- The value that a rule asks for: each property once, where it comes first. -/
def askedValue (allowed : List Text) (body : List Node) : Text :=
  ", ".toList.intercalate
    (((asked allowed body).map target).eraseDups.map fun name => name ++ " 0.15s".toList)

mutual

theorem deepDeclarations_eq : ∀ node : Node,
    node.deepDeclarations = Node.declarations node.parts
  | .block _ body _ => deepDeclarationsAll_eq body
  | .atStatement _ | .declaration _ | .comment _ => rfl

/-- The declarations at any depth are those among the parts. -/
theorem deepDeclarationsAll_eq : ∀ nodes : List Node,
    Node.deepDeclarationsAll nodes = Node.declarations (Node.partsAll nodes)
  | []           => rfl
  | node :: rest => by
      rw [Node.deepDeclarationsAll, Node.partsAll, Node.declarations_append,
        deepDeclarations_eq node, deepDeclarationsAll_eq rest]

end

/-- What stands below the pseudo-class children may be listed child by child. -/
theorem flatMap_pseudoBodies (body : List Node) :
    (pseudoBodies body).flatMap Node.deepDeclarationsAll = body.flatMap pseudoDeclarations := by
  induction body with
  | nil => rfl
  | cons node rest ih =>
      rw [List.flatMap_cons, ← ih]
      cases node with
      | block head inner after =>
          cases head with
          | rule head =>
              by_cases hs : PseudoSelector head.selector
              · simp [pseudoBodies, Node.rules, pseudoDeclarations, isPseudoSelector_iff, hs,
                  deepDeclarationsAll_eq]
              · simp [pseudoBodies, Node.rules, pseudoDeclarations, isPseudoSelector_iff, hs]
          | atRule head => rfl
      | atStatement | declaration | comment => rfl

/-- The properties that are set are those asked for, each once. -/
theorem changedProps_eq (allowed : List Text) (body : List Node) :
    changedProps allowed body = (asked allowed body).eraseDups := by
  rw [changedProps, flatMap_pseudoBodies]
  rfl

theorem changedProps_eq_nil {allowed : List Text} {body : List Node} :
    changedProps allowed body = [] ↔ asked allowed body = [] := by
  rw [changedProps_eq]
  cases asked allowed body with
  | nil => simp
  | cons prop rest => simp [List.eraseDups_cons]

/-- Nothing is asked for without a pseudo-class child. -/
theorem asked_of_pseudoBodies {allowed : List Text} {body : List Node}
    (h : pseudoBodies body = []) : asked allowed body = [] := by
  rw [asked, ← flatMap_pseudoBodies, h]
  rfl

/-! ### Dropping repetitions twice -/

section
variable {α β : Type} [BEq α] [LawfulBEq α] [BEq β] [LawfulBEq β]

/-- Repetitions may be dropped before a choice as well as after it. -/
theorem filter_eraseDups (p : α → Bool) :
    ∀ xs : List α, xs.eraseDups.filter p = (xs.filter p).eraseDups
  | []      => rfl
  | a :: as => by
      have ih := filter_eraseDups p (as.filter fun b => !b == a)
      rw [List.eraseDups_cons]
      by_cases ha : p a = true
      · rw [List.filter_cons_of_pos ha, List.filter_cons_of_pos ha, List.eraseDups_cons, ih,
          List.filter_filter, List.filter_filter]
        simp only [Bool.and_comm]
      · rw [List.filter_cons_of_neg ha, List.filter_cons_of_neg ha, ih, List.filter_filter]
        -- what satisfies `p` is not `a`
        congr 1
        refine List.filter_congr fun b _ => ?_
        by_cases hb : b == a
        · rw [eq_of_beq hb]
          simp [ha]
        · simp [hb]
termination_by xs => xs.length
decreasing_by exact Nat.lt_succ_of_le (List.length_filter_le _ _)

/-- Repetitions may be dropped before a renaming as well as after it. -/
theorem eraseDups_map_eraseDups (f : α → β) :
    ∀ xs : List α, (xs.eraseDups.map f).eraseDups = (xs.map f).eraseDups
  | []      => rfl
  | a :: as => by
      have ih := eraseDups_map_eraseDups f (as.filter fun b => !f b == f a)
      rw [List.eraseDups_cons, List.map_cons, List.map_cons, List.eraseDups_cons,
        List.eraseDups_cons, List.filter_map, List.filter_map, filter_eraseDups,
        List.filter_filter]
      congr 1
      refine Eq.trans ?_ ih
      congr 3
      refine List.filter_congr fun b _ => ?_
      by_cases hb : b == a
      · rw [eq_of_beq hb]
        simp
      · simp [hb]
termination_by xs => xs.length
decreasing_by exact Nat.lt_succ_of_le (List.length_filter_le _ _)

end

/-- **The value that is given** is the one asked for. -/
theorem valueOf_changedProps (allowed : List Text) (body : List Node) :
    valueOf (changedProps allowed body) = askedValue allowed body := by
  rw [changedProps_eq, valueOf, eraseDups_map_eraseDups]
  rfl

/-! ### The verdict -/

/-- **A rule gets a value** just when it has a placeholder and its pseudo-class children set an
allowed property.  It is the value that the rule asks for. -/
theorem verdict_eq_narrow_iff {allowed : List Text} {body : List Node} {value : Text} :
    verdict allowed body = .narrow value ↔
      (∃ decl ∈ Node.declarations body, Placeholder decl) ∧ asked allowed body ≠ [] ∧
        value = askedValue allowed body := by
  rw [← placeholder?_isSome, ← valueOf_changedProps, Ne, ← changedProps_eq_nil, verdict]
  cases placeholder? body with
  | none => simp
  | some decl =>
      by_cases hp : (pseudoBodies body).isEmpty = true
      · have hn : changedProps allowed body = [] :=
          changedProps_eq_nil.2 (asked_of_pseudoBodies (List.isEmpty_iff.1 hp))
        simp [hp, hn]
      · cases hc : changedProps allowed body with
        | nil => simp [hp]
        | cons prop rest => simp [hp, eq_comm]

end Transition

end Restyle
