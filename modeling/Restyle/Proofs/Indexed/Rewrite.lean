import Restyle.Feature
import Restyle.Proofs.Indexed.Parser
import Restyle.Proofs.Transition.Pass

/-!
# Restyling by index

The pass over transitions finds the placeholder of a rule by its index and writes to that index.  Whether
a value is a placeholder is told from its first three bytes and the bytes behind them.  Pruning and
printing use no index.

* `Indexed.isPlaceholder_eq`: **the first bytes of a value** are cut off only where a character ends.
* `Indexed.visit_eq`: a rule is visited by index as the verdict on it says.
* `Indexed.accesses_valid`: **no access is out of range** in reading a text or in either pass, and all
  results are the same.
-/

namespace Restyle

open Transition

namespace Indexed

/-! ### Placeholders -/

/-- The text is the value of a placeholder, by its first three bytes. -/
def isPlaceholderValue (value : Text) : Option Bool :=
  let value := Text.trim value
  match value.cut? 3 with
  | none     => some false
  | some cut =>
    (value.slice? 3 value.size).map fun rest =>
      Text.sameLetters cut.taken "all".toList && rest.head?.any isBlank &&
        Text.sameLetters (Text.trimStart rest) duration

/-- The declaration is a placeholder. -/
def isPlaceholder (decl : Declaration) : Option Bool :=
  if decl.prop == "transition".toList then isPlaceholderValue decl.value else some false

/-- The index of the first placeholder among the nodes. -/
def placeholderAt : List Node → Option (Option Nat)
  | []                        => some none
  | .declaration decl :: rest => do
    if ← isPlaceholder decl then return some 0
    let later ← placeholderAt rest
    return later.map (· + 1)
  | _ :: rest                 => do
    let later ← placeholderAt rest
    return later.map (· + 1)

/-- A letter of the placeholder is one byte, so its first three bytes are its first three letters. -/
theorem isPlaceholderValue_eq (value : Text) :
    isPlaceholderValue value = some (Transition.isPlaceholderValue value) := by
  simp only [isPlaceholderValue, Transition.isPlaceholderValue]
  generalize Text.trim value = value
  by_cases hall : Text.sameLetters (value.take 3) "all".toList = true
  · have hc : value.cut? 3 = some ⟨value.take 3, value.drop 3⟩ :=
      @Text.cut?_of_sameLetters_take value "all".toList hall
    have hslice : value.slice? 3 value.size = some (value.drop 3) := Text.slice?_size_of_cut? hc
    simp only [hc, hslice, Option.map_some]
  · rw [Bool.not_eq_true] at hall
    rw [hall]
    cases hc : value.cut? 3 with
    | none => rfl
    | some cut =>
        have htaken : Text.sameLetters cut.taken "all".toList = false := by
          rw [← Bool.not_eq_true]
          intro h
          have htake := Text.sameLetters_take_of_cut? hc h
          rw [show "all".toList.length = 3 from rfl, hall] at htake
          cases htake
        simp only [htaken, Text.slice?_size_of_cut? hc, Option.map_some, Bool.false_and]

/-- No access fails where a placeholder is looked for. -/
theorem isPlaceholder_eq (decl : Declaration) :
    isPlaceholder decl = some (Transition.isPlaceholder decl) := by
  rw [isPlaceholder, Transition.isPlaceholder, isPlaceholderValue_eq]
  cases decl.prop == "transition".toList <;> rfl

/-- There is no placeholder, or it stands at the index, and a value that is assigned goes there. -/
theorem placeholderAt_cases (nodes : List Node) :
    (placeholderAt nodes = some none ∧ placeholder? nodes = none) ∨
      ∃ i decl, placeholderAt nodes = some (some i) ∧ nodes[i]? = some (.declaration decl) ∧
        placeholder? nodes = some decl ∧
        ∀ value, assign value nodes = nodes.set i (.declaration { decl with value := value }) := by
  induction nodes with
  | nil => exact .inl ⟨rfl, rfl⟩
  | cons node rest ih =>
      cases node with
      | declaration decl =>
          by_cases hp : Transition.isPlaceholder decl = true
          · refine .inr ⟨0, decl, ?_, rfl, ?_, fun value => ?_⟩
            · simp [placeholderAt, isPlaceholder_eq, hp]
            · simp [placeholder?, Node.declarations, hp]
            · simp [assign, hp]
          · rcases ih with ⟨hat, hnone⟩ | ⟨i, decl', hat, hi, hsome, hset⟩
            · refine .inl ⟨?_, ?_⟩
              · simp [placeholderAt, isPlaceholder_eq, hp, hat]
              · simpa [placeholder?, Node.declarations, hp] using hnone
            · refine .inr ⟨i + 1, decl', ?_, hi, ?_, fun value => ?_⟩
              · simp [placeholderAt, isPlaceholder_eq, hp, hat]
              · simpa [placeholder?, Node.declarations, hp] using hsome
              · simp [assign, hp, hset]
      | block | atStatement | comment =>
          rcases ih with ⟨hat, hnone⟩ | ⟨i, decl', hat, hi, hsome, hset⟩
          · exact .inl ⟨by simp [placeholderAt, hat], hnone⟩
          · refine .inr ⟨i + 1, decl', by simp [placeholderAt, hat], hi, hsome, fun value => ?_⟩
            simp [assign, hset]

/-! ### One rule -/

/-- The node with the value, if it is a declaration. -/
def withValue (value : Text) : Node → Node
  | .declaration decl => .declaration { decl with value := value }
  | node              => node

/-- The nodes of a rule after the visit to it, and the notes on it. -/
def visit (file : String) (allowed : List Text) (selector : Text) (nodes : List Node) :
    Option (List Node × List Note) := do
  let some index ← placeholderAt nodes | return (nodes, [])
  let node ← nodes[index]?
  if (pseudoBodies nodes).isEmpty then
    return (nodes, [.noPseudoClass file selector node.line])
  match changedProps allowed nodes with
  | []    => return (nodes, [.noAllowedProperty file selector node.line])
  | props =>
    let node ← nodes[index]?
    return (nodes.set index (withValue (valueOf props) node),
      [.narrowed file selector (valueOf props)])

/-- **A rule is visited by index** as the verdict on it says. -/
theorem visit_eq (file : String) (allowed : List Text) (selector : Text) (nodes : List Node) :
    visit file allowed selector nodes =
      some ((verdict allowed nodes).apply nodes, (verdict allowed nodes).notes file selector) := by
  rcases placeholderAt_cases nodes with ⟨hat, hnone⟩ | ⟨i, decl, hat, hi, hsome, hset⟩
  · simp only [visit, hat, verdict, hnone, Option.bind_eq_bind, Option.bind_some]
    rfl
  · simp only [visit, hat, hi, verdict, hsome, Option.bind_eq_bind, Option.bind_some]
    by_cases hp : (pseudoBodies nodes).isEmpty = true
    · rw [if_pos hp, if_pos hp]
      rfl
    · rw [if_neg hp, if_neg hp]
      cases changedProps allowed nodes with
      | nil => rfl
      | cons prop props =>
          simp only [Verdict.apply, hset]
          rfl

/-- A visit leaves the nodes as large as they were. -/
theorem weightAll_of_visit {file : String} {allowed : List Text} {selector : Text}
    {nodes nodes' : List Node} {notes : List Note}
    (h : visit file allowed selector nodes = some (nodes', notes)) :
    Node.weightAll nodes' = Node.weightAll nodes := by
  rw [visit_eq] at h
  cases h
  exact Verdict.weightAll_apply _ nodes

/-! ### The pass -/

mutual

/-- The node after the pass and the notes on the rules in it. -/
def narrow (file : String) (allowed : List Text) (node : Node) : Option (Node × List Note) :=
  match node with
  | .block (.rule head) body after   =>
    match _h : visit file allowed head.selector body with
    | none                  => none
    | some (visited, notes) => do
      let (inner, more) ← narrowAll file allowed visited
      return (.block (.rule head) inner after, notes ++ more)
  | .block (.atRule head) body after => do
    let (inner, notes) ← narrowAll file allowed body
    return (.block (.atRule head) inner after, notes)
  | .atStatement head                => some (.atStatement head, [])
  | .declaration decl                => some (.declaration decl, [])
  | .comment c                       => some (.comment c, [])
termination_by node.weight
decreasing_by
  · simp [Node.weight, weightAll_of_visit _h]
  · simp [Node.weight]

/-- The nodes after the pass and the notes on the rules in them. -/
def narrowAll (file : String) (allowed : List Text) (nodes : List Node) :
    Option (List Node × List Note) :=
  match nodes with
  | []           => some ([], [])
  | node :: rest => do
    let (node, notes) ← narrow file allowed node
    let (rest, more) ← narrowAll file allowed rest
    return (node :: rest, notes ++ more)
termination_by Node.weightAll nodes
decreasing_by
  · simp only [Node.weightAll]; omega
  · simp only [Node.weightAll]; omega

end

mutual

theorem narrow_eq (file : String) (allowed : List Text) : ∀ node : Node,
    narrow file allowed node = some (node.narrow allowed, node.narrowNotes file allowed)
  | .block (.rule head) body after => by
      have ih := narrowAll_eq file allowed ((verdict allowed body).apply body)
      rw [narrow]
      split
      · next hv => rw [visit_eq] at hv; cases hv
      · next visited notes hv =>
        rw [visit_eq] at hv
        cases hv
        rw [ih, Node.narrow, Node.narrowNotes]
        rfl
  | .block (.atRule head) body after => by
      rw [narrow, narrowAll_eq file allowed body, Node.narrow, Node.narrowNotes]
      rfl
  | .atStatement head | .declaration decl | .comment c => by
      rw [narrow, Node.narrow, Node.narrowNotes]
termination_by node => node.weight
decreasing_by
  · simp [Node.weight, Verdict.weightAll_apply]
  · simp [Node.weight]

/-- **The pass by indices** gives what the pass over trees does. -/
theorem narrowAll_eq (file : String) (allowed : List Text) : ∀ nodes : List Node,
    narrowAll file allowed nodes =
      some (Node.narrowAll allowed nodes, Node.narrowNotesAll file allowed nodes)
  | []           => by rw [narrowAll, Node.narrowAll, Node.narrowNotesAll]
  | node :: rest => by
      rw [narrowAll, narrow_eq file allowed node, narrowAll_eq file allowed rest, Node.narrowAll,
        Node.narrowNotesAll]
      rfl
termination_by nodes => Node.weightAll nodes
decreasing_by
  · simp only [Node.weightAll]; omega
  · simp only [Node.weightAll]; omega

end

/-- The sheet after the pass, and what the pass did. -/
def apply (feature : Feature) (file : String) (sheet : Sheet) : Option (Sheet × Report) :=
  match feature with
  | .clean       => some (sheet.prune file)
  | .transitions => do
    let (nodes, notes) ← narrowAll file Transition.properties sheet.nodes
    return (⟨sheet.bom, nodes, sheet.after⟩, ⟨notes.any Note.isNarrowed, [], notes⟩)

/-- The text after the pass by index, and what the pass did. -/
def restyle (feature : Feature) (file : String) (source : Text) :
    Option (Except ParseError Restyled) := do
  match ← parse feature.dialect source with
  | .error e  => return .error e
  | .ok sheet =>
    let (sheet, report) ← apply feature file sheet
    return .ok ⟨sheet.print, report⟩

theorem apply_eq (feature : Feature) (file : String) (sheet : Sheet) :
    apply feature file sheet = some (feature.apply file sheet) := by
  cases feature with
  | clean => rfl
  | transitions => rw [apply, narrowAll_eq]; rfl

/-- **No access fails** when a text is restyled. -/
theorem restyle_eq (feature : Feature) (file : String) (source : Text) :
    restyle feature file source = some (feature.restyle file source) := by
  rw [restyle, parse_eq, Feature.restyle]
  cases Sheet.parse feature.dialect source with
  | error e => rfl
  | ok sheet =>
      simp only [Option.bind_eq_bind, Option.bind_some, apply_eq]
      rfl

/-- **No access is out of range**, whatever the text.  A slice has a result only if its offsets are in
order and on boundaries of characters.  By index and with every slice checked, reading the tokens of a
text, reading the sheet, and either pass over it with the printing behind it all have a result, and it
is the one that is told without an index. -/
theorem accesses_valid :
    (∀ text n m, (Text.slice? text n m).isSome = true ↔
      n ≤ m ∧ text.Boundary n ∧ text.Boundary m) ∧
    (∀ dialect source, tokenize dialect source =
      some ((Token.tokenize dialect source).map (·.map Token.mark))) ∧
    (∀ dialect source, parse dialect source = some (Sheet.parse dialect source)) ∧
    ∀ feature file source, restyle feature file source = some (feature.restyle file source) :=
  ⟨fun _ _ _ => Text.isSome_slice?_iff, tokenize_eq, parse_eq, restyle_eq⟩

end Indexed

end Restyle
