import Restyle.Report
import Restyle.Sheet.Basic
import Restyle.Text.Blank

/-!
# Narrowing transitions

The placeholder `transition: all 0.15s` in a rule is narrowed to the properties that the rule's
pseudo-class children set, each with the same duration.  Only properties of an allowed list count.
A rule whose placeholder cannot be narrowed is noted.

A rule is visited before the rules inside it, and those are visited as the visit left them.  A visit
gives at most one declaration another value, so it leaves the tree as large as it was.
-/

namespace Restyle

namespace Transition

/-- The properties that are worth a transition. -/
def properties : List Text :=
  ["border".toList, "background".toList, "background-color".toList, "color".toList,
    "outline".toList, "box-shadow".toList, "opacity".toList, "transform".toList, "padding".toList,
    "width".toList, "height".toList, "margin".toList, "fill".toList, "fill-opacity".toList]

/-- The duration of every transition. -/
def duration : Text := "0.15s".toList

/-- The text is the value of a placeholder: `all`, blanks, and the duration, in any case of
letters. -/
def isPlaceholderValue (value : Text) : Bool :=
  let value := Text.trim value
  let rest := value.drop 3
  Text.sameLetters (value.take 3) "all".toList && rest.head?.any isBlank &&
    Text.sameLetters (Text.trimStart rest) duration

/-- The declaration is a placeholder. -/
def isPlaceholder (decl : Declaration) : Bool :=
  decl.prop == "transition".toList && isPlaceholderValue decl.value

/-- A character of a pseudo-class name. -/
def isWordChar (c : Char) : Bool := c.isAlphanum || c == '_'

/-- The selector adds a pseudo-class to the enclosing rule. -/
def isPseudoSelector : Text → Bool
  | '&' :: ':' :: c :: _ => isWordChar c
  | _                    => false

/-- The property to transition when a pseudo-class sets `prop`. -/
def target (prop : Text) : Text :=
  if prop == "background".toList then "background-color".toList else prop

/-- The value that transitions the given properties. -/
def valueOf (props : List Text) : Text :=
  let names := (props.map target).eraseDups
  [',', ' '].intercalate (names.map fun name => name ++ ' ' :: duration)

end Transition

namespace Node

/-! ### What a rule asks for -/

mutual

/-- The declarations in a node, at any depth, in order. -/
def deepDeclarations : Node → List Declaration
  | .block _ body _   => deepDeclarationsAll body
  | .declaration decl => [decl]
  | .atStatement _    => []
  | .comment _        => []

/-- The declarations in nodes, at any depth, in order. -/
def deepDeclarationsAll : List Node → List Declaration
  | []           => []
  | node :: rest => node.deepDeclarations ++ deepDeclarationsAll rest

end

end Node

namespace Transition

/-- The first placeholder among the nodes. -/
def placeholder? (body : List Node) : Option Declaration :=
  (Node.declarations body).find? isPlaceholder

/-- The bodies of the pseudo-class children. -/
def pseudoBodies (body : List Node) : List (List Node) :=
  ((Node.rules body).filter fun (head, _) => isPseudoSelector head.selector).map (·.2)

/-- The allowed properties that the pseudo-class children set. -/
def changedProps (allowed : List Text) (body : List Node) : List Text :=
  let decls := (pseudoBodies body).flatMap Node.deepDeclarationsAll
  ((decls.map (·.prop)).filter allowed.contains).eraseDups

/-- What becomes of the placeholder of a rule. -/
inductive Verdict where
  /-- There is none. -/
  | absent
  /-- It stays, since no child is for a pseudo-class; it stands at this line. -/
  | noPseudoClass (line : Nat)
  /-- It stays, since the pseudo-class children set no allowed property. -/
  | noAllowedProperty (line : Nat)
  /-- It gets this value. -/
  | narrow (value : Text)
deriving DecidableEq, Repr

/-- What becomes of the placeholder of a rule with this body. -/
def verdict (allowed : List Text) (body : List Node) : Verdict :=
  match placeholder? body with
  | none             => .absent
  | some placeholder =>
    if (pseudoBodies body).isEmpty then .noPseudoClass (lineOf placeholder.source)
    else
      match changedProps allowed body with
      | []    => .noAllowedProperty (lineOf placeholder.source)
      | props => .narrow (valueOf props)

/-- The note for a verdict on the rule with this selector. -/
def Verdict.notes (file : String) (selector : Text) : Verdict → List Note
  | .absent                 => []
  | .noPseudoClass line     => [.noPseudoClass file selector line]
  | .noAllowedProperty line => [.noAllowedProperty file selector line]
  | .narrow value           => [.narrowed file selector value]

/-- The nodes with `value` given to the first placeholder. -/
def assign (value : Text) : List Node → List Node
  | []                        => []
  | .declaration decl :: rest =>
    if isPlaceholder decl then .declaration { decl with value := value } :: rest
    else .declaration decl :: assign value rest
  | node :: rest              => node :: assign value rest

/-- The nodes after a verdict on the rule they stand in. -/
def Verdict.apply : Verdict → List Node → List Node
  | .narrow value, nodes => assign value nodes
  | _,             nodes => nodes

end Transition

namespace Node

/-! ### The pass -/

mutual

/-- How much there is to visit in a node, whatever the values in it. -/
def weight : Node → Nat
  | .block _ body _                              => weightAll body + 1
  | .atStatement _ | .declaration _ | .comment _ => 1

/-- How much there is to visit in nodes. -/
def weightAll : List Node → Nat
  | []           => 0
  | node :: rest => node.weight + weightAll rest + 1

end

end Node

/-- Another value leaves as much to visit. -/
theorem Transition.weightAll_assign (value : Text) (nodes : List Node) :
    Node.weightAll (assign value nodes) = Node.weightAll nodes := by
  fun_induction assign value nodes with
  | case1 => rfl
  | case2 decl rest => rfl
  | case3 decl rest _ ih => rw [Node.weightAll, Node.weightAll, ih]
  | case4 node rest _ ih => rw [Node.weightAll, Node.weightAll, ih]

theorem Transition.Verdict.weightAll_apply (v : Verdict) (nodes : List Node) :
    Node.weightAll (v.apply nodes) = Node.weightAll nodes := by
  cases v with
  | narrow value => exact weightAll_assign value nodes
  | absent | noPseudoClass | noAllowedProperty => rfl

namespace Node

mutual

/-- The node after the pass: a rule is visited, and then the nodes in it. -/
def narrow (allowed : List Text) (node : Node) : Node :=
  match node with
  | .block (.rule head) body after   =>
    .block (.rule head) (narrowAll allowed ((Transition.verdict allowed body).apply body)) after
  | .block (.atRule head) body after => .block (.atRule head) (narrowAll allowed body) after
  | .atStatement head                => .atStatement head
  | .declaration decl                => .declaration decl
  | .comment c                       => .comment c
termination_by node.weight
decreasing_by
  · simp [weight, Transition.Verdict.weightAll_apply]
  · simp [weight]

/-- The nodes after the pass. -/
def narrowAll (allowed : List Text) (nodes : List Node) : List Node :=
  match nodes with
  | []           => []
  | node :: rest => node.narrow allowed :: narrowAll allowed rest
termination_by weightAll nodes
decreasing_by
  · simp only [weightAll]; omega
  · simp only [weightAll]; omega

end

mutual

/-- The notes on the rules in a node, a rule before the rules inside it. -/
def narrowNotes (file : String) (allowed : List Text) (node : Node) : List Note :=
  match node with
  | .block (.rule head) body _ =>
    (Transition.verdict allowed body).notes file head.selector ++
      narrowNotesAll file allowed ((Transition.verdict allowed body).apply body)
  | .block (.atRule _) body _  => narrowNotesAll file allowed body
  | .atStatement _             => []
  | .declaration _             => []
  | .comment _                 => []
termination_by node.weight
decreasing_by
  · simp [weight, Transition.Verdict.weightAll_apply]
  · simp [weight]

/-- The notes on the rules in nodes, in order. -/
def narrowNotesAll (file : String) (allowed : List Text) (nodes : List Node) : List Note :=
  match nodes with
  | []           => []
  | node :: rest => node.narrowNotes file allowed ++ narrowNotesAll file allowed rest
termination_by weightAll nodes
decreasing_by
  · simp only [weightAll]; omega
  · simp only [weightAll]; omega

end

end Node

/-- The note tells of a new value. -/
def Note.isNarrowed : Note → Bool
  | .narrowed _ _ _ => true
  | _               => false

/-- The sheet with its placeholders narrowed, and the notes on them.  Nothing is removed. -/
def Sheet.narrow (file : String) (allowed : List Text) (sheet : Sheet) : Sheet × Report :=
  let notes := Node.narrowNotesAll file allowed sheet.nodes
  ({ sheet with nodes := Node.narrowAll allowed sheet.nodes },
    ⟨notes.any Note.isNarrowed, [], notes⟩)

end Restyle
