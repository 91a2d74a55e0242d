import Restyle.Token.Basic

/-!
# Sheets

A sheet is a tree that keeps every character it was read from.  A node is a block (a rule or an
at-rule with a body), an at-rule without a body, a declaration or a comment.  Each node holds the
filler before it; a block also holds the filler before its closing brace.
-/

namespace Restyle

/-- Where a token stands: its start and the byte offset of its end. -/
structure Span where
  start : Position
  stop : Nat
deriving DecidableEq, Repr

/-- The span of a token. -/
def Token.span (token : Token) : Span := ⟨token.start, token.stop⟩

/-- The line a node is reported at, which is zero for one that was not read from a text. -/
def lineOf (source : Option Span) : Nat := source.elim 0 (·.start.line)

/-- What stands before the brace of a rule. -/
structure RuleHead where
  before : Text
  selector : Text
  /-- White space between the selector and the brace. -/
  between : Text
  /-- The span of the first token. -/
  source : Option Span
deriving DecidableEq, Repr

/-- An at-rule up to its brace or its end. -/
structure AtHead where
  before : Text
  /-- The name without its at sign. -/
  name : Text
  /-- White space between the name and the parameters. -/
  afterName : Text
  params : Text
  /-- White space after the parameters. -/
  between : Text
  /-- The at-rule is closed by a semicolon when it has no body. -/
  semicolon : Bool
  source : Option Span
deriving DecidableEq, Repr

/-- What opens a block. -/
inductive Head where
  | rule (head : RuleHead)
  | atRule (head : AtHead)
deriving DecidableEq, Repr

/-- How a value was spelled.  The spelling stands for the value only. -/
structure Spelling where
  value : Text
  raw : Text
deriving DecidableEq, Repr

/-- A property with its value. -/
structure Declaration where
  before : Text
  prop : Text
  /-- The colon with the white space around it. -/
  between : Text
  /-- The value without comments, blanks around it, or `!important`. -/
  value : Text
  important : Bool
  spelling : Option Spelling
  semicolon : Bool
  source : Option Span
deriving DecidableEq, Repr

/-- A comment.  `inline` when it runs to the end of its line. -/
structure Comment where
  before : Text
  /-- The text between the delimiters. -/
  text : Text
  inline : Bool
  source : Option Span
deriving DecidableEq, Repr

/-- A node of a sheet. -/
inductive Node where
  /-- A rule or an at-rule with its body, and the filler before the closing brace. -/
  | block (head : Head) (body : List Node) (after : Text)
  /-- An at-rule without a body. -/
  | atStatement (head : AtHead)
  | declaration (decl : Declaration)
  | comment (c : Comment)
deriving Repr

namespace Node

mutual

/-- Equality of nodes is decided part by part. -/
def decEq : (a b : Node) → Decidable (a = b)
  | .block head body after, .block head' body' after' =>
    if hh : head = head' ∧ after = after' then
      match decEqAll body body' with
      | .isTrue hb  => .isTrue (by rw [hh.1, hh.2, hb])
      | .isFalse hb => .isFalse fun h => hb (Node.block.inj h).2.1
    else .isFalse fun h => hh ⟨(Node.block.inj h).1, (Node.block.inj h).2.2⟩
  | .atStatement a,   .atStatement b   => decidable_of_iff (a = b) (by simp)
  | .declaration a,   .declaration b   => decidable_of_iff (a = b) (by simp)
  | .comment a,       .comment b       => decidable_of_iff (a = b) (by simp)
  | .block _ _ _,     .atStatement _   => .isFalse nofun
  | .block _ _ _,     .declaration _   => .isFalse nofun
  | .block _ _ _,     .comment _       => .isFalse nofun
  | .atStatement _,   .block _ _ _     => .isFalse nofun
  | .atStatement _,   .declaration _   => .isFalse nofun
  | .atStatement _,   .comment _       => .isFalse nofun
  | .declaration _,   .block _ _ _     => .isFalse nofun
  | .declaration _,   .atStatement _   => .isFalse nofun
  | .declaration _,   .comment _       => .isFalse nofun
  | .comment _,       .block _ _ _     => .isFalse nofun
  | .comment _,       .atStatement _   => .isFalse nofun
  | .comment _,       .declaration _   => .isFalse nofun

/-- Equality of lists of nodes is decided node by node. -/
def decEqAll : (a b : List Node) → Decidable (a = b)
  | [],           []             => .isTrue rfl
  | [],           _ :: _         => .isFalse nofun
  | _ :: _,       []             => .isFalse nofun
  | node :: rest, node' :: rest' =>
    match decEq node node', decEqAll rest rest' with
    | .isTrue hn,  .isTrue hr  => .isTrue (by rw [hn, hr])
    | .isFalse hn, _           => .isFalse fun h => hn (List.cons.inj h).1
    | _,           .isFalse hr => .isFalse fun h => hr (List.cons.inj h).2

end

end Node

instance : DecidableEq Node := Node.decEq

/-- A whole sheet. -/
structure Sheet where
  /-- The text began with a byte-order mark. -/
  bom : Bool
  nodes : List Node
  /-- The filler after the last node. -/
  after : Text
deriving DecidableEq, Repr

/-! ### Views of a node -/

/-- The span of the first token of a block. -/
def Head.source : Head → Option Span
  | .rule head   => head.source
  | .atRule head => head.source

/-- The name of an at-rule in reports.  The space is there even without parameters. -/
def AtHead.label (head : AtHead) : Text := '@' :: head.name ++ ' ' :: head.params

/-- The name of a block in reports: the selector of a rule, the label of an at-rule. -/
def Head.label : Head → Text
  | .rule head   => head.selector
  | .atRule head => head.label

namespace Node

/-- The span of the first token, for a node that was read from a text. -/
def source : Node → Option Span
  | .block head _ _   => head.source
  | .atStatement head => head.source
  | .declaration decl => decl.source
  | .comment c        => c.source

/-- The line of the node. -/
def line (node : Node) : Nat := lineOf node.source

/-- The node is a rule or an at-rule. -/
def isBlock : Node → Bool
  | .block _ _ _ | .atStatement _ => true
  | .declaration _ | .comment _   => false

/-- The node is a rule. -/
def isRule : Node → Bool
  | .block (.rule _) _ _ => true
  | _                    => false

/-- The node is an at-rule, with or without a body. -/
def isAtRule : Node → Bool
  | .block (.atRule _) _ _ | .atStatement _ => true
  | _                                       => false

/-- The direct children of a block. -/
def children : Node → List Node
  | .block _ body _ => body
  | _               => []

/-- The declarations among nodes that stand side by side. -/
def declarations (nodes : List Node) : List Declaration :=
  nodes.filterMap fun
    | .declaration decl => some decl
    | _                 => none

/-- The rules among nodes that stand side by side, with their bodies. -/
def rules (nodes : List Node) : List (RuleHead × List Node) :=
  nodes.filterMap fun
    | .block (.rule head) body _ => some (head, body)
    | _                          => none

end Node

/-! ### Nodes made by hand -/

/-- A rule with nothing around its parts. -/
def Node.rule (selector : Text) (body : List Node) : Node :=
  .block (.rule ⟨[], selector, [], none⟩) body []

/-- The head of an at-rule with a space before its parameters, if it has any. -/
def AtHead.plain (name params : Text) : AtHead :=
  ⟨[], name, if params.isEmpty then [] else [' '], params, [], false, none⟩

/-- An at-rule, with a body or without. -/
def Node.atRule (name params : Text) : Option (List Node) → Node
  | some body => .block (.atRule (.plain name params)) body []
  | none      => .atStatement (.plain name params)

/-- A declaration with a space after its colon and a semicolon. -/
def Declaration.plain (prop value : Text) : Declaration :=
  ⟨[], prop, [':', ' '], value, false, none, true, none⟩

/-- A comment with nothing before it. -/
def Comment.plain (text : Text) (inline : Bool) : Comment := ⟨[], text, inline, none⟩

end Restyle
