import Restyle.Sheet.Basic

/-!
# Printing sheets

A sheet prints as the text it was read from.  A declaration keeps the spelling of its value as long
as it has the value that was spelled so; a new value prints plainly.
-/

namespace Restyle

/-- The character that may stand before a text to mark its encoding. -/
def byteOrderMark : Char := '\ufeff'

/-- What marks a declaration as important. -/
def importantMark : Text := "!important".toList

/-- The head of a rule, up to its brace. -/
def RuleHead.print (head : RuleHead) : Text := head.before ++ head.selector ++ head.between

/-- An at-rule up to its brace or semicolon. -/
def AtHead.print (head : AtHead) : Text :=
  head.before ++ '@' :: head.name ++ head.afterName ++ head.params ++ head.between

/-- The head of a block, up to its brace. -/
def Head.print : Head → Text
  | .rule head   => head.print
  | .atRule head => head.print

/-- The semicolon of a statement that has one. -/
def printSemicolon (semicolon : Bool) : Text := if semicolon then [';'] else []

namespace Declaration

/-- The value as it was spelled, if it is still that value. -/
def printValue (decl : Declaration) : Text :=
  let plain := decl.value ++ if decl.important then ' ' :: importantMark else []
  match decl.spelling with
  | some spelling => if spelling.value = decl.value then spelling.raw else plain
  | none          => plain

/-- A declaration with its semicolon. -/
def print (decl : Declaration) : Text :=
  decl.before ++ decl.prop ++ decl.between ++ decl.printValue ++ printSemicolon decl.semicolon

end Declaration

/-- A comment with its delimiters. -/
def Comment.print (comment : Comment) : Text :=
  comment.before ++
    if comment.inline then '/' :: '/' :: comment.text
    else '/' :: '*' :: comment.text ++ ['*', '/']

namespace Node

mutual

/-- The text of a node. -/
def print : Node → Text
  | .block head body after => head.print ++ '{' :: printAll body ++ after ++ ['}']
  | .atStatement head      => head.print ++ printSemicolon head.semicolon
  | .declaration decl      => decl.print
  | .comment c             => c.print

/-- The text of nodes that stand side by side. -/
def printAll : List Node → Text
  | []           => []
  | node :: rest => node.print ++ printAll rest

end

end Node

/-- The text of a sheet. -/
def Sheet.print (sheet : Sheet) : Text :=
  (if sheet.bom then [byteOrderMark] else []) ++ Node.printAll sheet.nodes ++ sheet.after

end Restyle
