import LexicalScope.Syntax.Kind

set_option autoImplicit false

/-! # The grammar of syntax nodes

For each kind of node, the fields that hold its children. A slot is such a field together with
what it may hold; the slots of a kind are read from left to right. Fields outside the slots
(operators, parameters, labels, positions) hold no children.
-/

namespace LexicalScope

/-- What a slot may hold. -/
inductive Slot.Form where
  /-- One node. -/
  | node
  /-- One node, or nothing. -/
  | optional
  /-- A list of nodes. -/
  | list
  /-- A list of nodes with holes. -/
  | sparse
deriving DecidableEq, Repr

/-- A field that holds children. -/
structure Slot where
  form : Slot.Form
  field : String
deriving DecidableEq, Repr

namespace Kind

open Slot.Form in
/-- The slots of a kind, in the order of the children. -/
def slots : Kind → List Slot
  | program | blockStatement => [⟨list, "body"⟩]
  | functionDeclaration | functionExpression | arrowFunctionExpression => [⟨node, "body"⟩]
  | expressionStatement => [⟨node, "expression"⟩]
  | ifStatement => [⟨node, "test"⟩, ⟨node, "consequent"⟩, ⟨optional, "alternate"⟩]
  | labeledStatement => [⟨node, "body"⟩]
  | withStatement => [⟨node, "object"⟩, ⟨node, "body"⟩]
  | switchStatement => [⟨node, "discriminant"⟩, ⟨list, "cases"⟩]
  | switchCase => [⟨optional, "test"⟩, ⟨list, "consequent"⟩]
  | returnStatement | yieldExpression => [⟨optional, "argument"⟩]
  | throwStatement | unaryExpression | updateExpression | spreadElement => [⟨node, "argument"⟩]
  | tryStatement => [⟨node, "block"⟩, ⟨optional, "handler"⟩, ⟨optional, "finalizer"⟩]
  | catchClause => [⟨optional, "param"⟩, ⟨node, "body"⟩]
  | whileStatement => [⟨node, "test"⟩, ⟨node, "body"⟩]
  | doWhileStatement => [⟨node, "body"⟩, ⟨node, "test"⟩]
  | forStatement =>
    [⟨optional, "init"⟩, ⟨optional, "test"⟩, ⟨optional, "update"⟩, ⟨node, "body"⟩]
  | forInStatement | forOfStatement => [⟨node, "left"⟩, ⟨node, "right"⟩, ⟨node, "body"⟩]
  | variableDeclaration => [⟨list, "declarations"⟩]
  | variableDeclarator => [⟨optional, "init"⟩]
  | arrayExpression => [⟨sparse, "elements"⟩]
  | objectExpression => [⟨list, "properties"⟩]
  | property => [⟨node, "key"⟩, ⟨node, "value"⟩]
  | sequenceExpression => [⟨list, "expressions"⟩]
  | binaryExpression | logicalExpression | assignmentExpression =>
    [⟨node, "left"⟩, ⟨node, "right"⟩]
  | conditionalExpression => [⟨node, "test"⟩, ⟨node, "consequent"⟩, ⟨node, "alternate"⟩]
  | callExpression | newExpression => [⟨node, "callee"⟩, ⟨list, "arguments"⟩]
  | memberExpression => [⟨node, "object"⟩, ⟨node, "property"⟩]
  | identifier | literal | emptyStatement | breakStatement | continueStatement
  | debuggerStatement | thisExpression => []

end Kind

end LexicalScope
