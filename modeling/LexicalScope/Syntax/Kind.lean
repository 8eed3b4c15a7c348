set_option autoImplicit false

/-! # Kinds of syntax nodes

The kinds of nodes that a JavaScript syntax tree may hold, with the names that a parser writes
into the `type` field of a node. The list is closed: a node of any other type is unsupported.
-/

namespace LexicalScope

/-- The kind of a syntax node. -/
inductive Kind where
  -- roots and functions
  | program
  | functionDeclaration
  | functionExpression
  | arrowFunctionExpression
  -- statements
  | blockStatement
  | emptyStatement
  | expressionStatement
  | ifStatement
  | labeledStatement
  | withStatement
  | switchStatement
  | switchCase
  | returnStatement
  | throwStatement
  | tryStatement
  | catchClause
  | whileStatement
  | doWhileStatement
  | forStatement
  | forInStatement
  | forOfStatement
  | breakStatement
  | continueStatement
  | debuggerStatement
  -- declarations
  | variableDeclaration
  | variableDeclarator
  -- expressions
  | thisExpression
  | arrayExpression
  | objectExpression
  | property
  | sequenceExpression
  | unaryExpression
  | updateExpression
  | binaryExpression
  | logicalExpression
  | assignmentExpression
  | conditionalExpression
  | callExpression
  | newExpression
  | memberExpression
  | yieldExpression
  | spreadElement
  -- leaves
  | identifier
  | literal
deriving DecidableEq, Repr

namespace Kind

/-- The kinds in the order in which they are declared. -/
def all : List Kind := [
  .program, .functionDeclaration, .functionExpression, .arrowFunctionExpression, .blockStatement,
  .emptyStatement, .expressionStatement, .ifStatement, .labeledStatement, .withStatement,
  .switchStatement, .switchCase, .returnStatement, .throwStatement, .tryStatement, .catchClause,
  .whileStatement, .doWhileStatement, .forStatement, .forInStatement, .forOfStatement,
  .breakStatement, .continueStatement, .debuggerStatement, .variableDeclaration,
  .variableDeclarator, .thisExpression, .arrayExpression, .objectExpression, .property,
  .sequenceExpression, .unaryExpression, .updateExpression, .binaryExpression, .logicalExpression,
  .assignmentExpression, .conditionalExpression, .callExpression, .newExpression,
  .memberExpression, .yieldExpression, .spreadElement, .identifier, .literal]

/-- The `type` that a node of the kind carries. -/
def name : Kind → String
  | program => "Program"
  | functionDeclaration => "FunctionDeclaration"
  | functionExpression => "FunctionExpression"
  | arrowFunctionExpression => "ArrowFunctionExpression"
  | blockStatement => "BlockStatement"
  | emptyStatement => "EmptyStatement"
  | expressionStatement => "ExpressionStatement"
  | ifStatement => "IfStatement"
  | labeledStatement => "LabeledStatement"
  | withStatement => "WithStatement"
  | switchStatement => "SwitchStatement"
  | switchCase => "SwitchCase"
  | returnStatement => "ReturnStatement"
  | throwStatement => "ThrowStatement"
  | tryStatement => "TryStatement"
  | catchClause => "CatchClause"
  | whileStatement => "WhileStatement"
  | doWhileStatement => "DoWhileStatement"
  | forStatement => "ForStatement"
  | forInStatement => "ForInStatement"
  | forOfStatement => "ForOfStatement"
  | breakStatement => "BreakStatement"
  | continueStatement => "ContinueStatement"
  | debuggerStatement => "DebuggerStatement"
  | variableDeclaration => "VariableDeclaration"
  | variableDeclarator => "VariableDeclarator"
  | thisExpression => "ThisExpression"
  | arrayExpression => "ArrayExpression"
  | objectExpression => "ObjectExpression"
  | property => "Property"
  | sequenceExpression => "SequenceExpression"
  | unaryExpression => "UnaryExpression"
  | updateExpression => "UpdateExpression"
  | binaryExpression => "BinaryExpression"
  | logicalExpression => "LogicalExpression"
  | assignmentExpression => "AssignmentExpression"
  | conditionalExpression => "ConditionalExpression"
  | callExpression => "CallExpression"
  | newExpression => "NewExpression"
  | memberExpression => "MemberExpression"
  | yieldExpression => "YieldExpression"
  | spreadElement => "SpreadElement"
  | identifier => "Identifier"
  | literal => "Literal"

/-- Where a text is wanted, a kind is written by its name. -/
instance : Coe Kind String := ⟨name⟩

/-- The kind with the given name. -/
def ofName? (name : String) : Option Kind := all.find? fun k => k.name == name

/-- Whether a node of the kind introduces a lexical scope: the program and every function. -/
def introducesScope : Kind → Bool
  | program | functionDeclaration | functionExpression | arrowFunctionExpression => true
  | _ => false

/-- Whether the kind is one of the function forms. -/
def isFunction : Kind → Bool
  | functionDeclaration | functionExpression | arrowFunctionExpression => true
  | _ => false

/-! ## Names and kinds correspond -/

theorem mem_all (k : Kind) : k ∈ all := by cases k <;> decide

theorem nodup_all : all.Nodup := by decide +kernel

theorem ofName?_name (k : Kind) : ofName? k.name = some k := by cases k <;> decide +kernel

theorem name_of_ofName? {s : String} {k : Kind} (h : ofName? s = some k) : k.name = s := by
  have := List.find?_some h
  simpa using this

end Kind

end LexicalScope
