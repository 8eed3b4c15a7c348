import LexicalScope.Json.Value
import LexicalScope.Syntax.Fault
import LexicalScope.Syntax.Kind

set_option autoImplicit false

/-! # Syntax nodes

A syntax node is the JSON value that a parser wrote for it. The functions here read the fields
that matter for scopes: the type, the declared name and the source span. They are defined for
every JSON value, since the documents are not known to be well formed. `SyntaxNode.digest` is a
short description of a node for messages.
-/

namespace LexicalScope

/-- A node of a syntax tree, as the parser wrote it. -/
abbrev SyntaxNode := Json

/-- A half-open range of source offsets. -/
structure Span where
  start : UInt64
  stop : UInt64
deriving DecidableEq, Repr

/-- Whether the span covers an offset: its start does, its stop does not. -/
def Span.contains (s : Span) (offset : UInt64) : Bool := s.start ≤ offset && offset < s.stop

namespace SyntaxNode

/-- The `type` of a node, when it is a string. -/
def typeName? (n : SyntaxNode) : Option String := (n.member? "type").bind Json.string?

/-- The `type` of a node as messages show it. -/
def typeName (n : SyntaxNode) : String := n.typeName?.getD "<unknown>"

/-- The kind of a node, when its type names one. -/
def kind? (n : SyntaxNode) : Option Kind := n.typeName?.bind Kind.ofName?

/-- A field of a node. The value `null` stands for an absent field. -/
def field? (n : SyntaxNode) (name : String) : Option Json :=
  (n.member? name).filter fun v => !v.isNull

/-- A field of a node that holds an object. -/
def child? (n : SyntaxNode) (name : String) : Option SyntaxNode :=
  (n.field? name).filter Json.isObject

/-- The name of an identifier. -/
def identifier? (n : SyntaxNode) : Option String :=
  if n.typeName? = some Kind.identifier.name then (n.member? "name").bind Json.string? else none

/-- The name that a node declares: that of the identifier in its `id` field. -/
def declaredName? (n : SyntaxNode) : Option String := (n.child? "id").bind identifier?

/-- The span of a node. A `range` of two values decides, whatever these are; without one the
fields `start` and `end` hold the span. -/
def span? (n : SyntaxNode) : Option Span :=
  match (n.field? "range").bind Json.array? with
  | some [start, stop] => return ⟨← start.uint64?, ← stop.uint64?⟩
  | _ => return ⟨← (n.field? "start").bind Json.uint64?, ← (n.field? "end").bind Json.uint64?⟩

/-! ## Digests -/

/-- A word for a value: the type of a node, brackets for an array, else the JSON type. -/
def shape : Json → String
  | .null => "null"
  | .bool _ => "boolean"
  | .number _ => "number"
  | .string _ => "string"
  | .array _ => "[]"
  | .object members => (SyntaxNode.typeName? (.object members)).getD "object"

/-- What a digest says inside its parentheses: every field but `type` with the word for its
value, or only that word when the value has no fields. -/
def outline : SyntaxNode → String
  | .object members =>
    ", ".intercalate ((members.filter fun m => m.1 != "type").map fun m => m.1 ++ ":" ++ shape m.2)
  | v => shape v

/-- A short description of a node: its type, then its fields. -/
def digest (n : SyntaxNode) : String := n.typeName ++ " (" ++ n.outline ++ ")"

/-- The fault of a node whose type names no kind. -/
def unsupported (n : SyntaxNode) : Fault := .unsupportedKind n.typeName n.digest

/-- The kind of a node, or the fault of having none. -/
def kind (n : SyntaxNode) : Except Fault Kind :=
  match n.kind? with
  | some k => .ok k
  | none => .error n.unsupported

end SyntaxNode

end LexicalScope
