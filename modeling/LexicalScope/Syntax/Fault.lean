set_option autoImplicit false

/-! # Faults of a document

What a walk over a syntax tree may find wrong. Every fault carries the digest of the node where
it was found, so that its message points at the shape that caused it.
-/

namespace LexicalScope

/-- A fault of a document. -/
inductive Fault where
  /-- The `type` of a node is missing or names no kind. -/
  | unsupportedKind (kind digest : String)
  /-- A slot of a node does not hold what its form asks for. -/
  | missingChild (field digest : String)
  /-- No node from the asked one up to the root introduces a scope. -/
  | noEnclosingScope (digest : String)
deriving DecidableEq, Repr

namespace Fault

/-- The digest of the node where the fault was found. -/
def digest : Fault → String
  | unsupportedKind _ digest | missingChild _ digest | noEnclosingScope digest => digest

/-- The text of a fault. -/
def message : Fault → String
  | unsupportedKind kind digest => "unsupported node kind '" ++ kind ++ "': " ++ digest
  | missingChild field digest => "missing required child '" ++ field ++ "' in " ++ digest
  | noEnclosingScope digest => "no enclosing scope for root node " ++ digest

end Fault

end LexicalScope
