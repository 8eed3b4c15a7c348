import LexicalScope.Tree.Scoping

set_option autoImplicit false

/-! # Rows of reports

What a report says about one node or one scope. Rows are plain data, apart from the tree they
were taken from; they number nodes and scopes by 32-bit words. What they say is found in the
numbers of the tree and put into words at the end.
-/

namespace LexicalScope

/-- What a report says about a node. -/
structure NodeRow where
  index : UInt32
  parent : Option UInt32
  depth : UInt32
  kind : String
  digest : String
deriving DecidableEq, Repr

/-- What a report says about a scope. -/
structure ScopeRow where
  id : UInt32
  /-- The `type` of the node that introduces the scope. -/
  kind : String
  /-- The name of the function that introduces the scope. -/
  name : Option String
  node : UInt32
  parent : Option UInt32
  /-- The number of scopes around the scope. -/
  depth : UInt64
  identifiers : List String
deriving DecidableEq, Repr

namespace Tree

/-- The row of a wrapped node. -/
def Node.row (n : Node) (id : NodeId) : NodeRow where
  index := id.toUInt32
  parent := n.parent.map Nat.toUInt32
  depth := n.depth.toUInt32
  kind := n.source.typeName
  digest := n.source.digest

/-- The rows of the listed nodes. -/
def rows (t : Tree) (ids : List NodeId) : List NodeRow :=
  ids.filterMap fun id => (t.node? id).map fun n => n.row id

/-- The rows of the whole tree, in pre-order. -/
def nodeReport : Query (List NodeRow) := do
  let below ← descendants root
  return (← get).rows (root :: below)

/-- The rows of the chain under an offset. -/
def chainReport (offset : UInt64) : Query (List NodeRow) := do
  let chain ← chainAt offset
  return (← get).rows chain

/-- What a report says about a scope, in the numbers of the tree. -/
structure ScopeSummary where
  id : ScopeId
  kind : Kind
  name : Option String
  node : NodeId
  parent : Option ScopeId
  depth : Nat
  identifiers : List String
deriving DecidableEq, Repr

/-- The row of a scope. -/
def ScopeSummary.row (s : ScopeSummary) : ScopeRow where
  id := s.id.toUInt32
  kind := s.kind
  name := s.name
  node := s.node.toUInt32
  parent := s.parent.map Nat.toUInt32
  depth := s.depth.toUInt64
  identifiers := s.identifiers

/-- The summary of a scope, one deeper than that of the scope around it among those before. -/
def scopeSummary (id : ScopeId) (before : Array ScopeSummary) : Query ScopeSummary := do
  let scope ← scopeAt id
  let node ← nodeAt scope.node
  let parent ← outerScope id
  let outer := parent.bind fun p => before.find? fun s => s.id == p
  let identifiers ← declaredNames id
  return {
    id := id
    kind := scope.kind
    name := node.source.declaredName?
    node := scope.node
    parent := parent
    depth := outer.elim 0 fun s => s.depth + 1
    identifiers := identifiers }

/-- Adds the summaries of the listed scopes. -/
def collectSummaries : List ScopeId → Array ScopeSummary → Query (Array ScopeSummary)
  | [], summaries => return summaries
  | id :: rest, summaries => do
    let summary ← scopeSummary id summaries
    collectSummaries rest (summaries.push summary)

/-- The summaries of all scopes, in the order of `allScopes`. -/
def scopeSummaries : Query (List ScopeSummary) := do
  let ids ← allScopes
  let summaries ← collectSummaries ids #[]
  return summaries.toList

/-- The rows of all scopes, in the order of `allScopes`. -/
def scopeReport : Query (List ScopeRow) := do
  let summaries ← scopeSummaries
  return summaries.map ScopeSummary.row

end Tree

end LexicalScope
