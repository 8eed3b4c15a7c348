import LexicalScope.Syntax.Children

set_option autoImplicit false

/-! # Trees of wrapped nodes

A `Tree` wraps the nodes of one document as they are asked for. A wrapped node knows its parent
and its depth, which the document does not show, and remembers what has been computed for it.
Nodes and scopes are numbered in the order in which they are added, and both lists only grow,
so a number stays valid and keeps its meaning.

Questions to a tree are `Query` actions: they may extend the tree and fill what it remembers, and
an action that fails keeps what it has added before it failed.
-/

namespace LexicalScope

/-- The number of a wrapped node. Outside the tree it is a 32-bit word: over a document of fewer
than 2^32 objects no number of a reachable tree wraps as a word (`Reachable.words_exact`), so what
is said of numbers holds of their words. -/
abbrev NodeId := Nat

/-- The number of a scope, which is a 32-bit word outside the tree, as that of a node is. -/
abbrev ScopeId := Nat

/-- A wrapped node. The last three fields are filled when they are first asked for. -/
structure Tree.Node where
  source : SyntaxNode
  kind : Option Kind
  parent : Option NodeId
  depth : Nat
  children : Option (List NodeId) := none
  /-- The nodes below this one, in pre-order. -/
  descendants : Option (List NodeId) := none
  scope : Option ScopeId := none

/-- A lexical scope: the node that introduces it and, once collected, the declared names. -/
structure Tree.Scope where
  node : NodeId
  kind : Kind
  names : Option (List String) := none

/-- A tree of wrapped nodes, with the scopes that have been opened in it. -/
structure Tree where
  nodes : Array Tree.Node
  scopes : Array Tree.Scope := #[]

/-- Why a question to a tree has no answer. -/
inductive QueryError where
  /-- The document has a fault. -/
  | fault (fault : Fault)
  /-- The tree has no node of this number. -/
  | noNode (id : NodeId)
  /-- The tree has no scope of this number. -/
  | noScope (id : ScopeId)
deriving DecidableEq, Repr

/-- The text of a failed question. -/
def QueryError.message : QueryError → String
  | fault f => f.message
  | noNode id => "no node " ++ toString id
  | noScope id => "no scope " ++ toString id

/-- A question to a tree. -/
abbrev Query := EStateM QueryError Tree

namespace Tree

/-- Wraps a node of the document. -/
def Node.wrap (source : SyntaxNode) (parent : Option NodeId) (depth : Nat) : Node :=
  { source, kind := source.kind?, parent, depth }

/-- The number of the root. -/
def root : NodeId := 0

/-- The tree over a document in which only the root is wrapped. -/
def ofDocument (document : SyntaxNode) : Tree := { nodes := #[Node.wrap document none 0] }

/-- The number of nodes wrapped so far. -/
def size (t : Tree) : Nat := t.nodes.size

/-- The number of scopes opened so far. -/
def scopeCount (t : Tree) : Nat := t.scopes.size

/-- The node of a number. -/
def node? (t : Tree) (id : NodeId) : Option Node := t.nodes[id]?

/-- The scope of a number. -/
def scope? (t : Tree) (id : ScopeId) : Option Scope := t.scopes[id]?

/-! ## Ancestors

A parent has a smaller number than its children, so the number of a node bounds its chain. -/

/-- At most `bound` ancestors of a node, nearest first. -/
def ancestorsWithin (t : Tree) : Nat → NodeId → List NodeId
  | 0, _ => []
  | bound + 1, id =>
    match (t.node? id).bind Node.parent with
    | none => []
    | some p => p :: t.ancestorsWithin bound p

/-- The ancestors of a node, nearest first. -/
def ancestors (t : Tree) (id : NodeId) : List NodeId := t.ancestorsWithin id id

/-! ## Extending a tree -/

/-- Wraps the children of node `id`, which stands at `depth`, and remembers them. Their numbers
follow each other. -/
def adopt (t : Tree) (id : NodeId) (depth : Nat) (sources : List SyntaxNode) :
    List NodeId × Tree :=
  let ids := List.range' t.nodes.size sources.length
  let added := sources.map fun source => Node.wrap source (some id) (depth + 1)
  let nodes := t.nodes ++ added.toArray
  (ids, { t with nodes := nodes.modify id fun n => { n with children := some ids } })

/-- Remembers the nodes below node `id`. -/
def rememberDescendants (t : Tree) (id : NodeId) (below : List NodeId) : Tree :=
  { t with nodes := t.nodes.modify id fun n => { n with descendants := some below } }

/-- Remembers the scope of node `id`. -/
def rememberScope (t : Tree) (id : NodeId) (scope : ScopeId) : Tree :=
  { t with nodes := t.nodes.modify id fun n => { n with scope := some scope } }

/-- Opens the scope that node `id` introduces. -/
def openScope (t : Tree) (id : NodeId) (kind : Kind) : ScopeId × Tree :=
  let scope := t.scopes.size
  (scope, { t with scopes := t.scopes.push { node := id, kind } }.rememberScope id scope)

/-- Remembers the names declared in a scope. -/
def rememberNames (t : Tree) (id : ScopeId) (names : List String) : Tree :=
  { t with scopes := t.scopes.modify id fun s => { s with names := some names } }

/-! ### What an extension shows

A number of the tree shows what it showed before, but for the one field that was filled. -/

theorem node?_rememberDescendants (t : Tree) (id i : NodeId) (below : List NodeId) :
    (t.rememberDescendants id below).node? i =
      if id = i then (t.node? i).map fun n => { n with descendants := some below }
      else t.node? i :=
  Array.getElem?_modify

theorem node?_rememberScope (t : Tree) (id i : NodeId) (scope : ScopeId) :
    (t.rememberScope id scope).node? i =
      if id = i then (t.node? i).map fun n => { n with scope := some scope } else t.node? i :=
  Array.getElem?_modify

theorem scope?_rememberNames (t : Tree) (id i : ScopeId) (names : List String) :
    (t.rememberNames id names).scope? i =
      if id = i then (t.scope? i).map fun s => { s with names := some names } else t.scope? i :=
  Array.getElem?_modify

theorem size_adopt (t : Tree) (id : NodeId) (depth : Nat) (sources : List SyntaxNode) :
    (t.adopt id depth sources).2.size = t.size + sources.length := by
  simp [adopt, size]

theorem node?_adopt_of_lt {t : Tree} {i : NodeId} (h : i < t.size) (id : NodeId) (depth : Nat)
    (sources : List SyntaxNode) :
    (t.adopt id depth sources).2.node? i =
      if id = i then
        (t.node? i).map fun n => { n with children := some (t.adopt id depth sources).1 }
      else t.node? i := by
  simp only [adopt, node?, Array.getElem?_modify]
  rw [Array.getElem?_append_left h]

/-! ## Looking up in a query -/

/-- The node of a number; it has to be wrapped already. -/
def nodeAt (id : NodeId) : Query Node := do
  match (← get).node? id with
  | some node => return node
  | none => throw (.noNode id)

/-- The scope of a number; it has to be open already. -/
def scopeAt (id : ScopeId) : Query Scope := do
  match (← get).scope? id with
  | some scope => return scope
  | none => throw (.noScope id)

end Tree

end LexicalScope
