import LexicalScope.Tree.Basic

set_option autoImplicit false

/-! # Children and descendants in a tree

`Tree.children` wraps the children of a node when they are first asked for. `Tree.descendants`
walks the nodes below a node in pre-order with a stack of its own, wrapping as it goes; a subtree
whose nodes are known already is taken over whole. `Tree.chainAt` goes down from the root to the
innermost node under a source offset.

Both walks carry a bound on their turns, from the number of objects in the document part that
they walk. It is never used up: every turn visits another object.
-/

namespace LexicalScope

namespace Tree

/-- The children of a node, in order. A node that has a fault remembers nothing. -/
def children (id : NodeId) : Query (List NodeId) := do
  let node ← nodeAt id
  match node.children with
  | some ids => return ids
  | none =>
    match node.source.children with
    | .error fault => throw (.fault fault)
    | .ok sources => modifyGet fun t => t.adopt id node.depth sources

/-! ## The walk -/

/-- A walk under way: the nodes still to be visited, next one first, and those visited. -/
structure Walk where
  pending : List NodeId
  visited : Array NodeId

/-- One turn of the walk visits the next node. Its children come before what was pending, unless
the nodes below it are known already. -/
def Walk.step (w : Walk) : Query Walk :=
  match w.pending with
  | [] => return w
  | id :: rest => do
    let node ← nodeAt id
    match node.descendants with
    | some below => return { pending := rest, visited := w.visited.push id ++ below.toArray }
    | none =>
      let ids ← children id
      return { pending := ids ++ rest, visited := w.visited.push id }

/-- The nodes visited when nothing is pending any more, or after `bound` turns. -/
def Walk.run : Nat → Walk → Query (List NodeId)
  | 0, w => return w.visited.toList
  | bound + 1, w =>
    if w.pending.isEmpty then return w.visited.toList
    else do
      let w ← w.step
      w.run bound

/-- The nodes below a node, in pre-order. -/
def descendants (id : NodeId) : Query (List NodeId) := do
  let node ← nodeAt id
  match node.descendants with
  | some below => return below
  | none =>
    let ids ← children id
    let below ← Walk.run node.source.objectCount { pending := ids, visited := #[] }
    modify fun t => t.rememberDescendants id below
    return below

/-- The nodes of a kind below a node, in pre-order. -/
def descendantsOfKind (id : NodeId) (kind : Kind) : Query (List NodeId) := do
  let below ← descendants id
  let t ← get
  return below.filter fun d => (t.node? d).bind Node.kind == some kind

/-! ## The chain under an offset -/

/-- Whether the node has a span that covers the offset. -/
def covers (t : Tree) (offset : UInt64) (id : NodeId) : Bool :=
  ((t.node? id).bind fun n => n.source.span?).any fun s => s.contains offset

/-- The chain from a node down, each node followed by its first child that covers the offset. -/
def chainFrom (offset : UInt64) : Nat → NodeId → Query (List NodeId)
  | 0, id => return [id]
  | bound + 1, id => do
    let ids ← children id
    match ids.find? ((← get).covers offset) with
    | none => return [id]
    | some next =>
      let chain ← chainFrom offset bound next
      return id :: chain

/-- The chain of nodes under an offset, from the root to the innermost. It is empty when the
root has a span that does not cover the offset; a root without a span is always in it. -/
def chainAt (offset : UInt64) : Query (List NodeId) := do
  let node ← nodeAt root
  if node.source.span?.all fun s => s.contains offset then
    chainFrom offset (node.source.objectCount + 1) root
  else
    return []

end Tree

end LexicalScope
