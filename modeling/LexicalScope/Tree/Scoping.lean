import LexicalScope.Tree.Traversal

set_option autoImplicit false

/-! # Scopes in a tree

The scope of a node is introduced by the nearest node from it up to the root whose kind
introduces one. A scope is opened when a node in it is first asked for, and every node on the
way up remembers the answer.

A name belongs to the scope of the *parent* of the node that declares it: the name of a function
is declared around the function, and the names in its body inside it.
-/

namespace LexicalScope

namespace Tree

/-- Where the way up from a node ends. -/
inductive Landing where
  /-- At a node whose scope is known. -/
  | known (scope : ScopeId)
  /-- At a node that introduces a scope not opened yet. -/
  | introduces (id : NodeId) (kind : Kind)

/-- The fault of a document without a scope at its root. -/
def unscoped (t : Tree) : QueryError :=
  match t.node? root with
  | some node => .fault (.noEnclosingScope node.source.digest)
  | none => .noNode root

/-- Climbs from a node to where its scope is decided, in at most `bound` steps, and lists the
nodes passed. A node of unsupported kind stops the climb: it cannot be told whether it
introduces a scope. -/
def climb (t : Tree) : Nat → NodeId → List NodeId → Except QueryError (Landing × List NodeId)
  | 0, _, _ => .error t.unscoped
  | bound + 1, id, passed =>
    match t.node? id with
    | none => .error (.noNode id)
    | some node =>
      match node.scope with
      | some scope => .ok (.known scope, passed)
      | none =>
        match node.kind with
        | none => .error (.fault node.source.unsupported)
        | some kind =>
          if kind.introducesScope then .ok (.introduces id kind, passed)
          else
            match node.parent with
            | none => .error t.unscoped
            | some p => t.climb bound p (id :: passed)

/-- The scope at a landing, opened if need be. -/
def land (t : Tree) : Landing → ScopeId × Tree
  | .known scope => (scope, t)
  | .introduces id kind => t.openScope id kind

/-- The scope of a node. The climb takes at most as many steps as the node has predecessors. -/
def scopeOf (id : NodeId) : Query ScopeId := do
  match (← get).climb (id + 1) id [] with
  | .error e => throw e
  | .ok (landing, passed) =>
    modifyGet fun t =>
      let (scope, t) := t.land landing
      (scope, passed.foldl (fun t n => t.rememberScope n scope) t)

/-- The scope around a scope; the scope of the root has none. -/
def outerScope (id : ScopeId) : Query (Option ScopeId) := do
  let scope ← scopeAt id
  let node ← nodeAt scope.node
  match node.parent with
  | none => return none
  | some p => some <$> scopeOf p

/-! ## Declared names -/

/-- The name that a node declares in a scope, if it declares one there. -/
def nameIn (id : ScopeId) (d : NodeId) : Query (Option String) := do
  let node ← nodeAt d
  match node.parent with
  | none => return none
  | some p =>
    let scope ← scopeOf p
    return if scope = id then node.source.declaredName? else none

/-- Adds the names that the listed nodes declare in a scope. -/
def collectNames (id : ScopeId) : List NodeId → Array String → Query (Array String)
  | [], names => return names
  | d :: rest, names => do
    let name ← nameIn id d
    collectNames id rest (names ++ name.toArray)

/-- The names declared in a scope, in the order of the document; a name that is declared twice
is listed twice. -/
def declaredNames (id : ScopeId) : Query (List String) := do
  let scope ← scopeAt id
  match scope.names with
  | some names => return names
  | none =>
    let below ← descendants scope.node
    let names ← collectNames id below #[]
    modify fun t => t.rememberNames id names.toList
    return names.toList

/-! ## All scopes -/

/-- Adds the scopes that the listed nodes introduce. -/
def collectScopes : List NodeId → Array ScopeId → Query (Array ScopeId)
  | [], scopes => return scopes
  | d :: rest, scopes => do
    let node ← nodeAt d
    if node.kind.any Kind.introducesScope then
      let scope ← scopeOf d
      collectScopes rest (scopes.push scope)
    else
      collectScopes rest scopes

/-- All scopes of the document, in the order of the nodes that introduce them. -/
def allScopes : Query (List ScopeId) := do
  let outermost ← scopeOf root
  let below ← descendants root
  let scopes ← collectScopes below #[outermost]
  return scopes.toList

end Tree

end LexicalScope
