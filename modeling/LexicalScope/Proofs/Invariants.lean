import LexicalScope.Proofs.Questions

set_option autoImplicit false

/-! # What holds in every reachable tree

The agreement of a tree with its document, `Tree.Sound`, is stated so that moves keep it. Here it
is put in terms of what a reader of a tree sees, about all nodes and all scopes at once:

* `Reachable.arena_consistent`: the wrapped nodes, their parents and remembered lists;
* `Reachable.scopes_consistent`: the opened scopes, the remembered ones and their names.
-/

namespace LexicalScope

namespace Tree

variable {d : SyntaxNode} {t : Tree}

/-! ## The arena -/

/-- **The wrapped nodes fit together and fit the document.** -/
structure ArenaConsistent (d : SyntaxNode) (t : Tree) : Prop where
  /-- Number 0 wraps the document, without a parent and at depth 0. -/
  root : ∃ n, t.node? 0 = some n ∧ n.source = d ∧ n.parent = none ∧ n.depth = 0
  /-- Every other node has an earlier parent, is listed once among its remembered children and
  stands one deeper. -/
  parent : ∀ i n, t.node? i = some n → i ≠ 0 →
    ∃ p m ids, n.parent = some p ∧ p < i ∧ t.node? p = some m ∧ m.children = some ids ∧
      ids.count i = 1 ∧ n.depth = m.depth + 1
  /-- Remembered children are a run of numbers that wrap the children in the document, in order
  and number. -/
  children : ∀ i n ids, t.node? i = some n → n.children = some ids →
    ∃ cs first, n.source.children = .ok cs ∧ ids = List.range' first cs.length ∧
      ids.map (fun j => (t.node? j).map Node.source) = cs.map some
  /-- The kind of a node is the one that its `type` names. -/
  kind : ∀ i n, t.node? i = some n → n.kind = n.source.typeName?.bind Kind.ofName?
  /-- A node wraps the value at its position. -/
  value : ∀ i n, t.node? i = some n → d.valueAt? (t.position i) = some n.source
  /-- No two nodes have the same position. -/
  distinct : ∀ i j, i < t.size → j < t.size → t.position i = t.position j → i = j
  /-- Remembered descendants are the pre-order flattening of remembered children, which every
  node of the subtree has. -/
  descendants : ∀ i n below, t.node? i = some n → n.descendants = some below → t.Below i below

/-- The nodes of remembered children wrap the children in the document. -/
theorem Mirrors.map_source_children (h : t.Mirrors d) {i : NodeId} {n : Node} {ids : List NodeId}
    (hn : t.node? i = some n) (hids : n.children = some ids) :
    ∃ cs first, n.source.children = .ok cs ∧ ids = List.range' first cs.length ∧
      ids.map (fun j => (t.node? j).map Node.source) = cs.map some := by
  obtain ⟨cs, first, hcs, rfl, hnodes⟩ := h.children hn hids
  refine ⟨cs, first, hcs, rfl, ?_⟩
  refine List.ext_getElem (by simp) fun k hk hk' => ?_
  rw [List.length_map] at hk'
  obtain ⟨m, hm, hsrc, -⟩ := hnodes k cs[k] (List.getElem?_eq_getElem hk')
  simp [hm, hsrc]

/-- A node is listed once among the children of its parent. -/
theorem Mirrors.count_children (h : t.Mirrors d) {i : NodeId} {n : Node}
    (hn : t.node? i = some n) (hi : i ≠ 0) :
    ∃ p m ids, n.parent = some p ∧ p < i ∧ t.node? p = some m ∧ m.children = some ids ∧
      ids.count i = 1 ∧ n.depth = m.depth + 1 := by
  obtain ⟨p, m, ids, hpar, hlt, hm, hids, hmem, hdepth⟩ := h.parent hn hi
  exact ⟨p, m, ids, hpar, hlt, hm, hids,
    List.count_eq_one_of_mem (h.nodup_children hm hids) hmem, hdepth⟩

end Tree

/-- **The arena invariant**, in every tree that questions lead to. -/
theorem Reachable.arena_consistent {d : SyntaxNode} {t : Tree} (h : Reachable d t) :
    t.ArenaConsistent d where
  root := h.sound.arena.root
  parent _ _ hn hi := h.sound.arena.count_children hn hi
  children _ _ _ hn hids := h.sound.arena.map_source_children hn hids
  kind _ _ hn := h.sound.arena.kind hn
  value _ _ hn := (h.sound.arena.stands_position hn).valueAt? h.sound.arena hn
  distinct _ _ hi hj heq := h.sound.arena.position_inj hi hj heq
  descendants _ _ _ hn hbelow := h.sound.arena.descendants hn hbelow

/-- A tree in which the function has been looked at before the variable. -/
theorem Sample.arena_consistent_explored :
    Reachable Sample.program Sample.explored ∧ Sample.explored.size = 7 ∧
      Sample.explored.ArenaConsistent Sample.program :=
  ⟨Sample.reachable_explored, by decide +kernel,
    Reachable.arena_consistent Sample.reachable_explored⟩

namespace Tree

variable {d : SyntaxNode} {t : Tree}

/-! ## The scopes -/

/-- **The opened scopes and what is remembered of them fit the tree and the document.** -/
structure ScopesConsistent (d : SyntaxNode) (t : Tree) : Prop where
  /-- A scope names a node of its kind that introduces scopes and remembers this one. -/
  record : ∀ s r, t.scope? s = some r → r.kind.introducesScope = true ∧
    ∃ n, t.node? r.node = some n ∧ n.kind = some r.kind ∧ n.scope = some s
  /-- No two scopes name the same node. -/
  distinct : ∀ s s' r r', t.scope? s = some r → t.scope? s' = some r' → r.node = r'.node → s = s'
  /-- On the way from a node that remembers a scope up to the root, the node of this scope is the
  first that introduces one, and all nodes up to there remember the scope. -/
  nearest : ∀ i n s, t.node? i = some n → n.scope = some s →
    ∃ r below above, t.scope? s = some r ∧ i :: t.ancestors i = below ++ r.node :: above ∧
      ∀ j ∈ below, ∃ m, t.node? j = some m ∧ m.kind.any Kind.introducesScope = false ∧
        m.scope = some s
  /-- A node of unsupported kind remembers no scope. -/
  unsupported : ∀ i n, t.node? i = some n → n.kind = none → n.scope = none
  /-- Collected names are those that the document declares in the scope. -/
  names : ∀ s r l, t.scope? s = some r → r.names = some l → l = d.names (t.position r.node)

/-- **A remembered scope is that of the nearest node above that introduces one.** -/
theorem HasScope.nearest (h : t.Sound d) {i : NodeId} {s : ScopeId} (hs : t.HasScope i s) :
    ∃ r below above, t.scope? s = some r ∧ i :: t.ancestors i = below ++ r.node :: above ∧
      ∀ j ∈ below, ∃ m, t.node? j = some m ∧ m.kind.any Kind.introducesScope = false ∧
        m.scope = some s := by
  -- the parent, from which the scope is taken over, has a smaller number
  induction i using Nat.strongRecOn with
  | _ i ih =>
      obtain ⟨n, hn, hscope⟩ := hs
      obtain ⟨k, hk, ⟨-, r, hr, rfl⟩ | ⟨hnot, p, hpar, hp⟩⟩ := h.scopes.cached hn hscope
      · exact ⟨r, [], t.ancestors r.node, hr, rfl, by simp⟩
      · obtain ⟨r, below, above, hr, hpath, hall⟩ := ih p (h.arena.parent_lt hn hpar) hp
        refine ⟨r, i :: below, above, hr, ?_, ?_⟩
        · rw [h.arena.ancestors_of_parent hn hpar, hpath, List.cons_append]
        · refine List.forall_mem_cons.mpr ⟨⟨n, hn, ?_, hscope⟩, hall⟩
          rw [hk, Option.any_some, hnot]

theorem Scoped.scope_of_unsupported (h : t.Scoped d) {i : NodeId} {n : Node}
    (hn : t.node? i = some n) (hk : n.kind = none) : n.scope = none := by
  cases hs : n.scope with
  | none => rfl
  | some s =>
      obtain ⟨k, hk', -⟩ := h.cached hn hs
      rw [hk] at hk'
      cases hk'

theorem Sound.names_eq (h : t.Sound d) {s : ScopeId} {r : Scope} {l : List String}
    (hr : t.scope? s = some r) (hl : r.names = some l) : l = d.names (t.position r.node) := by
  obtain ⟨-, n, hn, -⟩ := h.scopes.record hr
  exact ((h.scopes.names hr hl).eq_names h.arena (h.arena.stands_position hn)).1

end Tree

/-- **The invariant of the scope table**, in every tree that questions lead to. -/
theorem Reachable.scopes_consistent {d : SyntaxNode} {t : Tree} (h : Reachable d t) :
    t.ScopesConsistent d where
  record _ _ hr := h.sound.scopes.record hr
  distinct _ _ _ _ hr hr' heq := h.sound.scopes.scope_inj hr hr' heq
  nearest _ n _ hn hs := Tree.HasScope.nearest h.sound ⟨n, hn, hs⟩
  unsupported _ _ hn hk := h.sound.scopes.scope_of_unsupported hn hk
  names _ _ _ hr hl := h.sound.names_eq hr hl

/-- A tree in which both scopes are open. -/
theorem Sample.scopes_consistent_explored :
    Reachable Sample.program Sample.explored ∧ Sample.explored.scopeCount = 2 ∧
      Sample.explored.ScopesConsistent Sample.program :=
  ⟨Sample.reachable_explored, by decide +kernel,
    Reachable.scopes_consistent Sample.reachable_explored⟩

end LexicalScope
