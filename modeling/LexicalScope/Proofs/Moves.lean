import LexicalScope.Proofs.ScopeTable
import Mathlib.Logic.Relation

set_option autoImplicit false

/-! # What a question can do to a tree

Every question changes a tree by a sequence of five moves: wrapping the children of a node,
remembering what is below a node, opening the scope that a node introduces, taking over the scope
of the parent, and remembering the names of a scope. `Tree.Move` gives each with the condition
under which it is made; nothing is ever remembered twice with different contents. What the moves
keep, every question keeps, whether it succeeds or fails.

* `Moves.extends`: a tree only grows.
* `Sound.moves`: `Tree.Sound`, that the tree agrees with the document, is kept.
-/

namespace LexicalScope

namespace Tree

/-- One move in a tree over the document `d`. -/
inductive Move (d : SyntaxNode) (t : Tree) : Tree → Prop
  /-- The children of a node without a fault are wrapped. -/
  | expand {i : NodeId} {n : Node} {cs : List SyntaxNode} :
      t.node? i = some n → n.children = none → n.source.children = .ok cs →
      Move d t (t.adopt i n.depth cs).2
  /-- What is below a node is remembered, once all of it is wrapped. -/
  | recordDescendants {i : NodeId} {n : Node} {below : List NodeId} :
      t.node? i = some n → (∀ ids, n.descendants = some ids → ids = below) → t.Below i below →
      Move d t (t.rememberDescendants i below)
  /-- A node that introduces a scope opens it. -/
  | openScope {i : NodeId} {n : Node} {k : Kind} :
      t.node? i = some n → n.scope = none → n.kind = some k → k.introducesScope = true →
      Move d t (t.openScope i k).2
  /-- A node that introduces none takes over the scope that its parent remembers. -/
  | inheritScope {i p : NodeId} {n : Node} {k : Kind} {s : ScopeId} :
      t.node? i = some n → (∀ s', n.scope = some s' → s' = s) → n.kind = some k →
      k.introducesScope = false → n.parent = some p → t.HasScope p s →
      Move d t (t.rememberScope i s)
  /-- The names of a scope are remembered, once all that is below its node is wrapped. -/
  | recordNames {s : ScopeId} {r : Scope} {p : Position} {below : List NodeId} :
      t.scope? s = some r → (∀ l, r.names = some l → l = d.names p) → t.Stands r.node p →
      t.Below r.node below → Move d t (t.rememberNames s (d.names p))

/-- A sequence of moves. -/
abbrev Moves (d : SyntaxNode) : Tree → Tree → Prop := Relation.ReflTransGen (Move d)

/-! ## What a move leaves as it was

A move changes one node or one scope. These lemmas read a node of the tree after the move back
to the tree before it. -/

variable {d : SyntaxNode} {t t' : Tree}

theorem node_of_modified {id : NodeId} {f : Node → Node}
    (h : ∀ i, t'.node? i = if id = i then (t.node? i).map f else t.node? i) {i : NodeId}
    {n' : Node} (hn : t'.node? i = some n') :
    ∃ n, t.node? i = some n ∧ (id = i ∧ n' = f n ∨ n' = n) := by
  rw [h i] at hn
  by_cases hi : id = i
  · rw [if_pos hi] at hn
    obtain ⟨n, hn₀, rfl⟩ := Option.map_eq_some_iff.mp hn
    exact ⟨n, hn₀, Or.inl ⟨hi, rfl⟩⟩
  · rw [if_neg hi] at hn
    exact ⟨n', hn, Or.inr rfl⟩

theorem Extends.of_modified {id : NodeId} {n₀ : Node} {f : Node → Node}
    (h : ∀ i, t'.node? i = if id = i then (t.node? i).map f else t.node? i)
    (hid : t.node? id = some n₀) (hkeep : n₀.Keeps (f n₀))
    (hscope : ∀ {s r}, t.scope? s = some r → t'.scope? s = some r) : t.Extends t' where
  node := by
    intro i n hn
    by_cases hi : id = i
    · subst hi
      rw [hid] at hn
      cases hn
      exact ⟨f n₀, by rw [h, if_pos rfl, hid]; rfl, hkeep⟩
    · exact ⟨n, by rw [h, if_neg hi, hn], .refl n⟩
  scope hr := ⟨_, hscope hr, .refl _⟩

/-! ### Wrapping children -/

/-- The node of a number when the children of node `id` have been wrapped, before the node
remembers them: a node from before, or a child. -/
def wrapped? (t : Tree) (id : NodeId) (depth : Nat) (cs : List SyntaxNode) (i : NodeId) :
    Option Node :=
  if i < t.size then t.node? i
  else cs[i - t.size]?.map fun c => Node.wrap c (some id) (depth + 1)

theorem node?_adopt (t : Tree) (id i : NodeId) (depth : Nat) (cs : List SyntaxNode) :
    (t.adopt id depth cs).2.node? i =
      if id = i then
        (t.wrapped? id depth cs i).map fun n =>
          { n with children := some (t.adopt id depth cs).1 }
      else t.wrapped? id depth cs i := by
  have hadded : t.wrapped? id depth cs i =
      (t.nodes ++ (cs.map fun c => Node.wrap c (some id) (depth + 1)).toArray)[i]? := by
    simp only [Array.getElem?_append, List.getElem?_toArray, List.getElem?_map]
    rfl
  rw [hadded]
  exact Array.getElem?_modify

theorem node?_adopt_new {id : NodeId} {depth k : Nat} {cs : List SyntaxNode} {c : SyntaxNode}
    (hid : id < t.size) (hc : cs[k]? = some c) :
    (t.adopt id depth cs).2.node? (t.size + k) = some (Node.wrap c (some id) (depth + 1)) := by
  have hne : id ≠ t.size + k := Nat.ne_of_lt (Nat.lt_of_lt_of_le hid (Nat.le_add_right _ _))
  simp only [adopt, node?, Array.getElem?_modify]
  rw [if_neg hne, size, Array.getElem?_append_right (Nat.le_add_right _ _)]
  simp [hc]

/-- A node after wrapping children was there before, or it is one of the children. -/
theorem node_of_adopt {id : NodeId} {depth : Nat} {cs : List SyntaxNode} (hid : id < t.size)
    {i : NodeId} {n' : Node} (hn : (t.adopt id depth cs).2.node? i = some n') :
    (∃ n, t.node? i = some n ∧
      (id = i ∧ n' = { n with children := some (List.range' t.size cs.length) } ∨ n' = n)) ∨
    ∃ k c, i = t.size + k ∧ cs[k]? = some c ∧ n' = Node.wrap c (some id) (depth + 1) := by
  by_cases hi : i < t.size
  · left
    rw [node?_adopt_of_lt hi] at hn
    by_cases he : id = i
    · rw [if_pos he] at hn
      obtain ⟨n, hn₀, rfl⟩ := Option.map_eq_some_iff.mp hn
      exact ⟨n, hn₀, Or.inl ⟨he, rfl⟩⟩
    · rw [if_neg he] at hn
      exact ⟨n', hn, Or.inr rfl⟩
  · right
    have hlt := lt_size_of_node? hn
    rw [size_adopt] at hlt
    have hle : t.size ≤ i := Nat.le_of_not_lt hi
    have hk : i - t.size < cs.length := Nat.sub_lt_left_of_lt_add hle hlt
    have hc : cs[i - t.size]? = some cs[i - t.size] := List.getElem?_eq_getElem hk
    have hnew : (t.adopt id depth cs).2.node? (t.size + (i - t.size)) = some _ :=
      node?_adopt_new hid hc
    rw [Nat.add_sub_cancel' hle, hn] at hnew
    exact ⟨i - t.size, _, (Nat.add_sub_cancel' hle).symm, hc, Option.some.inj hnew⟩

theorem node?_adopt_self {id : NodeId} {n : Node} (hn : t.node? id = some n)
    (cs : List SyntaxNode) :
    (t.adopt id n.depth cs).2.node? id
      = some { n with children := some (List.range' t.size cs.length) } := by
  rw [node?_adopt_of_lt (lt_size_of_node? hn), if_pos rfl, hn]
  rfl

theorem extends_adopt {id : NodeId} {n : Node} (hn : t.node? id = some n)
    (hnone : n.children = none) (cs : List SyntaxNode) :
    t.Extends (t.adopt id n.depth cs).2 where
  node := by
    intro i m hm
    by_cases hi : id = i
    · subst hi
      rw [hn] at hm
      cases hm
      refine ⟨_, node?_adopt_self hn cs, ⟨rfl, rfl, rfl, rfl, ?_, fun _ h => h, fun _ h => h⟩⟩
      intro ids hids
      rw [hnone] at hids
      cases hids
    · exact ⟨m, by rw [node?_adopt_of_lt (lt_size_of_node? hm), if_neg hi, hm], .refl m⟩
  scope hr := ⟨_, hr, .refl _⟩

/-! ### Opening scopes and remembering -/

theorem node?_openScope (t : Tree) (id i : NodeId) (k : Kind) :
    (t.openScope id k).2.node? i =
      if id = i then (t.node? i).map fun n => { n with scope := some t.scopes.size }
      else t.node? i :=
  node?_rememberScope t id i t.scopes.size

theorem scope?_openScope_of_some {id : NodeId} {k : Kind} {s : ScopeId} {r : Scope}
    (hr : t.scope? s = some r) : (t.openScope id k).2.scope? s = some r := by
  have hlt := (Array.getElem?_eq_some_iff.mp hr).1
  show (t.scopes.push _)[s]? = some r
  rw [Array.getElem?_push_lt hlt, ← hr, scope?, Array.getElem?_eq_getElem hlt]

theorem scope?_openScope_new (t : Tree) (id : NodeId) (k : Kind) :
    (t.openScope id k).2.scope? t.scopes.size = some { node := id, kind := k } :=
  Array.getElem?_push_size

/-- A scope after opening one was there before, or it is the new one. -/
theorem scope_of_openScope {id : NodeId} {k : Kind} {s : ScopeId} {r : Scope}
    (hr : (t.openScope id k).2.scope? s = some r) :
    t.scope? s = some r ∨ s = t.scopes.size ∧ r = { node := id, kind := k } := by
  have hpush : (t.scopes.push { node := id, kind := k })[s]? = some r := hr
  rw [Array.getElem?_push] at hpush
  split at hpush
  · next he => exact Or.inr ⟨he, (Option.some.inj hpush).symm⟩
  · exact Or.inl hpush

theorem scope_of_rememberNames {id s : ScopeId} {names : List String} {r' : Scope}
    (hr : (t.rememberNames id names).scope? s = some r') :
    ∃ r, t.scope? s = some r ∧ (id = s ∧ r' = { r with names := some names } ∨ r' = r) := by
  rw [scope?_rememberNames] at hr
  by_cases hs : id = s
  · rw [if_pos hs] at hr
    obtain ⟨r, hr₀, rfl⟩ := Option.map_eq_some_iff.mp hr
    exact ⟨r, hr₀, Or.inl ⟨hs, rfl⟩⟩
  · rw [if_neg hs] at hr
    exact ⟨r', hr, Or.inr rfl⟩

/-! ## A tree only grows -/

/-- **A move shows all that was shown before.** -/
theorem Move.extends (h : Move d t t') : t.Extends t' := by
  cases h with
  | expand hn hnone hcs => exact extends_adopt hn hnone _
  | recordDescendants hn hsame hbelow =>
      refine .of_modified (fun i => node?_rememberDescendants t _ i _) hn ?_ fun hr => hr
      refine ⟨rfl, rfl, rfl, rfl, fun _ h => h, ?_, fun _ h => h⟩
      intro ids hids
      rw [hsame ids hids]
  | openScope hn hnone hk hintro =>
      refine .of_modified (fun i => node?_openScope t _ i _) hn ?_ scope?_openScope_of_some
      refine ⟨rfl, rfl, rfl, rfl, fun _ h => h, fun _ h => h, ?_⟩
      intro s hs
      rw [hnone] at hs
      cases hs
  | inheritScope hn hsame hk hintro hpar hscope =>
      refine .of_modified (fun i => node?_rememberScope t _ i _) hn ?_ fun hr => hr
      refine ⟨rfl, rfl, rfl, rfl, fun _ h => h, fun _ h => h, ?_⟩
      intro s' hs'
      rw [hsame s' hs']
  | @recordNames s r p below hr hsame hp hbelow =>
      refine ⟨fun hn => ⟨_, hn, .refl _⟩, ?_⟩
      intro s' r' hr'
      by_cases hs : s = s'
      · subst hs
        rw [hr] at hr'
        cases hr'
        refine ⟨{ r with names := some (d.names p) }, ?_, rfl, rfl, ?_⟩
        · rw [scope?_rememberNames, if_pos rfl, hr]
          rfl
        · intro l hl
          rw [hsame l hl]
      · exact ⟨r', by rw [scope?_rememberNames, if_neg hs, hr'], .refl r'⟩

theorem Moves.extends (h : Moves d t t') : t.Extends t' := by
  induction h with
  | refl => exact .refl t
  | tail _ hmove ih => exact ih.trans hmove.extends

/-! ## The invariants are kept -/

/-- A move that wraps nothing keeps the arena, if the descendants it remembers are right. -/
theorem Mirrors.of_extends (h : t.Mirrors d) (hx : t.Extends t')
    (hback : ∀ {i n'}, t'.node? i = some n' → ∃ n, t.node? i = some n ∧ n.Keeps n' ∧
      n'.children = n.children ∧
      ∀ below, n'.descendants = some below → n.descendants = some below ∨ t.Below i below) :
    t'.Mirrors d where
  root := by
    obtain ⟨n, hn, hsrc, hpar, hdepth⟩ := h.root
    obtain ⟨n', hn', hk⟩ := hx.node hn
    exact ⟨n', hn', hk.source.trans hsrc, hk.parent.trans hpar, hk.depth.trans hdepth⟩
  parent := by
    intro i n' hn' hi
    obtain ⟨n, hn, hk, -⟩ := hback hn'
    obtain ⟨p, m, ids, hpar, hlt, hm, hids, hmem, hdepth⟩ := h.parent hn hi
    obtain ⟨m', hm', hkm⟩ := hx.node hm
    refine ⟨p, m', ids, hk.parent.trans hpar, hlt, hm', hkm.children _ hids, hmem, ?_⟩
    rw [hk.depth, hkm.depth, hdepth]
  children := by
    intro i n' ids hn' hids
    obtain ⟨n, hn, hk, hsame, -⟩ := hback hn'
    obtain ⟨cs, first, hcs, hrange, hnodes⟩ := h.children hn (hsame ▸ hids)
    refine ⟨cs, first, by rw [hk.source, hcs], hrange, ?_⟩
    intro k c hc
    obtain ⟨m, hm, hsrc, hpar⟩ := hnodes k c hc
    obtain ⟨m', hm', hkm⟩ := hx.node hm
    exact ⟨m', hm', hkm.source.trans hsrc, hkm.parent.trans hpar⟩
  kind := by
    intro i n' hn'
    obtain ⟨n, hn, hk, -⟩ := hback hn'
    rw [hk.kind, hk.source, h.kind hn]
  descendants := by
    intro i n' below hn' hbelow
    obtain ⟨n, hn, -, -, hdesc⟩ := hback hn'
    rcases hdesc below hbelow with hold | hnew
    · exact (h.descendants hn hold).extend hx
    · exact hnew.extend hx

/-- The same for a move that changes one node. -/
theorem Mirrors.of_modified (h : t.Mirrors d) (hx : t.Extends t') {id : NodeId} {f : Node → Node}
    (heq : ∀ i, t'.node? i = if id = i then (t.node? i).map f else t.node? i)
    (hchildren : ∀ n, (f n).children = n.children)
    (hdesc : ∀ n below, (f n).descendants = some below →
      n.descendants = some below ∨ t.Below id below) : t'.Mirrors d := by
  refine h.of_extends hx ?_
  intro i n' hn'
  obtain ⟨n, hn, hcases⟩ := node_of_modified heq hn'
  obtain ⟨n'', hn'', hk⟩ := hx.node hn
  rw [hn'] at hn''
  cases hn''
  refine ⟨n, hn, hk, ?_⟩
  rcases hcases with ⟨rfl, rfl⟩ | rfl
  · exact ⟨hchildren n, hdesc n⟩
  · exact ⟨rfl, fun below hb => Or.inl hb⟩

theorem Mirrors.adopt (h : t.Mirrors d) {id : NodeId} {n : Node} {cs : List SyntaxNode}
    (hn : t.node? id = some n) (hnone : n.children = none) (hcs : n.source.children = .ok cs) :
    (t.adopt id n.depth cs).2.Mirrors d := by
  have hx := extends_adopt hn hnone cs
  have hid := lt_size_of_node? hn
  have hself := node?_adopt_self hn cs
  refine ⟨?_, ?_, ?_, ?_, ?_⟩
  · obtain ⟨m, hm, hsrc, hpar, hdepth⟩ := h.root
    obtain ⟨m', hm', hk⟩ := hx.node hm
    exact ⟨m', hm', hk.source.trans hsrc, hk.parent.trans hpar, hk.depth.trans hdepth⟩
  · intro i n' hn' hi
    rcases node_of_adopt hid hn' with ⟨m, hm, hm'⟩ | ⟨k, c, rfl, hc, rfl⟩
    · -- an old node: its parent is old too and remembers the same children
      obtain ⟨p, q, ids, hpar, hlt, hq, hids, hmem, hdepth⟩ := h.parent hm hi
      obtain ⟨q', hq', hkq⟩ := hx.node hq
      have hsame : n'.parent = m.parent ∧ n'.depth = m.depth := by
        rcases hm' with ⟨-, rfl⟩ | rfl <;> exact ⟨rfl, rfl⟩
      refine ⟨p, q', ids, hsame.1.trans hpar, hlt, hq', hkq.children _ hids, hmem, ?_⟩
      rw [hsame.2, hkq.depth, hdepth]
    · have hk : k < cs.length := (List.getElem?_eq_some_iff.mp hc).1
      refine ⟨id, _, _, rfl, Nat.lt_of_lt_of_le hid (Nat.le_add_right _ _), hself, rfl, ?_, rfl⟩
      exact List.mem_range'_1.mpr ⟨Nat.le_add_right _ _, Nat.add_lt_add_left hk _⟩
  · intro i n' ids hn' hids
    rcases node_of_adopt hid hn' with ⟨m, hm, ⟨rfl, rfl⟩ | rfl⟩ | ⟨k, c, -, -, rfl⟩
    · -- the node itself: its children are the new ones
      rw [hn] at hm
      cases hm
      cases hids
      refine ⟨cs, t.size, hcs, rfl, ?_⟩
      intro k c hc
      exact ⟨_, node?_adopt_new hid hc, rfl, rfl⟩
    · obtain ⟨cs', first, hcs', hrange, hnodes⟩ := h.children hm hids
      refine ⟨cs', first, hcs', hrange, ?_⟩
      intro k c hc
      obtain ⟨q, hq, hsrc, hpar⟩ := hnodes k c hc
      obtain ⟨q', hq', hkq⟩ := hx.node hq
      exact ⟨q', hq', hkq.source.trans hsrc, hkq.parent.trans hpar⟩
    · cases hids
  · intro i n' hn'
    rcases node_of_adopt hid hn' with ⟨m, hm, ⟨-, rfl⟩ | rfl⟩ | ⟨k, c, -, -, rfl⟩
    · show m.kind = m.source.kind?
      exact h.kind hm
    · exact h.kind hm
    · rfl
  · intro i n' below hn' hbelow
    rcases node_of_adopt hid hn' with ⟨m, hm, ⟨-, rfl⟩ | rfl⟩ | ⟨k, c, -, -, rfl⟩
    · exact (h.descendants hm hbelow).extend hx
    · exact (h.descendants hm hbelow).extend hx
    · cases hbelow

/-- **A move keeps the arena a part of the document.** -/
theorem Mirrors.move (h : t.Mirrors d) (hmove : Move d t t') : t'.Mirrors d := by
  have hx := hmove.extends
  cases hmove with
  | expand hn hnone hcs => exact h.adopt hn hnone hcs
  | recordDescendants hn hsame hbelow =>
      refine h.of_modified hx (fun i => node?_rememberDescendants t _ i _) (fun _ => rfl) ?_
      intro n below hb
      cases hb
      exact Or.inr hbelow
  | openScope hn hnone hk hintro =>
      exact h.of_modified hx (fun i => node?_openScope t _ i _) (fun _ => rfl)
        fun n below hb => Or.inl hb
  | inheritScope hn hsame hk hintro hpar hscope =>
      exact h.of_modified hx (fun i => node?_rememberScope t _ i _) (fun _ => rfl)
        fun n below hb => Or.inl hb
  | recordNames hr hsame hp hbelow =>
      exact h.of_extends hx fun hn' => ⟨_, hn', .refl _, rfl, fun below hb => Or.inl hb⟩

/-- A move keeps the scope table, if what it adds to it is right. -/
theorem Scoped.of_extends (h : t.Scoped d) (hx : t.Extends t')
    (hrecord : ∀ {s r'}, t'.scope? s = some r' →
      (∃ r, t.scope? s = some r) ∨ t'.Introduced s r')
    (hcached : ∀ {i n' s}, t'.node? i = some n' → n'.scope = some s →
      (∃ n, t.node? i = some n ∧ n.scope = some s) ∨ t'.Resolved i n' s)
    (hnames : ∀ {s r' l}, t'.scope? s = some r' → r'.names = some l →
      (∃ r, t.scope? s = some r ∧ r.names = some l) ∨ Collected d t' r' l) :
    t'.Scoped d where
  record := by
    intro s r' hr'
    rcases hrecord hr' with ⟨r, hr⟩ | hnew
    · obtain ⟨r'', hr'', hkeep⟩ := hx.scope hr
      rw [hr'] at hr''
      cases hr''
      exact (h.record hr).extend hx hkeep
    · exact hnew
  cached := by
    intro i n' s hn' hs'
    rcases hcached hn' hs' with ⟨n, hn, hs⟩ | hnew
    · obtain ⟨n'', hn'', hkeep⟩ := hx.node hn
      rw [hn'] at hn''
      cases hn''
      exact (h.cached hn hs).extend hx hkeep
    · exact hnew
  names := by
    intro s r' l hr' hl'
    rcases hnames hr' hl' with ⟨r, hr, hl⟩ | hnew
    · obtain ⟨r'', hr'', hkeep⟩ := hx.scope hr
      rw [hr'] at hr''
      cases hr''
      exact (h.names hr hl).extend hx hkeep
    · exact hnew

/-- **A move keeps the scope table in agreement with the document.** -/
theorem Scoped.move (h : t.Scoped d) (hmove : Move d t t') : t'.Scoped d := by
  have hx := hmove.extends
  cases hmove with
  | expand hn hnone hcs =>
      refine h.of_extends hx (fun hr => Or.inl ⟨_, hr⟩) ?_ fun hr hl => Or.inl ⟨_, hr, hl⟩
      intro i n' s hn' hs'
      rcases node_of_adopt (lt_size_of_node? hn) hn' with ⟨m, hm, ⟨-, rfl⟩ | rfl⟩ | ⟨k, c, -, -, rfl⟩
      · exact Or.inl ⟨m, hm, hs'⟩
      · exact Or.inl ⟨_, hm, hs'⟩
      · cases hs'
  | recordDescendants hn hsame hbelow =>
      refine h.of_extends hx (fun hr => Or.inl ⟨_, hr⟩) ?_ fun hr hl => Or.inl ⟨_, hr, hl⟩
      intro i n' s hn' hs'
      obtain ⟨m, hm, ⟨-, rfl⟩ | rfl⟩ :=
        node_of_modified (fun i => node?_rememberDescendants t _ i _) hn'
      · exact Or.inl ⟨m, hm, hs'⟩
      · exact Or.inl ⟨_, hm, hs'⟩
  | @openScope i n k hn hnone hk hintro =>
      have hself : (t.openScope i k).2.node? i = some { n with scope := some t.scopes.size } := by
        rw [node?_openScope, if_pos rfl, hn]
        rfl
      refine h.of_extends hx ?_ ?_ ?_
      · intro s r' hr'
        rcases scope_of_openScope hr' with hr | ⟨rfl, rfl⟩
        · exact Or.inl ⟨_, hr⟩
        · exact Or.inr ⟨hintro, _, hself, hk, rfl⟩
      · intro j n' s hn' hs'
        obtain ⟨m, hm, ⟨rfl, rfl⟩ | rfl⟩ := node_of_modified (fun i => node?_openScope t _ i _) hn'
        · rw [hn] at hm
          cases hm
          cases hs'
          exact Or.inr ⟨k, hk, Or.inl ⟨hintro, _, scope?_openScope_new t i k, rfl⟩⟩
        · exact Or.inl ⟨_, hm, hs'⟩
      · intro s r' l hr' hl'
        rcases scope_of_openScope hr' with hr | ⟨rfl, rfl⟩
        · exact Or.inl ⟨_, hr, hl'⟩
        · cases hl'
  | @inheritScope i p n k s hn hsame hk hintro hpar hscope =>
      refine h.of_extends hx (fun hr => Or.inl ⟨_, hr⟩) ?_ fun hr hl => Or.inl ⟨_, hr, hl⟩
      intro j n' s' hn' hs'
      obtain ⟨m, hm, ⟨rfl, rfl⟩ | rfl⟩ :=
        node_of_modified (fun i => node?_rememberScope t _ i _) hn'
      · rw [hn] at hm
        cases hm
        cases hs'
        exact Or.inr ⟨k, hk, Or.inr ⟨hintro, p, hpar, hscope.extend hx⟩⟩
      · exact Or.inl ⟨_, hm, hs'⟩
  | @recordNames s r p below hr hsame hp hbelow =>
      refine h.of_extends hx ?_ (fun hn hs => Or.inl ⟨_, hn, hs⟩) ?_
      · intro s' r' hr'
        obtain ⟨r₀, hr₀, -⟩ := scope_of_rememberNames hr'
        exact Or.inl ⟨r₀, hr₀⟩
      · intro s' r' l hr' hl'
        obtain ⟨r₀, hr₀, ⟨rfl, rfl⟩ | rfl⟩ := scope_of_rememberNames hr'
        · rw [hr] at hr₀
          cases hr₀
          cases hl'
          exact Or.inr ⟨p, below, hp.extend hx, hbelow.extend hx, rfl⟩
        · exact Or.inl ⟨_, hr₀, hl'⟩

/-- **A tree that agrees with the document**: what it has wrapped, the scopes it has opened and
all it remembers. -/
structure Sound (d : SyntaxNode) (t : Tree) : Prop where
  arena : t.Mirrors d
  scopes : t.Scoped d

theorem Sound.move (h : t.Sound d) (hmove : Move d t t') : t'.Sound d :=
  ⟨h.arena.move hmove, h.scopes.move hmove⟩

/-- **Every sequence of moves keeps a tree in agreement with the document.** -/
theorem Sound.moves (h : t.Sound d) (hmoves : Moves d t t') : t'.Sound d := by
  induction hmoves with
  | refl => exact h
  | tail _ hmove ih => exact ih.move hmove

/-- The tree in which only the root is wrapped agrees with the document. -/
theorem sound_ofDocument (d : SyntaxNode) : (ofDocument d).Sound d := by
  have hnode : ∀ {i n}, (ofDocument d).node? i = some n → i = root ∧ n = Node.wrap d none 0 := by
    intro i n hn
    cases i with
    | zero => exact ⟨rfl, (Option.some.inj hn).symm⟩
    | succ i => cases hn
  refine ⟨⟨?_, ?_, ?_, ?_, ?_⟩, ⟨?_, ?_, ?_⟩⟩
  · exact ⟨Node.wrap d none 0, rfl, rfl, rfl, rfl⟩
  · intro i n hn hi
    exact absurd (hnode hn).1 hi
  · intro i n ids hn hids
    obtain ⟨-, rfl⟩ := hnode hn
    cases hids
  · intro i n hn
    obtain ⟨-, rfl⟩ := hnode hn
    rfl
  · intro i n below hn hbelow
    obtain ⟨-, rfl⟩ := hnode hn
    cases hbelow
  · intro s r hr
    cases hr
  · intro i n s hn hs
    obtain ⟨-, rfl⟩ := hnode hn
    cases hs
  · intro s r l hr
    cases hr

end Tree

end LexicalScope
