import LexicalScope.Proofs.Arena
import LexicalScope.Proofs.Enclosing

set_option autoImplicit false

/-! # The scope table agrees with the document

`Tree.Scoped d t` says that the scopes that have been opened in a tree, and the scopes and names
that it remembers, are those of the document `d`. It is stated locally: a remembered scope is
either introduced by the node or remembered by its parent too. Climbing to the node that
introduces it gives the global fact:

* `HasScope.enclosing?`: a remembered scope is the enclosing scope of the node's position;
* `ScopeStands.inj`: no two scopes are introduced at the same position.
-/

namespace LexicalScope

namespace Tree

/-- The tree remembers the scope of a node. -/
def HasScope (t : Tree) (i : NodeId) (s : ScopeId) : Prop :=
  ∃ n, t.node? i = some n ∧ n.scope = some s

/-- A scope whose introducing node stands at a position. -/
def ScopeStands (t : Tree) (s : ScopeId) (p : Position) : Prop :=
  ∃ r, t.scope? s = some r ∧ t.Stands r.node p

theorem HasScope.extend {t t' : Tree} (hx : t.Extends t') {i : NodeId} {s : ScopeId}
    (h : t.HasScope i s) : t'.HasScope i s := by
  obtain ⟨n, hn, hs⟩ := h
  obtain ⟨n', hn', hk⟩ := hx.node hn
  exact ⟨n', hn', hk.scope s hs⟩

theorem HasScope.unique {t : Tree} {i : NodeId} {s s' : ScopeId} (h : t.HasScope i s)
    (h' : t.HasScope i s') : s = s' := by
  obtain ⟨n, hn, hs⟩ := h
  obtain ⟨n', hn', hs'⟩ := h'
  rw [hn] at hn'
  cases hn'
  rw [hs] at hs'
  exact Option.some.inj hs'

theorem ScopeStands.extend {t t' : Tree} (hx : t.Extends t') {s : ScopeId} {p : Position}
    (h : t.ScopeStands s p) : t'.ScopeStands s p := by
  obtain ⟨r, hr, hp⟩ := h
  obtain ⟨r', hr', hk⟩ := hx.scope hr
  exact ⟨r', hr', by rw [hk.node]; exact hp.extend hx⟩

theorem ScopeStands.lt_scopeCount {t : Tree} {s : ScopeId} {p : Position}
    (h : t.ScopeStands s p) : s < t.scopeCount := by
  obtain ⟨r, hr, -⟩ := h
  exact (Array.getElem?_eq_some_iff.mp hr).1

/-! ## The invariant -/

/-- A scope that is opened by a node that introduces one; that node remembers it. -/
def Introduced (t : Tree) (s : ScopeId) (r : Scope) : Prop :=
  r.kind.introducesScope = true ∧
    ∃ n, t.node? r.node = some n ∧ n.kind = some r.kind ∧ n.scope = some s

/-- A remembered scope that the node itself introduces, or that is also the scope of its
parent. -/
def Resolved (t : Tree) (i : NodeId) (n : Node) (s : ScopeId) : Prop :=
  ∃ k, n.kind = some k ∧
    ((k.introducesScope = true ∧ ∃ r, t.scope? s = some r ∧ r.node = i) ∨
      (k.introducesScope = false ∧ ∃ p, n.parent = some p ∧ t.HasScope p s))

/-- Collected names that are those that the document declares in the scope, when everything
below its node has been wrapped. -/
def Collected (d : SyntaxNode) (t : Tree) (r : Scope) (l : List String) : Prop :=
  ∃ p below, t.Stands r.node p ∧ t.Below r.node below ∧ l = d.names p

/-- **The opened scopes and what is remembered of them are those of the document.** -/
structure Scoped (d : SyntaxNode) (t : Tree) : Prop where
  record : ∀ {s r}, t.scope? s = some r → t.Introduced s r
  cached : ∀ {i n s}, t.node? i = some n → n.scope = some s → t.Resolved i n s
  names : ∀ {s r l}, t.scope? s = some r → r.names = some l → Collected d t r l

theorem Introduced.extend {t t' : Tree} (hx : t.Extends t') {s : ScopeId} {r r' : Scope}
    (hr : r.Keeps r') (h : t.Introduced s r) : t'.Introduced s r' := by
  obtain ⟨hintro, n, hn, hk, hs⟩ := h
  obtain ⟨n', hn', hkeep⟩ := hx.node hn
  refine ⟨by rw [hr.kind]; exact hintro, n', by rw [hr.node]; exact hn', ?_, hkeep.scope s hs⟩
  rw [hkeep.kind, hk, hr.kind]

theorem Resolved.extend {t t' : Tree} (hx : t.Extends t') {i : NodeId} {n n' : Node}
    {s : ScopeId} (hn : n.Keeps n') (h : t.Resolved i n s) : t'.Resolved i n' s := by
  obtain ⟨k, hk, hcases⟩ := h
  refine ⟨k, hn.kind.trans hk, ?_⟩
  rcases hcases with ⟨hintro, r, hr, rfl⟩ | ⟨hintro, p, hpar, hp⟩
  · obtain ⟨r', hr', hkeep⟩ := hx.scope hr
    exact Or.inl ⟨hintro, r', hr', hkeep.node⟩
  · exact Or.inr ⟨hintro, p, hn.parent.trans hpar, hp.extend hx⟩

theorem Collected.extend {d : SyntaxNode} {t t' : Tree} (hx : t.Extends t') {r r' : Scope}
    {l : List String} (hr : r.Keeps r') (h : Collected d t r l) : Collected d t' r' l := by
  obtain ⟨p, below, hp, hbelow, hl⟩ := h
  refine ⟨p, below, ?_, ?_, hl⟩
  · rw [hr.node]
    exact hp.extend hx
  · rw [hr.node]
    exact hbelow.extend hx

/-! ## Remembered scopes are the enclosing ones -/

variable {d : SyntaxNode} {t : Tree}

theorem Mirrors.introduces (h : t.Mirrors d) {i : NodeId} {n : Node} {p : Position} {k : Kind}
    (hi : t.Stands i p) (hn : t.node? i = some n) (hk : n.kind = some k) :
    d.introduces p = k.introducesScope := by
  have hkind : n.source.kind? = some k := by rw [← h.kind hn]; exact hk
  exact SyntaxNode.introduces_of_kind? (hi.valueAt? h hn) hkind

/-- **A remembered scope is the enclosing one.** -/
theorem HasScope.enclosing? (h : t.Mirrors d) (hs : t.Scoped d) {i : NodeId} {s : ScopeId}
    {p : Position} (hi : t.Stands i p) (hc : t.HasScope i s) :
    ∃ q, d.enclosing? p = some q ∧ t.ScopeStands s q := by
  -- Up to the node that introduces the scope, each parent remembers the same scope.
  induction p generalizing i with
  | nil =>
      obtain ⟨n, hn, hscope⟩ := hc
      obtain ⟨k, hk, ⟨hintro, r, hr, rfl⟩ | ⟨-, p, hpar, -⟩⟩ := hs.cached hn hscope
      · have hi' := h.introduces hi hn hk
        exact ⟨[], SyntaxNode.enclosing?_of_introduces (hi'.trans hintro), r, hr, hi⟩
      · rw [hi.parent_of_nil h hn] at hpar
        cases hpar
  | cons step p ih =>
      obtain ⟨n, hn, hscope⟩ := hc
      obtain ⟨k, hk, ⟨hintro, r, hr, rfl⟩ | ⟨hintro, j, hpar, hj⟩⟩ := hs.cached hn hscope
      · have hi' := h.introduces hi hn hk
        exact ⟨_, SyntaxNode.enclosing?_of_introduces (hi'.trans hintro), r, hr, hi⟩
      · obtain ⟨j', -, -, hpar', -, hstands, -⟩ := hi.parent_of_cons h hn
        rw [hpar] at hpar'
        cases hpar'
        have hi' := h.introduces hi hn hk
        obtain ⟨q, hq, hsq⟩ := ih hstands hj
        exact ⟨q, by rw [SyntaxNode.enclosing?_cons_of_not (hi'.trans hintro), hq], hsq⟩

/-- No two scopes are introduced by the same node. -/
theorem Scoped.scope_inj (h : t.Scoped d) {s s' : ScopeId} {r r' : Scope}
    (hr : t.scope? s = some r) (hr' : t.scope? s' = some r') (heq : r.node = r'.node) :
    s = s' := by
  obtain ⟨-, n, hn, -, hs⟩ := h.record hr
  obtain ⟨-, n', hn', -, hs'⟩ := h.record hr'
  rw [heq] at hn
  exact HasScope.unique ⟨n, hn, hs⟩ ⟨n', hn', hs'⟩

/-- **No two scopes are introduced at the same position.** -/
theorem ScopeStands.inj (hs : t.Scoped d) {s s' : ScopeId} {p : Position}
    (h : t.ScopeStands s p) (h' : t.ScopeStands s' p) : s = s' := by
  obtain ⟨r, hr, hp⟩ := h
  obtain ⟨r', hr', hp'⟩ := h'
  exact hs.scope_inj hr hr' (hp.inj hp')

/-- The scope of a number stands at one position only. -/
theorem ScopeStands.unique (h : t.Mirrors d) {s : ScopeId} {p q : Position}
    (hp : t.ScopeStands s p) (hq : t.ScopeStands s q) : p = q := by
  obtain ⟨r, hr, hp⟩ := hp
  obtain ⟨r', hr', hq⟩ := hq
  rw [hr] at hr'
  cases hr'
  exact hp.unique h hq

theorem ScopeStands.exists_valueAt? (h : t.Mirrors d) {s : ScopeId} {p : Position}
    (hp : t.ScopeStands s p) : ∃ n, d.valueAt? p = some n := by
  obtain ⟨r, -, hp⟩ := hp
  obtain ⟨n, -, hn⟩ := hp.exists_node h
  exact ⟨n.source, hn⟩

/-- The node of an opened scope introduces one in the document. -/
theorem ScopeStands.introduces (h : t.Mirrors d) (hs : t.Scoped d) {s : ScopeId} {p : Position}
    (hp : t.ScopeStands s p) : d.introduces p = true := by
  obtain ⟨r, hr, hp⟩ := hp
  obtain ⟨hintro, n, hn, hk, -⟩ := hs.record hr
  exact (h.introduces hp hn hk).trans hintro

/-- Collected names are the document's, and nothing below the scope has a fault. -/
theorem Collected.eq_names (h : t.Mirrors d) {r : Scope} {l : List String} {q : Position}
    (hl : Collected d t r l) (hq : t.Stands r.node q) :
    l = d.names q ∧ d.firstFault (d.preorderAt q) = none := by
  obtain ⟨p, below, hp, hbelow, rfl⟩ := hl
  have heq : p = q := hp.unique h hq
  exact ⟨by rw [heq], (hbelow.stands h hq).2⟩

/-- The position of the node that introduces a scope. -/
def scopePosition (t : Tree) (s : ScopeId) : Position :=
  (t.scope? s).elim [] fun r => t.position r.node

theorem ScopeStands.eq_scopePosition (h : t.Mirrors d) {s : ScopeId} {p : Position}
    (hp : t.ScopeStands s p) : t.scopePosition s = p := by
  obtain ⟨r, hr, hp⟩ := hp
  rw [scopePosition, hr, Option.elim_some]
  exact hp.eq_position h

theorem Scoped.scopeStands_scopePosition (h : t.Mirrors d) (hs : t.Scoped d) {s : ScopeId}
    {r : Scope} (hr : t.scope? s = some r) : t.ScopeStands s (t.scopePosition s) := by
  obtain ⟨-, n, hn, -⟩ := hs.record hr
  have hp : t.ScopeStands s (t.position r.node) := ⟨r, hr, h.stands_position hn⟩
  rw [hp.eq_scopePosition h]
  exact hp

/-- A tree opens no more scopes than the document has. -/
theorem Scoped.scopeCount_le_scopes (h : t.Mirrors d) (hs : t.Scoped d) :
    t.scopeCount ≤ ((d.preorder []).filter d.introduces).length := by
  have hstands : ∀ s < t.scopeCount, t.ScopeStands s (t.scopePosition s) := fun s hlt =>
    hs.scopeStands_scopePosition h (Array.getElem?_eq_getElem hlt)
  refine card_le_of_stands t.scopePosition ?_ ?_
  · intro s hlt
    obtain ⟨r, -, hp⟩ := hstands s hlt
    exact List.mem_filter.mpr ⟨hp.mem_preorder h, (hstands s hlt).introduces h hs⟩
  · intro s hlt s' hlt' heq
    have hs' := hstands s' hlt'
    rw [← heq] at hs'
    exact (hstands s hlt).inj hs hs'

/-- A tree opens no more scopes than the document has objects. -/
theorem Scoped.scopeCount_le (h : t.Mirrors d) (hs : t.Scoped d) :
    t.scopeCount ≤ max 1 d.objectCount :=
  (hs.scopeCount_le_scopes h).trans
    ((List.length_filter_le _ _).trans (d.length_preorder_le_max []))

end Tree

end LexicalScope
