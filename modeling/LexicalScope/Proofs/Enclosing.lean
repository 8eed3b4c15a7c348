import LexicalScope.Proofs.Preorder

set_option autoImplicit false

/-! # The scopes of a document

What the document alone says about scopes, by positions and without any wrapped node: the nearest
position from a node upwards that introduces a scope (`SyntaxNode.enclosing?`), the names that are
declared in a scope (`SyntaxNode.names`) and how deep a scope is nested
(`SyntaxNode.scopeDepth`). A tree of wrapped nodes, whatever it has been asked before, answers
with these.
-/

namespace LexicalScope

namespace SyntaxNode

/-! ## The enclosing scope -/

/-- Whether the node at a position introduces a scope. -/
def introduces (d : SyntaxNode) (p : Position) : Bool :=
  ((d.valueAt? p).bind kind?).any Kind.introducesScope

/-- The nearest position that introduces a scope, from a position upwards, itself included. -/
def enclosing? (d : SyntaxNode) : Position → Option Position
  | [] => if d.introduces [] then some [] else none
  | s :: p => if d.introduces (s :: p) then some (s :: p) else d.enclosing? p

/-- The position of the scope around the scope at a position. -/
def outer? (d : SyntaxNode) : Position → Option Position
  | [] => none
  | _ :: p => d.enclosing? p

/-- The number of positions strictly above a position that introduce a scope. -/
def scopeDepth (d : SyntaxNode) : Position → Nat
  | [] => 0
  | _ :: p => if d.introduces p then d.scopeDepth p + 1 else d.scopeDepth p

theorem introduces_eq_true {d : SyntaxNode} {p : Position} :
    d.introduces p = true ↔
      ∃ n k, d.valueAt? p = some n ∧ n.kind? = some k ∧ k.introducesScope = true := by
  unfold introduces
  cases d.valueAt? p with
  | none => simp
  | some n => cases hk : n.kind? <;> simp [hk]

theorem introduces_of_kind? {d n : SyntaxNode} {p : Position} {k : Kind}
    (hp : d.valueAt? p = some n) (hk : n.kind? = some k) :
    d.introduces p = k.introducesScope := by
  simp [introduces, hp, hk]

theorem enclosing?_of_introduces {d : SyntaxNode} {p : Position} (h : d.introduces p = true) :
    d.enclosing? p = some p := by
  cases p <;> rw [enclosing?, if_pos h]

theorem enclosing?_cons_of_not {d : SyntaxNode} {s : Step} {p : Position}
    (h : d.introduces (s :: p) = false) : d.enclosing? (s :: p) = d.enclosing? p := by
  rw [enclosing?, if_neg (by rw [h]; decide)]

theorem introduces_of_enclosing? {d : SyntaxNode} {p q : Position}
    (h : d.enclosing? p = some q) : d.introduces q = true := by
  induction p with
  | nil =>
      rw [enclosing?] at h
      split at h
      · cases h; assumption
      · cases h
  | cons s p ih =>
      rw [enclosing?] at h
      split at h
      · cases h; assumption
      · exact ih h

theorem suffix_of_enclosing? {d : SyntaxNode} {p q : Position} (h : d.enclosing? p = some q) :
    q <:+ p := by
  induction p with
  | nil =>
      rw [enclosing?] at h
      split at h
      · cases h; exact List.suffix_rfl
      · cases h
  | cons s p ih =>
      rw [enclosing?] at h
      split at h
      · cases h; exact List.suffix_rfl
      · exact (ih h).trans (List.suffix_cons s p)

/-- A position below one that introduces a scope has an enclosing scope, at or below that one. -/
theorem exists_enclosing?_of_suffix {d : SyntaxNode} {p q : Position} (hq : d.introduces q = true)
    (h : q <:+ p) : ∃ r, d.enclosing? p = some r ∧ q <:+ r := by
  induction p with
  | nil =>
      have hnil : q = [] := List.suffix_nil.mp h
      subst hnil
      exact ⟨[], enclosing?_of_introduces hq, List.suffix_rfl⟩
  | cons s p ih =>
      by_cases hi : d.introduces (s :: p) = true
      · exact ⟨s :: p, enclosing?_of_introduces hi, h⟩
      · rcases List.suffix_cons_iff.mp h with rfl | hsuf
        · exact absurd hq hi
        · obtain ⟨r, hr, hqr⟩ := ih hsuf
          exact ⟨r, by rw [enclosing?_cons_of_not (by simpa using hi), hr], hqr⟩

/-- A scope is one deeper than the scope around it. -/
theorem scopeDepth_eq (d : SyntaxNode) (p : Position) :
    d.scopeDepth p = (d.outer? p).elim 0 fun q => d.scopeDepth q + 1 := by
  cases p with
  | nil => rfl
  | cons s p =>
      induction p generalizing s with
      | nil =>
          by_cases hi : d.introduces [] = true
          · rw [scopeDepth, if_pos hi, outer?, enclosing?_of_introduces hi, Option.elim_some]
          · rw [scopeDepth, if_neg hi, outer?, enclosing?, if_neg hi]
            rfl
      | cons s' p ih =>
          by_cases hi : d.introduces (s' :: p) = true
          · rw [scopeDepth, if_pos hi, outer?, enclosing?_of_introduces hi, Option.elim_some]
          · rw [scopeDepth, if_neg hi, outer?, enclosing?, if_neg hi]
            exact ih s'

/-- **The scope of the node at a position.** The node has to be of a supported kind: otherwise it
cannot be told whether it introduces a scope itself. -/
def scopeOf (d : SyntaxNode) (p : Position) : Except Fault Position :=
  match d.valueAt? p, d.enclosing? p with
  | some n, some q => n.kind.map fun _ => q
  | some n, none => n.kind.bind fun _ => .error (.noEnclosingScope d.digest)
  | none, _ => .error (.noEnclosingScope d.digest)

theorem scopeOf_of_kind?_eq_none {d n : SyntaxNode} {p : Position} (hp : d.valueAt? p = some n)
    (hk : n.kind? = none) : d.scopeOf p = .error n.unsupported := by
  unfold scopeOf
  rw [hp]
  cases d.enclosing? p <;> simp [kind, hk, Except.map, Except.bind]

theorem scopeOf_of_enclosing? {d n : SyntaxNode} {p q : Position} {k : Kind}
    (hp : d.valueAt? p = some n) (hk : n.kind? = some k) (hq : d.enclosing? p = some q) :
    d.scopeOf p = .ok q := by
  unfold scopeOf
  rw [hp, hq]
  simp [kind, hk, Except.map]

theorem scopeOf_of_enclosing?_eq_none {d n : SyntaxNode} {p : Position} {k : Kind}
    (hp : d.valueAt? p = some n) (hk : n.kind? = some k) (hq : d.enclosing? p = none) :
    d.scopeOf p = .error (.noEnclosingScope d.digest) := by
  unfold scopeOf
  rw [hp, hq]
  simp [kind, hk, Except.bind]

/-- A node that introduces no scope has the scope of its parent. -/
theorem scopeOf_cons {d n m : SyntaxNode} {s : Step} {p : Position} {k k' : Kind}
    (hn : d.valueAt? (s :: p) = some n) (hk : n.kind? = some k)
    (hi : k.introducesScope = false) (hm : d.valueAt? p = some m) (hk' : m.kind? = some k') :
    d.scopeOf (s :: p) = d.scopeOf p := by
  have henc : d.enclosing? (s :: p) = d.enclosing? p :=
    enclosing?_cons_of_not ((introduces_of_kind? hn hk).trans hi)
  cases hq : d.enclosing? p with
  | none =>
      rw [scopeOf_of_enclosing?_eq_none hn hk (henc.trans hq),
        scopeOf_of_enclosing?_eq_none hm hk' hq]
  | some q =>
      rw [scopeOf_of_enclosing? hn hk (henc.trans hq), scopeOf_of_enclosing? hm hk' hq]

theorem enclosing?_of_scopeOf {d : SyntaxNode} {p q : Position} (h : d.scopeOf p = .ok q) :
    d.enclosing? p = some q := by
  unfold scopeOf at h
  cases hp : d.valueAt? p with
  | none => rw [hp] at h; cases h
  | some n =>
      rw [hp] at h
      cases hq : d.enclosing? p <;> cases hk : n.kind <;>
        simp_all [Except.map, Except.bind]

/-! ## Declared names -/

/-- The name that the node at a position declares in a scope: it is declared in the scope that
encloses the *parent* of the node. -/
def declaredIn? (d : SyntaxNode) (scope p : Position) : Option String :=
  if d.outer? p = some scope then (d.valueAt? p).bind declaredName? else none

/-- The names declared in the scope at a position, in pre-order. -/
def names (d : SyntaxNode) (scope : Position) : List String :=
  (d.preorderAt scope).tail.filterMap (d.declaredIn? scope)

/-! ## What lies below a node without a fault -/

theorem kind?_of_children {n : SyntaxNode} {cs : List SyntaxNode} (h : n.children = .ok cs) :
    ∃ k, n.kind? = some k := by
  obtain ⟨k, hk, -⟩ := children_eq_ok h
  exact ⟨k, hk⟩

/-- A listed node other than the first stands under a node of supported kind that is listed
too. -/
theorem parent_of_mem_tail {d n : SyntaxNode} {p q : Position} (hp : d.valueAt? p = some n)
    (h : q ∈ (n.preorder p).tail) :
    ∃ s r m k, q = s :: r ∧ r ∈ n.preorder p ∧ d.valueAt? r = some m ∧ m.kind? = some k := by
  have hmem : q ∈ n.preorder p := List.mem_of_mem_tail h
  have hne : q ≠ p := by
    have hnd := n.nodup_preorder p
    rw [← n.cons_tail_preorder p, List.nodup_cons] at hnd
    intro he
    exact hnd.1 (he ▸ h)
  have hlen := (suffix_of_mem_preorder hmem).length_le
  cases q with
  | nil =>
      have hnil : p = [] := List.eq_nil_of_length_eq_zero (Nat.le_zero.mp hlen)
      exact absurd hnil.symm hne
  | cons s r =>
      obtain ⟨hr, m, c, hm, hb⟩ := tail_mem_preorder hp hmem hne
      obtain ⟨cs, hcs, -, -⟩ := exists_of_mem_branches hb
      obtain ⟨k, hk⟩ := kind?_of_children hcs
      exact ⟨s, r, m, k, rfl, hr, hm, hk⟩

/-- **Names never fail to find their scope**: below a node that introduces a scope, the parent of
every node has a scope. -/
theorem scopeOf_parent_of_mem_tail {d n : SyntaxNode} {p q : Position}
    (hp : d.valueAt? p = some n) (hi : d.introduces p = true) (h : q ∈ (n.preorder p).tail) :
    ∃ s r scope, q = s :: r ∧ d.scopeOf r = .ok scope ∧ d.outer? q = some scope := by
  obtain ⟨s, r, m, k, rfl, hr, hm, hk⟩ := parent_of_mem_tail hp h
  obtain ⟨scope, hscope, -⟩ := exists_enclosing?_of_suffix hi (suffix_of_mem_preorder hr)
  exact ⟨s, r, scope, rfl, scopeOf_of_enclosing? hm hk hscope, hscope⟩

/-! ## Answers about scopes -/

/-- The position of the scope around the scope at a position, or the fault of finding none. -/
def outerScope (d : SyntaxNode) : Position → Except Fault (Option Position)
  | [] => .ok none
  | _ :: p => (d.scopeOf p).map some

/-- The names declared in the scope at a position, when nothing below it has a fault. -/
def declaredNames (d : SyntaxNode) (p : Position) : Except Fault (List String) := do
  let _ ← d.below p
  return d.names p

/-- The positions that introduce a scope, in pre-order. -/
def allScopes (d : SyntaxNode) : Except Fault (List Position) := do
  let outermost ← d.scopeOf []
  let below ← d.below []
  return outermost :: below.filter d.introduces

theorem preorderAt_nil (d : SyntaxNode) : d.preorderAt [] = d.preorder [] :=
  preorderAt_of_valueAt? d.valueAt?_nil

theorem filter_introduces_preorder {d : SyntaxNode} (h : d.introduces [] = true) :
    (d.preorder []).filter d.introduces = [] :: (d.preorder []).tail.filter d.introduces := by
  conv_lhs => rw [← d.cons_tail_preorder []]
  rw [List.filter_cons_of_pos h]

theorem scopeOf_nil {d : SyntaxNode} (h : d.introduces [] = true) : d.scopeOf [] = .ok [] := by
  obtain ⟨n, k, hn, hk, -⟩ := introduces_eq_true.mp h
  exact scopeOf_of_enclosing? hn hk (enclosing?_of_introduces h)

/-- All scopes of a document without a fault whose root introduces a scope. -/
theorem allScopes_of_faultless {d : SyntaxNode} (hroot : d.introduces [] = true)
    (hfault : d.firstFault (d.preorder []) = none) :
    d.allScopes = .ok ((d.preorder []).filter d.introduces) := by
  rw [allScopes, scopeOf_nil hroot, below, preorderAt_nil, barring_of_none hfault,
    filter_introduces_preorder hroot]
  rfl

/-- No other document has all its scopes. -/
theorem faultless_of_allScopes {d : SyntaxNode} {ps : List Position}
    (h : d.allScopes = .ok ps) :
    d.introduces [] = true ∧ d.firstFault (d.preorder []) = none ∧
      ps = (d.preorder []).filter d.introduces := by
  cases hscope : d.scopeOf [] with
  | error f => rw [allScopes, hscope] at h; cases h
  | ok q =>
      have henc := enclosing?_of_scopeOf hscope
      have hnil : q = [] := List.suffix_nil.mp (suffix_of_enclosing? henc)
      have hroot : d.introduces [] = true := hnil ▸ introduces_of_enclosing? henc
      cases hfault : d.firstFault (d.preorder []) with
      | some f =>
          rw [allScopes, hscope, below, preorderAt_nil, barring_of_some hfault] at h
          cases h
      | none =>
          rw [allScopes_of_faultless hroot hfault] at h
          exact ⟨hroot, rfl, (Except.ok.inj h).symm⟩

/-- Everything above a position of the document is one, too. -/
theorem mem_preorder_of_suffix {d : SyntaxNode} {p q : Position} (hp : p ∈ d.preorder [])
    (h : q <:+ p) : q ∈ d.preorder [] := by
  induction p with
  | nil =>
      rw [List.suffix_nil.mp h]
      exact hp
  | cons s p ih =>
      rcases List.suffix_cons_iff.mp h with rfl | h
      · exact hp
      · exact ih (tail_mem_preorder d.valueAt?_nil hp (List.cons_ne_nil s p)).1 h

/-- The scope around a position of the document is one of its scopes. -/
theorem mem_filter_of_outer? {d : SyntaxNode} {p q : Position} (hp : p ∈ d.preorder [])
    (h : d.outer? p = some q) : q ∈ (d.preorder []).filter d.introduces := by
  cases p with
  | nil => cases h
  | cons s p =>
      have hsuf := (suffix_of_enclosing? h).trans (List.suffix_cons s p)
      exact List.mem_filter.mpr ⟨mem_preorder_of_suffix hp hsuf, introduces_of_enclosing? h⟩

/-- What stands around a position of the document that is not the root. -/
theorem outerScope_of_mem_preorder {d : SyntaxNode} {p : Position}
    (hroot : d.introduces [] = true) (hp : p ∈ d.preorder []) :
    d.outerScope p = .ok (d.outer? p) := by
  rw [← d.cons_tail_preorder [], List.mem_cons] at hp
  rcases hp with rfl | hp
  · rfl
  · obtain ⟨s, r, scope, rfl, hscope, houter⟩ :=
      scopeOf_parent_of_mem_tail d.valueAt?_nil hroot hp
    rw [outerScope, hscope, houter]
    rfl

/-- In a document without a fault, every scope has its names. -/
theorem declaredNames_of_mem_preorder {d : SyntaxNode} {p : Position}
    (hfault : d.firstFault (d.preorder []) = none) (hp : p ∈ d.preorder []) :
    d.declaredNames p = .ok (d.names p) := by
  obtain ⟨n, hn⟩ := exists_valueAt?_of_mem_preorder d.valueAt?_nil hp
  have hsub : d.preorderAt p ⊆ d.preorder [] := by
    rw [preorderAt_of_valueAt? hn]
    exact (preorder_block d.valueAt?_nil hn hp).subset
  rw [declaredNames, below, barring_of_none (firstFault_eq_none_of_subset hsub hfault)]
  rfl

end SyntaxNode

end LexicalScope
