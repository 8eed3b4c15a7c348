import LexicalScope.Proofs.Closure
import LexicalScope.Proofs.DirectReport

set_option autoImplicit false

/-! # The names of a scope without nested scopes

`Tree.declaredNames` walks all that is below the node of a scope, nested functions included, and
asks of each node for the scope of its parent, which opens scopes on the way. What comes out is
what a recursion finds that never enters a nested scope (`SyntaxNode.localNames`).

The walk decides whether there is an answer, so a fault inside a nested function counts too. The
loop after it cannot fail: below a node that introduces a scope, every parent has one.

* `Tree.collectNames_append`: the loop can be cut anywhere.
* `Tree.declaredNames_turn`: at each turn of the loop the scope of the parent is found.
* `Reachable.declaredNames_refine`: the names of any scope of any reachable tree.
-/

namespace LexicalScope

open Query

namespace Tree

variable {d : SyntaxNode} {t : Tree}

/-! ## One turn of the loop -/

theorem collectNames_append (s : ScopeId) (ids ids' : List NodeId) (names : Array String) :
    collectNames s (ids ++ ids') names = collectNames s ids names >>= collectNames s ids' := by
  induction ids generalizing names with
  | nil => rw [List.nil_append, collectNames, pure_bind]
  | cons x ids ih =>
      rw [List.cons_append, collectNames, collectNames, bind_assoc]
      exact congrArg _ (funext fun name => ih (names ++ name.toArray))

/-- The last step of collecting the names of a scope: they are remembered. -/
def keepNames (s : ScopeId) (names : Array String) : Query (List String) := do
  modify fun t => t.rememberNames s names.toList
  return names.toList

theorem declaredNames_of_descendants {s : ScopeId} {r : Scope} (hr : t.scope? s = some r)
    (hnone : r.names = none) {below : List NodeId} {t₀ : Tree}
    (hbelow : descendants r.node t = .ok below t₀) :
    declaredNames s t = (collectNames s below #[] >>= keepNames s) t₀ := by
  rw [declaredNames, bind_of_ok (scopeAt_of_scope? hr)]
  simp only [hnone]
  rw [bind_of_ok hbelow]
  rfl

/-- **One turn of the loop over all that is below the node of a scope.** The names of the nodes
before have been collected, and the question goes on from there. The next node has a parent, and
the scope of the parent is found. -/
theorem declaredNames_turn (h : t.Sound d) {s : ScopeId} {r : Scope} (hr : t.scope? s = some r)
    (hnone : r.names = none) {below : List NodeId} {t₀ : Tree}
    (hbelow : descendants r.node t = .ok below t₀) {done rest : List NodeId} {x : NodeId}
    (hsplit : below = done ++ x :: rest) :
    ∃ names t₁ m j s' t₂, collectNames s done #[] t₀ = .ok names t₁ ∧
      declaredNames s t = (collectNames s (x :: rest) names >>= keepNames s) t₁ ∧
      t₁.node? x = some m ∧ m.parent = some j ∧ scopeOf j t₁ = .ok s' t₂ := by
  obtain ⟨-, n, hn, -⟩ := h.scopes.record hr
  have hq := h.arena.stands_position hn
  obtain ⟨hmoves, hids, -⟩ := stands_of_descendants h hq hn hbelow
  have h₀ := h.moves hmoves
  have hs : t.ScopeStands s (t.position r.node) := ⟨r, hr, hq⟩
  have hs₀ := hs.extend hmoves.extends
  rw [hsplit] at hids
  obtain ⟨before, p, after, hpositions, hbefore, hx⟩ := split_of_forall₂ hids
  have hsub : before ⊆ (d.preorderAt (t.position r.node)).tail := by
    rw [hpositions]
    exact List.subset_append_left before (p :: after)
  have hp : p ∈ (d.preorderAt (t.position r.node)).tail := by
    rw [hpositions]
    exact List.mem_append_right before List.mem_cons_self
  obtain ⟨names, t₁, hrun₁, hmoves₁, -⟩ := collectNames_answers h₀ hs₀ hbefore hsub #[]
  obtain ⟨m, j, -, s', t₂, hm, hpar, -, hrun₂, -⟩ := scopeOf_parent_answers (h₀.moves hmoves₁)
    (hs₀.extend hmoves₁.extends) (hx.extend hmoves₁.extends) hp
  refine ⟨names, t₁, m, j, s', t₂, hrun₁, ?_, hm, hpar, hrun₂⟩
  rw [declaredNames_of_descendants hr hnone hbelow, hsplit, collectNames_append, bind_assoc,
    bind_of_ok hrun₁]

/-! ## All names of a scope -/

/-- **What the names of a scope are**, in terms of the nodes of the document alone. The scope is the
one of number `s`, with the record `r`, and `n` is the node that introduces it. -/
structure NamesRefine (t : Tree) (s : ScopeId) (r : Scope) (n : Node) : Prop where
  /-- There is no answer exactly if something that is reached from the node has a fault, be it
  inside a nested scope. -/
  fails : (∃ e t', declaredNames s t = .error e t') ↔
    ∃ m f, n.source.Reaches m ∧ m.children = .error f
  /-- The fault is that of the first node in pre-order that has one. -/
  fault : ∀ e t', declaredNames s t = .error e t' → ∃ f, e = .fault f ∧ n.source.WalkFails f
  /-- Otherwise the names are those that the recursion finds without entering a nested scope. -/
  names : n.source.Faultless → ∃ t', declaredNames s t = .ok n.source.localNames t'
  /-- At each turn of the loop that collects them, the next node has a parent and the scope of the
  parent is found. -/
  turn : r.names = none → ∀ below t₀, descendants r.node t = .ok below t₀ →
    ∀ done x rest, below = done ++ x :: rest →
      ∃ names t₁ m j s' t₂, collectNames s done #[] t₀ = .ok names t₁ ∧
        declaredNames s t = (collectNames s (x :: rest) names >>= keepNames s) t₁ ∧
        t₁.node? x = some m ∧ m.parent = some j ∧ scopeOf j t₁ = .ok s' t₂

theorem declaredNames_of_faultless (h : t.Sound d) {s : ScopeId} {q : Position} {n : SyntaxNode}
    (hs : t.ScopeStands s q) (hq : d.valueAt? q = some n) (hn : n.Faultless) :
    ∃ t', declaredNames s t = .ok n.localNames t' := by
  have hnames : d.declaredNames q = .ok n.localNames := by
    rw [SyntaxNode.declaredNames, SyntaxNode.below_of_faultless hq hn,
      SyntaxNode.names_eq_localNames hq (hs.introduces h.arena h.scopes)]
    rfl
  obtain ⟨l, t', hrun, -, rfl⟩ := (declaredNames_answers h hs).exists_of_ok hnames
  exact ⟨t', hrun⟩

theorem declaredNames_of_walkFails (h : t.Sound d) {s : ScopeId} {q : Position} {n : SyntaxNode}
    (hs : t.ScopeStands s q) (hq : d.valueAt? q = some n) {f : Fault} (hf : n.WalkFails f) :
    ∃ t', declaredNames s t = .error (.fault f) t' := by
  have hnames : d.declaredNames q = .error f := by
    rw [SyntaxNode.declaredNames, SyntaxNode.below_of_walkFails hq hf]
    rfl
  obtain ⟨t', hrun, -⟩ := (declaredNames_answers h hs).exists_of_error hnames
  exact ⟨t', hrun⟩

end Tree

/-- **The names of a scope are found without entering nested scopes**, in every reachable tree,
whatever scopes have been opened and whatever is remembered. -/
theorem Reachable.declaredNames_refine {d : SyntaxNode} {t : Tree} (h : Reachable d t) {s : ScopeId}
    {r : Tree.Scope} (hr : t.scope? s = some r) :
    ∃ n, t.node? r.node = some n ∧ t.NamesRefine s r n := by
  obtain ⟨-, n, hn, -⟩ := h.sound.scopes.record hr
  have hq := h.sound.arena.stands_position hn
  have hs : t.ScopeStands s (t.position r.node) := ⟨r, hr, hq⟩
  have hvalue := hq.valueAt? h.sound.arena hn
  have hfault : ∀ e t', Tree.declaredNames s t = .error e t' →
      ∃ f, e = .fault f ∧ n.source.WalkFails f := by
    intro e t' hrun
    by_cases hfaultless : n.source.Faultless
    · obtain ⟨u, hrun'⟩ := Tree.declaredNames_of_faultless h.sound hs hvalue hfaultless
      rw [hrun] at hrun'
      cases hrun'
    · obtain ⟨f, hf⟩ := SyntaxNode.exists_walkFails hfaultless
      obtain ⟨u, hrun'⟩ := Tree.declaredNames_of_walkFails h.sound hs hvalue hf
      rw [hrun] at hrun'
      cases hrun'
      exact ⟨f, rfl, hf⟩
  refine ⟨n, hn, ⟨?_, ?_⟩, hfault, ?_, ?_⟩
  · rintro ⟨e, t', hrun⟩
    obtain ⟨f, -, hf⟩ := hfault e t' hrun
    exact hf.exists_reaches
  · rintro ⟨m, f', hreach, hm⟩
    obtain ⟨f, hf⟩ := SyntaxNode.exists_walkFails (SyntaxNode.not_faultless hreach hm)
    obtain ⟨t', hrun⟩ := Tree.declaredNames_of_walkFails h.sound hs hvalue hf
    exact ⟨_, t', hrun⟩
  · intro hfaultless
    exact Tree.declaredNames_of_faultless h.sound hs hvalue hfaultless
  · intro hnone below t₀ hbelow done x rest hsplit
    exact Tree.declaredNames_turn h.sound hr hnone hbelow hsplit

/-- The names of the outermost scope of the small document: that of the function is one of them, and
the one declared inside it is not. -/
theorem Sample.declaredNames_refine_explored :
    Reachable Sample.program Sample.explored ∧
      ∃ r n t', Sample.explored.scope? 0 = some r ∧ Sample.explored.node? r.node = some n ∧
        Sample.explored.NamesRefine 0 r n ∧
        Tree.declaredNames 0 Sample.explored = .ok ["x", "f"] t' ∧
        ¬ ∃ m f, n.source.Reaches m ∧ m.children = .error f := by
  have hcount : 0 < Sample.explored.scopeCount := by decide +kernel
  obtain ⟨r, hr⟩ : ∃ r, Sample.explored.scope? 0 = some r := ⟨_, Array.getElem?_eq_getElem hcount⟩
  have hlist : (match Tree.declaredNames 0 Sample.explored with
      | .ok names _ => names
      | .error _ _ => []) = ["x", "f"] := by decide +kernel
  obtain ⟨n, hn, hnames⟩ := Reachable.declaredNames_refine Sample.reachable_explored hr
  cases hrun : Tree.declaredNames 0 Sample.explored with
  | error e t' => rw [hrun] at hlist; cases hlist
  | ok names t' =>
      rw [hrun] at hlist
      cases hlist
      refine ⟨Sample.reachable_explored, r, n, t', hr, hn, hnames, rfl, ?_⟩
      intro hfault
      obtain ⟨e, u, hrun'⟩ := hnames.fails.mpr hfault
      rw [hrun] at hrun'
      cases hrun'

end LexicalScope
