import LexicalScope.Proofs.Invariants

set_option autoImplicit false

/-! # How the scope of a node is found

`Tree.scopeOf` climbs from a node until its scope is decided, and remembers the answer on the way
back. Where the climb ends depends on what is remembered: at the first node that knows its scope, or
at the node that introduces one. Neither shows in what the question does.

The way up is read off the parent links: `Tree.nearestScope?` is the nearest node from a node
upwards that introduces a scope, and `Tree.scopePath` leads from the node up to there.

* `nearestScope?_stands`: the nearest node stands where the document has the enclosing scope.
* `kind_of_mem_ancestors`: an ancestor is of a supported kind, since its children are wrapped.
* `climb_split`: a climb passes a first part of the way up.
* `Resolves`: all that a successful question changes, the same wherever the climb has ended.
* `resolves_of_scopeOf`: a question that succeeds has found the nearest node and changed just that.
* `Reachable.scopeOf_resolves`: how the question ends, and what it leaves, in any reachable tree.
-/

namespace LexicalScope

open Query

namespace Tree

variable {d : SyntaxNode} {t : Tree}

/-! ## The way up -/

/-- Whether a wrapped node introduces a scope. -/
def introducesAt (t : Tree) (i : NodeId) : Bool :=
  ((t.node? i).bind Node.kind).any Kind.introducesScope

/-- The nearest node that introduces a scope, from a node upwards, itself included. -/
def nearestScope? (t : Tree) (i : NodeId) : Option NodeId :=
  (i :: t.ancestors i).find? t.introducesAt

/-- **The way from a node up to the nearest node that introduces a scope**, both included. -/
def scopePath (t : Tree) (i : NodeId) : List NodeId :=
  ((i :: t.ancestors i).takeWhile fun j => !t.introducesAt j) ++ (t.nearestScope? i).toList

theorem introducesAt_of_kind {i : NodeId} {n : Node} {k : Kind} (hn : t.node? i = some n)
    (hk : n.kind = some k) : t.introducesAt i = k.introducesScope := by
  rw [introducesAt, hn, Option.bind_some, hk, Option.any_some]

theorem introducesAt_of_stands (h : t.Mirrors d) {i : NodeId} {p : Position} (hi : t.Stands i p) :
    t.introducesAt i = d.introduces p := by
  obtain ⟨n, hn, hp⟩ := hi.exists_node h
  rw [introducesAt, hn, SyntaxNode.introduces, hp, Option.bind_some, Option.bind_some, h.kind hn]

/-- The way up is cut at the first node that introduces a scope. -/
theorem scopePath_of_split {i j : NodeId} {lower upper : List NodeId}
    (hsplit : i :: t.ancestors i = lower ++ j :: upper)
    (hlower : ∀ x ∈ lower, t.introducesAt x = false) (hj : t.introducesAt j = true) :
    t.nearestScope? i = some j ∧ t.scopePath i = lower ++ [j] := by
  have hfind : t.nearestScope? i = some j := by
    rw [nearestScope?, hsplit, List.find?_append, List.find?_eq_none.mpr (by simpa using hlower),
      Option.none_or, List.find?_cons_of_pos hj]
  have htake : ((lower ++ j :: upper).takeWhile fun x => !t.introducesAt x) = lower := by
    rw [List.takeWhile_append_of_pos (by simpa using hlower),
      List.takeWhile_cons_of_neg (by simp [hj]), List.append_nil]
  exact ⟨hfind, by rw [scopePath, hfind, hsplit, htake, Option.toList_some]⟩

theorem ancestors_of_root {i : NodeId} {n : Node} (hn : t.node? i = some n)
    (hpar : n.parent = none) : t.ancestors i = [] := by
  rw [ancestors]
  cases i <;> simp [ancestorsWithin, hn, hpar]

/-- **The nearest node that introduces a scope** stands where the document has the enclosing
scope. -/
theorem nearestScope?_stands (h : t.Mirrors d) {i : NodeId} {p : Position} (hi : t.Stands i p) :
    Option.Rel t.Stands (t.nearestScope? i) (d.enclosing? p) := by
  induction p generalizing i with
  | nil =>
      obtain ⟨n, hn, -⟩ := hi.exists_node h
      have hself := introducesAt_of_stands h hi
      rw [nearestScope?, ancestors_of_root hn (hi.parent_of_nil h hn), SyntaxNode.enclosing?,
        ← hself]
      cases hintro : t.introducesAt i with
      | true =>
          rw [List.find?_cons_of_pos hintro]
          exact .some hi
      | false =>
          rw [List.find?_cons_of_neg (by simp [hintro])]
          exact .none
  | cons s p ih =>
      obtain ⟨n, hn, -⟩ := hi.exists_node h
      obtain ⟨j, -, -, hpar, -, hj, -⟩ := hi.parent_of_cons h hn
      have hself := introducesAt_of_stands h hi
      rw [nearestScope?, h.ancestors_of_parent hn hpar, SyntaxNode.enclosing?, ← hself]
      cases hintro : t.introducesAt i with
      | true =>
          rw [List.find?_cons_of_pos hintro]
          exact .some hi
      | false =>
          rw [List.find?_cons_of_neg (by simp [hintro])]
          exact ih hj

/-- Where a node from this one upwards introduces a scope, the document gives it too. -/
theorem scopeOf_of_nearestScope? (h : t.Mirrors d) {i j : NodeId} {p : Position} {n : Node}
    (hi : t.Stands i p) (hn : t.node? i = some n) (hk : n.kind ≠ none)
    (hj : t.nearestScope? i = some j) : ∃ q, d.scopeOf p = .ok q ∧ t.Stands j q := by
  obtain ⟨k, hk⟩ := Option.ne_none_iff_exists'.mp hk
  rw [h.kind hn] at hk
  have hrel := nearestScope?_stands h hi
  rw [hj] at hrel
  cases henc : d.enclosing? p with
  | none =>
      rw [henc] at hrel
      cases hrel
  | some q =>
      rw [henc] at hrel
      cases hrel with
      | some hjq => exact ⟨q, SyntaxNode.scopeOf_of_enclosing? (hi.valueAt? h hn) hk henc, hjq⟩

theorem scopeOf_of_nearestScope?_eq_none (h : t.Mirrors d) {i : NodeId} {p : Position} {n : Node}
    (hi : t.Stands i p) (hn : t.node? i = some n) (hk : n.kind ≠ none)
    (hnone : t.nearestScope? i = none) : d.scopeOf p = .error (.noEnclosingScope d.digest) := by
  obtain ⟨k, hk⟩ := Option.ne_none_iff_exists'.mp hk
  rw [h.kind hn] at hk
  have hrel := nearestScope?_stands h hi
  rw [hnone] at hrel
  cases henc : d.enclosing? p with
  | none => exact SyntaxNode.scopeOf_of_enclosing?_eq_none (hi.valueAt? h hn) hk henc
  | some q =>
      rw [henc] at hrel
      cases hrel

/-- **An ancestor is of a supported kind**: its children have been wrapped. -/
theorem kind_of_mem_ancestors (h : t.Mirrors d) {i a : NodeId} {n : Node}
    (hn : t.node? i = some n) (ha : a ∈ t.ancestors i) :
    ∃ m k, t.node? a = some m ∧ m.kind = some k := by
  -- the parent is one of these, and the rest are its own ancestors
  induction i using Nat.strongRecOn generalizing n with
  | _ i ih =>
      cases hpar : n.parent with
      | none =>
          rw [ancestors_of_root hn hpar] at ha
          cases ha
      | some p =>
          have hlt := h.parent_lt hn hpar
          rw [h.ancestors_of_parent hn hpar, List.mem_cons] at ha
          obtain ⟨p', m, ids, hpar', -, hm, hids, -⟩ :=
            h.parent hn (Nat.ne_of_gt (Nat.zero_lt_of_lt hlt))
          rw [hpar] at hpar'
          cases hpar'
          rcases ha with rfl | ha
          · obtain ⟨cs, -, hcs, -⟩ := h.children hm hids
            obtain ⟨k, hk⟩ := SyntaxNode.kind?_of_children hcs
            exact ⟨m, k, hm, (h.kind hm).trans hk⟩
          · exact ih p hlt hm ha

/-! ## The climb -/

/-- **A climb passes a first part of the way up**, in which no node introduces a scope, and lands at
the next node. -/
theorem climb_split (h : t.Mirrors d) (bound : Nat) {i : NodeId} {passed passed' : List NodeId}
    {landing : Landing} (hclimb : t.climb bound i passed = .ok (landing, passed')) :
    ∃ lower j, i :: t.ancestors i = lower ++ j :: t.ancestors j ∧
      passed' = lower.reverse ++ passed ∧ (∀ x ∈ lower, t.introducesAt x = false) ∧
      t.LandsAt j landing := by
  induction bound generalizing i passed with
  | zero => cases hclimb
  | succ bound ih =>
      cases hn : t.node? i with
      | none => rw [climb, hn] at hclimb; cases hclimb
      | some n =>
          rcases climb_step bound hn passed with ⟨s, hscope, hstep⟩ | ⟨hscope, ⟨-, hstep⟩ |
            ⟨k, hk, ⟨hintro, hstep⟩ | ⟨hnot, ⟨-, hstep⟩ | ⟨p, hpar, hstep⟩⟩⟩⟩ <;>
            rw [hstep] at hclimb
          · cases hclimb
            exact ⟨[], i, rfl, rfl, by simp, n, hn, hscope⟩
          · cases hclimb
          · cases hclimb
            exact ⟨[], i, rfl, rfl, by simp, rfl, n, hn, hscope, hk, hintro⟩
          · cases hclimb
          · obtain ⟨lower, j, hsplit, rfl, hlower, hland⟩ := ih hclimb
            refine ⟨i :: lower, j, ?_, by simp, ?_, hland⟩
            · rw [h.ancestors_of_parent hn hpar, hsplit, List.cons_append]
            · exact List.forall_mem_cons.mpr ⟨(introducesAt_of_kind hn hk).trans hnot, hlower⟩

/-! ## What remembering a scope changes -/

theorem node?_foldl_rememberScope (t : Tree) (passed : List NodeId) (s : ScopeId) (x : NodeId) :
    (passed.foldl (fun t n => t.rememberScope n s) t).node? x =
      if x ∈ passed then (t.node? x).map fun n => { n with scope := some s } else t.node? x := by
  induction passed generalizing t with
  | nil => simp
  | cons i passed ih =>
      rw [List.foldl_cons, ih, node?_rememberScope]
      by_cases hi : i = x
      · subst hi
        cases t.node? i <;> simp
      · have hne : x ≠ i := Ne.symm hi
        simp [hi, hne]

theorem scopes_foldl_rememberScope (t : Tree) (passed : List NodeId) (s : ScopeId) :
    (passed.foldl (fun t n => t.rememberScope n s) t).scopes = t.scopes := by
  induction passed generalizing t with
  | nil => rfl
  | cons i passed ih => exact ih (t.rememberScope i s)

/-- Remembering a scope once more changes nothing. -/
theorem HasScope.map_eq {x : NodeId} {s : ScopeId} (h : t.HasScope x s) :
    ((t.node? x).map fun n => { n with scope := some s }) = t.node? x := by
  obtain ⟨n, hn, hs⟩ := h
  rw [hn, Option.map_some, ← hs]

/-- **All that is changed by finding the scope `s` of node `i`**, which node `j` introduces. -/
structure Resolves (t t' : Tree) (i j : NodeId) (s : ScopeId) : Prop where
  /-- The nodes on the way up to `j` remember the scope, and nothing else about them changes; the
  other nodes do not change, and none is added. -/
  node : ∀ x, t'.node? x =
    if x ∈ t.scopePath i then (t.node? x).map fun n => { n with scope := some s } else t.node? x
  /-- If `j` has a scope already, it is the one, and no scope is opened. -/
  known : ∀ s₀, t.HasScope j s₀ → s = s₀ ∧ t'.scopes = t.scopes
  /-- Otherwise one scope is opened, after all others. -/
  opened : ∀ m k, t.node? j = some m → m.kind = some k → m.scope = none →
    s = t.scopeCount ∧ t'.scopes = t.scopes.push { node := j, kind := k }

/-- A climb that has ended at a node which knows its scope. All nodes from there up to the one that
introduces the scope remember it already. -/
theorem resolves_of_known (h : t.Sound d) {i j : NodeId} {s : ScopeId} {lower : List NodeId}
    (hsplit : i :: t.ancestors i = lower ++ j :: t.ancestors j)
    (hlower : ∀ x ∈ lower, t.introducesAt x = false) (hj : t.HasScope j s) :
    ∃ r, t.scope? s = some r ∧ t.nearestScope? i = some r.node ∧
      t.Resolves (lower.reverse.foldl (fun t n => t.rememberScope n s) t) i r.node s := by
  obtain ⟨r, below, above, hr, hway, hbelow⟩ := hj.nearest h
  obtain ⟨hintro, m, hm, hk, hs⟩ := h.scopes.record hr
  rw [hway, ← List.append_assoc] at hsplit
  have hnone : ∀ x ∈ lower ++ below, t.introducesAt x = false := by
    refine List.forall_mem_append.mpr ⟨hlower, fun x hx => ?_⟩
    obtain ⟨n, hn, hnot, -⟩ := hbelow x hx
    rw [introducesAt, hn, Option.bind_some, hnot]
  obtain ⟨hnearest, hpath⟩ := scopePath_of_split hsplit hnone
    ((introducesAt_of_kind hm hk).trans hintro)
  refine ⟨r, hr, hnearest, ?_, ?_, ?_⟩
  · intro x
    have hsame : x ∈ below ++ [r.node] → t.HasScope x s := by
      intro hx
      rcases List.mem_append.mp hx with hx | hx
      · obtain ⟨n, hn, -, hscope⟩ := hbelow x hx
        exact ⟨n, hn, hscope⟩
      · rw [List.mem_singleton.mp hx]
        exact ⟨m, hm, hs⟩
    rw [node?_foldl_rememberScope, hpath, List.append_assoc]
    by_cases hx : x ∈ lower
    · rw [if_pos (List.mem_reverse.mpr hx), if_pos (List.mem_append_left _ hx)]
    · rw [if_neg (mt List.mem_reverse.mp hx)]
      by_cases hx' : x ∈ below ++ [r.node]
      · rw [if_pos (List.mem_append_right _ hx'), (hsame hx').map_eq]
      · rw [if_neg (mt List.mem_append.mp (not_or_intro hx hx'))]
  · intro s₀ hs₀
    exact ⟨HasScope.unique ⟨m, hm, hs⟩ hs₀, scopes_foldl_rememberScope t _ s⟩
  · intro m' k hm' _ hnone'
    rw [hm] at hm'
    cases hm'
    rw [hs] at hnone'
    cases hnone'

/-- A climb that has ended at a node which introduces a scope, not opened yet. -/
theorem resolves_of_introduces {i j : NodeId} {n : Node} {k : Kind} {lower : List NodeId}
    (hsplit : i :: t.ancestors i = lower ++ j :: t.ancestors j)
    (hlower : ∀ x ∈ lower, t.introducesAt x = false) (hn : t.node? j = some n)
    (hnone : n.scope = none) (hk : n.kind = some k) (hintro : k.introducesScope = true) :
    t.nearestScope? i = some j ∧
      t.Resolves (lower.reverse.foldl (fun t' x => t'.rememberScope x t.scopes.size)
        (t.openScope j k).2) i j t.scopes.size := by
  have hj : t.introducesAt j = true := (introducesAt_of_kind hn hk).trans hintro
  obtain ⟨hnearest, hpath⟩ := scopePath_of_split hsplit hlower hj
  refine ⟨hnearest, ?_, ?_, ?_⟩
  · intro x
    rw [node?_foldl_rememberScope, hpath, node?_openScope]
    by_cases hx : x ∈ lower
    · -- a node below is not the one that opens the scope
      have hne : j ≠ x := by
        rintro rfl
        rw [hlower j hx] at hj
        cases hj
      rw [if_pos (List.mem_reverse.mpr hx), if_neg hne, if_pos (List.mem_append_left _ hx)]
    · rw [if_neg (mt List.mem_reverse.mp hx)]
      by_cases hjx : j = x
      · rw [if_pos hjx, if_pos (List.mem_append_right _ (List.mem_singleton.mpr hjx.symm))]
      · have hnot : x ∉ lower ++ [j] := by simp [hx, Ne.symm hjx]
        rw [if_neg hjx, if_neg hnot]
  · rintro s₀ ⟨m, hm, hs₀⟩
    rw [hn] at hm
    cases hm
    rw [hnone] at hs₀
    cases hs₀
  · intro m k' hm hk' _
    rw [hn] at hm
    cases hm
    rw [hk] at hk'
    cases hk'
    exact ⟨rfl, scopes_foldl_rememberScope _ _ _⟩

/-! ## How the question ends -/

/-- A question for a scope that fails has changed nothing: the climb only reads the tree. -/
theorem eq_of_scopeOf_error {i : NodeId} {e : QueryError} {t' : Tree}
    (h : scopeOf i t = .error e t') : t' = t := by
  cases hclimb : t.climb (i + 1) i [] with
  | error e' =>
      rw [scopeOf_of_climb_error hclimb] at h
      cases h
      rfl
  | ok landed =>
      rw [scopeOf_of_climb_ok hclimb] at h
      cases h

/-- **A question for a scope that succeeds** finds the nearest node that introduces one, and changes
no more than it has to. -/
theorem resolves_of_scopeOf (h : t.Sound d) {i : NodeId} {s : ScopeId} {t' : Tree}
    (hrun : scopeOf i t = .ok s t') :
    ∃ j, t.nearestScope? i = some j ∧ t.Resolves t' i j s := by
  cases hclimb : t.climb (i + 1) i [] with
  | error e =>
      rw [scopeOf_of_climb_error hclimb] at hrun
      cases hrun
  | ok landed =>
      obtain ⟨landing, passed⟩ := landed
      obtain ⟨lower, j, hsplit, hpassed, hlower, hland⟩ := climb_split h.arena _ hclimb
      rw [List.append_nil] at hpassed
      subst hpassed
      rw [scopeOf_of_climb_ok hclimb] at hrun
      cases landing with
      | known s =>
          cases hrun
          obtain ⟨r, -, hnearest, hresolves⟩ := resolves_of_known h hsplit hlower hland
          exact ⟨r.node, hnearest, hresolves⟩
      | introduces j' k =>
          obtain ⟨rfl, n, hn, hnone, hk, hintro⟩ := hland
          cases hrun
          exact ⟨j', resolves_of_introduces hsplit hlower hn hnone hk hintro⟩

/-- **How the question for the scope of a node ends**, and what it leaves. -/
structure ScopeResolves (d : SyntaxNode) (t : Tree) (i : NodeId) (n : Node) : Prop where
  /-- A node of unsupported kind has no scope. -/
  unsupported : n.kind = none → scopeOf i t = .error (.fault n.source.unsupported) t
  /-- That is never due to a node above: all these are of supported kinds. -/
  ancestors : ∀ a ∈ t.ancestors i, ∃ m k, t.node? a = some m ∧ m.kind = some k
  /-- If no node from this one upwards introduces a scope, the root is to blame. -/
  unscoped : n.kind ≠ none → t.nearestScope? i = none →
    scopeOf i t = .error (.fault (.noEnclosingScope d.digest)) t
  /-- Otherwise the question finds the scope of the nearest node that introduces one. Only the way
  up to there is changed, and a scope is opened only if that node has none. -/
  resolved : n.kind ≠ none → ∀ j, t.nearestScope? i = some j →
    ∃ s t', scopeOf i t = .ok s t' ∧ (∃ r, t'.scope? s = some r ∧ r.node = j) ∧
      t.Resolves t' i j s
  /-- A question that fails changes nothing. -/
  atomic : ∀ e t', scopeOf i t = .error e t' → t' = t

end Tree

/-- **The scope of a node is that of the nearest node above that introduces one**, in every
reachable tree, whatever scopes are remembered and wherever. -/
theorem Reachable.scopeOf_resolves {d : SyntaxNode} {t : Tree} (h : Reachable d t) {i : NodeId}
    {n : Tree.Node} (hn : t.node? i = some n) : t.ScopeResolves d i n := by
  have harena := h.sound.arena
  have hi := harena.stands_position hn
  have hanswers := Tree.scopeOf_answers h.sound hi
  have hfails : ∀ f, d.scopeOf (t.position i) = .error f →
      Tree.scopeOf i t = .error (.fault f) t := by
    intro f hf
    obtain ⟨t', hrun, -⟩ := hanswers.exists_of_error hf
    rw [hrun, Tree.eq_of_scopeOf_error hrun]
  refine ⟨?_, fun a ha => Tree.kind_of_mem_ancestors harena hn ha, ?_, ?_,
    fun e t' hrun => Tree.eq_of_scopeOf_error hrun⟩
  · intro hnone
    rw [harena.kind hn] at hnone
    exact hfails _ (SyntaxNode.scopeOf_of_kind?_eq_none (hi.valueAt? harena hn) hnone)
  · intro hk hnone
    exact hfails _ (Tree.scopeOf_of_nearestScope?_eq_none harena hi hn hk hnone)
  · intro hk j hj
    obtain ⟨q, hq, hjq⟩ := Tree.scopeOf_of_nearestScope? harena hi hn hk hj
    obtain ⟨s, t', hrun, hmoves, ⟨r, hr, hrq⟩, -⟩ := hanswers.exists_of_ok hq
    obtain ⟨j', hj', hresolves⟩ := Tree.resolves_of_scopeOf h.sound hrun
    rw [hj] at hj'
    cases hj'
    exact ⟨s, t', hrun, ⟨r, hr, hrq.inj (hjq.extend hmoves.extends)⟩, hresolves⟩

/-- The scope of the inner declarator, in a tree where no scope is open: the function, four nodes
up, introduces it. -/
theorem Sample.scopeOf_resolves_walked :
    Reachable Sample.program Sample.walked ∧ Sample.walked.scopePath 6 = [6, 5, 4, 2] ∧
      ∃ n s t', Sample.walked.node? 6 = some n ∧ Sample.walked.ScopeResolves Sample.program 6 n ∧
        Tree.scopeOf 6 Sample.walked = .ok s t' ∧ Sample.walked.Resolves t' 6 2 s := by
  have hsize : 6 < Sample.walked.size := by decide +kernel
  have hkind : ((Sample.walked.node? 6).bind Tree.Node.kind).isSome = true := by decide +kernel
  have hnearest : Sample.walked.nearestScope? 6 = some 2 := by decide +kernel
  obtain ⟨n, hn⟩ := Tree.exists_node?_of_lt hsize
  rw [hn, Option.bind_some, Option.isSome_iff_ne_none] at hkind
  have hscope := Reachable.scopeOf_resolves Sample.reachable_walked hn
  obtain ⟨s, t', hrun, -, hresolves⟩ := hscope.resolved hkind 2 hnearest
  exact ⟨Sample.reachable_walked, by decide +kernel, n, s, t', hn, hscope, hrun, hresolves⟩

end LexicalScope
