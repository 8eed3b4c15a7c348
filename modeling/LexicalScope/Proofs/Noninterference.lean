import LexicalScope.Proofs.Skeleton
import LexicalScope.Proofs.Stability

set_option autoImplicit false

/-! # The scope report depends on the skeleton of the document only

Two trees over documents with the same skeleton go through a report side by side. `Tree.Twins`
says that they show the same under every number, but for the members of a source that do not
matter for scopes. `Query.Lockstep` says that two questions give related answers and leave related
trees, or fail with the same error up to digests; the rules follow the way questions are put
together.

The two walks have different bounds, since an edit may add or remove objects. Neither bound is
used up (`Tree.ListsWithin`), so the walks end together all the same.

* `Tree.scopeReport_lockstep`: the reports of twins are the same.
* `SyntaxNode.Edits.scopeReport_eq`: edits do not change the scope report.
-/

namespace LexicalScope

open Query

/-- The error without the digest of the node where it was found. -/
def QueryError.withoutDigest : QueryError → QueryError
  | fault f => fault f.withoutDigest
  | noNode id => noNode id
  | noScope id => noScope id

namespace Tree

/-! ## Twins -/

/-- Two wrapped nodes that differ in what does not matter for scopes only. -/
structure Node.Twins (n n' : Node) : Prop where
  skeleton : n.source.skeleton = n'.source.skeleton
  kind : n.kind = n'.kind
  parent : n.parent = n'.parent
  depth : n.depth = n'.depth
  children : n.children = n'.children
  descendants : n.descendants = n'.descendants
  scope : n.scope = n'.scope

/-- **Two trees that show the same under every number**, but for what does not matter for
scopes. -/
structure Twins (t t' : Tree) : Prop where
  node : ∀ i, Option.Rel Node.Twins (t.node? i) (t'.node? i)
  scopes : t.scopes = t'.scopes

theorem Node.Twins.wrap {c c' : SyntaxNode} (h : c.skeleton = c'.skeleton)
    (parent : Option NodeId) (depth : Nat) :
    (Node.wrap c parent depth).Twins (Node.wrap c' parent depth) :=
  ⟨h, SyntaxNode.kind?_of_skeleton_eq h, rfl, rfl, rfl, rfl, rfl⟩

namespace Twins

variable {t t' u u' : Tree}

theorem ofDocument {d d' : SyntaxNode} (h : d.skeleton = d'.skeleton) :
    (ofDocument d).Twins (ofDocument d') := by
  refine ⟨fun i => ?_, rfl⟩
  cases i with
  | zero => exact .some (.wrap h none 0)
  | succ i => exact .none

theorem node_cases (h : t.Twins t') (i : NodeId) :
    (t.node? i = none ∧ t'.node? i = none) ∨
      ∃ n n', t.node? i = some n ∧ t'.node? i = some n' ∧ n.Twins n' := by
  have hrel := h.node i
  generalize t.node? i = x, t'.node? i = y at hrel
  cases hrel with
  | none => exact Or.inl ⟨rfl, rfl⟩
  | some hn => exact Or.inr ⟨_, _, rfl, rfl, hn⟩

theorem size_eq (h : t.Twins t') : t.size = t'.size := by
  refine eq_of_forall_lt_iff fun i => ?_
  rcases h.node_cases i with ⟨hn, hn'⟩ | ⟨n, n', hn, hn', -⟩
  · have hi : t.size ≤ i := Array.getElem?_eq_none_iff.mp hn
    have hi' : t'.size ≤ i := Array.getElem?_eq_none_iff.mp hn'
    omega
  · exact iff_of_true (lt_size_of_node? hn) (lt_size_of_node? hn')

/-- Twins in which one node is changed in the same way are twins. -/
theorem of_modified (h : t.Twins t') {id : NodeId} {f : Node → Node}
    (hu : ∀ i, u.node? i = if id = i then (t.node? i).map f else t.node? i)
    (hu' : ∀ i, u'.node? i = if id = i then (t'.node? i).map f else t'.node? i)
    (hf : ∀ n n', n.Twins n' → (f n).Twins (f n')) (hscopes : u.scopes = u'.scopes) :
    u.Twins u' := by
  refine ⟨fun i => ?_, hscopes⟩
  rw [hu, hu']
  split
  · exact rel_map hf (h.node i)
  · exact h.node i

theorem rememberDescendants (h : t.Twins t') (id : NodeId) (below : List NodeId) :
    (t.rememberDescendants id below).Twins (t'.rememberDescendants id below) :=
  h.of_modified (fun i => t.node?_rememberDescendants id i below)
    (fun i => t'.node?_rememberDescendants id i below)
    (fun _ _ hn => ⟨hn.1, hn.2, hn.3, hn.4, hn.5, rfl, hn.7⟩) h.scopes

theorem rememberScope (h : t.Twins t') (id : NodeId) (s : ScopeId) :
    (t.rememberScope id s).Twins (t'.rememberScope id s) :=
  h.of_modified (fun i => t.node?_rememberScope id i s) (fun i => t'.node?_rememberScope id i s)
    (fun _ _ hn => ⟨hn.1, hn.2, hn.3, hn.4, hn.5, hn.6, rfl⟩) h.scopes

theorem foldl_rememberScope (h : t.Twins t') (passed : List NodeId) (s : ScopeId) :
    (passed.foldl (fun t n => t.rememberScope n s) t).Twins
      (passed.foldl (fun t n => t.rememberScope n s) t') := by
  induction passed generalizing t t' with
  | nil => exact h
  | cons i passed ih => exact ih (h.rememberScope i s)

theorem rememberNames (h : t.Twins t') (s : ScopeId) (names : List String) :
    (t.rememberNames s names).Twins (t'.rememberNames s names) := by
  refine ⟨h.node, ?_⟩
  rw [Tree.rememberNames, Tree.rememberNames, h.scopes]

/-- Twins open the same scope at a landing. -/
theorem land (h : t.Twins t') (landing : Landing) :
    (t.land landing).1 = (t'.land landing).1 ∧ (t.land landing).2.Twins (t'.land landing).2 := by
  cases landing with
  | known s => exact ⟨rfl, h⟩
  | introduces i k =>
      have hpush : ({ t with scopes := t.scopes.push { node := i, kind := k } } : Tree).Twins
          { t' with scopes := t'.scopes.push { node := i, kind := k } } :=
        ⟨h.node, congrArg (·.push { node := i, kind := k }) h.scopes⟩
      -- a scope is numbered by how many there are, which is the same for twins
      have hsize : t.scopes.size = t'.scopes.size := congrArg Array.size h.scopes
      refine ⟨hsize, ?_⟩
      have hopen := hpush.rememberScope i t.scopes.size
      rw [Tree.land, Tree.land, openScope, openScope, ← hsize]
      exact hopen

/-- Twins wrap children with the same skeletons under the same numbers. -/
theorem adopt (h : t.Twins t') (id : NodeId) (depth : Nat) {cs cs' : List SyntaxNode}
    (hcs : cs.map SyntaxNode.skeleton = cs'.map SyntaxNode.skeleton) :
    (t.adopt id depth cs).1 = (t'.adopt id depth cs').1 ∧
      (t.adopt id depth cs).2.Twins (t'.adopt id depth cs').2 := by
  have hlen : cs.length = cs'.length := by simpa using congrArg List.length hcs
  have hids : (t.adopt id depth cs).1 = (t'.adopt id depth cs').1 := by
    have hsize : t.nodes.size = t'.nodes.size := h.size_eq
    simp only [Tree.adopt, hlen, hsize]
  have hchild : ∀ k : Nat, Option.Rel Node.Twins
      (cs[k]?.map fun c => Node.wrap c (some id) (depth + 1))
      (cs'[k]?.map fun c => Node.wrap c (some id) (depth + 1)) := by
    intro k
    have hk := congrArg (fun l => l[k]?) hcs
    simp only [List.getElem?_map] at hk
    cases hc : cs[k]? with
    | none =>
        rw [hc] at hk
        rw [Option.map_eq_none_iff.mp hk.symm]
        exact .none
    | some c =>
        rw [hc] at hk
        obtain ⟨c', hc', hskel⟩ := Option.map_eq_some_iff.mp hk.symm
        rw [hc']
        exact .some (.wrap hskel.symm _ _)
  refine ⟨hids, fun i => ?_, h.scopes⟩
  have hnode : Option.Rel Node.Twins (t.wrapped? id depth cs i) (t'.wrapped? id depth cs' i) := by
    unfold wrapped?
    rw [← h.size_eq]
    split
    · exact h.node i
    · exact hchild _
  rw [node?_adopt, node?_adopt, hids]
  split
  · exact rel_map (fun _ _ hn => ⟨hn.1, hn.2, hn.3, hn.4, rfl, hn.6, hn.7⟩) hnode
  · exact hnode

end Twins

end Tree

/-! ## Lockstep -/

namespace Query

variable {α β γ δ : Type} {P Q : Tree → Tree → Prop} {rel : α → β → Prop} {t t' : Tree}

/-- **Two questions in lockstep**, asked of two trees: they give related answers and leave related
trees, or they fail with the same error up to digests. -/
def Lockstep (P : Tree → Tree → Prop) (rel : α → β → Prop) (x : Query α) (y : Query β)
    (t t' : Tree) : Prop :=
  (∃ a b u u', x t = .ok a u ∧ y t' = .ok b u' ∧ P u u' ∧ rel a b) ∨
    ∃ e e' u u', x t = .error e u ∧ y t' = .error e' u' ∧ e.withoutDigest = e'.withoutDigest

namespace Lockstep

theorem pure {a : α} {b : β} (ht : P t t') (hab : rel a b) :
    Lockstep P rel (Pure.pure a) (Pure.pure b) t t' :=
  Or.inl ⟨a, b, t, t', rfl, rfl, ht, hab⟩

theorem throw {e e' : QueryError} (h : e.withoutDigest = e'.withoutDigest) :
    Lockstep P rel (MonadExcept.throw e) (MonadExcept.throw e') t t' :=
  Or.inr ⟨e, e', t, t', rfl, rfl, h⟩

/-- Questions that have begun go on in the trees that they have left. -/
theorem bind_ok {rel' : γ → δ → Prop} {x : Query α} {y : Query β} {f : α → Query γ}
    {g : β → Query δ} {a : α} {b : β} {u u' : Tree} (hx : x t = .ok a u) (hy : y t' = .ok b u')
    (hf : Lockstep Q rel' (f a) (g b) u u') : Lockstep Q rel' (x >>= f) (y >>= g) t t' := by
  rw [Lockstep, bind_of_ok hx, bind_of_ok hy]
  exact hf

theorem bind_error {rel' : γ → δ → Prop} {x : Query α} {y : Query β} {f : α → Query γ}
    {g : β → Query δ} {e e' : QueryError} {u u' : Tree} (hx : x t = .error e u)
    (hy : y t' = .error e' u') (he : e.withoutDigest = e'.withoutDigest) :
    Lockstep Q rel' (x >>= f) (y >>= g) t t' :=
  Or.inr ⟨e, e', u, u', bind_of_error hx, bind_of_error hy, he⟩

/-- **Questions in sequence stay in lockstep.** -/
theorem bind {rel' : γ → δ → Prop} {x : Query α} {y : Query β} {f : α → Query γ}
    {g : β → Query δ} (hx : Lockstep P rel x y t t')
    (hf : ∀ a b u u', P u u' → rel a b → Lockstep Q rel' (f a) (g b) u u') :
    Lockstep Q rel' (x >>= f) (y >>= g) t t' := by
  rcases hx with ⟨a, b, u, u', hxa, hyb, hu, hab⟩ | ⟨e, e', u, u', hxe, hye, he⟩
  · exact bind_ok hxa hyb (hf a b u u' hu hab)
  · exact bind_error hxe hye he

theorem map {rel' : γ → δ → Prop} {x : Query α} {y : Query β} {f : α → γ} {g : β → δ}
    (hx : Lockstep P rel x y t t') (hf : ∀ a b, rel a b → rel' (f a) (g b)) :
    Lockstep P rel' (f <$> x) (g <$> y) t t' := by
  rw [map_eq_pure_bind, map_eq_pure_bind]
  exact hx.bind fun a b u u' hu hab => .pure hu (hf a b hab)

/-- What each side leaves on its own may be added to what the two sides leave together. -/
theorem and {x : Query α} {y : Query β} {p p' : Tree → Prop} (hx : Lockstep P rel x y t t')
    (hp : ∀ a u, x t = .ok a u → p u) (hp' : ∀ b u', y t' = .ok b u' → p' u') :
    Lockstep (fun u u' => P u u' ∧ p u ∧ p' u') rel x y t t' := by
  rcases hx with ⟨a, b, u, u', hxa, hyb, hu, hab⟩ | herr
  · exact Or.inl ⟨a, b, u, u', hxa, hyb, ⟨hu, hp a u hxa, hp' b u' hyb⟩, hab⟩
  · exact Or.inr herr

end Lockstep

end Query

namespace Tree

variable {d d' : SyntaxNode} {t t' : Tree}

theorem nodeAt_lockstep {P : Tree → Tree → Prop} (h : t.Twins t') (hP : P t t') (i : NodeId) :
    Lockstep P Node.Twins (nodeAt i) (nodeAt i) t t' := by
  rcases h.node_cases i with ⟨hn, hn'⟩ | ⟨n, n', hn, hn', htwins⟩
  · exact Or.inr ⟨_, _, t, t', nodeAt_of_none hn, nodeAt_of_none hn', rfl⟩
  · exact Or.inl ⟨n, n', t, t', nodeAt_of_node? hn, nodeAt_of_node? hn', hP, htwins⟩

theorem scopeAt_lockstep {P : Tree → Tree → Prop} (h : t.Twins t') (hP : P t t') (s : ScopeId) :
    Lockstep P Eq (scopeAt s) (scopeAt s) t t' := by
  have hs : t.scope? s = t'.scope? s := by rw [scope?, h.scopes, scope?]
  cases hr : t'.scope? s with
  | none => exact Or.inr ⟨_, _, t, t', scopeAt_of_none (hs.trans hr), scopeAt_of_none hr, rfl⟩
  | some r =>
      exact Or.inl ⟨r, r, t, t', scopeAt_of_scope? (hs.trans hr), scopeAt_of_scope? hr, hP, rfl⟩

/-! ### Walks -/

theorem children_lockstep (h : t.Twins t') (i : NodeId) :
    Lockstep Twins Eq (children i) (children i) t t' := by
  refine (nodeAt_lockstep h h i).bind fun n n' u u' hu hn => ?_
  rw [← hn.children]
  cases n.children with
  | some ids => exact .pure hu rfl
  | none =>
      rcases SyntaxNode.children_of_skeleton_eq hn.skeleton with
        ⟨cs, cs', hcs, hcs', hskel⟩ | ⟨f, f', hf, hf', hsame⟩
      · rw [hcs, hcs', ← hn.depth]
        obtain ⟨hids, htwins⟩ := hu.adopt i n.depth hskel
        exact Or.inl ⟨_, _, _, _, rfl, rfl, htwins, hids⟩
      · rw [hf, hf']
        exact .throw (congrArg QueryError.fault hsame)

theorem Walk.step_lockstep (h : t.Twins t') (w : Walk) :
    Lockstep Twins Eq w.step w.step t t' := by
  obtain ⟨pending, visited⟩ := w
  cases pending with
  | nil => exact .pure h rfl
  | cons i rest =>
      refine (nodeAt_lockstep h h i).bind fun n n' u u' hu hn => ?_
      rw [← hn.descendants]
      cases n.descendants with
      | some below => exact .pure hu rfl
      | none =>
          refine (children_lockstep hu i).bind ?_
          rintro ids _ v v' hv rfl
          exact .pure hv rfl

/-- What is to be listed from the given nodes, these included, fits a bound. -/
def ListsWithin (d : SyntaxNode) (t : Tree) (ids : List NodeId) (bound : Nat) : Prop :=
  ∃ ps, List.Forall₂ t.Stands ids ps ∧ (ps.flatMap d.preorderAt).length ≤ bound

theorem ListsWithin.pos (h : t.Sound d) {ids : List NodeId} {bound : Nat}
    (hb : t.ListsWithin d ids bound) (hne : ids ≠ []) : 0 < bound := by
  obtain ⟨ps, hps, hle⟩ := hb
  cases hps with
  | nil => exact absurd rfl hne
  | cons hi _ =>
      have hpos := length_preorderAt_pos h.arena hi
      rw [List.flatMap_cons, List.length_append] at hle
      omega

/-- The children of a node fit the bound of the walk below it. -/
theorem listsWithin_children (h : t.Sound d) {i : NodeId} {n : Node} {ids : List NodeId}
    {u : Tree} (hn : t.node? i = some n) (hrun : children i t = .ok ids u) :
    u.Sound d ∧ u.ListsWithin d ids n.source.objectCount := by
  obtain ⟨p, hi⟩ := h.arena.exists_stands hn
  cases hcs : n.source.children with
  | error f => rw [children_of_error h.arena hn hcs] at hrun; cases hrun
  | ok cs =>
      obtain ⟨ids', u', n', hok, hmoves, hn', hsrc, hids⟩ := children_of_ok d hn hcs
      rw [hrun] at hok
      cases hok
      have hu := h.moves hmoves
      have hstands := hu.arena.stands_children (hi.extend hmoves.extends) hn' hids
      rw [hsrc] at hstands
      exact ⟨hu, _, hstands, SyntaxNode.length_flatMap_steps_le (hi.valueAt? h.arena hn) hcs⟩

/-- After a turn there is less to list. -/
theorem ListsWithin.step (h : t.Sound d) {w w' : Walk} {u : Tree} {bound : Nat}
    (hb : t.ListsWithin d w.pending (bound + 1)) (hne : w.pending ≠ [])
    (hrun : w.step t = .ok w' u) : u.Sound d ∧ u.ListsWithin d w'.pending bound := by
  obtain ⟨ps, hps, hle⟩ := hb
  rcases Walk.step_cases h w hps hne with
    ⟨f, hstep, -⟩ | ⟨w₁, u₁, ps₁, hstep, hmoves, hps₁, -, hlt, -⟩
  · rw [hrun] at hstep
    cases hstep
  · rw [hrun] at hstep
    cases hstep
    exact ⟨h.moves hmoves, ps₁, hps₁, by omega⟩

/-- **Two walks in lockstep**, each within its own bound. -/
theorem Walk.run_lockstep {bound bound' : Nat} (htwins : t.Twins t') (h : t.Sound d)
    (h' : t'.Sound d') (w : Walk) (hb : t.ListsWithin d w.pending bound)
    (hb' : t'.ListsWithin d' w.pending bound') :
    Lockstep Twins Eq (w.run bound) (w.run bound') t t' := by
  induction bound generalizing bound' t t' w with
  | zero =>
      have hnil : w.pending = [] := by
        by_contra hne
        exact Nat.lt_irrefl 0 (hb.pos h hne)
      exact Or.inl ⟨_, _, t, t', run_of_nil hnil 0, run_of_nil hnil bound', htwins, rfl⟩
  | succ bound ih =>
      by_cases hne : w.pending = []
      · exact Or.inl ⟨_, _, t, t', run_of_nil hne _, run_of_nil hne bound', htwins, rfl⟩
      · -- the other bound is not used up either
        obtain ⟨bound', rfl⟩ := Nat.exists_eq_succ_of_ne_zero (Nat.ne_of_gt (hb'.pos h' hne))
        have hturn : ∀ bound, Walk.run (bound + 1) w = w.step >>= fun w => w.run bound := by
          intro bound
          rw [Walk.run, if_neg (by simpa using hne)]
        rw [hturn, Nat.succ_eq_add_one, hturn]
        rcases step_lockstep htwins w with
          ⟨w₁, _, u, u', hstep, hstep', hu, rfl⟩ | ⟨e, e', u, u', hstep, hstep', he⟩
        · obtain ⟨hs, hl⟩ := hb.step h hne hstep
          obtain ⟨hs', hl'⟩ := hb'.step h' hne hstep'
          exact .bind_ok hstep hstep' (ih hu hs hs' w₁ hl hl')
        · exact .bind_error hstep hstep' he

/-! ### Questions -/

/-- Twins that agree each with its own document. -/
def SoundTwins (d d' : SyntaxNode) (t t' : Tree) : Prop :=
  t.Twins t' ∧ t.Sound d ∧ t'.Sound d'

theorem Sound.of_run (h : t.Sound d) (q : Question NodeId ScopeId) {α : Type} {x : Query α}
    {f : α → Answer NodeId ScopeId ScopeRow} (hq : q.ask = f <$> x) {a : α} {u : Tree}
    (hrun : x t = .ok a u) : u.Sound d := by
  have hafter : q.after t = u := by
    simp only [Question.after, hq, Functor.map, EStateM.map, hrun]
  rw [← hafter]
  by_cases hv : q.Valid t
  · exact h.moves (q.moves_after h hv)
  · rw [Question.after_of_not_valid hv]
    exact h

/-- Twins stay in agreement with their documents through a question. -/
theorem SoundTwins.lockstep (h : SoundTwins d d' t t') (q : Question NodeId ScopeId) {α : Type}
    {x : Query α} {f : α → Answer NodeId ScopeId ScopeRow} (hq : q.ask = f <$> x)
    (hx : Lockstep Twins Eq x x t t') : Lockstep (SoundTwins d d') Eq x x t t' :=
  hx.and (fun _ _ hrun => h.2.1.of_run q hq hrun) fun _ _ hrun => h.2.2.of_run q hq hrun

theorem descendants_lockstep (h : SoundTwins d d' t t') (i : NodeId) :
    Lockstep (SoundTwins d d') Eq (descendants i) (descendants i) t t' := by
  refine h.lockstep (.descendants i) rfl ?_
  obtain ⟨htwins, hs, hs'⟩ := h
  rw [descendants]
  rcases htwins.node_cases i with ⟨hn, hn'⟩ | ⟨n, n', hn, hn', hnode⟩
  · exact .bind_error (nodeAt_of_none hn) (nodeAt_of_none hn') rfl
  · refine .bind_ok (nodeAt_of_node? hn) (nodeAt_of_node? hn') ?_
    rw [← hnode.descendants]
    cases n.descendants with
    | some below => exact .pure htwins rfl
    | none =>
        rcases children_lockstep htwins i with
          ⟨ids, _, u, u', hok, hok', hu, rfl⟩ | ⟨e, e', u, u', herr, herr', he⟩
        · -- the bounds of the walks may differ, but each is enough for its own document
          obtain ⟨hsu, hl⟩ := listsWithin_children hs hn hok
          obtain ⟨hsu', hl'⟩ := listsWithin_children hs' hn' hok'
          refine .bind_ok hok hok' ((Walk.run_lockstep hu hsu hsu' ⟨ids, #[]⟩ hl hl').bind ?_)
          rintro below _ v v' hv rfl
          exact Or.inl ⟨below, below, _, _, rfl, rfl, hv.rememberDescendants i below, rfl⟩
        · exact .bind_error herr herr' he

/-! ### Scopes -/

theorem Twins.unscoped (h : t.Twins t') :
    t.unscoped.withoutDigest = t'.unscoped.withoutDigest := by
  rw [Tree.unscoped, Tree.unscoped]
  rcases h.node_cases root with ⟨hn, hn'⟩ | ⟨n, n', hn, hn', -⟩
  · rw [hn, hn']
  · rw [hn, hn']
    rfl

/-- Two climbs land at the same place, or fail with the same error up to digests. -/
theorem Twins.climb (h : t.Twins t') (bound : Nat) (i : NodeId) (passed : List NodeId) :
    (∃ r, t.climb bound i passed = .ok r ∧ t'.climb bound i passed = .ok r) ∨
      ∃ e e', t.climb bound i passed = .error e ∧ t'.climb bound i passed = .error e' ∧
        e.withoutDigest = e'.withoutDigest := by
  induction bound generalizing i passed with
  | zero => exact Or.inr ⟨_, _, rfl, rfl, h.unscoped⟩
  | succ bound ih =>
      rw [Tree.climb, Tree.climb]
      rcases h.node_cases i with ⟨hn, hn'⟩ | ⟨n, n', hn, hn', hnode⟩
      · rw [hn, hn']
        exact Or.inr ⟨_, _, rfl, rfl, rfl⟩
      · simp only [hn, hn', ← hnode.scope, ← hnode.kind, ← hnode.parent]
        cases n.scope with
        | some s => exact Or.inl ⟨_, rfl, rfl⟩
        | none =>
            cases n.kind with
            | none =>
                refine Or.inr ⟨_, _, rfl, rfl, ?_⟩
                exact congrArg QueryError.fault
                  (SyntaxNode.unsupported_of_skeleton_eq hnode.skeleton)
            | some k =>
                by_cases hintro : k.introducesScope = true
                · simp only [if_pos hintro]
                  exact Or.inl ⟨_, rfl, rfl⟩
                · simp only [if_neg hintro]
                  cases n.parent with
                  | none => exact Or.inr ⟨_, _, rfl, rfl, h.unscoped⟩
                  | some p => exact ih p (i :: passed)

theorem scopeOf_lockstep (h : SoundTwins d d' t t') (i : NodeId) :
    Lockstep (SoundTwins d d') Eq (scopeOf i) (scopeOf i) t t' := by
  refine h.lockstep (.scopeOf i) rfl ?_
  rcases h.1.climb (i + 1) i [] with ⟨⟨landing, passed⟩, hok, hok'⟩ | ⟨e, e', herr, herr', he⟩
  · obtain ⟨hscope, hland⟩ := h.1.land landing
    refine Or.inl ⟨_, _, _, _, scopeOf_of_climb_ok hok, scopeOf_of_climb_ok hok', ?_, hscope⟩
    rw [← hscope]
    exact hland.foldl_rememberScope passed _
  · exact Or.inr ⟨e, e', t, t', scopeOf_of_climb_error herr, scopeOf_of_climb_error herr', he⟩

theorem outerScope_lockstep (h : SoundTwins d d' t t') (s : ScopeId) :
    Lockstep (SoundTwins d d') Eq (outerScope s) (outerScope s) t t' := by
  refine (scopeAt_lockstep h.1 h s).bind ?_
  rintro r _ u u' hu rfl
  refine (nodeAt_lockstep hu.1 hu r.node).bind fun n n' v v' hv hn => ?_
  rw [← hn.parent]
  cases n.parent with
  | none => exact .pure hv rfl
  | some p => exact (scopeOf_lockstep hv p).map fun _ _ hs => congrArg some hs

/-! ### Declared names -/

theorem nameIn_lockstep (h : SoundTwins d d' t t') (s : ScopeId) (x : NodeId) :
    Lockstep (SoundTwins d d') Eq (nameIn s x) (nameIn s x) t t' := by
  refine (nodeAt_lockstep h.1 h x).bind fun n n' u u' hu hn => ?_
  rw [← hn.parent]
  cases n.parent with
  | none => exact .pure hu rfl
  | some p =>
      refine (scopeOf_lockstep hu p).bind ?_
      rintro s' _ v v' hv rfl
      exact .pure hv (by rw [SyntaxNode.declaredName?_of_skeleton_eq hn.skeleton])

theorem collectNames_lockstep (h : SoundTwins d d' t t') (s : ScopeId) (ids : List NodeId)
    (names : Array String) :
    Lockstep (SoundTwins d d') Eq (collectNames s ids names) (collectNames s ids names) t t' := by
  induction ids generalizing t t' names with
  | nil => exact .pure h rfl
  | cons x ids ih =>
      refine (nameIn_lockstep h s x).bind ?_
      rintro name _ u u' hu rfl
      exact ih hu _

theorem declaredNames_lockstep (h : SoundTwins d d' t t') (s : ScopeId) :
    Lockstep (SoundTwins d d') Eq (declaredNames s) (declaredNames s) t t' := by
  refine h.lockstep (.declaredNames s) rfl ?_
  refine (scopeAt_lockstep h.1 h s).bind ?_
  rintro r _ u u' hu rfl
  cases r.names with
  | some names => exact .pure hu.1 rfl
  | none =>
      refine (descendants_lockstep hu r.node).bind ?_
      rintro below _ v v' hv rfl
      refine (collectNames_lockstep hv s below #[]).bind ?_
      rintro names _ w w' hw rfl
      exact Or.inl ⟨_, _, _, _, rfl, rfl, hw.1.rememberNames s names.toList, rfl⟩

/-! ### The report -/

theorem collectScopes_lockstep (h : SoundTwins d d' t t') (ids : List NodeId)
    (scopes : Array ScopeId) :
    Lockstep (SoundTwins d d') Eq (collectScopes ids scopes) (collectScopes ids scopes) t t' := by
  induction ids generalizing t t' scopes with
  | nil => exact .pure h rfl
  | cons x ids ih =>
      refine (nodeAt_lockstep h.1 h x).bind fun n n' u u' hu hn => ?_
      rw [← hn.kind]
      split
      · refine (scopeOf_lockstep hu x).bind ?_
        rintro s _ v v' hv rfl
        exact ih hv _
      · exact ih hu _

theorem allScopes_lockstep (h : SoundTwins d d' t t') :
    Lockstep (SoundTwins d d') Eq allScopes allScopes t t' := by
  refine (scopeOf_lockstep h root).bind ?_
  rintro s _ u u' hu rfl
  refine (descendants_lockstep hu root).bind ?_
  rintro below _ v v' hv rfl
  refine (collectScopes_lockstep hv below #[s]).bind ?_
  rintro scopes _ w w' hw rfl
  exact .pure hw rfl

theorem scopeSummary_lockstep (h : SoundTwins d d' t t') (s : ScopeId)
    (before : Array ScopeSummary) :
    Lockstep (SoundTwins d d') Eq (scopeSummary s before) (scopeSummary s before) t t' := by
  refine (scopeAt_lockstep h.1 h s).bind ?_
  rintro r _ u u' hu rfl
  refine (nodeAt_lockstep hu.1 hu r.node).bind fun n n' v v' hv hn => ?_
  refine (outerScope_lockstep hv s).bind ?_
  rintro outer _ w w' hw rfl
  refine (declaredNames_lockstep hw s).bind ?_
  rintro names _ z z' hz rfl
  exact .pure hz (by rw [SyntaxNode.declaredName?_of_skeleton_eq hn.skeleton])

theorem collectSummaries_lockstep (h : SoundTwins d d' t t') (ids : List ScopeId)
    (summaries : Array ScopeSummary) :
    Lockstep (SoundTwins d d') Eq (collectSummaries ids summaries)
      (collectSummaries ids summaries) t t' := by
  induction ids generalizing t t' summaries with
  | nil => exact .pure h rfl
  | cons s ids ih =>
      refine (scopeSummary_lockstep h s summaries).bind ?_
      rintro summary _ u u' hu rfl
      exact ih hu _

theorem scopeSummaries_lockstep (h : SoundTwins d d' t t') :
    Lockstep (SoundTwins d d') Eq scopeSummaries scopeSummaries t t' := by
  refine (allScopes_lockstep h).bind ?_
  rintro ids _ u u' hu rfl
  refine (collectSummaries_lockstep hu ids #[]).bind ?_
  rintro summaries _ v v' hv rfl
  exact .pure hv rfl

/-- **The scope reports of twins are the same**, up to the digest of an error. -/
theorem scopeReport_lockstep (h : SoundTwins d d' t t') :
    Lockstep (SoundTwins d d') Eq scopeReport scopeReport t t' := by
  refine (scopeSummaries_lockstep h).bind ?_
  rintro summaries _ u u' hu rfl
  exact .pure hu rfl

/-- A scope report fails with a fault of the document only. -/
theorem fault_of_scopeReport_error (h : t.Sound d) {e : QueryError} {u : Tree}
    (hrun : scopeReport t = .error e u) : ∃ f, e = .fault f := by
  have hanswers := scopeReport_answers h
  cases hr : d.scopeReport with
  | ok entries =>
      obtain ⟨rows, t', hok, -⟩ := hanswers.exists_of_ok hr
      rw [hrun] at hok
      cases hok
  | error f =>
      obtain ⟨t', herr, -⟩ := hanswers.exists_of_error hr
      rw [hrun] at herr
      cases herr
      exact ⟨f, rfl⟩

end Tree

/-! ## Edits -/

/-- **The scope report does not depend on what edits change.** Take a document and edit it: give
the members of any objects another order, and in any nodes add, delete or change members that hold
neither the type nor the declared name nor children. Fresh trees over the two documents give the
same report, or they fail with faults that differ in their digests at most. -/
theorem SyntaxNode.Edits.scopeReport_eq {d d' : SyntaxNode} (h : d.Edits d') :
    (∃ rows t t', Tree.scopeReport (Tree.ofDocument d) = .ok rows t ∧
      Tree.scopeReport (Tree.ofDocument d') = .ok rows t') ∨
    ∃ f f' t t', Tree.scopeReport (Tree.ofDocument d) = .error (.fault f) t ∧
      Tree.scopeReport (Tree.ofDocument d') = .error (.fault f') t' ∧
      f.withoutDigest = f'.withoutDigest := by
  have hsound := Tree.sound_ofDocument d
  have hsound' := Tree.sound_ofDocument d'
  have htwins : Tree.SoundTwins d d' (Tree.ofDocument d) (Tree.ofDocument d') :=
    ⟨.ofDocument h.skeleton_eq, hsound, hsound'⟩
  rcases Tree.scopeReport_lockstep htwins with
    ⟨rows, _, t, t', hok, hok', -, rfl⟩ | ⟨e, e', t, t', herr, herr', he⟩
  · exact Or.inl ⟨rows, t, t', hok, hok'⟩
  · obtain ⟨f, rfl⟩ := Tree.fault_of_scopeReport_error hsound herr
    obtain ⟨f', rfl⟩ := Tree.fault_of_scopeReport_error hsound' herr'
    exact Or.inr ⟨f, f', t, t', herr, herr', QueryError.fault.inj he⟩

namespace Sample

/-- The members of the function in the program. -/
def functionMembers : List (String × Json) := [
  ("type", .string "FunctionDeclaration"),
  ("id", .object [("type", .string "Identifier"), ("name", .string "f")]),
  ("body", .object [("type", .string "BlockStatement"), ("body", .array [declaration "y"])])]

/-- The members of the function, with a parameter and a flag. -/
def annotatedMembers : List (String × Json) :=
  ("async", .bool false) :: functionMembers ++
    [("params", .array [.object [("type", .string "Identifier"), ("name", .string "z")]])]

/-- The program with the annotated function, and the type of the program last. -/
def annotated : SyntaxNode :=
  .object [
    ("body", .array [declaration "x", .object annotatedMembers]),
    ("type", .string "Program")]

/-- The function is annotated, then the members of the program are swapped. -/
theorem edits_annotated : program.Edits annotated := by
  have hmembers : SyntaxNode.Edit (.object functionMembers) (.object annotatedMembers) := by
    refine .members fun key hkey => ?_
    have hkeys : key ∈ ["type", "id", "body"] := hkey
    simp only [List.mem_cons, List.not_mem_nil, or_false] at hkeys
    rcases hkeys with rfl | rfl | rfl <;> rfl
  have hbranch : (⟨"body", some 1⟩, .object functionMembers) ∈ program.branches :=
    List.mem_of_getElem? (i := 1) rfl
  have hswap : Json.Reordered (program.putStep ⟨"body", some 1⟩ (.object annotatedMembers))
      annotated :=
    .members (by decide) (.swap _ _ _)
  exact .tail (.single (.child hbranch hmembers)) (.reorder hswap)

/-- The report does not show the edits: there are the same two rows. -/
theorem scopeReport_eq_annotated :
    program.Edits annotated ∧ ∃ rows t t', rows.length = 2 ∧
      Tree.scopeReport (Tree.ofDocument program) = .ok rows t ∧
      Tree.scopeReport (Tree.ofDocument annotated) = .ok rows t' := by
  have hlen : (match Tree.scopeReport (Tree.ofDocument program) with
      | .ok rows _ => rows.length
      | .error _ _ => 0) = 2 := by decide +kernel
  refine ⟨edits_annotated, ?_⟩
  rcases SyntaxNode.Edits.scopeReport_eq edits_annotated with
    ⟨rows, t, t', hok, hok'⟩ | ⟨f, f', t, t', herr, -, -⟩
  · rw [hok] at hlen
    exact ⟨rows, t, t', hlen, hok, hok'⟩
  · rw [herr] at hlen
    cases hlen

end Sample

end LexicalScope
