import LexicalScope.Proofs.Questions

set_option autoImplicit false

/-! # Numbers keep their meaning

A question may wrap nodes, open scopes and fill what is remembered, but it never takes anything
back, whether it succeeds or fails. That a tree only grows is known from its moves
(`Tree.Moves.extends`). Which part of a tree a question leaves alone is read off its code, for any
tree at all: `Query.Keeps view x` says that the question `x` leaves what `view` shows of a tree as
it was, and the rules follow the way questions are put together.

* `Question.keeps_size`: looking for a scope wraps no node.
* `Question.keeps_scopeView`: walking opens no scope and remembers none.
* `Reachable.numbers_stable`: what holds of every question in every reachable tree.
-/

namespace LexicalScope

open Query

/-! ## What a question leaves alone -/

namespace Query

variable {α β γ : Type}

/-- The tree that a question leaves, whether it has succeeded or failed. -/
def after (x : Query α) (t : Tree) : Tree :=
  match x t with
  | .ok _ t' => t'
  | .error _ t' => t'

/-- **A question that leaves alone what `view` shows of a tree.** -/
def Keeps (view : Tree → γ) (x : Query α) : Prop := ∀ t, view (x.after t) = view t

namespace Keeps

variable {view : Tree → γ}

theorem pure (a : α) : Keeps view (Pure.pure a : Query α) := fun _ => rfl

theorem throw (e : QueryError) : Keeps view (MonadExcept.throw e : Query α) := fun _ => rfl

theorem modifyGet {f : Tree → α × Tree} (h : ∀ t, view (f t).2 = view t) :
    Keeps view (MonadState.modifyGet f : Query α) := h

theorem bind {x : Query α} {f : α → Query β} (hx : Keeps view x) (hf : ∀ a, Keeps view (f a)) :
    Keeps view (x >>= f) := by
  intro t
  have ht := hx t
  unfold after at ht ⊢
  cases hr : x t with
  | error e t' =>
      rw [hr] at ht
      rw [bind_of_error hr]
      exact ht
  | ok a t' =>
      rw [hr] at ht
      rw [bind_of_ok hr]
      exact (hf a t').trans ht

/-- A question that begins with a look at the tree. -/
theorem get_bind {f : Tree → Query α} (hf : ∀ t, Keeps view (f t)) :
    Keeps view ((MonadState.get : Query Tree) >>= f) := fun t => hf t t

theorem map {x : Query α} (f : α → β) (hx : Keeps view x) : Keeps view (f <$> x) := by
  rw [map_eq_pure_bind]
  exact hx.bind fun a => pure (f a)

end Keeps

end Query

namespace Tree

variable {t : Tree}

theorem keeps_nodeAt {γ : Type} (view : Tree → γ) (i : NodeId) : Keeps view (nodeAt i) := by
  refine .get_bind fun t => ?_
  cases t.node? i with
  | none => exact .throw _
  | some n => exact .pure n

theorem keeps_scopeAt {γ : Type} (view : Tree → γ) (s : ScopeId) : Keeps view (scopeAt s) := by
  refine .get_bind fun t => ?_
  cases t.scope? s with
  | none => exact .throw _
  | some r => exact .pure r

/-! ## Walking leaves the scopes alone -/

/-- All that a tree shows of scopes: the opened ones, and the one that each number remembers. -/
def scopeView (t : Tree) : Array Scope × (NodeId → Option ScopeId) :=
  (t.scopes, fun i => (t.node? i).bind Node.scope)

/-- A field that is filled later: a wrapped child shows nothing in it, and neither does a number
that is not there. -/
theorem bind_wrapped? {γ : Type} {field : Node → Option γ}
    (hfield : ∀ source parent depth, field (Node.wrap source parent depth) = none) (t : Tree)
    (id : NodeId) (depth : Nat) (cs : List SyntaxNode) (i : NodeId) :
    (t.wrapped? id depth cs i).bind field = (t.node? i).bind field := by
  unfold wrapped?
  split
  · rfl
  · next hi =>
    rw [node?, Array.getElem?_eq_none (Nat.le_of_not_lt hi), Option.bind_map, Option.bind_none]
    cases cs[i - t.size]? with
    | none => rfl
    | some c => exact hfield c (some id) (depth + 1)

theorem scopeView_adopt (t : Tree) (id : NodeId) (depth : Nat) (cs : List SyntaxNode) :
    (t.adopt id depth cs).2.scopeView = t.scopeView := by
  refine Prod.ext rfl (funext fun i => ?_)
  show ((t.adopt id depth cs).2.node? i).bind Node.scope = (t.node? i).bind Node.scope
  rw [node?_adopt, ← bind_wrapped? (fun _ _ _ => rfl) t id depth cs i]
  split
  · rw [Option.bind_map]
    rfl
  · rfl

theorem scopeView_rememberDescendants (t : Tree) (id : NodeId) (below : List NodeId) :
    (t.rememberDescendants id below).scopeView = t.scopeView := by
  refine Prod.ext rfl (funext fun i => ?_)
  show ((t.rememberDescendants id below).node? i).bind Node.scope = _
  rw [node?_rememberDescendants]
  split
  · rw [Option.bind_map]
    rfl
  · rfl

theorem children_keeps_scopeView (i : NodeId) : Keeps scopeView (children i) := by
  refine .bind (keeps_nodeAt _ i) fun n => ?_
  cases n.children with
  | some ids => exact .pure ids
  | none =>
      cases n.source.children with
      | error f => exact .throw _
      | ok cs => exact .modifyGet fun t => t.scopeView_adopt i n.depth cs

theorem Walk.step_keeps_scopeView (w : Walk) : Keeps scopeView w.step := by
  obtain ⟨pending, visited⟩ := w
  cases pending with
  | nil => exact .pure _
  | cons i rest =>
      refine .bind (keeps_nodeAt _ i) fun n => ?_
      cases n.descendants with
      | some below => exact .pure _
      | none => exact .bind (children_keeps_scopeView i) fun ids => .pure _

theorem Walk.run_keeps_scopeView (bound : Nat) (w : Walk) :
    Keeps scopeView (Walk.run bound w) := by
  induction bound generalizing w with
  | zero => exact .pure _
  | succ bound ih =>
      rw [Walk.run]
      split
      · exact .pure _
      · exact .bind w.step_keeps_scopeView fun w' => ih w'

theorem descendants_keeps_scopeView (i : NodeId) : Keeps scopeView (descendants i) := by
  refine .bind (keeps_nodeAt _ i) fun n => ?_
  cases n.descendants with
  | some below => exact .pure below
  | none =>
      refine .bind (children_keeps_scopeView i) fun ids => ?_
      refine .bind (Walk.run_keeps_scopeView _ _) fun below => ?_
      refine .bind (.modifyGet fun t => ?_) fun _ => .pure below
      exact t.scopeView_rememberDescendants i below

theorem descendantsOfKind_keeps_scopeView (i : NodeId) (k : Kind) :
    Keeps scopeView (descendantsOfKind i k) :=
  .bind (descendants_keeps_scopeView i) fun _ => .get_bind fun _ => .pure _

theorem chainFrom_keeps_scopeView (offset : UInt64) (bound : Nat) (i : NodeId) :
    Keeps scopeView (chainFrom offset bound i) := by
  induction bound generalizing i with
  | zero => exact .pure _
  | succ bound ih =>
      rw [chainFrom]
      refine .bind (children_keeps_scopeView i) fun ids => .get_bind fun t => ?_
      cases ids.find? (t.covers offset) with
      | none => exact .pure _
      | some next => exact .bind (ih next) fun chain => .pure _

theorem chainAt_keeps_scopeView (offset : UInt64) : Keeps scopeView (chainAt offset) := by
  refine .bind (keeps_nodeAt _ root) fun n => ?_
  split
  · exact chainFrom_keeps_scopeView offset _ root
  · exact .pure _

/-! ## Looking for a scope wraps nothing -/

theorem size_rememberScope (t : Tree) (i : NodeId) (s : ScopeId) :
    (t.rememberScope i s).size = t.size :=
  Array.size_modify

theorem size_land (t : Tree) (landing : Landing) : (t.land landing).2.size = t.size := by
  cases landing with
  | known s => rfl
  | introduces i k => exact size_rememberScope _ i _

theorem size_foldl_rememberScope (t : Tree) (passed : List NodeId) (s : ScopeId) :
    (passed.foldl (fun t n => t.rememberScope n s) t).size = t.size := by
  induction passed generalizing t with
  | nil => rfl
  | cons i passed ih => rw [List.foldl_cons, ih, size_rememberScope]

theorem scopeOf_keeps_size (i : NodeId) : Keeps size (scopeOf i) := by
  refine .get_bind fun t => ?_
  cases t.climb (i + 1) i [] with
  | error e => exact .throw e
  | ok landed =>
      refine .modifyGet fun t => ?_
      show (landed.2.foldl (fun t' n => t'.rememberScope n (t.land landed.1).1)
        (t.land landed.1).2).size = t.size
      rw [size_foldl_rememberScope, size_land]

theorem outerScope_keeps_size (s : ScopeId) : Keeps size (outerScope s) := by
  refine .bind (keeps_scopeAt _ s) fun r => .bind (keeps_nodeAt _ r.node) fun n => ?_
  cases n.parent with
  | none => exact .pure _
  | some p => exact (scopeOf_keeps_size p).map some

end Tree

namespace Question

theorem after_eq (q : Question NodeId ScopeId) (t : Tree) : q.after t = q.ask.after t := by
  unfold after Query.after
  cases q.ask t <;> rfl

/-- The questions that walk down from a node and do not ask for scopes. -/
def walks {ν σ : Type} : Question ν σ → Bool
  | children _ | descendants _ | descendantsOfKind _ _ | chainAt _ => true
  | scopeOf _ | outerScope _ | declaredNames _ | allScopes | scopeReport => false

/-- The questions that look for one scope, upwards from a node. -/
def climbs {ν σ : Type} : Question ν σ → Bool
  | scopeOf _ | outerScope _ => true
  | children _ | descendants _ | descendantsOfKind _ _ | chainAt _ | declaredNames _ | allScopes
  | scopeReport => false

/-- **Walking leaves the scopes alone**, in any tree. -/
theorem keeps_scopeView {q : Question NodeId ScopeId} (hq : q.walks = true) :
    Keeps Tree.scopeView q.ask := by
  cases q with
  | children i => exact (Tree.children_keeps_scopeView i).map _
  | descendants i => exact (Tree.descendants_keeps_scopeView i).map _
  | descendantsOfKind i k => exact (Tree.descendantsOfKind_keeps_scopeView i k).map _
  | chainAt offset => exact (Tree.chainAt_keeps_scopeView offset).map _
  | _ => cases hq

/-- **Looking for a scope wraps no node**, in any tree. -/
theorem keeps_size {q : Question NodeId ScopeId} (hq : q.climbs = true) :
    Keeps Tree.size q.ask := by
  cases q with
  | scopeOf i => exact (Tree.scopeOf_keeps_size i).map _
  | outerScope s => exact (Tree.outerScope_keeps_size s).map _
  | _ => cases hq

end Question

/-! ## A question about a number that is not there -/

namespace Tree

variable {t : Tree}

theorem nodeAt_of_none {i : NodeId} (h : t.node? i = none) : nodeAt i t = .error (.noNode i) t := by
  rw [nodeAt, Query.get_bind, h]
  rfl

theorem scopeAt_of_none {s : ScopeId} (h : t.scope? s = none) :
    scopeAt s t = .error (.noScope s) t := by
  rw [scopeAt, Query.get_bind, h]
  rfl

theorem scopeOf_of_none {i : NodeId} (h : t.node? i = none) :
    scopeOf i t = .error (.noNode i) t := by
  refine scopeOf_of_climb_error ?_
  rw [climb, h]

end Tree

namespace Question

variable {t : Tree}

/-- A question fails without any change if one of its numbers is not there. -/
theorem after_of_not_valid {q : Question NodeId ScopeId} (hq : ¬ q.Valid t) : q.after t = t := by
  have hnode : ∀ {i : NodeId}, ¬ i < t.size → t.node? i = none := fun hi =>
    Array.getElem?_eq_none (Nat.le_of_not_lt hi)
  have hscope : ∀ {s : ScopeId}, ¬ s < t.scopeCount → t.scope? s = none := fun hs =>
    Array.getElem?_eq_none (Nat.le_of_not_lt hs)
  have hmap : ∀ {α β : Type} {x : Query α} {e : QueryError} (f : α → β),
      x t = .error e t → (f <$> x).after t = t := by
    intro α β x e f hx
    simp only [Query.after, Functor.map, EStateM.map, hx]
  rw [after_eq]
  cases q with
  | children i => exact hmap _ (bind_of_error (Tree.nodeAt_of_none (hnode hq)))
  | descendants i => exact hmap _ (bind_of_error (Tree.nodeAt_of_none (hnode hq)))
  | descendantsOfKind i k =>
      exact hmap _ (bind_of_error (bind_of_error (Tree.nodeAt_of_none (hnode hq))))
  | scopeOf i => exact hmap _ (Tree.scopeOf_of_none (hnode hq))
  | outerScope s => exact hmap _ (bind_of_error (Tree.scopeAt_of_none (hscope hq)))
  | declaredNames s => exact hmap _ (bind_of_error (Tree.scopeAt_of_none (hscope hq)))
  | chainAt _ | allScopes | scopeReport => exact absurd trivial hq

/-- **A question only adds to a tree**, whatever it asks about. -/
theorem extends_after {d : SyntaxNode} (h : t.Sound d) (q : Question NodeId ScopeId) :
    t.Extends (q.after t) := by
  by_cases hq : q.Valid t
  · exact (q.moves_after h hq).extends
  · rw [after_of_not_valid hq]
    exact .refl t

end Question

namespace Tree.Extends

variable {t t' : Tree}

theorem size_le (h : t.Extends t') : t.size ≤ t'.size := by
  by_contra hlt
  obtain ⟨n, hn⟩ := exists_node?_of_lt (Nat.lt_of_not_le hlt)
  obtain ⟨n', hn', -⟩ := h.node hn
  exact absurd (lt_size_of_node? hn') (Nat.lt_irrefl _)

theorem scopeCount_le (h : t.Extends t') : t.scopeCount ≤ t'.scopeCount := by
  by_contra hlt
  obtain ⟨r', hr', -⟩ := h.scope (Array.getElem?_eq_getElem (Nat.lt_of_not_le hlt))
  exact absurd (Array.getElem?_eq_some_iff.mp hr').1 (Nat.lt_irrefl _)

end Tree.Extends

/-! ## Every question, in every reachable tree -/

/-- **Numbers of nodes and scopes are stable.** In every reachable tree, a question of any kind,
whether it succeeds or fails, adds nodes and scopes after those that are there, and under each
number keeps all that was shown: the source, kind, parent and depth of a node, its remembered
children, descendants and scope, the node and kind of a scope and its collected names. A question
that looks for a scope wraps no node. One that walks opens no scope, and every number remembers
the scope that it remembered before, if any. -/
theorem Reachable.numbers_stable {d : SyntaxNode} {t : Tree} (h : Reachable d t)
    (q : Question NodeId ScopeId) :
    t.Extends (q.after t) ∧ t.size ≤ (q.after t).size ∧
      t.scopeCount ≤ (q.after t).scopeCount ∧
      (q.climbs = true → (q.after t).size = t.size) ∧
      (q.walks = true → (q.after t).scopes = t.scopes ∧
        ∀ i, ((q.after t).node? i).bind Tree.Node.scope = (t.node? i).bind Tree.Node.scope) := by
  have hext := q.extends_after h.sound
  refine ⟨hext, hext.size_le, hext.scopeCount_le, ?_, ?_⟩
  · intro hq
    rw [q.after_eq]
    exact q.keeps_size hq t
  · intro hq
    have hview : (q.after t).scopeView = t.scopeView := by
      rw [q.after_eq]
      exact q.keeps_scopeView hq t
    exact ⟨congrArg Prod.fst hview, fun i => congrFun (congrArg Prod.snd hview) i⟩

/-- The scope of the function, asked of a tree in which no scope is open: one is opened, and no
node is wrapped. -/
theorem Sample.numbers_stable_scopeOf :
    Reachable Sample.program Sample.walked ∧
      Sample.walked.Extends ((Question.scopeOf 2).after Sample.walked) ∧
      ((Question.scopeOf 2).after Sample.walked).size = Sample.walked.size ∧
      ((Question.scopeOf 2).after Sample.walked).scopeCount = Sample.walked.scopeCount + 1 := by
  obtain ⟨hext, -, -, hclimbs, -⟩ :=
    Reachable.numbers_stable Sample.reachable_walked (Question.scopeOf 2)
  exact ⟨Sample.reachable_walked, hext, hclimbs rfl, by decide +kernel⟩

end LexicalScope
