import LexicalScope.Proofs.Stability

set_option autoImplicit false

/-! # Faults point at their cause and stay

A question may fail deep inside: a report asks for all scopes, these for all that is below the
root, and that for the children of one node after the other. Whatever the layers, a fault that
comes out is either that of a wrapped node whose children cannot be wrapped, or that of a root
without a scope (`Tree.Explains`).

A walk fails only where it asks for children, in any tree at all; `Query.Blames` says so, with a
rule for each way of putting questions together. The questions about scopes fail where a question
that they are made of fails, and with the same fault (`declaredNames_error`, `allScopes_error`,
`scopeReport_error`).

* `Question.explains`: every fault is explained by the tree that the question leaves.
* `Question.locate_of_extends`: a question goes on asking about the same positions, however the
  tree grows.
* `Reachable.faults_explained`: every fault is explained, and the question goes on failing with it.
-/

namespace LexicalScope

open Query

/-! ## What keeps a node from having its children -/

namespace SyntaxNode

theorem nodesIn_eq_error {n : SyntaxNode} {slots : List Slot} {f : Fault}
    (h : n.nodesIn slots = .error f) : ∃ slot ∈ slots, f = .missingChild slot.field n.digest := by
  induction slots with
  | nil => cases h
  | cons slot slots ih =>
      rw [nodesIn] at h
      split at h
      · cases h
        exact ⟨slot, List.mem_cons_self, rfl⟩
      · cases hrest : n.nodesIn slots with
        | ok rest => rw [hrest] at h; cases h
        | error f' =>
            rw [hrest] at h
            cases h
            obtain ⟨slot', hmem, hf⟩ := ih hrest
            exact ⟨slot', List.mem_cons_of_mem _ hmem, hf⟩

/-- A node has no supported kind, or a slot of its kind is not filled. -/
theorem children_eq_error {n : SyntaxNode} {f : Fault} (h : n.children = .error f) :
    (n.kind? = none ∧ f = n.unsupported) ∨
      ∃ k, n.kind? = some k ∧ ∃ slot ∈ k.slots, f = .missingChild slot.field n.digest := by
  unfold children kind at h
  cases hk : n.kind? with
  | none =>
      rw [hk] at h
      cases h
      exact Or.inl ⟨rfl, rfl⟩
  | some k =>
      rw [hk] at h
      exact Or.inr ⟨k, rfl, nodesIn_eq_error h⟩

theorem children_of_kind?_eq_none {n : SyntaxNode} (h : n.kind? = none) :
    n.children = .error n.unsupported := by
  rw [children, kind, h]
  rfl

/-- Why a position of the document has no scope: its node is of no supported kind, or the root
introduces no scope. -/
theorem scopeOf_eq_error {d : SyntaxNode} {p : Position} {f : Fault} (hp : p ∈ d.preorder [])
    (h : d.scopeOf p = .error f) :
    (∃ n, d.valueAt? p = some n ∧ n.children = .error f) ∨
      f = .noEnclosingScope d.digest ∧ ∃ k, d.kind? = some k ∧ k.introducesScope = false := by
  obtain ⟨n, hn⟩ := exists_valueAt?_of_mem_preorder d.valueAt?_nil hp
  cases hk : n.kind? with
  | none =>
      rw [scopeOf_of_kind?_eq_none hn hk] at h
      cases h
      exact Or.inl ⟨n, hn, children_of_kind?_eq_none hk⟩
  | some k =>
      cases henc : d.enclosing? p with
      | some q =>
          rw [scopeOf_of_enclosing? hn hk henc] at h
          cases h
      | none =>
          rw [scopeOf_of_enclosing?_eq_none hn hk henc] at h
          cases h
          -- the root is the node itself, or it has been expanded
          obtain ⟨k₀, hk₀⟩ : ∃ k₀, d.kind? = some k₀ := by
            rcases mem_preorder.mp hp with rfl | ⟨b, hb, -⟩
            · cases hn
              exact ⟨k, hk⟩
            · obtain ⟨cs, hcs, -⟩ := exists_of_mem_branches hb
              exact kind?_of_children hcs
          refine Or.inr ⟨rfl, k₀, hk₀, ?_⟩
          by_contra hintro
          have hroot : d.introduces [] = true :=
            (introduces_of_kind? d.valueAt?_nil hk₀).trans (by simpa using hintro)
          obtain ⟨q, hq, -⟩ := exists_enclosing?_of_suffix hroot (List.nil_suffix (l := p))
          rw [henc] at hq
          cases hq

end SyntaxNode

/-! ## Walks fail at a node -/

namespace Tree

/-- A wrapped node whose children cannot be wrapped, for the given fault. -/
def Stuck (t : Tree) (f : Fault) : Prop :=
  ∃ i n, t.node? i = some n ∧ n.children = none ∧ n.source.children = .error f

end Tree

namespace Query

variable {α β : Type}

/-- **A question whose faults are those of wrapped nodes**, in the tree that it leaves. -/
def Blames (x : Query α) : Prop := ∀ t f t', x t = .error (.fault f) t' → t'.Stuck f

theorem map_eq_error {x : Query α} {g : α → β} {e : QueryError} {t t' : Tree}
    (h : (g <$> x) t = .error e t') : x t = .error e t' := by
  cases hx : x t with
  | ok a u => simp only [Functor.map, EStateM.map, hx] at h; cases h
  | error e' u =>
      simp only [Functor.map, EStateM.map, hx] at h
      cases h
      rfl

namespace Blames

theorem pure (a : α) : Blames (Pure.pure a : Query α) := by
  intro t f t' h
  cases h

theorem modifyGet (g : Tree → α × Tree) : Blames (MonadState.modifyGet g : Query α) := by
  intro t f t' h
  cases h

theorem bind {x : Query α} {g : α → Query β} (hx : Blames x) (hg : ∀ a, Blames (g a)) :
    Blames (x >>= g) := by
  intro t f t' h
  cases hrun : x t with
  | ok a u =>
      rw [bind_of_ok hrun] at h
      exact hg a u f t' h
  | error e u =>
      rw [bind_of_error hrun] at h
      cases h
      exact hx t f t' hrun

theorem get_bind {g : Tree → Query α} (hg : ∀ t, Blames (g t)) :
    Blames ((MonadState.get : Query Tree) >>= g) := fun t f t' h => hg t t f t' h

end Blames

end Query

namespace Tree

/-- A number that is not there is no fault of the document. -/
theorem nodeAt_blames (i : NodeId) : (nodeAt i).Blames := by
  refine .get_bind fun t => ?_
  cases t.node? i with
  | some n => exact .pure n
  | none =>
      intro t f t' h
      cases h

/-- **Children fail at their own node.** -/
theorem children_blames (i : NodeId) : (children i).Blames := by
  intro t f t' h
  cases hn : t.node? i with
  | none =>
      rw [children, bind_of_error (nodeAt_of_none hn)] at h
      cases h
  | some n =>
      rw [children, bind_of_ok (nodeAt_of_node? hn)] at h
      cases hids : n.children with
      | some ids => rw [hids] at h; cases h
      | none =>
          simp only [hids] at h
          cases hcs : n.source.children with
          | ok cs => rw [hcs] at h; cases h
          | error f' =>
              rw [hcs] at h
              cases h
              exact ⟨i, n, hn, hids, hcs⟩

theorem Walk.step_blames (w : Walk) : w.step.Blames := by
  obtain ⟨pending, visited⟩ := w
  cases pending with
  | nil => exact .pure _
  | cons i rest =>
      refine .bind (nodeAt_blames i) fun n => ?_
      cases n.descendants with
      | some below => exact .pure _
      | none => exact .bind (children_blames i) fun ids => .pure _

theorem Walk.run_blames (bound : Nat) (w : Walk) : (Walk.run bound w).Blames := by
  induction bound generalizing w with
  | zero => exact .pure _
  | succ bound ih =>
      rw [Walk.run]
      split
      · exact .pure _
      · exact .bind w.step_blames ih

/-- **A walk fails at a node below.** -/
theorem descendants_blames (i : NodeId) : (descendants i).Blames := by
  refine .bind (nodeAt_blames i) fun n => ?_
  cases n.descendants with
  | some below => exact .pure below
  | none =>
      refine .bind (children_blames i) fun ids => ?_
      exact .bind (Walk.run_blames _ _) fun below => .bind (.modifyGet _) fun _ => .pure below

theorem descendantsOfKind_blames (i : NodeId) (k : Kind) : (descendantsOfKind i k).Blames :=
  .bind (descendants_blames i) fun _ => .get_bind fun _ => .pure _

theorem chainFrom_blames (offset : UInt64) (bound : Nat) (i : NodeId) :
    (chainFrom offset bound i).Blames := by
  induction bound generalizing i with
  | zero => exact .pure _
  | succ bound ih =>
      refine .bind (children_blames i) fun ids => .get_bind fun t => ?_
      cases ids.find? (t.covers offset) with
      | none => exact .pure _
      | some next => exact .bind (ih next) fun _ => .pure _

theorem chainAt_blames (offset : UInt64) : (chainAt offset).Blames := by
  refine .bind (nodeAt_blames root) fun n => ?_
  split
  · exact chainFrom_blames offset _ root
  · exact .pure _

/-! ## Faults explained by a tree -/

/-- **Why a question has failed with a fault**, as the tree shows it. -/
inductive Explains (d : SyntaxNode) (t : Tree) (f : Fault) : Prop
  /-- The children of a wrapped node cannot be wrapped. The fault shows the digest of this node,
  and a child that it misses belongs in a slot of the node's kind. -/
  | node {i : NodeId} {n : Node} :
      t.node? i = some n → n.children = none → n.source.children = .error f →
      f.digest = n.source.digest →
      (∀ field digest, f = .missingChild field digest →
        ∃ k, n.kind = some k ∧ ∃ slot ∈ k.slots, slot.field = field) → Explains d t f
  /-- The root is of a supported kind that introduces no scope. -/
  | root {k : Kind} :
      f = .noEnclosingScope d.digest → d.kind? = some k → k.introducesScope = false →
      Explains d t f

variable {d : SyntaxNode} {t t' : Tree}

/-- A node that cannot be expanded explains its fault. -/
theorem Stuck.explains (h : t.Sound d) {f : Fault} (hf : t.Stuck f) : t.Explains d f := by
  obtain ⟨i, n, hn, hnone, herr⟩ := hf
  refine .node hn hnone herr ?_ ?_
  · rcases SyntaxNode.children_eq_error herr with ⟨-, rfl⟩ | ⟨k, -, slot, -, rfl⟩ <;> rfl
  · intro field digest hfield
    rcases SyntaxNode.children_eq_error herr with ⟨-, rfl⟩ | ⟨k, hk, slot, hslot, rfl⟩
    · cases hfield
    · cases hfield
      exact ⟨k, (h.arena.kind hn).trans hk, slot, hslot, rfl⟩

/-- A node with a fault has no children remembered. -/
theorem Mirrors.stuck (h : t.Mirrors d) {i : NodeId} {n : Node} {f : Fault}
    (hn : t.node? i = some n) (hf : n.source.children = .error f) : t.Stuck f := by
  refine ⟨i, n, hn, ?_, hf⟩
  cases hids : n.children with
  | none => rfl
  | some ids =>
      obtain ⟨cs, -, hcs, -⟩ := h.children hn hids
      rw [hf] at hcs
      cases hcs

/-- **The scope of a node fails at the node itself or at the root.** -/
theorem scopeOf_explains (h : t.Sound d) {i : NodeId} {p : Position} {f : Fault}
    (hi : t.Stands i p) (hrun : scopeOf i t = .error (.fault f) t') : t'.Explains d f := by
  obtain ⟨f', hf', hr, hmoves⟩ := (scopeOf_answers h hi).fault_of_error hrun
  cases hf'
  have h' := h.moves hmoves
  rcases SyntaxNode.scopeOf_eq_error (hi.mem_preorder h.arena) hr with
    ⟨n, hn, herr⟩ | ⟨hf, k, hk, hnot⟩
  · obtain ⟨m, hm, hp⟩ := (hi.extend hmoves.extends).exists_node h'.arena
    have hsrc : m.source = n := Option.some.inj (hp.symm.trans hn)
    exact (h'.arena.stuck hm (by rw [hsrc, herr])).explains h'
  · exact .root hf hk hnot

/-! ## Questions about scopes fail where their parts fail -/

/-- The scope around a scope fails where the scope of the node above fails. -/
theorem outerScope_error (h : t.Sound d) {s : ScopeId} {p : Position} (hs : t.ScopeStands s p)
    {e : QueryError} (hrun : outerScope s t = .error e t') :
    ∃ j q, t.Stands j q ∧ scopeOf j t = .error e t' := by
  obtain ⟨r, hr, hp⟩ := hs
  obtain ⟨n, hn, -⟩ := hp.exists_node h.arena
  rw [outerScope, bind_of_ok (scopeAt_of_scope? hr), bind_of_ok (nodeAt_of_node? hn)] at hrun
  cases p with
  | nil =>
      rw [hp.parent_of_nil h.arena hn] at hrun
      cases hrun
  | cons step p =>
      obtain ⟨j, -, -, hpar, -, hj, -⟩ := hp.parent_of_cons h.arena hn
      rw [hpar] at hrun
      exact ⟨j, p, hj, map_eq_error hrun⟩

/-- The names of a scope fail where the walk below its node fails. -/
theorem declaredNames_error (h : t.Sound d) {s : ScopeId} {p : Position} (hs : t.ScopeStands s p)
    {e : QueryError} (hrun : declaredNames s t = .error e t') :
    ∃ r, t.scope? s = some r ∧ descendants r.node t = .error e t' := by
  obtain ⟨r, hr, hp⟩ := hs
  refine ⟨r, hr, ?_⟩
  cases hbelow : d.below p with
  | ok ps =>
      have hok : d.declaredNames p = .ok (d.names p) := by
        rw [SyntaxNode.declaredNames, hbelow]
        rfl
      obtain ⟨names, u, hrun', -⟩ := (declaredNames_answers h ⟨r, hr, hp⟩).exists_of_ok hok
      rw [hrun] at hrun'
      cases hrun'
  | error f =>
      obtain ⟨u, hrun', -⟩ := (descendants_answers h hp).exists_of_error hbelow
      rw [declaredNames, bind_of_ok (scopeAt_of_scope? hr)] at hrun
      cases hnames : r.names with
      | some names => rw [hnames] at hrun; cases hrun
      | none =>
          simp only [hnames] at hrun
          rw [bind_of_error hrun'] at hrun
          cases hrun
          exact hrun'

/-- All scopes fail where the scope of the root or the walk below the root fails. -/
theorem allScopes_error (h : t.Sound d) {e : QueryError} (hrun : allScopes t = .error e t') :
    scopeOf root t = .error e t' ∨ ∃ t₁, descendants root t₁ = .error e t' := by
  rw [allScopes] at hrun
  cases hscope : d.scopeOf [] with
  | error f =>
      obtain ⟨u, hrun', -⟩ := (scopeOf_answers h .root).exists_of_error hscope
      rw [bind_of_error hrun'] at hrun
      cases hrun
      exact Or.inl hrun'
  | ok q =>
      obtain ⟨s, t₁, hrun₁, hmoves₁, hs, -⟩ := (scopeOf_answers h .root).exists_of_ok hscope
      have h₁ := h.moves hmoves₁
      rw [bind_of_ok hrun₁] at hrun
      cases hbelow : d.below [] with
      | error f =>
          obtain ⟨u, hrun', -⟩ := (descendants_answers h₁ .root).exists_of_error hbelow
          rw [bind_of_error hrun'] at hrun
          cases hrun
          exact Or.inr ⟨t₁, hrun'⟩
      | ok ps =>
          -- with all nodes at hand, collecting their scopes cannot fail
          obtain ⟨ids, t₂, hrun₂, hmoves₂, -, hids⟩ :=
            (descendants_answers h₁ .root).exists_of_ok hbelow
          have hfirst : List.Forall₂ t₂.ScopeStands (#[s] : Array ScopeId).toList [q] :=
            .cons (hs.extend hmoves₂.extends) .nil
          obtain ⟨scopes, u, hrun', -⟩ := collectScopes_answers (h₁.moves hmoves₂) hids hfirst
          rw [bind_of_ok hrun₂, bind_of_ok hrun'] at hrun
          cases hrun

/-- A report fails where all scopes fail. -/
theorem scopeReport_error (h : t.Sound d) {e : QueryError}
    (hrun : scopeReport t = .error e t') : allScopes t = .error e t' := by
  cases hall : d.allScopes with
  | error f =>
      obtain ⟨u, hrun', -⟩ := (allScopes_answers h).exists_of_error hall
      rw [scopeReport_of_error hrun'] at hrun
      cases hrun
      exact hrun'
  | ok all =>
      obtain ⟨summaries, u, hrun', -⟩ := scopeSummaries_of_allScopes h hall
      rw [scopeReport_of_ok hrun'] at hrun
      cases hrun

end Tree

/-! ## Every question -/

namespace Question

variable {d : SyntaxNode} {t t' : Tree}

/-- **Every fault is explained by the tree that the question leaves.** -/
theorem explains (h : t.Sound d) {q : Question NodeId ScopeId} (hq : q.Valid t) {f : Fault}
    (hrun : q.ask t = .error (.fault f) t') : t'.Explains d f := by
  obtain ⟨-, -, -, hmoves⟩ := (ask_answers h hq).fault_of_error hrun
  have h' := h.moves hmoves
  have hall : Tree.allScopes t = .error (.fault f) t' → t'.Explains d f := by
    intro hrun
    rcases Tree.allScopes_error h hrun with hrun | ⟨t₁, hrun⟩
    · exact Tree.scopeOf_explains h .root hrun
    · exact (Tree.descendants_blames _ _ _ _ hrun).explains h'
  cases q with
  | children i => exact (Tree.children_blames i _ _ _ (map_eq_error hrun)).explains h'
  | descendants i => exact (Tree.descendants_blames i _ _ _ (map_eq_error hrun)).explains h'
  | descendantsOfKind i k =>
      exact (Tree.descendantsOfKind_blames i k _ _ _ (map_eq_error hrun)).explains h'
  | chainAt offset => exact (Tree.chainAt_blames offset _ _ _ (map_eq_error hrun)).explains h'
  | scopeOf i => exact Tree.scopeOf_explains h (h.stands_of_lt hq) (map_eq_error hrun)
  | outerScope s =>
      obtain ⟨j, p, hj, hrun⟩ := Tree.outerScope_error h (h.scopeStands_of_lt hq)
        (map_eq_error hrun)
      exact Tree.scopeOf_explains h hj hrun
  | declaredNames s =>
      obtain ⟨r, -, hrun⟩ := Tree.declaredNames_error h (h.scopeStands_of_lt hq)
        (map_eq_error hrun)
      exact (Tree.descendants_blames _ _ _ _ hrun).explains h'
  | allScopes => exact hall (map_eq_error hrun)
  | scopeReport => exact hall (Tree.scopeReport_error h (map_eq_error hrun))

/-- **A question goes on asking about the same positions**, however the tree grows. -/
theorem locate_of_extends (h : t.Sound d) (h' : t'.Sound d) (hx : t.Extends t')
    {q : Question NodeId ScopeId} (hq : q.Valid t) : q.Valid t' ∧ q.locate t' = q.locate t := by
  have hnode : ∀ {i}, i < t.size → i < t'.size ∧ t'.position i = t.position i := by
    intro i hi
    have hi' := (h.stands_of_lt hi).extend hx
    exact ⟨hi'.lt_size h'.arena, hi'.eq_position h'.arena⟩
  have hscope : ∀ {s}, s < t.scopeCount →
      s < t'.scopeCount ∧ t'.scopePosition s = t.scopePosition s := by
    intro s hs
    have hs' := (h.scopeStands_of_lt hs).extend hx
    exact ⟨hs'.lt_scopeCount, hs'.eq_scopePosition h'.arena⟩
  cases q with
  | children i | descendants i | descendantsOfKind i k | scopeOf i =>
      obtain ⟨hi, hpos⟩ := hnode hq
      exact ⟨hi, by rw [locate, locate, hpos]⟩
  | outerScope s | declaredNames s =>
      obtain ⟨hs, hpos⟩ := hscope hq
      exact ⟨hs, by rw [locate, locate, hpos]⟩
  | chainAt _ | allScopes | scopeReport => exact ⟨trivial, rfl⟩

end Question

/-- **Faults point at their cause and stay.** A question to a reachable tree that fails does so for
a fault of the document. The tree that it leaves explains the fault: by a wrapped node whose
children cannot be wrapped for exactly this fault, or by a root that introduces no scope. And
whatever is asked from then on, the same question fails again with the same fault. -/
theorem Reachable.faults_explained {d : SyntaxNode} {t : Tree} (h : Reachable d t)
    {q : Question NodeId ScopeId} (hq : q.Valid t) {e : QueryError} {t' : Tree}
    (hrun : q.ask t = .error e t') :
    ∃ f, e = .fault f ∧ t'.Explains d f ∧
      ∀ t'', t'.LeadsTo t'' → ∃ u, q.ask t'' = .error (.fault f) u := by
  obtain ⟨f, rfl, hf, hmoves⟩ := (Question.ask_answers h.sound hq).fault_of_error hrun
  refine ⟨f, rfl, Question.explains h.sound hq hrun, ?_⟩
  intro t'' hlater
  have h' := h.sound.moves hmoves
  have hmoves' := hlater.moves h'
  have h'' := h'.moves hmoves'
  obtain ⟨hq'', hsame⟩ := Question.locate_of_extends h.sound h''
    (hmoves.extends.trans hmoves'.extends) hq
  rw [← hsame] at hf
  obtain ⟨u, hrun'', -⟩ := (Question.ask_answers h'' hq'').exists_of_error hf
  exact ⟨u, hrun''⟩

/-! ## A document with a fault -/

namespace Sample

/-- The program `var x; if (c)`, whose last statement has no branch. -/
def truncated : SyntaxNode :=
  .object [
    ("type", .string "Program"),
    ("body", .array [
      declaration "x",
      .object [
        ("type", .string "IfStatement"),
        ("test", .object [("type", .string "Identifier"), ("name", .string "c")])]])]

/-- The fault of that document. -/
def truncatedFault : Fault := .missingChild "consequent" "IfStatement (test:Identifier)"

/-- The report fails at the last statement, through the question for all scopes and the walk below
the root. -/
theorem faults_explained_truncated :
    Reachable truncated (Tree.ofDocument truncated) ∧
      ∃ t', Question.scopeReport.ask (Tree.ofDocument truncated)
          = .error (.fault truncatedFault) t' ∧
        t'.Explains truncated truncatedFault ∧
        ∀ t'', t'.LeadsTo t'' →
          ∃ u, Question.scopeReport.ask t'' = .error (.fault truncatedFault) u := by
  have h : Reachable truncated (Tree.ofDocument truncated) := .refl
  obtain ⟨t', hrun⟩ : ∃ t', Question.scopeReport.ask (Tree.ofDocument truncated)
      = .error (.fault truncatedFault) t' := ⟨_, by rfl⟩
  obtain ⟨f, hf, hexplains, hstays⟩ := Reachable.faults_explained (q := .scopeReport) h trivial hrun
  cases hf
  exact ⟨h, t', hrun, hexplains, hstays⟩

end Sample

end LexicalScope
