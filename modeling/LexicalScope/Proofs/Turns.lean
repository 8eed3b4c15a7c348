import LexicalScope.Proofs.Ancestry
import LexicalScope.Proofs.Expansion

set_option autoImplicit false

/-! # The turns of a walk

`Tree.descendants` walks with a stack: each turn takes the next pending node, visits it, and puts
its children in front of what is pending, unless all that is below the node is known and is visited
whole. Here the walk is looked at between its turns, whether it will end well or at a fault.

What has been visited, followed by each pending node and all that is below it, is always the whole
list that is to come (`Walk.Underway`). So all nodes that are ever taken are different and stand
below the node where the walk began, and there are no more turns than such nodes.

* `Walk.Underway.step`, `Walk.Underway.turns`: the invariant, over one turn and over all turns.
* `Walk.Underway.sublist`: the nodes that are taken stand at positions in the list.
* `Walk.run_turns`: a bounded run makes turns until nothing is pending, a turn fails or the bound is
  used up.
* `Reachable.walk_loop`: the walk below any node of any reachable tree.
-/

namespace LexicalScope

open Query

/-- A list in which each item comes with further items has the items as a sublist. -/
theorem sublist_flatMap {α : Type} {f : α → List α} {l : List α}
    (h : ∀ a ∈ l, [a].Sublist (f a)) : l.Sublist (l.flatMap f) := by
  induction l with
  | nil => exact .slnil
  | cons a l ih =>
      obtain ⟨ha, hl⟩ := List.forall_mem_cons.mp h
      rw [List.flatMap_cons]
      exact ha.append (ih hl)

/-- The list below a position is as long as the closure of the node there. -/
theorem SyntaxNode.length_tail_preorderAt {d n : SyntaxNode} {p : Position}
    (hp : d.valueAt? p = some n) : (d.preorderAt p).tail.length = n.closure.length := by
  have hlen := congrArg List.length (map_valueAt?_preorder hp)
  rw [List.length_map, List.length_map, List.length_cons] at hlen
  rw [preorderAt_of_valueAt? hp, List.length_tail]
  omega

namespace Tree

variable {d : SyntaxNode} {t t' : Tree} {w w' : Walk} {taken : List NodeId}

namespace Walk

/-! ## Turns -/

/-- **Some turns of a walk**, from a walk and a tree to what the next turn starts with. Each turn
takes one node from what is pending; `taken` lists these in order. -/
inductive Turns : Walk → Tree → List NodeId → Walk → Tree → Prop
  | none (w : Walk) (t : Tree) : Turns w t [] w t
  | turn {i : NodeId} {rest taken : List NodeId} {visited : Array NodeId} {w₁ w' : Walk}
      {t t₁ t' : Tree} :
      Walk.step ⟨i :: rest, visited⟩ t = .ok w₁ t₁ → Turns w₁ t₁ taken w' t' →
      Turns ⟨i :: rest, visited⟩ t (i :: taken) w' t'

/-- A turn visits the node that it takes before any other. -/
theorem exists_visited_of_step {i : NodeId} {rest : List NodeId} {visited : Array NodeId}
    (h : Walk.step ⟨i :: rest, visited⟩ t = .ok w' t') :
    ∃ more, w'.visited.toList = visited.toList ++ i :: more := by
  simp only [step] at h
  obtain ⟨n, u, -, h⟩ := bind_eq_ok h
  cases hbelow : n.descendants with
  | some below =>
      simp only [hbelow] at h
      cases h
      exact ⟨below, by simp⟩
  | none =>
      simp only [hbelow] at h
      obtain ⟨ids, v, -, h⟩ := bind_eq_ok h
      cases h
      exact ⟨[], by simp⟩

/-! ## The invariant -/

/-- **The invariant of a walk** below node `i`, which stands at `p`. The visited nodes, and then
each pending node with all that is below it, stand at the positions below `p`, in pre-order. The
nodes that were taken are among the visited ones. -/
structure Underway (d : SyntaxNode) (i : NodeId) (p : Position) (taken : List NodeId) (w : Walk)
    (t : Tree) : Prop where
  sound : t.Sound d
  stands : t.Stands i p
  visited : taken.Sublist w.visited.toList
  listed : ∃ done ps, List.Forall₂ t.Stands w.visited.toList done ∧
    List.Forall₂ t.Stands w.pending ps ∧ done ++ ps.flatMap d.preorderAt = (d.preorderAt p).tail

namespace Underway

variable {i : NodeId} {p : Position}

/-- The walk begins with the children of the node. -/
theorem start (h : t.Sound d) (hi : t.Stands i p) {ids : List NodeId}
    (hids : children i t = .ok ids t') : Underway d i p [] ⟨ids, #[]⟩ t' := by
  obtain ⟨hmoves, ps, hps, hlist⟩ := stands_of_children h hi hids
  refine ⟨h.moves hmoves, hi.extend hmoves.extends, List.nil_sublist _, [], ps, .nil, hps, ?_⟩
  rw [hlist, List.nil_append, List.tail_cons]

/-- **One turn keeps the invariant.** -/
theorem step {j : NodeId} {rest : List NodeId} {visited : Array NodeId}
    (h : Underway d i p taken ⟨j :: rest, visited⟩ t)
    (hstep : Walk.step ⟨j :: rest, visited⟩ t = .ok w' t') :
    Underway d i p (taken ++ [j]) w' t' := by
  obtain ⟨done, ps, hdone, hps, hlist⟩ := h.listed
  cases hps with
  | @cons _ q _ ps hj hrest =>
      rcases step_expandAll h.sound visited hj hrest with ⟨e, u, hfail, -⟩ |
        ⟨w₁, u, new, done', ps', hok, hmoves, hvisited, -, hdone', hps', hsplit⟩
      · rw [hstep] at hfail
        cases hfail
      · rw [hstep] at hok
        cases hok
        have hx := hmoves.extends
        refine ⟨h.sound.moves hmoves, h.stands.extend hx, ?_, done ++ done', ps', ?_, hps', ?_⟩
        · obtain ⟨more, hmore⟩ := exists_visited_of_step hstep
          rw [hmore]
          exact h.visited.append (List.singleton_sublist.mpr List.mem_cons_self)
        · rw [hvisited]
          exact List.rel_append (hdone.imp fun _ _ hk => hk.extend hx) hdone'
        · rw [List.append_assoc, ← hsplit, hlist]

/-- **All turns keep the invariant.** -/
theorem turns {more : List NodeId} (hturns : Turns w t more w' t') (h : Underway d i p taken w t) :
    Underway d i p (taken ++ more) w' t' := by
  induction hturns generalizing taken with
  | none w t =>
      rw [List.append_nil]
      exact h
  | @turn j rest more visited w₁ w' t t₁ t' hstep _ ih =>
      have hnext := ih (h.step hstep)
      rw [List.append_assoc, List.singleton_append] at hnext
      exact hnext

/-! ## What the invariant says -/

theorem places (h : Underway d i p taken w t) :
    w.visited.toList.map t.position ++ w.pending.flatMap (fun j => d.preorderAt (t.position j))
      = (d.preorderAt p).tail := by
  obtain ⟨done, ps, hdone, hps, hlist⟩ := h.listed
  have hvisited := (read_of_stands h.sound.arena hdone).2
  have hpending := (read_of_stands h.sound.arena hps).2
  calc w.visited.toList.map t.position
        ++ w.pending.flatMap (fun j => d.preorderAt (t.position j))
      = w.visited.toList.map t.position ++ (w.pending.map t.position).flatMap d.preorderAt := by
        rw [List.flatMap_map]
    _ = done ++ ps.flatMap d.preorderAt := by rw [hvisited, hpending]
    _ = (d.preorderAt p).tail := hlist

/-- What was taken and what is pending is wrapped. -/
theorem exists_stands (h : Underway d i p taken w t) {j : NodeId}
    (hj : j ∈ taken ++ w.pending) : t.Stands j (t.position j) := by
  obtain ⟨done, ps, hdone, hps, -⟩ := h.listed
  have hstands : ∃ q, t.Stands j q := by
    rcases List.mem_append.mp hj with hj | hj
    · obtain ⟨q, -, hq⟩ := exists_of_mem_left hdone (h.visited.subset hj)
      exact ⟨q, hq⟩
    · obtain ⟨q, -, hq⟩ := exists_of_mem_left hps hj
      exact ⟨q, hq⟩
  obtain ⟨q, hq⟩ := hstands
  rw [hq.eq_position h.sound.arena]
  exact hq

/-- **The nodes that were taken, and those that are pending, stand at positions in the list**, in
its order. -/
theorem sublist (h : Underway d i p taken w t) :
    ((taken ++ w.pending).map t.position).Sublist (d.preorderAt p).tail := by
  have hpending : (w.pending.map t.position).Sublist
      (w.pending.flatMap fun j => d.preorderAt (t.position j)) := by
    rw [← List.flatMap_map]
    refine sublist_flatMap fun q hq => ?_
    obtain ⟨j, hj, rfl⟩ := List.mem_map.mp hq
    obtain ⟨m, -, hm⟩ := (h.exists_stands (List.mem_append_right _ hj)).exists_node h.sound.arena
    rw [SyntaxNode.preorderAt_of_valueAt? hm]
    exact List.singleton_sublist.mpr (m.source.mem_preorder_self _)
  rw [List.map_append, ← h.places]
  exact (h.visited.map t.position).append hpending

theorem nodup (h : Underway d i p taken w t) : (taken ++ w.pending).Nodup := by
  obtain ⟨n, -, hp⟩ := h.stands.exists_node h.sound.arena
  have hlist : (d.preorderAt p).tail.Nodup := by
    rw [SyntaxNode.preorderAt_of_valueAt? hp]
    exact (n.source.nodup_preorder p).tail
  exact (hlist.sublist h.sublist).of_map t.position

theorem below (h : Underway d i p taken w t) {j : NodeId} (hj : j ∈ taken ++ w.pending) :
    i ∈ t.ancestors j := by
  have harena := h.sound.arena
  have hstands := h.exists_stands hj
  obtain ⟨n, -, hp⟩ := h.stands.exists_node harena
  rw [h.stands.mem_iff harena (hstands.ancestors harena),
    ← SyntaxNode.mem_tail_preorderAt hp (hstands.mem_preorder harena)]
  exact h.sublist.subset (List.mem_map_of_mem hj)

theorem length_le (h : Underway d i p taken w t) {n : SyntaxNode} (hp : d.valueAt? p = some n) :
    taken.length + w.pending.length ≤ n.closure.length := by
  have hle := h.sublist.length_le
  rw [List.length_map, List.length_append, SyntaxNode.length_tail_preorderAt hp] at hle
  exact hle

end Underway

/-! ## Bounded runs -/

/-- **A bounded run makes turns** until nothing is pending, or a turn fails, or the bound is used
up. -/
theorem run_turns (bound : Nat) (w : Walk) (t : Tree) :
    ∃ taken w' t', Turns w t taken w' t' ∧
      (((w'.pending = [] ∨ taken.length = bound) ∧
          Walk.run bound w t = .ok w'.visited.toList t') ∨
        ∃ e t'', w'.pending ≠ [] ∧ w'.step t' = .error e t'' ∧
          Walk.run bound w t = .error e t'') := by
  induction bound generalizing w t with
  | zero => exact ⟨[], w, t, .none w t, Or.inl ⟨Or.inr rfl, rfl⟩⟩
  | succ bound ih =>
      obtain ⟨pending, visited⟩ := w
      cases pending with
      | nil => exact ⟨[], _, t, .none _ t, Or.inl ⟨Or.inl rfl, run_of_nil rfl _⟩⟩
      | cons i rest =>
          have hturn : Walk.run (bound + 1) ⟨i :: rest, visited⟩
              = Walk.step ⟨i :: rest, visited⟩ >>= fun w => w.run bound := by
            rw [Walk.run, if_neg (by simp)]
          rw [hturn]
          cases hstep : Walk.step ⟨i :: rest, visited⟩ t with
          | error e t' =>
              refine ⟨[], _, t, .none _ t, Or.inr ⟨e, t', by simp, hstep, bind_of_error hstep⟩⟩
          | ok w₁ t₁ =>
              obtain ⟨taken, w', t', hturns, hend⟩ := ih w₁ t₁
              refine ⟨i :: taken, w', t', .turn hstep hturns, ?_⟩
              rw [bind_of_ok hstep, List.length_cons]
              rcases hend with ⟨hstop, hrun⟩ | hfail
              · exact Or.inl ⟨hstop.imp id (congrArg (· + 1)), hrun⟩
              · exact Or.inr hfail

end Walk

/-! ## The walk below a node -/

/-- **What the walk below node `i` starts a turn with**, after the nodes in `taken`: it begins with
the children of the node and nothing visited. -/
def TurnBelow (t : Tree) (i : NodeId) (taken : List NodeId) (w : Walk) (t' : Tree) : Prop :=
  ∃ ids t₀, children i t = .ok ids t₀ ∧ Walk.Turns ⟨ids, #[]⟩ t₀ taken w t'

/-- **The loop of the walk below a node**, whether or not all that is below it can be had. -/
structure WalkLoop (d : SyntaxNode) (t : Tree) (i : NodeId) (n : Node) : Prop where
  /-- Before every turn, the visited nodes and then each pending node with all that is below it
  stand at the positions below that of the node, in pre-order. -/
  places : ∀ taken w t', t.TurnBelow i taken w t' →
    w.visited.toList.map t'.position ++ w.pending.flatMap (fun j => d.preorderAt (t'.position j))
      = (d.preorderAt (t.position i)).tail
  /-- They wrap what the recursion on the nodes lists. -/
  nodes : ∀ taken w t', t.TurnBelow i taken w t' →
    w.visited.toList.map (fun j => (t'.node? j).map Node.source) ++
        w.pending.flatMap (fun j => (t'.node? j).elim [] fun m =>
          (m.source :: m.source.closure).map some)
      = n.source.closure.map some
  /-- No node is taken twice: neither one that was taken before nor one that is pending, which
  includes the one that the next turn takes, is among the others. -/
  distinct : ∀ taken w t', t.TurnBelow i taken w t' → (taken ++ w.pending).Nodup
  /-- All of them are strictly below the node. -/
  below : ∀ taken w t', t.TurnBelow i taken w t' → ∀ j ∈ taken ++ w.pending, i ∈ t'.ancestors j
  /-- So there are no more turns than nodes below. -/
  bound : ∀ taken w t', t.TurnBelow i taken w t' →
    taken.length + w.pending.length ≤ n.source.closure.length
  /-- The loop ends: it is not begun since the children of the node cannot be had, or nothing is
  pending any more and what was visited is remembered and given, or the next turn, which is not one
  too many either, fails. -/
  ends : (∃ e t', children i t = .error e t' ∧ descendants i t = .error e t') ∨
    ∃ taken w t', t.TurnBelow i taken w t' ∧
      ((w.pending = [] ∧ taken.length ≤ n.source.closure.length ∧ descendants i t =
          .ok w.visited.toList (t'.rememberDescendants i w.visited.toList)) ∨
        ∃ e t'', w.step t' = .error e t'' ∧ taken.length + 1 ≤ n.source.closure.length ∧
          descendants i t = .error e t'')

theorem TurnBelow.underway (h : t.Sound d) {i : NodeId} {p : Position} (hi : t.Stands i p)
    (hturn : t.TurnBelow i taken w t') : Walk.Underway d i p taken w t' := by
  obtain ⟨ids, t₀, hids, hturns⟩ := hturn
  exact Walk.Underway.turns hturns (Walk.Underway.start h hi hids)

/-- Pending nodes wrap what the recursion lists from their positions on. -/
theorem flatMap_closure_of_stands (h : t.Mirrors d) {ids : List NodeId} {ps : List Position}
    (hids : List.Forall₂ t.Stands ids ps) :
    ids.flatMap (fun j => (t.node? j).elim [] fun m => (m.source :: m.source.closure).map some)
      = (ps.flatMap d.preorderAt).map d.valueAt? := by
  induction hids with
  | nil => rfl
  | @cons j q ids ps hj _ ih =>
      obtain ⟨m, hm, hq⟩ := hj.exists_node h
      rw [List.flatMap_cons, List.flatMap_cons, List.map_append, ih, hm, Option.elim_some,
        SyntaxNode.preorderAt_of_valueAt? hq, SyntaxNode.map_valueAt?_preorder hq]

theorem Walk.Underway.nodes {i : NodeId} {p : Position} (h : Walk.Underway d i p taken w t)
    {n : SyntaxNode} (hp : d.valueAt? p = some n) :
    w.visited.toList.map (fun j => (t.node? j).map Node.source) ++
        w.pending.flatMap (fun j => (t.node? j).elim [] fun m =>
          (m.source :: m.source.closure).map some)
      = n.closure.map some := by
  obtain ⟨done, ps, hdone, hps, hlist⟩ := h.listed
  have hvalues := SyntaxNode.map_valueAt?_preorder hp
  rw [map_source_of_stands h.sound.arena hdone, flatMap_closure_of_stands h.sound.arena hps,
    ← List.map_append, hlist, SyntaxNode.preorderAt_of_valueAt? hp, List.map_tail, hvalues,
    List.map_cons, List.tail_cons]

end Tree

/-- **The loop of the walk below a node** that has not been walked yet, in every reachable tree:
what has been visited and what is pending always make up the whole list, no node is taken twice,
all of them are below the node, and so the loop ends, also where the document has faults. -/
theorem Reachable.walk_loop {d : SyntaxNode} {t : Tree} (h : Reachable d t) {i : NodeId}
    {n : Tree.Node} (hn : t.node? i = some n) (hnew : n.descendants = none) :
    t.WalkLoop d i n := by
  have hi := h.sound.arena.stands_position hn
  have hp := hi.valueAt? h.sound.arena hn
  have hunderway : ∀ {taken w t'}, t.TurnBelow i taken w t' →
      Tree.Walk.Underway d i (t.position i) taken w t' := fun hturn => hturn.underway h.sound hi
  refine ⟨fun _ _ _ hturn => (hunderway hturn).places,
    fun _ _ _ hturn => (hunderway hturn).nodes hp, fun _ _ _ hturn => (hunderway hturn).nodup,
    fun _ _ _ hturn _ hj => (hunderway hturn).below hj,
    fun _ _ _ hturn => (hunderway hturn).length_le hp, ?_⟩
  rw [Tree.descendants, bind_of_ok (Tree.nodeAt_of_node? hn)]
  simp only [hnew]
  cases hids : Tree.children i t with
  | error e t' => exact Or.inl ⟨e, t', rfl, bind_of_error hids⟩
  | ok ids t₀ =>
      rw [bind_of_ok hids]
      obtain ⟨taken, w, t', hturns, hend⟩ :=
        Tree.Walk.run_turns n.source.objectCount ⟨ids, #[]⟩ t₀
      have hturn : t.TurnBelow i taken w t' := ⟨ids, t₀, hids, hturns⟩
      have hle := (hunderway hturn).length_le hp
      refine Or.inr ⟨taken, w, t', hturn, ?_⟩
      rcases hend with ⟨hstop, hrun⟩ | ⟨e, t'', hpending, hstep, hrun⟩
      · -- the bound leaves room for more turns than there are nodes below
        have hempty : w.pending = [] := by
          rcases hstop with hempty | hbound
          · exact hempty
          · have hroom := n.source.length_preorder_le_max (t.position i)
            have hlist := SyntaxNode.length_tail_preorderAt hp
            rw [SyntaxNode.preorderAt_of_valueAt? hp, List.length_tail] at hlist
            exact List.eq_nil_of_length_eq_zero (by omega)
        refine Or.inl ⟨hempty, by omega, ?_⟩
        rw [bind_of_ok hrun]
        rfl
      · have hpos := List.length_pos_of_ne_nil hpending
        exact Or.inr ⟨e, t'', hstep, by omega, bind_of_error hrun⟩

namespace Sample

/-- The loop from the root ends also where the statement in the second block lacks its parts. -/
theorem walk_loop_halted : Reachable halting halted ∧ ∃ n, halted.node? Tree.root = some n ∧
    n.descendants = none ∧ halted.WalkLoop halting Tree.root n ∧
      ∃ e t', Tree.descendants Tree.root halted = .error e t' := by
  obtain ⟨n, hn, -⟩ := reachable_halted.sound.arena.root
  have hnew : (halted.node? Tree.root).bind Tree.Node.descendants = none := by decide +kernel
  rw [hn] at hnew
  exact ⟨reachable_halted, n, hn, hnew, Reachable.walk_loop reachable_halted hn hnew, _, _, by rfl⟩

end Sample

end LexicalScope
