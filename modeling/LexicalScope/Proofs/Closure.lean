import LexicalScope.Proofs.Questions

set_option autoImplicit false

/-! # All that is below a node, by recursion

`Tree.descendants` walks with a stack of its own, takes over whole what it knows of a subtree
already, and lists numbers. Here it is compared with a recursion on the nodes that knows neither
numbers nor positions: each child of a node, followed by all that is below the child
(`SyntaxNode.closure`).

* `SyntaxNode.mem_closure`: the recursion lists the nodes that are reached from child to child.
* `SyntaxNode.map_valueAt?_preorder`: it lists the values at the positions of the pre-order.
* `SyntaxNode.below_of_faultless`, `SyntaxNode.below_of_walkFails`: what a walk answers, by
  whether some node that is reached has a fault.
* `Reachable.descendants_refine`: the walk below any node of any reachable tree.
-/

namespace LexicalScope

open Query

namespace SyntaxNode

variable {d n m : SyntaxNode}

/-! ## Nodes reached from child to child -/

/-- A node that is reached from another by going from node to child any number of times. -/
def Reaches : SyntaxNode → SyntaxNode → Prop :=
  Relation.ReflTransGen fun n c => ∃ cs, n.children = .ok cs ∧ c ∈ cs

/-- **Nothing that is reached from the node has a fault**, the node included. -/
def Faultless (n : SyntaxNode) : Prop := ∀ m, n.Reaches m → ∃ cs, m.children = .ok cs

/-- **All that is below a node**: each child, followed by all that is below the child, from left to
right. A node with a fault has nothing below it. -/
def closure (n : SyntaxNode) : List SyntaxNode :=
  match _h : n.children with
  | .error _ => []
  | .ok cs => cs.attach.flatMap fun c => c.1 :: closure c.1
termination_by n.objectCount
decreasing_by exact objectCount_lt_of_mem_children _h c.2

/-- **The first node with a fault, from a node on in pre-order, has the fault `f`.** -/
def WalkFails (n : SyntaxNode) (f : Fault) : Prop :=
  ∃ before m after, n :: n.closure = before ++ m :: after ∧
    (∀ x ∈ before, ∃ cs, x.children = .ok cs) ∧ m.children = .error f

theorem closure_of_ok {cs : List SyntaxNode} (h : n.children = .ok cs) :
    n.closure = cs.flatMap fun c => c :: c.closure := by
  rw [closure]
  split
  · next f hf => rw [h] at hf; cases hf
  · next cs' hcs =>
    rw [h] at hcs
    cases hcs
    rw [List.flatMap_subtype (g := fun c => c :: c.closure) fun _ _ => rfl, List.unattach_attach]

theorem closure_of_error {f : Fault} (h : n.children = .error f) : n.closure = [] := by
  rw [closure]
  split
  · rfl
  · next cs hcs => rw [h] at hcs; cases hcs

theorem closure_eq (n : SyntaxNode) :
    n.closure = n.branches.flatMap fun b => b.2 :: b.2.closure := by
  cases h : n.children with
  | error f => rw [closure_of_error h, branches_of_error h, List.flatMap_nil]
  | ok cs => rw [closure_of_ok h, ← map_snd_branches h, List.flatMap_map]

theorem reaches_of_ok {cs : List SyntaxNode} (h : n.children = .ok cs) :
    n.Reaches m ↔ m = n ∨ ∃ c ∈ cs, c.Reaches m := by
  rw [Reaches, Relation.ReflTransGen.cases_head_iff]
  refine or_congr eq_comm ⟨?_, ?_⟩
  · rintro ⟨c, ⟨cs', hcs', hc⟩, hreach⟩
    rw [h] at hcs'
    cases hcs'
    exact ⟨c, hc, hreach⟩
  · rintro ⟨c, hc, hreach⟩
    exact ⟨c, ⟨cs, h, hc⟩, hreach⟩

theorem reaches_of_error {f : Fault} (h : n.children = .error f) : n.Reaches m ↔ m = n := by
  rw [Reaches, Relation.ReflTransGen.cases_head_iff]
  refine ⟨?_, fun heq => Or.inl heq.symm⟩
  rintro (heq | ⟨c, ⟨cs, hcs, -⟩, -⟩)
  · exact heq.symm
  · rw [h] at hcs
    cases hcs

/-- **The recursion lists what is reached from child to child.** -/
theorem mem_closure : m ∈ n :: n.closure ↔ n.Reaches m := by
  induction n using closure.induct with
  | case1 n f hf => rw [closure_of_error hf, List.mem_singleton, reaches_of_error hf]
  | case2 n cs hcs ih =>
      rw [closure_of_ok hcs, List.mem_cons, List.mem_flatMap, reaches_of_ok hcs]
      exact or_congr_right (exists_congr fun c => and_congr_right fun hc => ih ⟨c, hc⟩)

/-- **The recursion lists the values at the positions of the pre-order.** -/
theorem map_valueAt?_preorder {p : Position} (hp : d.valueAt? p = some n) :
    (n.preorder p).map d.valueAt? = (n :: n.closure).map some := by
  induction n, p using preorder.induct with
  | case1 n p ih =>
      rw [preorder_eq, closure_eq, List.map_cons, List.map_cons, hp, List.map_flatMap,
        List.map_flatMap]
      congr 1
      exact List.flatMap_congr fun b hb => ih ⟨b, hb⟩ (valueAt?_branch hp hb)

/-! ## Faults of what is reached -/

theorem firstFault_preorderAt {p : Position} (hp : d.valueAt? p = some n) :
    d.firstFault (d.preorderAt p) = (n :: n.closure).findSome? fault? := by
  have hvalues := congrArg (List.findSome? fun v => v.bind fault?) (map_valueAt?_preorder hp)
  rw [List.findSome?_map, List.findSome?_map] at hvalues
  rw [preorderAt_of_valueAt? hp]
  exact hvalues

theorem fault?_eq_some {f : Fault} : n.fault? = some f ↔ n.children = .error f := by
  unfold fault?
  cases n.children <;> simp

theorem findSome?_closure_eq_none : (n :: n.closure).findSome? fault? = none ↔ n.Faultless := by
  rw [List.findSome?_eq_none_iff]
  refine forall_congr' fun m => ?_
  rw [mem_closure, fault?_eq_none]

theorem findSome?_closure_eq_some {f : Fault} :
    (n :: n.closure).findSome? fault? = some f ↔ n.WalkFails f := by
  rw [List.findSome?_eq_some_iff, WalkFails]
  refine exists_congr fun before => exists_congr fun m => exists_congr fun after => ?_
  refine and_congr_right fun _ => ?_
  rw [fault?_eq_some, and_comm]
  refine and_congr_left fun _ => forall₂_congr fun x _ => fault?_eq_none

/-- A node that is not faultless has a first fault. -/
theorem exists_walkFails (h : ¬ n.Faultless) : ∃ f, n.WalkFails f := by
  rw [← findSome?_closure_eq_none, ← Ne, Option.ne_none_iff_exists'] at h
  obtain ⟨f, hf⟩ := h
  exact ⟨f, findSome?_closure_eq_some.mp hf⟩

/-- The first node with a fault is reached. -/
theorem WalkFails.exists_reaches {f : Fault} (h : n.WalkFails f) :
    ∃ m f, n.Reaches m ∧ m.children = .error f := by
  obtain ⟨before, m, after, hlist, -, hm⟩ := h
  refine ⟨m, f, mem_closure.mp ?_, hm⟩
  rw [hlist]
  exact List.mem_append_right before List.mem_cons_self

/-- A node from which a fault is reached is not faultless. -/
theorem not_faultless {f : Fault} (hreach : n.Reaches m) (hm : m.children = .error f) :
    ¬ n.Faultless := by
  intro h
  obtain ⟨cs, hcs⟩ := h m hreach
  rw [hm] at hcs
  cases hcs

theorem below_of_faultless {p : Position} (hp : d.valueAt? p = some n) (h : n.Faultless) :
    d.below p = .ok (d.preorderAt p).tail := by
  rw [below]
  refine barring_of_none ?_ _
  rw [firstFault_preorderAt hp, findSome?_closure_eq_none]
  exact h

theorem below_of_walkFails {p : Position} (hp : d.valueAt? p = some n) {f : Fault}
    (h : n.WalkFails f) : d.below p = .error f := by
  rw [below]
  refine barring_of_some ?_ _
  rw [firstFault_preorderAt hp, findSome?_closure_eq_some]
  exact h

end SyntaxNode

/-! ## The walk below a node of a tree -/

namespace Tree

variable {d : SyntaxNode} {t : Tree}

/-- **What the walk below a node gives**, in terms of the nodes of the document alone. -/
structure WalkRefines (d : SyntaxNode) (t : Tree) (i : NodeId) (n : Node) : Prop where
  /-- The walk succeeds exactly if nothing that is reached from the node has a fault. -/
  succeeds : (∃ ids t', descendants i t = .ok ids t') ↔ n.source.Faultless
  /-- Otherwise it fails with the fault of the first node in pre-order that has one. -/
  fails : ¬ n.source.Faultless →
    ∃ f t', n.source.WalkFails f ∧ descendants i t = .error (.fault f) t'
  /-- The listed numbers wrap what the recursion lists, one by one. -/
  nodes : ∀ ids t', descendants i t = .ok ids t' →
    ids.map (fun j => (t'.node? j).map Node.source) = n.source.closure.map some
  /-- They stand where the document lists the positions below that of the node. -/
  places : ∀ ids t', descendants i t = .ok ids t' →
    ids.map t'.position = (d.preorderAt (t.position i)).tail
  /-- The node is not among them, and none of them is listed twice. -/
  distinct : ∀ ids t', descendants i t = .ok ids t' → (i :: ids).Nodup

/-- Numbers wrap the values at the positions where they stand. -/
theorem map_source_of_stands (h : t.Mirrors d) {ids : List NodeId} {ps : List Position}
    (hids : List.Forall₂ t.Stands ids ps) :
    ids.map (fun j => (t.node? j).map Node.source) = ps.map d.valueAt? := by
  induction hids with
  | nil => rfl
  | cons hi _ ih =>
      obtain ⟨n, hn, hp⟩ := hi.exists_node h
      rw [List.map_cons, List.map_cons, hn, hp, ih, Option.map_some]

/-- A walk that succeeds lists numbers at the positions below, and has met no fault. -/
theorem stands_of_descendants (h : t.Sound d) {i : NodeId} {p : Position} {n : Node}
    (hi : t.Stands i p) (hn : t.node? i = some n) {ids : List NodeId} {t' : Tree}
    (hrun : descendants i t = .ok ids t') :
    t.Moves d t' ∧ List.Forall₂ t'.Stands ids (d.preorderAt p).tail ∧ n.source.Faultless := by
  have hp := hi.valueAt? h.arena hn
  by_cases hfaultless : n.source.Faultless
  · obtain ⟨ids', u, hrun', hmoves, -, hids⟩ := (descendants_answers h hi).exists_of_ok
      (SyntaxNode.below_of_faultless hp hfaultless)
    rw [hrun] at hrun'
    cases hrun'
    exact ⟨hmoves, hids, hfaultless⟩
  · obtain ⟨f, hf⟩ := SyntaxNode.exists_walkFails hfaultless
    obtain ⟨u, hrun', -⟩ := (descendants_answers h hi).exists_of_error
      (SyntaxNode.below_of_walkFails hp hf)
    rw [hrun] at hrun'
    cases hrun'

/-- The node and what is listed below it stand at the positions that the document lists. -/
theorem stands_cons_of_descendants (h : t.Sound d) {i : NodeId} {p : Position} {n : Node}
    (hi : t.Stands i p) (hn : t.node? i = some n) {ids : List NodeId} {t' : Tree}
    (hrun : descendants i t = .ok ids t') :
    t'.Sound d ∧ List.Forall₂ t'.Stands (i :: ids) (d.preorderAt p) := by
  obtain ⟨hmoves, hids, -⟩ := stands_of_descendants h hi hn hrun
  refine ⟨h.moves hmoves, ?_⟩
  rw [SyntaxNode.preorderAt_of_valueAt? (hi.valueAt? h.arena hn)] at hids ⊢
  rw [← n.source.cons_tail_preorder]
  exact .cons (hi.extend hmoves.extends) hids

end Tree

/-- **The walk below a node lists the closure of its children**, in every reachable tree, whatever
children and descendants are remembered and wherever. -/
theorem Reachable.descendants_refine {d : SyntaxNode} {t : Tree} (h : Reachable d t) {i : NodeId}
    {n : Tree.Node} (hn : t.node? i = some n) : t.WalkRefines d i n := by
  have hi := h.sound.arena.stands_position hn
  have hp := hi.valueAt? h.sound.arena hn
  -- the node itself comes first in the pre-order, and is not listed
  have hlist : ∀ ids t', Tree.descendants i t = .ok ids t' → t'.Sound d ∧
      List.Forall₂ t'.Stands (i :: ids) (n.source.preorder (t.position i)) := by
    intro ids t' hrun
    rw [← SyntaxNode.preorderAt_of_valueAt? hp]
    exact Tree.stands_cons_of_descendants h.sound hi hn hrun
  refine ⟨⟨?_, ?_⟩, ?_, ?_, ?_, ?_⟩
  · rintro ⟨ids, t', hrun⟩
    exact (Tree.stands_of_descendants h.sound hi hn hrun).2.2
  · intro hfaultless
    obtain ⟨ids, t', hrun, -⟩ := (Tree.descendants_answers h.sound hi).exists_of_ok
      (SyntaxNode.below_of_faultless hp hfaultless)
    exact ⟨ids, t', hrun⟩
  · intro hfault
    obtain ⟨f, hf⟩ := SyntaxNode.exists_walkFails hfault
    obtain ⟨t', hrun, -⟩ := (Tree.descendants_answers h.sound hi).exists_of_error
      (SyntaxNode.below_of_walkFails hp hf)
    exact ⟨f, t', hf, hrun⟩
  · intro ids t' hrun
    obtain ⟨h', hids⟩ := hlist ids t' hrun
    have hvalues := Tree.map_source_of_stands h'.arena hids
    rw [SyntaxNode.map_valueAt?_preorder hp, List.map_cons, List.map_cons] at hvalues
    exact (List.cons.inj hvalues).2
  · intro ids t' hrun
    obtain ⟨h', hids⟩ := hlist ids t' hrun
    obtain ⟨-, hpos⟩ := Tree.read_of_stands h'.arena hids
    rw [SyntaxNode.preorderAt_of_valueAt? hp, ← hpos]
    rfl
  · intro ids t' hrun
    obtain ⟨h', hids⟩ := hlist ids t' hrun
    obtain ⟨-, hpos⟩ := Tree.read_of_stands h'.arena hids
    refine List.Nodup.of_map t'.position ?_
    rw [hpos]
    exact n.source.nodup_preorder _

namespace Sample

/-- The tree after the function has been walked by itself. -/
def spliced : Tree :=
  (Question.descendants 2).after ((Question.children Tree.root).after (Tree.ofDocument program))

theorem reachable_spliced : Reachable program spliced :=
  .ask _ (.ask _ .refl (by decide +kernel)) (by decide +kernel)

/-- The walk from the root takes over what is known to be below the function. The variable comes
first in the list, but its child has the last number. -/
theorem descendants_refine_spliced :
    Reachable program spliced ∧
      ∃ n t', spliced.node? Tree.root = some n ∧ spliced.WalkRefines program Tree.root n ∧
        Tree.descendants Tree.root spliced = .ok [1, 6, 2, 3, 4, 5] t' ∧ n.source.Faultless := by
  obtain ⟨n, hn, -⟩ := reachable_spliced.sound.arena.root
  obtain ⟨t', hrun⟩ : ∃ t', Tree.descendants Tree.root spliced = .ok [1, 6, 2, 3, 4, 5] t' :=
    ⟨_, by rfl⟩
  have hwalk := Reachable.descendants_refine reachable_spliced hn
  exact ⟨reachable_spliced, n, t', hn, hwalk, hrun, hwalk.succeeds.mp ⟨_, t', hrun⟩⟩

end Sample

end LexicalScope
