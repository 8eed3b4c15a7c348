import LexicalScope.Proofs.Position

set_option autoImplicit false

/-! # The nodes of a document in pre-order

`SyntaxNode.preorder` lists the positions of a node and of everything below it, each node before
its children and the children from left to right. It needs no tree of wrapped nodes and does not
fail: a node with a fault has nothing below it. `SyntaxNode.below` is the list as a walk would
give it, with the fault of the first node in pre-order that has one.

* `pairwise_preorder`: a position never comes after one that stands at it or below it; so no
  position is listed twice, and ancestors come first.
* `preorder_block`: what is below a listed node is a contiguous block of the list.
* `length_preorder_le`: a node lists at most as many positions as it holds objects.
-/

namespace LexicalScope

namespace SyntaxNode

/-! ## Branches -/

/-- The children of a node with the steps to them; a node with a fault has none. -/
def branches (n : SyntaxNode) : List (Step × SyntaxNode) :=
  match n.children with
  | .ok cs => n.steps.zip cs
  | .error _ => []

theorem branches_of_ok {n : SyntaxNode} {cs : List SyntaxNode} (h : n.children = .ok cs) :
    n.branches = n.steps.zip cs := by
  rw [branches, h]

theorem branches_of_error {n : SyntaxNode} {f : Fault} (h : n.children = .error f) :
    n.branches = [] := by
  rw [branches, h]

theorem map_fst_branches {n : SyntaxNode} {cs : List SyntaxNode} (h : n.children = .ok cs) :
    n.branches.map Prod.fst = n.steps := by
  rw [branches_of_ok h, List.map_fst_zip (Nat.le_of_eq (length_steps h))]

theorem map_snd_branches {n : SyntaxNode} {cs : List SyntaxNode} (h : n.children = .ok cs) :
    n.branches.map Prod.snd = cs := by
  rw [branches_of_ok h, List.map_snd_zip (Nat.le_of_eq (length_steps h).symm)]

theorem nodup_branches (n : SyntaxNode) : (n.branches.map Prod.fst).Nodup := by
  cases h : n.children with
  | error f => rw [branches_of_error h]; exact List.nodup_nil
  | ok cs => rw [map_fst_branches h]; exact n.nodup_steps

theorem exists_of_mem_branches {n : SyntaxNode} {b : Step × SyntaxNode} (h : b ∈ n.branches) :
    ∃ cs, n.children = .ok cs ∧ b.2 ∈ cs ∧ n.step? b.1 = some b.2 := by
  cases hcs : n.children with
  | error f => rw [branches_of_error hcs] at h; cases h
  | ok cs =>
      rw [branches_of_ok hcs] at h
      obtain ⟨k, hk⟩ := List.mem_iff_getElem?.mp h
      obtain ⟨hs, hc⟩ := List.getElem?_zip_eq_some.mp hk
      refine ⟨cs, rfl, List.mem_of_getElem? hc, ?_⟩
      rw [step?_of_getElem? hcs hs, hc]

theorem objectCount_lt_of_mem_branches {n : SyntaxNode} {b : Step × SyntaxNode}
    (h : b ∈ n.branches) : b.2.objectCount < n.objectCount := by
  obtain ⟨cs, hcs, hb, -⟩ := exists_of_mem_branches h
  exact objectCount_lt_of_mem_children hcs hb

theorem valueAt?_branch {d n : SyntaxNode} {p : Position} (hp : d.valueAt? p = some n)
    {b : Step × SyntaxNode} (h : b ∈ n.branches) : d.valueAt? (b.1 :: p) = some b.2 := by
  obtain ⟨cs, -, -, hs⟩ := exists_of_mem_branches h
  rw [valueAt?_cons hp, hs]

/-! ## Pre-order -/

/-- The positions of a node that stands at `p` and of everything below it, in pre-order. -/
def preorder (n : SyntaxNode) (p : Position) : List Position :=
  p :: n.branches.attach.flatMap fun b => preorder b.1.2 (b.1.1 :: p)
termination_by n.objectCount
decreasing_by exact objectCount_lt_of_mem_branches b.2

theorem preorder_eq (n : SyntaxNode) (p : Position) :
    n.preorder p = p :: n.branches.flatMap fun b => b.2.preorder (b.1 :: p) := by
  rw [preorder]
  congr 1
  rw [List.flatMap_subtype (g := fun b => b.2.preorder (b.1 :: p)) fun _ _ => rfl,
    List.unattach_attach]

theorem mem_preorder {n : SyntaxNode} {p q : Position} :
    q ∈ n.preorder p ↔ q = p ∨ ∃ b ∈ n.branches, q ∈ b.2.preorder (b.1 :: p) := by
  rw [preorder_eq, List.mem_cons, List.mem_flatMap]

theorem mem_preorder_self (n : SyntaxNode) (p : Position) : p ∈ n.preorder p :=
  mem_preorder.mpr (Or.inl rfl)

theorem preorder_ne_nil (n : SyntaxNode) (p : Position) : n.preorder p ≠ [] :=
  List.ne_nil_of_mem (n.mem_preorder_self p)

theorem cons_tail_preorder (n : SyntaxNode) (p : Position) :
    p :: (n.preorder p).tail = n.preorder p := by
  rw [preorder_eq, List.tail_cons]

/-- Everything listed stands at or below the node. -/
theorem suffix_of_mem_preorder {n : SyntaxNode} {p q : Position} (h : q ∈ n.preorder p) :
    p <:+ q := by
  induction n, p using preorder.induct with
  | case1 n p ih =>
      rcases mem_preorder.mp h with rfl | ⟨b, hb, hq⟩
      · exact List.suffix_rfl
      · exact (List.suffix_cons b.1 p).trans (ih ⟨b, hb⟩ hq)

/-- Two steps from one position that lead towards the same position are the same. -/
theorem step_eq_of_suffix {s s' : Step} {p q : Position} (h : s :: p <:+ q)
    (h' : s' :: p <:+ q) : s = s' := by
  have heq : s :: p = s' :: p :=
    (List.suffix_of_suffix_length_le h h' (by simp)).eq_of_length (by simp)
  exact (List.cons.inj heq).1

/-- **A position never comes after one that stands at it or below it.** In particular no position
is listed twice. -/
theorem pairwise_preorder (n : SyntaxNode) (p : Position) :
    (n.preorder p).Pairwise fun a b => ¬ b <:+ a := by
  induction n, p using preorder.induct with
  | case1 n p ih =>
      rw [preorder_eq, List.pairwise_cons]
      refine ⟨?_, ?_⟩
      · intro q hq hsuf
        obtain ⟨b, -, hq⟩ := List.mem_flatMap.mp hq
        have hlong := (suffix_of_mem_preorder hq).length_le
        have hshort := hsuf.length_le
        rw [List.length_cons] at hlong
        omega
      · refine List.pairwise_flatMap.mpr ⟨fun b hb => ih ⟨b, hb⟩, ?_⟩
        refine (List.pairwise_map.mp n.nodup_branches).imp ?_
        intro a b hne x hx y hy hsuf
        have hxa := suffix_of_mem_preorder hx
        have hyb := (suffix_of_mem_preorder hy).trans hsuf
        exact hne (step_eq_of_suffix hxa hyb)

theorem nodup_preorder (n : SyntaxNode) (p : Position) : (n.preorder p).Nodup :=
  (pairwise_preorder n p).imp fun {a b} h (he : a = b) => h (he ▸ List.suffix_rfl)

/-- Everything listed is in the document. -/
theorem exists_valueAt?_of_mem_preorder {d n : SyntaxNode} {p q : Position}
    (hp : d.valueAt? p = some n) (h : q ∈ n.preorder p) : ∃ m, d.valueAt? q = some m := by
  induction n, p using preorder.induct with
  | case1 n p ih =>
      rcases mem_preorder.mp h with rfl | ⟨b, hb, hq⟩
      · exact ⟨n, hp⟩
      · exact ih ⟨b, hb⟩ (valueAt?_branch hp hb) hq

/-- **What is below a listed node is a block of the list.** -/
theorem preorder_block {d n m : SyntaxNode} {p q : Position} (hp : d.valueAt? p = some n)
    (hq : d.valueAt? q = some m) (h : q ∈ n.preorder p) : m.preorder q <:+: n.preorder p := by
  induction n, p using preorder.induct with
  | case1 n p ih =>
      rcases mem_preorder.mp h with rfl | ⟨b, hb, hmem⟩
      · rw [hp] at hq
        cases hq
        exact List.infix_rfl
      · have hblock := ih ⟨b, hb⟩ (valueAt?_branch hp hb) hmem
        have hchild : b.2.preorder (b.1 :: p) <:+:
            n.branches.flatMap fun b => b.2.preorder (b.1 :: p) :=
          List.infix_of_mem_flatten (List.mem_map_of_mem hb)
        rw [preorder_eq n p]
        exact (hblock.trans hchild).trans (List.suffix_cons _ _).isInfix

/-- A listed node lists its children. -/
theorem cons_mem_preorder {d n m : SyntaxNode} {p q : Position} (hp : d.valueAt? p = some n)
    (hq : d.valueAt? q = some m) (h : q ∈ n.preorder p) {b : Step × SyntaxNode}
    (hb : b ∈ m.branches) : b.1 :: q ∈ n.preorder p := by
  have hchild : b.1 :: q ∈ m.preorder q :=
    mem_preorder.mpr (Or.inr ⟨b, hb, mem_preorder_self _ _⟩)
  exact (preorder_block hp hq h).subset hchild

/-- The parent of a listed node is listed, unless the node is the first one; and the parent has
the step to it. -/
theorem tail_mem_preorder {d n : SyntaxNode} {p q : Position} {s : Step}
    (hp : d.valueAt? p = some n) (h : s :: q ∈ n.preorder p) (hne : s :: q ≠ p) :
    q ∈ n.preorder p ∧ ∃ m c, d.valueAt? q = some m ∧ (s, c) ∈ m.branches := by
  induction n, p using preorder.induct with
  | case1 n p ih =>
      rcases mem_preorder.mp h with rfl | ⟨b, hb, hmem⟩
      · exact absurd rfl hne
      · by_cases heq : s :: q = b.1 :: p
        · obtain ⟨rfl, rfl⟩ := List.cons.inj heq
          exact ⟨mem_preorder_self n q, n, b.2, hp, hb⟩
        · obtain ⟨hq, hm⟩ := ih ⟨b, hb⟩ (valueAt?_branch hp hb) hmem heq
          exact ⟨mem_preorder.mpr (Or.inr ⟨b, hb, hq⟩), hm⟩

/-! ## How many nodes a document has -/

private theorem length_flatMap_preorder_le {bs : List (Step × SyntaxNode)} {p : Position}
    (h : ∀ b ∈ bs, (b.2.preorder (b.1 :: p)).length ≤ b.2.objectCount) :
    (bs.flatMap fun b => b.2.preorder (b.1 :: p)).length
      ≤ ((bs.map Prod.snd).map Json.objectCount).sum := by
  induction bs with
  | nil => simp
  | cons b bs ih =>
      have hhead := h b (by simp)
      have htail := ih fun c hc => h c (by simp [hc])
      simp only [List.flatMap_cons, List.length_append, List.map_cons, List.sum_cons]
      omega

/-- **A node lists at most as many positions as it holds objects**, if it is an object. -/
theorem length_preorder_le {n : SyntaxNode} (hn : n.isObject = true) (p : Position) :
    (n.preorder p).length ≤ n.objectCount := by
  induction n, p using preorder.induct with
  | case1 n p ih =>
      rw [preorder_eq, List.length_cons]
      cases h : n.children with
      | error f =>
          rw [branches_of_error h]
          cases n with
          | object members => simp [Json.objectCount]
          | _ => cases hn
      | ok cs =>
          have hbs : ∀ b ∈ n.branches, (b.2.preorder (b.1 :: p)).length ≤ b.2.objectCount := by
            intro b hb
            obtain ⟨cs', hcs', hmem, -⟩ := exists_of_mem_branches hb
            exact ih ⟨b, hb⟩ (isObject_of_mem_children hcs' hmem)
          have hle := length_flatMap_preorder_le hbs
          rw [map_snd_branches h] at hle
          have hlt := sum_objectCount_lt hn h
          omega

/-- The bound for any JSON value: one that is no object is one node without children. -/
theorem length_preorder_le_max (n : SyntaxNode) (p : Position) :
    (n.preorder p).length ≤ max 1 n.objectCount := by
  by_cases hn : n.isObject = true
  · exact le_trans (length_preorder_le hn p) (le_max_right _ _)
  · have hbs : n.branches = [] := by
      cases n with
      | object members => exact absurd rfl hn
      | _ => rfl
    rw [preorder_eq, hbs]
    simp

/-! ## Faults -/

/-- The fault that keeps a node from having children. -/
def fault? (n : SyntaxNode) : Option Fault :=
  match n.children with
  | .error f => some f
  | .ok _ => none

theorem fault?_of_error {n : SyntaxNode} {f : Fault} (h : n.children = .error f) :
    n.fault? = some f := by
  rw [fault?, h]

theorem fault?_eq_none {n : SyntaxNode} : n.fault? = none ↔ ∃ cs, n.children = .ok cs := by
  unfold fault?
  cases n.children <;> simp

/-- The first fault among the nodes at the listed positions. -/
def firstFault (d : SyntaxNode) (ps : List Position) : Option Fault :=
  ps.findSome? fun p => (d.valueAt? p).bind fault?

theorem firstFault_append (d : SyntaxNode) (ps qs : List Position) :
    d.firstFault (ps ++ qs) = (d.firstFault ps).or (d.firstFault qs) :=
  List.findSome?_append

theorem firstFault_cons_of_error {d n : SyntaxNode} {p : Position} {f : Fault}
    (hp : d.valueAt? p = some n) (h : n.children = .error f) (ps : List Position) :
    d.firstFault (p :: ps) = some f := by
  rw [firstFault, List.findSome?_cons, hp, Option.bind_some, fault?_of_error h]

theorem firstFault_cons_of_ok {d n : SyntaxNode} {p : Position} {cs : List SyntaxNode}
    (hp : d.valueAt? p = some n) (h : n.children = .ok cs) (ps : List Position) :
    d.firstFault (p :: ps) = d.firstFault ps := by
  have hnone : n.fault? = none := fault?_eq_none.mpr ⟨cs, h⟩
  rw [firstFault, List.findSome?_cons, hp, Option.bind_some, hnone]
  rfl

theorem firstFault_eq_none {d : SyntaxNode} {ps : List Position} :
    d.firstFault ps = none ↔
      ∀ p ∈ ps, ∀ n, d.valueAt? p = some n → ∃ cs, n.children = .ok cs := by
  rw [firstFault, List.findSome?_eq_none_iff]
  refine forall₂_congr fun p _ => ?_
  cases d.valueAt? p with
  | none => simp
  | some n => simpa using fault?_eq_none

theorem firstFault_eq_none_of_subset {d : SyntaxNode} {ps qs : List Position} (h : ps ⊆ qs)
    (hqs : d.firstFault qs = none) : d.firstFault ps = none :=
  firstFault_eq_none.mpr fun p hp => firstFault_eq_none.mp hqs p (h hp)

/-! ## Pre-order from a position -/

/-- The positions at and below a position, in pre-order. -/
def preorderAt (d : SyntaxNode) (p : Position) : List Position :=
  (d.valueAt? p).elim [] fun n => n.preorder p

theorem preorderAt_of_valueAt? {d n : SyntaxNode} {p : Position} (h : d.valueAt? p = some n) :
    d.preorderAt p = n.preorder p := by
  rw [preorderAt, h]
  rfl

theorem preorderAt_of_error {d n : SyntaxNode} {p : Position} {f : Fault}
    (hp : d.valueAt? p = some n) (h : n.children = .error f) : d.preorderAt p = [p] := by
  rw [preorderAt_of_valueAt? hp, preorder_eq, branches_of_error h]
  rfl

/-- A node without a fault is followed by what its children list. -/
theorem preorderAt_of_ok {d n : SyntaxNode} {p : Position} {cs : List SyntaxNode}
    (hp : d.valueAt? p = some n) (h : n.children = .ok cs) :
    d.preorderAt p = p :: (n.steps.map (· :: p)).flatMap d.preorderAt := by
  rw [preorderAt_of_valueAt? hp, preorder_eq, ← map_fst_branches h, List.map_map,
    List.flatMap_map]
  congr 1
  refine List.flatMap_congr fun b hb => ?_
  exact (preorderAt_of_valueAt? (valueAt?_branch hp hb)).symm

/-- A result that is had unless one of the nodes at the listed positions has a fault; then it is
the first fault. -/
def barring {β : Type} (d : SyntaxNode) (ps : List Position) (b : β) : Except Fault β :=
  (d.firstFault ps).elim (.ok b) .error

theorem barring_of_none {β : Type} {d : SyntaxNode} {ps : List Position}
    (h : d.firstFault ps = none) (b : β) : d.barring ps b = .ok b := by
  rw [barring, h]
  rfl

theorem barring_of_some {β : Type} {d : SyntaxNode} {ps : List Position} {f : Fault}
    (h : d.firstFault ps = some f) (b : β) : d.barring ps b = .error f := by
  rw [barring, h]
  rfl

/-- **The positions below a position, as a walk gives them**: all of them in pre-order, or the
first fault in pre-order, the one of the position itself included. -/
def below (d : SyntaxNode) (p : Position) : Except Fault (List Position) :=
  d.barring (d.preorderAt p) (d.preorderAt p).tail

/-- A node without a fault has the faults of what its children list. -/
theorem below_of_ok {d n : SyntaxNode} {p : Position} {cs : List SyntaxNode}
    (hp : d.valueAt? p = some n) (h : n.children = .ok cs) :
    d.below p = (d.barring ((n.steps.map (· :: p)).flatMap d.preorderAt) () >>=
      fun _ => .ok (d.preorderAt p).tail) := by
  rw [below, barring, barring, preorderAt_of_ok hp h, firstFault_cons_of_ok hp h]
  cases d.firstFault ((n.steps.map (· :: p)).flatMap d.preorderAt) <;> rfl

/-- What the children of a node list is no more than the objects in the node. -/
theorem length_flatMap_steps_le {d n : SyntaxNode} {p : Position} {cs : List SyntaxNode}
    (hp : d.valueAt? p = some n) (h : n.children = .ok cs) :
    ((n.steps.map (· :: p)).flatMap d.preorderAt).length ≤ n.objectCount := by
  have hle := n.length_preorder_le_max p
  rw [← preorderAt_of_valueAt? hp, preorderAt_of_ok hp h, List.length_cons] at hle
  omega

end SyntaxNode

end LexicalScope
