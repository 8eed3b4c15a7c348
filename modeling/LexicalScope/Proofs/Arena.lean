import LexicalScope.Proofs.Preorder
import LexicalScope.Tree.Basic

set_option autoImplicit false

/-! # The arena mirrors a part of the document

A tree wraps nodes of the document in the order in which they are asked for. `Tree.Mirrors d t`
says that what it has wrapped is a part of the document `d`, with parents, depths and remembered
lists that fit. Whatever a tree shows of a node, it goes on showing (`Tree.Extends`).

A number of the tree stands for a position of the document: `Tree.position` reads it off the
parent links. As a relation, for proofs, it is `Tree.Stands`.

* `Mirrors.exists_stands`, `Stands.eq_position`: every number stands at one position, the one
  that `position` gives.
* `Stands.inj`: no two numbers stand at the same position.
* `Stands.exists_node`: the node of a number wraps the value at its position.
* `Mirrors.size_le`: there are no more numbers than objects in the document.
* `Flatten.stands`: nodes flattened through the remembered children stand at the positions that
  the document lists in pre-order, and none of these has a fault.
-/

namespace LexicalScope

namespace Tree

/-! ## Growth -/

/-- A node that shows all that another shows: what was remembered is remembered still. -/
structure Node.Keeps (n n' : Node) : Prop where
  source : n'.source = n.source
  kind : n'.kind = n.kind
  parent : n'.parent = n.parent
  depth : n'.depth = n.depth
  children : ∀ ids, n.children = some ids → n'.children = some ids
  descendants : ∀ ids, n.descendants = some ids → n'.descendants = some ids
  scope : ∀ s, n.scope = some s → n'.scope = some s

theorem Node.Keeps.refl (n : Node) : n.Keeps n :=
  ⟨rfl, rfl, rfl, rfl, fun _ h => h, fun _ h => h, fun _ h => h⟩

theorem Node.Keeps.trans {a b c : Node} (h : a.Keeps b) (h' : b.Keeps c) : a.Keeps c where
  source := h'.source.trans h.source
  kind := h'.kind.trans h.kind
  parent := h'.parent.trans h.parent
  depth := h'.depth.trans h.depth
  children ids hids := h'.children ids (h.children ids hids)
  descendants ids hids := h'.descendants ids (h.descendants ids hids)
  scope s hs := h'.scope s (h.scope s hs)

/-- A scope that shows all that another shows. -/
structure Scope.Keeps (s s' : Scope) : Prop where
  node : s'.node = s.node
  kind : s'.kind = s.kind
  names : ∀ l, s.names = some l → s'.names = some l

theorem Scope.Keeps.refl (s : Scope) : s.Keeps s := ⟨rfl, rfl, fun _ h => h⟩

theorem Scope.Keeps.trans {a b c : Scope} (h : a.Keeps b) (h' : b.Keeps c) : a.Keeps c where
  node := h'.node.trans h.node
  kind := h'.kind.trans h.kind
  names l hl := h'.names l (h.names l hl)

/-- **A tree that shows all that another shows**, under the same numbers. -/
structure Extends (t t' : Tree) : Prop where
  node : ∀ {i n}, t.node? i = some n → ∃ n', t'.node? i = some n' ∧ n.Keeps n'
  scope : ∀ {s r}, t.scope? s = some r → ∃ r', t'.scope? s = some r' ∧ r.Keeps r'

theorem Extends.refl (t : Tree) : t.Extends t where
  node h := ⟨_, h, .refl _⟩
  scope h := ⟨_, h, .refl _⟩

theorem Extends.trans {a b c : Tree} (h : a.Extends b) (h' : b.Extends c) : a.Extends c where
  node hn := by
    obtain ⟨n', hn', hk⟩ := h.node hn
    obtain ⟨n'', hn'', hk'⟩ := h'.node hn'
    exact ⟨n'', hn'', hk.trans hk'⟩
  scope hr := by
    obtain ⟨r', hr', hk⟩ := h.scope hr
    obtain ⟨r'', hr'', hk'⟩ := h'.scope hr'
    exact ⟨r'', hr'', hk.trans hk'⟩

theorem lt_size_of_node? {t : Tree} {i : NodeId} {n : Node} (h : t.node? i = some n) :
    i < t.size :=
  (Array.getElem?_eq_some_iff.mp h).1

theorem exists_node?_of_lt {t : Tree} {i : NodeId} (h : i < t.size) :
    ∃ n, t.node? i = some n :=
  ⟨t.nodes[i], Array.getElem?_eq_getElem h⟩

/-! ## Numbers and positions -/

/-- A number that stands at a position: the root at the document, and a remembered child one step
below its parent. -/
inductive Stands (t : Tree) : NodeId → Position → Prop
  | root : Stands t root []
  | child {i j : NodeId} {n : Node} {p : Position} {ids : List NodeId} {k : Nat} {s : Step} :
      Stands t i p → t.node? i = some n → n.children = some ids → ids[k]? = some j →
      n.source.steps[k]? = some s → Stands t j (s :: p)

theorem Stands.extend {t t' : Tree} (hx : t.Extends t') {i : NodeId} {p : Position}
    (h : t.Stands i p) : t'.Stands i p := by
  induction h with
  | root => exact .root
  | child _ hn hids hj hs ih =>
      obtain ⟨n', hn', hk⟩ := hx.node hn
      exact .child ih hn' (hk.children _ hids) hj (by rw [hk.source]; exact hs)

/-- The parent of a node and the step from there to the node. -/
def origin? (t : Tree) (id : NodeId) : Option (NodeId × Step) := do
  let node ← t.node? id
  let p ← node.parent
  let parent ← t.node? p
  let ids ← parent.children
  let step ← parent.source.steps[ids.idxOf id]?
  return (p, step)

/-- The last `bound` steps, at most, that lead to a node. -/
def positionWithin (t : Tree) : Nat → NodeId → Position
  | 0, _ => []
  | bound + 1, id =>
    match t.origin? id with
    | none => []
    | some (p, s) => s :: t.positionWithin bound p

/-- **The position of a node in the document**, read off the parent links. A parent has a smaller
number than its children, so the number of a node bounds its steps. -/
def position (t : Tree) (id : NodeId) : Position := t.positionWithin id id

/-! ## Nodes flattened through the remembered children -/

/-- The listed nodes, each followed by all that is below it, in pre-order; every one of them has
its children remembered. -/
inductive Flatten (t : Tree) : List NodeId → List NodeId → Prop
  | nil : Flatten t [] []
  | cons {i : NodeId} {n : Node} {ids rest below after : List NodeId} :
      t.node? i = some n → n.children = some ids → Flatten t ids below → Flatten t rest after →
      Flatten t (i :: rest) (i :: (below ++ after))

/-- **The nodes below a node, in pre-order**, where the node and every one of them has its
children remembered. -/
def Below (t : Tree) (i : NodeId) (below : List NodeId) : Prop :=
  ∃ n ids, t.node? i = some n ∧ n.children = some ids ∧ t.Flatten ids below

theorem Flatten.extend {t t' : Tree} (hx : t.Extends t') {ids below : List NodeId}
    (h : t.Flatten ids below) : t'.Flatten ids below := by
  induction h with
  | nil => exact .nil
  | cons hn hids _ _ ih₁ ih₂ =>
      obtain ⟨n', hn', hk⟩ := hx.node hn
      exact .cons hn' (hk.children _ hids) ih₁ ih₂

theorem Below.extend {t t' : Tree} (hx : t.Extends t') {i : NodeId} {below : List NodeId}
    (h : t.Below i below) : t'.Below i below := by
  obtain ⟨n, ids, hn, hids, hflat⟩ := h
  obtain ⟨n', hn', hk⟩ := hx.node hn
  exact ⟨n', ids, hn', hk.children _ hids, hflat.extend hx⟩

theorem Below.flatten_cons {t : Tree} {i : NodeId} {rest below after : List NodeId}
    (h : t.Below i below) (hrest : t.Flatten rest after) :
    t.Flatten (i :: rest) (i :: (below ++ after)) := by
  obtain ⟨n, ids, hn, hids, hflat⟩ := h
  exact .cons hn hids hflat hrest

theorem Flatten.unique {t : Tree} {ids a b : List NodeId} (ha : t.Flatten ids a)
    (hb : t.Flatten ids b) : a = b := by
  induction ha generalizing b with
  | nil => cases hb; rfl
  | cons hn hids _ _ ih₁ ih₂ =>
      cases hb with
      | cons hn' hids' hbelow hafter =>
          rw [hn] at hn'
          cases hn'
          rw [hids] at hids'
          cases hids'
          rw [ih₁ hbelow, ih₂ hafter]

theorem Below.unique {t : Tree} {i : NodeId} {a b : List NodeId} (ha : t.Below i a)
    (hb : t.Below i b) : a = b := by
  have hflat := (ha.flatten_cons .nil).unique (hb.flatten_cons .nil)
  simpa using hflat

theorem Flatten.of_append {t : Tree} {xs ys out : List NodeId} (h : t.Flatten (xs ++ ys) out) :
    ∃ a b, out = a ++ b ∧ t.Flatten xs a ∧ t.Flatten ys b := by
  induction xs generalizing out with
  | nil => exact ⟨[], out, rfl, .nil, h⟩
  | cons x xs ih =>
      cases h with
      | cons hn hids hbelow hafter =>
          rename_i below after
          obtain ⟨a, b, rfl, ha, hb⟩ := ih hafter
          exact ⟨x :: (below ++ a), b, by simp, .cons hn hids hbelow ha, hb⟩

/-! ## The invariant -/

/-- **The wrapped nodes are a part of the document.** -/
structure Mirrors (d : SyntaxNode) (t : Tree) : Prop where
  /-- The root wraps the document. -/
  root : ∃ n, t.node? root = some n ∧ n.source = d ∧ n.parent = none ∧ n.depth = 0
  /-- Every other node is a remembered child of an earlier one. -/
  parent : ∀ {i n}, t.node? i = some n → i ≠ Tree.root →
    ∃ p m ids, n.parent = some p ∧ p < i ∧ t.node? p = some m ∧ m.children = some ids ∧
      i ∈ ids ∧ n.depth = m.depth + 1
  /-- Remembered children wrap the children in the document. -/
  children : ∀ {i n ids}, t.node? i = some n → n.children = some ids →
    ∃ cs first, n.source.children = .ok cs ∧ ids = List.range' first cs.length ∧
      ∀ k c, cs[k]? = some c →
        ∃ m, t.node? (first + k) = some m ∧ m.source = c ∧ m.parent = some i
  kind : ∀ {i n}, t.node? i = some n → n.kind = n.source.kind?
  /-- Remembered descendants are all that is below the node. -/
  descendants : ∀ {i n below}, t.node? i = some n → n.descendants = some below → t.Below i below

namespace Mirrors

variable {d : SyntaxNode} {t : Tree}

/-- The `k`-th remembered child wraps the `k`-th child. -/
theorem child (h : t.Mirrors d) {i j : NodeId} {n : Node} {ids : List NodeId} {k : Nat}
    (hn : t.node? i = some n) (hids : n.children = some ids) (hj : ids[k]? = some j) :
    ∃ cs c m, n.source.children = .ok cs ∧ cs[k]? = some c ∧ t.node? j = some m ∧
      m.source = c ∧ m.parent = some i := by
  obtain ⟨cs, first, hcs, rfl, hnodes⟩ := h.children hn hids
  obtain ⟨hk, rfl⟩ := List.getElem?_eq_some_iff.mp hj
  rw [List.length_range'] at hk
  obtain ⟨m, hm, hsrc, hpar⟩ := hnodes k cs[k] (List.getElem?_eq_getElem hk)
  refine ⟨cs, cs[k], m, hcs, List.getElem?_eq_getElem hk, ?_, hsrc, hpar⟩
  rw [List.getElem_range', one_mul]
  exact hm

/-- A parent has a smaller number. -/
theorem parent_lt (h : t.Mirrors d) {i p : NodeId} {n : Node} (hn : t.node? i = some n)
    (hpar : n.parent = some p) : p < i := by
  have hne : i ≠ Tree.root := by
    rintro rfl
    obtain ⟨m, hm, -, hnone, -⟩ := h.root
    rw [hn] at hm
    cases hm
    rw [hpar] at hnone
    cases hnone
  obtain ⟨p', -, -, hpar', hlt, -⟩ := h.parent hn hne
  rw [hpar] at hpar'
  cases hpar'
  exact hlt

theorem nodup_children (h : t.Mirrors d) {i : NodeId} {n : Node} {ids : List NodeId}
    (hn : t.node? i = some n) (hids : n.children = some ids) : ids.Nodup := by
  obtain ⟨cs, first, -, rfl, -⟩ := h.children hn hids
  exact List.nodup_range'

theorem length_children (h : t.Mirrors d) {i : NodeId} {n : Node} {ids : List NodeId}
    (hn : t.node? i = some n) (hids : n.children = some ids) :
    ids.length = n.source.steps.length := by
  obtain ⟨cs, first, hcs, rfl, -⟩ := h.children hn hids
  rw [List.length_range', SyntaxNode.length_steps hcs]

/-- Every number of the tree stands somewhere in the document. -/
theorem exists_stands (h : t.Mirrors d) {i : NodeId} {n : Node} (hn : t.node? i = some n) :
    ∃ p, t.Stands i p := by
  induction i using Nat.strongRecOn generalizing n with
  | _ i ih =>
      by_cases hi : i = Tree.root
      · subst hi
        exact ⟨[], .root⟩
      · obtain ⟨p, m, ids, -, hlt, hm, hids, hmem, -⟩ := h.parent hn hi
        obtain ⟨q, hq⟩ := ih p hlt hm
        obtain ⟨k, hk⟩ := List.mem_iff_getElem?.mp hmem
        have hkl : k < m.source.steps.length := by
          rw [← h.length_children hm hids]
          exact (List.getElem?_eq_some_iff.mp hk).1
        exact ⟨_, .child hq hm hids hk (List.getElem?_eq_getElem hkl)⟩

end Mirrors

namespace Stands

variable {d : SyntaxNode} {t : Tree}

/-- **A number wraps the value at its position.** -/
theorem exists_node (h : t.Mirrors d) {i : NodeId} {p : Position} (hi : t.Stands i p) :
    ∃ n, t.node? i = some n ∧ d.valueAt? p = some n.source := by
  induction hi with
  | root =>
      obtain ⟨n, hn, hsrc, -⟩ := h.root
      exact ⟨n, hn, by rw [hsrc, SyntaxNode.valueAt?_nil]⟩
  | child _ hn hids hj hs ih =>
      obtain ⟨n', hn', hp⟩ := ih
      rw [hn] at hn'
      cases hn'
      obtain ⟨cs, c, m, hcs, hc, hm, hsrc, -⟩ := h.child hn hids hj
      refine ⟨m, hm, ?_⟩
      rw [SyntaxNode.valueAt?_cons hp, SyntaxNode.step?_of_getElem? hcs hs, hc, hsrc]

theorem valueAt? (h : t.Mirrors d) {i : NodeId} {p : Position} {n : Node} (hi : t.Stands i p)
    (hn : t.node? i = some n) : d.valueAt? p = some n.source := by
  obtain ⟨n', hn', hp⟩ := hi.exists_node h
  rw [hn] at hn'
  cases hn'
  exact hp

theorem lt_size (h : t.Mirrors d) {i : NodeId} {p : Position} (hi : t.Stands i p) :
    i < t.size := by
  obtain ⟨n, hn, -⟩ := hi.exists_node h
  exact lt_size_of_node? hn

/-- A number below the document has a parent, which stands one step above and has no fault. -/
theorem parent_of_cons (h : t.Mirrors d) {j : NodeId} {m : Node} {s : Step} {p : Position}
    (hj : t.Stands j (s :: p)) (hm : t.node? j = some m) :
    ∃ i n cs, m.parent = some i ∧ i < j ∧ t.Stands i p ∧ t.node? i = some n ∧
      n.source.children = .ok cs := by
  cases hj with
  | child hi hn hids hk hs =>
      obtain ⟨cs, -, m', hcs, -, hm', -, hpar⟩ := h.child hn hids hk
      rw [hm] at hm'
      cases hm'
      exact ⟨_, _, cs, hpar, h.parent_lt hm hpar, hi, hn, hcs⟩

theorem parent_of_nil (h : t.Mirrors d) {j : NodeId} {m : Node} (hj : t.Stands j [])
    (hm : t.node? j = some m) : m.parent = none := by
  cases hj
  obtain ⟨n, hn, -, hpar, -⟩ := h.root
  rw [hm] at hn
  cases hn
  exact hpar

/-- **No two numbers stand at the same position.** -/
theorem inj {i j : NodeId} {p : Position} (hi : t.Stands i p) (hj : t.Stands j p) : i = j := by
  induction hi generalizing j with
  | root => cases hj; rfl
  | child _ hn hids hk hs ih =>
      cases hj with
      | child hi' hn' hids' hk' hs' =>
          cases ih hi'
          rw [hn] at hn'
          cases hn'
          rw [hids] at hids'
          cases hids'
          have hkk := (List.getElem?_inj (List.getElem?_eq_some_iff.mp hs).1
            (SyntaxNode.nodup_steps _)).mp (hs.trans hs'.symm)
          subst hkk
          rw [hk] at hk'
          exact Option.some.inj hk'

/-- The step to a child and its parent are what `origin?` finds. -/
theorem origin? (h : t.Mirrors d) {i j : NodeId} {n : Node} {ids : List NodeId} {k : Nat}
    {s : Step} (hn : t.node? i = some n) (hids : n.children = some ids) (hj : ids[k]? = some j)
    (hs : n.source.steps[k]? = some s) : t.origin? j = some (i, s) := by
  obtain ⟨-, -, m, -, -, hm, -, hpar⟩ := h.child hn hids hj
  have hidx : ids.idxOf j = k := by
    obtain ⟨hk, rfl⟩ := List.getElem?_eq_some_iff.mp hj
    exact (h.nodup_children hn hids).idxOf_getElem k hk
  simp [Tree.origin?, hm, hpar, hn, hids, hidx, hs]

theorem eq_positionWithin (h : t.Mirrors d) {i : NodeId} {p : Position} (hi : t.Stands i p)
    {bound : Nat} (hb : i ≤ bound) : t.positionWithin bound i = p := by
  induction hi generalizing bound with
  | root =>
      obtain ⟨n, hn, -, hpar, -⟩ := h.root
      cases bound with
      | zero => rfl
      | succ bound => simp [positionWithin, Tree.origin?, hn, hpar]
  | child hi hn hids hj hs ih =>
      obtain ⟨-, -, m, -, -, hm, -, hpar⟩ := h.child hn hids hj
      obtain ⟨i', -, -, hpar', hlt, -⟩ := parent_of_cons h (.child hi hn hids hj hs) hm
      rw [hpar] at hpar'
      cases hpar'
      cases bound with
      | zero => exact absurd (Nat.lt_of_lt_of_le hlt hb) (Nat.not_lt_zero _)
      | succ bound =>
          rw [positionWithin, origin? h hn hids hj hs]
          simp only
          rw [ih (Nat.le_of_lt_succ (Nat.lt_of_lt_of_le hlt hb))]

/-- **Every number stands at one position**, the one that the parent links give. -/
theorem eq_position (h : t.Mirrors d) {i : NodeId} {p : Position} (hi : t.Stands i p) :
    t.position i = p :=
  hi.eq_positionWithin h (Nat.le_refl i)

theorem unique (h : t.Mirrors d) {i : NodeId} {p q : Position} (hp : t.Stands i p)
    (hq : t.Stands i q) : p = q :=
  (hp.eq_position h).symm.trans (hq.eq_position h)

end Stands

namespace Mirrors

variable {d : SyntaxNode} {t : Tree}

theorem stands_position (h : t.Mirrors d) {i : NodeId} {n : Node} (hn : t.node? i = some n) :
    t.Stands i (t.position i) := by
  obtain ⟨p, hp⟩ := h.exists_stands hn
  rw [hp.eq_position h]
  exact hp

/-- No two numbers have the same position. -/
theorem position_inj (h : t.Mirrors d) {i j : NodeId} (hi : i < t.size) (hj : j < t.size)
    (heq : t.position i = t.position j) : i = j := by
  obtain ⟨n, hn⟩ := exists_node?_of_lt hi
  obtain ⟨m, hm⟩ := exists_node?_of_lt hj
  have hj' := h.stands_position hm
  rw [← heq] at hj'
  exact (h.stands_position hn).inj hj'

/-- The remembered children of a node stand one step below it, in the order of the steps. -/
theorem stands_children (h : t.Mirrors d) {i : NodeId} {p : Position} {n : Node}
    {ids : List NodeId} (hi : t.Stands i p) (hn : t.node? i = some n)
    (hids : n.children = some ids) :
    List.Forall₂ t.Stands ids (n.source.steps.map (· :: p)) := by
  refine List.forall₂_iff_get.mpr ⟨?_, ?_⟩
  · rw [List.length_map, h.length_children hn hids]
  · intro k hk hk'
    rw [List.length_map] at hk'
    simp only [List.get_eq_getElem, List.getElem_map]
    exact .child hi hn hids (List.getElem?_eq_getElem hk) (List.getElem?_eq_getElem hk')

end Mirrors

/-! ## Ancestors -/

namespace Mirrors

variable {d : SyntaxNode} {t : Tree}

/-- The number of a node bounds its ancestors. -/
theorem ancestorsWithin_eq (h : t.Mirrors d) {i : NodeId} {bound : Nat} (hb : i ≤ bound) :
    t.ancestorsWithin bound i = t.ancestors i := by
  rw [ancestors]
  induction i using Nat.strongRecOn generalizing bound with
  | _ i ih =>
      cases hpar : (t.node? i).bind Node.parent with
      | none => cases bound <;> cases i <;> simp [ancestorsWithin, hpar]
      | some p =>
          obtain ⟨n, hn, hp⟩ := Option.bind_eq_some_iff.mp hpar
          have hlt := h.parent_lt hn hp
          cases i with
          | zero => exact absurd hlt (Nat.not_lt_zero p)
          | succ i =>
              cases bound with
              | zero => exact absurd hb (Nat.not_succ_le_zero i)
              | succ bound =>
                  have hpi := Nat.le_of_lt_succ hlt
                  have hpb := hpi.trans (Nat.le_of_succ_le_succ hb)
                  simp only [ancestorsWithin, hpar]
                  rw [ih p hlt hpb, ih p hlt hpi]

theorem ancestors_of_parent (h : t.Mirrors d) {i p : NodeId} {n : Node}
    (hn : t.node? i = some n) (hpar : n.parent = some p) :
    t.ancestors i = p :: t.ancestors p := by
  have hlt := h.parent_lt hn hpar
  rw [← h.ancestorsWithin_eq (Nat.le_succ i), ancestorsWithin, hn, Option.bind_some, hpar]
  simp only
  rw [h.ancestorsWithin_eq (Nat.le_of_lt hlt)]

end Mirrors

/-! ## How far the numbers go -/

/-- Every number stands at a position that the document lists. -/
theorem Stands.mem_preorder {d : SyntaxNode} {t : Tree} (h : t.Mirrors d) {i : NodeId}
    {p : Position} (hi : t.Stands i p) : p ∈ d.preorder [] := by
  induction hi with
  | root => exact d.mem_preorder_self []
  | @child _ _ n _ _ _ s hi hn hids hj hs ih =>
      obtain ⟨cs, c, -, hcs, hc, -⟩ := h.child hn hids hj
      have hb : (s, c) ∈ n.source.branches := by
        rw [SyntaxNode.branches_of_ok hcs]
        exact List.mem_of_getElem? (List.getElem?_zip_eq_some.mpr ⟨hs, hc⟩)
      exact SyntaxNode.cons_mem_preorder d.valueAt?_nil (hi.valueAt? h hn) ih hb

/-- Numbers that stand at different positions of a list are no more than these. -/
theorem card_le_of_stands {ps : List Position} {count : Nat} (f : Nat → Position)
    (hmem : ∀ i < count, f i ∈ ps) (hinj : ∀ i < count, ∀ j < count, f i = f j → i = j) :
    count ≤ ps.length := by
  have hnodup : ((List.range count).map f).Nodup := by
    refine List.Nodup.map_on ?_ List.nodup_range
    intro i hi j hj
    exact hinj i (List.mem_range.mp hi) j (List.mem_range.mp hj)
  have hsub : (List.range count).map f ⊆ ps := by
    intro p hp
    obtain ⟨i, hi, rfl⟩ := List.mem_map.mp hp
    exact hmem i (List.mem_range.mp hi)
  have hle := hnodup.length_le_of_subset hsub
  rwa [List.length_map, List.length_range] at hle

/-- **A tree wraps no more nodes than the document has objects**; a document that is no object is
one node. -/
theorem Mirrors.size_le {d : SyntaxNode} {t : Tree} (h : t.Mirrors d) :
    t.size ≤ max 1 d.objectCount := by
  refine (card_le_of_stands t.position ?_ ?_).trans (d.length_preorder_le_max [])
  · intro i hi
    obtain ⟨n, hn⟩ := exists_node?_of_lt hi
    exact (h.stands_position hn).mem_preorder h
  · intro i hi j hj heq
    exact h.position_inj hi hj heq

/-! ## Flattened nodes and pre-order -/

/-- **Nodes flattened through remembered children are the document's pre-order**, and none of
them has a fault. -/
theorem Flatten.stands {d : SyntaxNode} {t : Tree} (h : t.Mirrors d) {ids below : List NodeId}
    (hflat : t.Flatten ids below) {ps : List Position} (hps : List.Forall₂ t.Stands ids ps) :
    List.Forall₂ t.Stands below (ps.flatMap d.preorderAt) ∧
      d.firstFault (ps.flatMap d.preorderAt) = none := by
  induction hflat generalizing ps with
  | nil =>
      cases hps
      exact ⟨.nil, rfl⟩
  | cons hn hids _ _ ih₁ ih₂ =>
      cases hps with
      | cons hi hrest =>
          rename_i p ps
          obtain ⟨cs, first, hcs, -⟩ := h.children hn hids
          have hp := hi.valueAt? h hn
          obtain ⟨hbelow, hfault⟩ := ih₁ (h.stands_children hi hn hids)
          obtain ⟨hafter, hfault'⟩ := ih₂ hrest
          rw [List.flatMap_cons, SyntaxNode.preorderAt_of_ok hp hcs, List.cons_append]
          refine ⟨.cons hi (List.rel_append hbelow hafter), ?_⟩
          rw [SyntaxNode.firstFault_cons_of_ok hp hcs, SyntaxNode.firstFault_append, hfault,
            hfault', Option.none_or]

/-- What is below a node stands at the positions below its position. -/
theorem Below.stands {d : SyntaxNode} {t : Tree} (h : t.Mirrors d) {i : NodeId} {p : Position}
    {below : List NodeId} (hi : t.Stands i p) (hbelow : t.Below i below) :
    List.Forall₂ t.Stands below (d.preorderAt p).tail ∧
      d.firstFault (d.preorderAt p) = none := by
  have hflat := hbelow.flatten_cons .nil
  obtain ⟨hstands, hfault⟩ := hflat.stands h (.cons hi .nil)
  rw [List.flatMap_cons, List.flatMap_nil, List.append_nil] at hstands hfault
  refine ⟨?_, hfault⟩
  cases hpre : d.preorderAt p with
  | nil => rw [hpre] at hstands; cases hstands
  | cons q qs =>
      rw [hpre, List.append_nil] at hstands
      cases hstands with
      | cons _ htail => exact htail

end Tree

end LexicalScope
