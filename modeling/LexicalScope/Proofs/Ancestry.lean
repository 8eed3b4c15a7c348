import LexicalScope.Proofs.Attribution
import LexicalScope.Proofs.Resolution
import LexicalScope.Proofs.Stability
import LexicalScope.Proofs.TreeListing
import LexicalScope.Proofs.Closure
import Mathlib.Data.List.Chain

set_option autoImplicit false

/-! # Ancestors and descendants

The ancestors of a node are read off the parent links, which were written down when nodes were
wrapped. The descendants come from a walk that wraps nodes as it goes and takes over whole lists
from earlier walks. Both stand at positions of the document, the ones above the node and the ones
below it, and being above is the inverse of being below.

* `Stands.ancestors`: the ancestors of a node stand at the positions above its own.
* `SyntaxNode.mem_tail_preorderAt`: a position is listed below those that stand above it.
* `SyntaxNode.preorderAt_nested`: the lists of two positions are apart or nested.
* `Reachable.ancestry_inverse`: what follows for the numbers of any reachable tree.
-/

namespace LexicalScope

open Query

/-! ## Positions above a position -/

/-- The positions above a position, nearest first. -/
def Position.above : Position → List Position
  | [] => []
  | _ :: p => p :: above p

theorem Position.length_above (p : Position) : p.above.length = p.length := by
  induction p with
  | nil => rfl
  | cons s p ih => rw [above, List.length_cons, ih, List.length_cons]

theorem Position.mem_above {p q : Position} : q ∈ p.above ↔ q <:+ p ∧ q ≠ p := by
  induction p with
  | nil =>
      simp only [above, List.not_mem_nil, List.suffix_nil, false_iff, not_and, not_not]
      exact id
  | cons s p ih =>
      rw [above, List.mem_cons, ih, List.suffix_cons_iff]
      constructor
      · rintro (rfl | ⟨hsuf, hne⟩)
        · exact ⟨Or.inr List.suffix_rfl, (List.cons_ne_self s q).symm⟩
        · refine ⟨Or.inr hsuf, ?_⟩
          rintro rfl
          have hle := hsuf.length_le
          rw [List.length_cons] at hle
          omega
      · rintro ⟨rfl | hsuf, hne⟩
        · exact absurd rfl hne
        · by_cases heq : q = p
          · exact Or.inl heq
          · exact Or.inr ⟨hsuf, heq⟩

namespace SyntaxNode

variable {d : SyntaxNode}

/-- **A position is listed below those that stand above it**, and below no others. -/
theorem mem_tail_preorderAt {n : SyntaxNode} {p q : Position} (hp : d.valueAt? p = some n)
    (hq : q ∈ d.preorder []) : q ∈ (d.preorderAt p).tail ↔ p ∈ q.above := by
  have hlist : q ∈ d.preorderAt p ↔ p <:+ q := by
    rw [preorderAt_of_valueAt? hp]
    exact ⟨suffix_of_mem_preorder, mem_preorder_of_suffix_of_mem hp hq⟩
  have hnodup := n.nodup_preorder p
  rw [preorderAt_of_valueAt? hp, ← n.cons_tail_preorder p] at hlist
  rw [← n.cons_tail_preorder p, List.nodup_cons] at hnodup
  rw [Position.mem_above, ← hlist, preorderAt_of_valueAt? hp, List.mem_cons]
  constructor
  · intro hmem
    exact ⟨Or.inr hmem, fun heq => hnodup.1 (heq ▸ hmem)⟩
  · rintro ⟨rfl | hmem, hne⟩
    · exact absurd rfl hne
    · exact hmem

/-- The list of a position is a block of the list of any position above it. -/
theorem preorderAt_within {p q : Position} (hp : p ∈ d.preorder []) (hq : q ∈ d.preorder [])
    (hsuf : p <:+ q) : d.preorderAt q <:+: d.preorderAt p := by
  obtain ⟨n, hn⟩ := exists_valueAt?_of_mem_preorder d.valueAt?_nil hp
  obtain ⟨m, hm⟩ := exists_valueAt?_of_mem_preorder d.valueAt?_nil hq
  rw [preorderAt_of_valueAt? hn, preorderAt_of_valueAt? hm]
  exact preorder_block hn hm (mem_preorder_of_suffix_of_mem hn hq hsuf)

/-- **The lists of two positions are apart, or one is a block of the other.** -/
theorem preorderAt_nested {p q : Position} (hp : p ∈ d.preorder []) (hq : q ∈ d.preorder []) :
    (d.preorderAt p).Disjoint (d.preorderAt q) ∨ d.preorderAt p <:+: d.preorderAt q ∨
      d.preorderAt q <:+: d.preorderAt p := by
  by_cases hpq : p <:+ q
  · exact Or.inr (Or.inr (preorderAt_within hp hq hpq))
  by_cases hqp : q <:+ p
  · exact Or.inr (Or.inl (preorderAt_within hq hp hqp))
  -- a position in both lists would stand below both, and then one of them below the other
  refine Or.inl fun x hx hx' => ?_
  obtain ⟨n, hn⟩ := exists_valueAt?_of_mem_preorder d.valueAt?_nil hp
  obtain ⟨m, hm⟩ := exists_valueAt?_of_mem_preorder d.valueAt?_nil hq
  rw [preorderAt_of_valueAt? hn] at hx
  rw [preorderAt_of_valueAt? hm] at hx'
  rcases List.suffix_or_suffix_of_suffix (suffix_of_mem_preorder hx)
    (suffix_of_mem_preorder hx') with hsuf | hsuf
  · exact hpq hsuf
  · exact hqp hsuf

end SyntaxNode

namespace Tree

variable {d : SyntaxNode} {t t' : Tree}

/-! ## Numbers above a number -/

/-- **The ancestors of a node stand at the positions above its own.** -/
theorem Stands.ancestors (h : t.Mirrors d) {i : NodeId} {p : Position} (hi : t.Stands i p) :
    List.Forall₂ t.Stands (t.ancestors i) p.above := by
  induction p generalizing i with
  | nil =>
      obtain ⟨n, hn, -⟩ := hi.exists_node h
      rw [ancestors_of_root hn (hi.parent_of_nil h hn)]
      exact .nil
  | cons s p ih =>
      obtain ⟨n, hn, -⟩ := hi.exists_node h
      obtain ⟨j, -, -, hpar, -, hj, -⟩ := hi.parent_of_cons h hn
      rw [h.ancestors_of_parent hn hpar]
      exact .cons hj (ih hj)

theorem Stands.length_ancestors (h : t.Mirrors d) {i : NodeId} {p : Position} {n : Node}
    (hi : t.Stands i p) (hn : t.node? i = some n) : (t.ancestors i).length = n.depth := by
  rw [(hi.ancestors h).length_eq, p.length_above, hi.depth_eq h hn]

/-- Each ancestor has a smaller number than the one before. -/
theorem Mirrors.isChain_ancestors (h : t.Mirrors d) {i : NodeId} {n : Node}
    (hn : t.node? i = some n) : (i :: t.ancestors i).IsChain (· > ·) := by
  induction i using Nat.strongRecOn generalizing n with
  | _ i ih =>
      cases hpar : n.parent with
      | none =>
          rw [ancestors_of_root hn hpar]
          exact .singleton i
      | some p =>
          have hlt := h.parent_lt hn hpar
          obtain ⟨m, hm⟩ := exists_node?_of_lt (hlt.trans (lt_size_of_node? hn))
          rw [h.ancestors_of_parent hn hpar]
          exact .cons_cons hlt (ih p hlt hm)

/-- The last ancestor of a node that is not the root is the root. -/
theorem Stands.getLast?_ancestors (h : t.Mirrors d) {i : NodeId} {p : Position}
    (hi : t.Stands i p) (hne : i ≠ Tree.root) :
    (t.ancestors i).getLast? = some Tree.root := by
  induction p generalizing i with
  | nil =>
      cases hi
      exact absurd rfl hne
  | cons s p ih =>
      obtain ⟨n, hn, -⟩ := hi.exists_node h
      obtain ⟨j, -, -, hpar, -, hj, -⟩ := hi.parent_of_cons h hn
      rw [h.ancestors_of_parent hn hpar, List.getLast?_cons]
      by_cases hroot : j = Tree.root
      · obtain ⟨m, hm, -, hnone, -⟩ := h.root
        rw [hroot, ancestors_of_root hm hnone]
        rfl
      · rw [ih hj hroot]
        rfl

/-! ## Numbers and the lists they are in -/

/-- A number is listed where its position is. -/
theorem Stands.mem_iff (h : t.Mirrors d) {i : NodeId} {p : Position} (hi : t.Stands i p)
    {ids : List NodeId} {ps : List Position} (hids : List.Forall₂ t.Stands ids ps) :
    i ∈ ids ↔ p ∈ ps := by
  constructor
  · intro hmem
    obtain ⟨q, hq, hiq⟩ := exists_of_mem_left hids hmem
    rwa [hi.unique h hiq]
  · intro hmem
    obtain ⟨j, hj, hjp⟩ := exists_of_mem_right hids hmem
    rwa [hi.inj hjp]

/-- Numbers that stand at the same positions are the same. -/
theorem eq_of_stands {ids ids' : List NodeId} {ps : List Position}
    (h : List.Forall₂ t.Stands ids ps) (h' : List.Forall₂ t.Stands ids' ps) : ids = ids' :=
  List.left_unique_forall₂' (fun _ _ _ hi hj => hi.inj hj) h h'

/-- Numbers nest as their positions. -/
theorem infix_of_stands {ids ids' : List NodeId} {ps ps' : List Position}
    (h : List.Forall₂ t.Stands ids ps) (h' : List.Forall₂ t.Stands ids' ps') (hps : ps <:+: ps') :
    ids <:+: ids' := by
  obtain ⟨before, after, rfl⟩ := hps
  obtain ⟨front, back, rfl, hfront, -⟩ := append_of_forall₂ h'.flip
  obtain ⟨first, block, rfl, -, hblock⟩ := append_of_forall₂ hfront
  rw [eq_of_stands h hblock.flip]
  exact ⟨first, back, rfl⟩

theorem disjoint_of_stands (h : t.Mirrors d) {ids ids' : List NodeId} {ps ps' : List Position}
    (hids : List.Forall₂ t.Stands ids ps) (hids' : List.Forall₂ t.Stands ids' ps')
    (hps : ps.Disjoint ps') : ids.Disjoint ids' := by
  intro i hi hi'
  obtain ⟨p, hp, hip⟩ := exists_of_mem_left hids hi
  exact hps hp ((hip.mem_iff h hids').mp hi')

/-! ## Walks -/

/-- A walk below a number that is not there fails. -/
theorem exists_node?_of_descendants {i : NodeId} {ids : List NodeId}
    (hrun : descendants i t = .ok ids t') : ∃ n, t.node? i = some n := by
  cases hn : t.node? i with
  | some n => exact ⟨n, rfl⟩
  | none =>
      rw [descendants, bind_of_error (nodeAt_of_none hn)] at hrun
      cases hrun

/-- **From a walk on, its list stands at the positions that the document lists** below that of the
node. -/
theorem stands_later (h : t.Sound d) {a : NodeId} {ids : List NodeId}
    (hrun : descendants a t = .ok ids t') {u : Tree} (hlater : t'.LeadsTo u) :
    t.Moves d u ∧ ∃ p ∈ d.preorder [], u.Stands a p ∧
      List.Forall₂ u.Stands ids (d.preorderAt p).tail := by
  obtain ⟨n, hn⟩ := exists_node?_of_descendants hrun
  have ha := h.arena.stands_position hn
  obtain ⟨hmoves, hids, -⟩ := stands_of_descendants h ha hn hrun
  have hmoves' := hlater.moves (h.moves hmoves)
  refine ⟨hmoves.trans hmoves', _, ha.mem_preorder h.arena, ?_, ?_⟩
  · exact (ha.extend hmoves.extends).extend hmoves'.extends
  · exact hids.imp fun _ _ hi => hi.extend hmoves'.extends

/-- A node comes before what is below it, in the tree as in the document. -/
theorem Stands.cons_below (h : t.Mirrors d) {a : NodeId} {p : Position} (ha : t.Stands a p)
    {ids : List NodeId} (hids : List.Forall₂ t.Stands ids (d.preorderAt p).tail) :
    List.Forall₂ t.Stands (a :: ids) (d.preorderAt p) := by
  obtain ⟨n, -, hp⟩ := ha.exists_node h
  rw [SyntaxNode.preorderAt_of_valueAt? hp] at hids ⊢
  rw [← n.source.cons_tail_preorder p]
  exact .cons ha hids

/-- **How ancestors and descendants fit together** in a tree and in the trees it leads to. -/
structure Kinship (t : Tree) : Prop where
  /-- From a node upwards the numbers fall. -/
  decreasing : ∀ i n, t.node? i = some n → (i :: t.ancestors i).Pairwise (· > ·)
  /-- A node has as many ancestors as it is deep. -/
  depth : ∀ i n, t.node? i = some n → (t.ancestors i).length = n.depth
  /-- The last of them is the root, unless the node is the root itself. -/
  last : ∀ i n, t.node? i = some n → i ≠ root → (t.ancestors i).getLast? = some root
  /-- From a walk below a node on, the listed nodes are those that have the node as an ancestor,
  among all that are wrapped, be it by this walk or by any other. -/
  inverse : ∀ a ids t', descendants a t = .ok ids t' → ∀ u, t'.LeadsTo u →
    ∀ b m, u.node? b = some m → (b ∈ ids ↔ a ∈ u.ancestors b)
  /-- Two nodes, each followed by what is below it, are apart or one is a block of the other. -/
  blocks : ∀ a ids t', descendants a t = .ok ids t' → ∀ u, t'.LeadsTo u →
    ∀ b ids' u', descendants b u = .ok ids' u' →
      (a :: ids).Disjoint (b :: ids') ∨ (a :: ids) <:+: (b :: ids') ∨
        (b :: ids') <:+: (a :: ids)

end Tree

/-- **Ancestors and descendants are inverse to each other, and what is below a node is a block**, in
every reachable tree, whatever has been wrapped and remembered before. -/
theorem Reachable.ancestry_inverse {d : SyntaxNode} {t : Tree} (h : Reachable d t) :
    t.Kinship where
  decreasing i n hn := List.isChain_iff_pairwise.mp (h.sound.arena.isChain_ancestors hn)
  depth i n hn := (h.sound.arena.stands_position hn).length_ancestors h.sound.arena hn
  last i n hn hne := (h.sound.arena.stands_position hn).getLast?_ancestors h.sound.arena hne
  inverse := by
    intro a ids t' hrun u hlater b m hm
    obtain ⟨hmoves, p, -, ha, hids⟩ := Tree.stands_later h.sound hrun hlater
    have hu := (h.sound.moves hmoves).arena
    obtain ⟨n, -, hp⟩ := ha.exists_node hu
    have hb := hu.stands_position hm
    rw [hb.mem_iff hu hids, SyntaxNode.mem_tail_preorderAt hp (hb.mem_preorder hu),
      ha.mem_iff hu (hb.ancestors hu)]
  blocks := by
    intro a ids t' hrun u hlater b ids' u' hrun'
    obtain ⟨hmoves, p, hp, ha, hids⟩ := Tree.stands_later h.sound hrun hlater
    have hu := h.sound.moves hmoves
    obtain ⟨hmoves', q, hq, hb, hids'⟩ := Tree.stands_later hu hrun' .refl
    have hu' := (hu.moves hmoves').arena
    have hlist := (ha.cons_below hu.arena hids).imp fun _ _ hi => hi.extend hmoves'.extends
    have hlist' := hb.cons_below hu' hids'
    rcases SyntaxNode.preorderAt_nested hp hq with hdisj | hpq | hqp
    · exact Or.inl (Tree.disjoint_of_stands hu' hlist hlist' hdisj)
    · exact Or.inr (Or.inl (Tree.infix_of_stands hlist hlist' hpq))
    · exact Or.inr (Or.inr (Tree.infix_of_stands hlist' hlist hqp))

/-- In the tree where the function has been walked by itself, its block ends the list from the root,
although the last number there is that of a node outside it. -/
theorem Sample.ancestry_inverse_spliced :
    Reachable Sample.program Sample.spliced ∧ Sample.spliced.Kinship ∧
      ∃ t', Tree.descendants Tree.root Sample.spliced = .ok [1, 6, 2, 3, 4, 5] t' ∧
        Tree.root ∈ t'.ancestors 6 ∧
        ∃ u, Tree.descendants 2 t' = .ok [3, 4, 5] u ∧ 2 ∈ u.ancestors 5 ∧ 2 ∉ u.ancestors 6 := by
  have hkin := Reachable.ancestry_inverse Sample.reachable_spliced
  obtain ⟨t', hrun⟩ : ∃ t', Tree.descendants Tree.root Sample.spliced
      = .ok [1, 6, 2, 3, 4, 5] t' := ⟨_, by rfl⟩
  have hmem : Tree.root ∈ t'.ancestors 6 := by
    obtain ⟨m, hm⟩ : ∃ m, t'.node? 6 = some m := by
      cases hrun
      exact ⟨_, by rfl⟩
    exact (hkin.inverse _ _ _ hrun _ .refl 6 m hm).mp (by decide)
  refine ⟨Sample.reachable_spliced, hkin, t', hrun, hmem, ?_⟩
  cases hrun
  exact ⟨_, by rfl, by decide +kernel, by decide +kernel⟩

end LexicalScope
