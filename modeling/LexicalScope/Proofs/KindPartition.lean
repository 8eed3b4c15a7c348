import LexicalScope.Proofs.Expansion

set_option autoImplicit false

/-! # Walks by kind

`Tree.descendantsOfKind` walks below a node and keeps the nodes of one kind. The kind of a node was
written down when it was wrapped, and whether the walk succeeds is decided later, from the node of
the document. A walk that succeeds has met nodes of supported kinds only, so that the kinds
partition its list.

* `mergeBy_eq`: merging the parts of a list by a key that grows along it gives the list back.
* `kind_of_descendants`: what a walk lists is of a supported kind.
* `map_source_ofKind`: a part wraps what the document has of its kind.
* `Reachable.descendantsOfKind_partition`: the parts of the list, in any reachable tree.
-/

namespace LexicalScope

open Query

/-! ## Merging -/

section Merging

variable {α : Type} {key : α → Nat}

/-- Merges lists by a key. Of items with the same key, those of an earlier list come first. -/
def mergeBy (key : α → Nat) : List (List α) → List α
  | [] => []
  | l :: ls => l.merge (mergeBy key ls) fun a b => key a ≤ key b

theorem mergeBy_perm (key : α → Nat) (ls : List (List α)) :
    (mergeBy key ls).Perm ls.flatten := by
  induction ls with
  | nil => exact .refl _
  | cons l ls ih => exact (List.merge_perm_append _).trans (ih.append_left l)

theorem pairwise_mergeBy {ls : List (List α)}
    (h : ∀ l ∈ ls, l.Pairwise fun a b => key a ≤ key b) :
    (mergeBy key ls).Pairwise fun a b => key a ≤ key b := by
  have htrans : ∀ a b c : α, decide (key a ≤ key b) = true → decide (key b ≤ key c) = true →
      decide (key a ≤ key c) = true := by
    simpa only [decide_eq_true_eq] using fun a b c => Nat.le_trans
  have htotal : ∀ a b : α, (decide (key a ≤ key b) || decide (key b ≤ key a)) = true := by
    simpa only [Bool.or_eq_true, decide_eq_true_eq] using fun a b => Nat.le_total _ _
  induction ls with
  | nil => exact .nil
  | cons l ls ih =>
      obtain ⟨hl, hls⟩ := List.forall_mem_cons.mp h
      have hmerge := List.pairwise_merge htrans htotal l (mergeBy key ls)
      simp only [decide_eq_true_eq] at hmerge
      exact hmerge hl (ih hls)

/-- **Merging the parts of a list gives it back**, where the key grows along the list. -/
theorem mergeBy_eq {l : List α} (hl : l.Pairwise fun a b => key a < key b) {ls : List (List α)}
    (hsub : ∀ part ∈ ls, part.Sublist l) (hdisj : ls.Pairwise List.Disjoint)
    (hcover : ∀ a ∈ l, ∃ part ∈ ls, a ∈ part) : mergeBy key ls = l := by
  have hle : l.Pairwise fun a b => key a ≤ key b := hl.imp Nat.le_of_lt
  have hkeys : (l.map key).Nodup := List.pairwise_map.mpr (hl.imp Nat.ne_of_lt)
  have hnodup : l.Nodup := hkeys.of_map key
  have hperm : (mergeBy key ls).Perm l := by
    refine (mergeBy_perm key ls).trans ?_
    have hflat : ls.flatten.Nodup :=
      List.nodup_flatten.mpr ⟨fun part hpart => hnodup.sublist (hsub part hpart), hdisj⟩
    rw [List.perm_ext_iff_of_nodup hflat hnodup]
    intro a
    rw [List.mem_flatten]
    exact ⟨fun ⟨part, hpart, ha⟩ => (hsub part hpart).subset ha, hcover a⟩
  refine hperm.eq_of_pairwise ?_ (pairwise_mergeBy fun part hpart => hle.sublist (hsub part hpart))
    hle
  intro a b ha hb hab hba
  exact List.inj_on_of_nodup_map hkeys (hperm.mem_iff.mp ha) hb (Nat.le_antisymm hab hba)

end Merging

/-! ## Kinds of the document -/

namespace SyntaxNode

variable {n m : SyntaxNode}

/-- The kind of a node is read off its `type`. -/
theorem kind?_eq_some_iff_typeName? {k : Kind} :
    n.kind? = some k ↔ n.typeName? = some k.name := by
  rw [kind?, Option.bind_eq_some_iff]
  constructor
  · rintro ⟨name, hname, hk⟩
    rw [hname, Kind.name_of_ofName? hk]
  · intro hname
    exact ⟨k.name, hname, k.ofName?_name⟩

/-- What is reached from a node without a fault is of a supported kind. -/
theorem Faultless.kind? (h : n.Faultless) (hm : m ∈ n.closure) : ∃ k, m.kind? = some k := by
  obtain ⟨cs, hcs⟩ := h m (mem_closure.mp (List.mem_cons_of_mem n hm))
  exact kind?_of_children hcs

end SyntaxNode

namespace Tree

variable {d : SyntaxNode} {t t' : Tree}

/-! ## The parts of a walk -/

/-- The nodes of a kind among those listed. -/
def ofKind (t : Tree) (ids : List NodeId) (k : Kind) : List NodeId :=
  ids.filter fun j => (t.node? j).bind Node.kind == some k

theorem mem_ofKind {ids : List NodeId} {k : Kind} {j : NodeId} :
    j ∈ t.ofKind ids k ↔ j ∈ ids ∧ (t.node? j).bind Node.kind = some k := by
  rw [ofKind, List.mem_filter, beq_iff_eq]

theorem descendantsOfKind_of_ok {i : NodeId} {below : List NodeId}
    (hrun : descendants i t = .ok below t') (k : Kind) :
    descendantsOfKind i k t = .ok (t'.ofKind below k) t' := by
  rw [descendantsOfKind, bind_of_ok hrun]
  rfl

/-- The question for one kind fails where the walk does. -/
theorem descendantsOfKind_eq_error {i : NodeId} {k : Kind} {e : QueryError} :
    descendantsOfKind i k t = .error e t' ↔ descendants i t = .error e t' := by
  constructor
  · intro hrun
    rcases bind_eq_error hrun with hfail | ⟨below, u, hwalk, hrun⟩
    · exact hfail
    · cases hrun
  · exact bind_of_error

/-- No node is of two kinds. -/
theorem disjoint_ofKind (ids : List NodeId) {k k' : Kind} (hne : k ≠ k') :
    (t.ofKind ids k).Disjoint (t.ofKind ids k') := by
  intro j hj hj'
  have hk := (mem_ofKind.mp hj).2
  rw [(mem_ofKind.mp hj').2, Option.some_inj] at hk
  exact hne hk.symm

/-- The kind of a wrapped node stays. -/
theorem ofKind_of_extends (hx : t.Extends t') {ids : List NodeId}
    (hids : ∀ j ∈ ids, ∃ n, t.node? j = some n) (k : Kind) :
    t'.ofKind ids k = t.ofKind ids k := by
  refine List.filter_congr fun j hj => ?_
  obtain ⟨n, hn⟩ := hids j hj
  obtain ⟨n', hn', hkeep⟩ := hx.node hn
  rw [hn, hn', Option.bind_some, Option.bind_some, hkeep.kind]

/-! ## What a walk lists -/

/-- What a walk lists wraps the closure of the node, one by one. -/
theorem map_source_of_descendants (h : t.Sound d) {i : NodeId} {p : Position} {n : Node}
    (hi : t.Stands i p) (hn : t.node? i = some n) {below : List NodeId}
    (hrun : descendants i t = .ok below t') :
    below.map (fun j => (t'.node? j).map Node.source) = n.source.closure.map some := by
  obtain ⟨h', hids⟩ := stands_cons_of_descendants h hi hn hrun
  have hp := hi.valueAt? h.arena hn
  have hvalues := map_source_of_stands h'.arena hids
  rw [SyntaxNode.preorderAt_of_valueAt? hp, SyntaxNode.map_valueAt?_preorder hp, List.map_cons,
    List.map_cons] at hvalues
  exact (List.cons.inj hvalues).2

/-- **What a walk lists is of a supported kind**: otherwise it would have failed. -/
theorem kind_of_descendants (h : t.Sound d) {i : NodeId} {p : Position} {n : Node}
    (hi : t.Stands i p) (hn : t.node? i = some n) {below : List NodeId}
    (hrun : descendants i t = .ok below t') {j : NodeId} (hj : j ∈ below) :
    ∃ m k, t'.node? j = some m ∧ m.kind = some k := by
  obtain ⟨hmoves, -, hfaultless⟩ := stands_of_descendants h hi hn hrun
  have hsource := List.mem_map_of_mem (f := fun j => (t'.node? j).map Node.source) hj
  rw [map_source_of_descendants h hi hn hrun, List.mem_map] at hsource
  obtain ⟨source, hclosure, heq⟩ := hsource
  obtain ⟨m, hm, rfl⟩ := Option.map_eq_some_iff.mp heq.symm
  obtain ⟨k, hk⟩ := hfaultless.kind? hclosure
  exact ⟨m, k, hm, ((h.moves hmoves).arena.kind hm).trans hk⟩

/-- **The nodes of a kind wrap what the document has of it.** -/
theorem map_source_ofKind (h : t.Mirrors d) {ids : List NodeId} {nodes : List SyntaxNode}
    (hnodes : ids.map (fun j => (t.node? j).map Node.source) = nodes.map some) (k : Kind) :
    (t.ofKind ids k).map (fun j => (t.node? j).map Node.source) =
      (nodes.filter fun m => m.typeName? == some k.name).map some := by
  -- the kind of a wrapped node is decided by the `type` of what it wraps
  have hkind : ∀ j ∈ ids, ((t.node? j).bind Node.kind == some k) =
      ((t.node? j).map Node.source).any fun m => m.typeName? == some k.name := by
    intro j _
    cases hn : t.node? j with
    | none => rfl
    | some n =>
        rw [Option.bind_some, Option.map_some, Option.any_some, h.kind hn, Bool.eq_iff_iff,
          beq_iff_eq, beq_iff_eq, SyntaxNode.kind?_eq_some_iff_typeName?]
  rw [ofKind, List.filter_congr hkind, ← Function.comp_def (fun o => Option.any _ o),
    ← List.filter_map, hnodes, List.filter_map]
  rfl

/-- The place of a node in the pre-order of the document. -/
def place (d : SyntaxNode) (t : Tree) (j : NodeId) : Nat := (d.preorder []).idxOf (t.position j)

/-- A walk lists its nodes by their places. -/
theorem pairwise_place (h : t.Mirrors d) {ids : List NodeId} {ps : List Position}
    (hids : List.Forall₂ t.Stands ids ps) (hps : ps.Sublist (d.preorder [])) :
    ids.Pairwise fun a b => t.place d a < t.place d b := by
  have hsorted : (d.preorder []).Pairwise fun p q =>
      (d.preorder []).idxOf p < (d.preorder []).idxOf q := by
    refine List.pairwise_iff_getElem.mpr fun a b ha hb hab => ?_
    have hnodup := d.nodup_preorder []
    rwa [hnodup.idxOf_getElem a ha, hnodup.idxOf_getElem b hb]
  have hpos := (read_of_stands h hids).2
  have hlist := hsorted.sublist hps
  rw [← hpos, List.pairwise_map] at hlist
  exact hlist

/-- **The lists of all kinds are the parts of one list** of nodes, which wraps the nodes `nodes` of
the document. -/
structure PartsByKind (d : SyntaxNode) (t : Tree) (nodes : List SyntaxNode) (below : List NodeId)
    (parts : Kind → List NodeId) : Prop where
  /-- Every node is of a supported kind, and is listed for this kind and no other. -/
  one : ∀ j ∈ below, ∃ m k, t.node? j = some m ∧ m.kind = some k ∧ ∀ k', j ∈ parts k' ↔ k' = k
  /-- The order is kept. -/
  ordered : ∀ k, (parts k).Sublist below
  /-- For each kind, just those nodes of the document are listed whose `type` is its name. -/
  wraps : ∀ k, (parts k).map (fun j => (t.node? j).map Node.source) =
    (nodes.filter fun m => m.typeName? == some k.name).map some
  /-- Nothing is lost or repeated. -/
  merged : mergeBy (t.place d) (Kind.all.map parts) = below

theorem partsByKind_of_descendants (h : t.Sound d) {i : NodeId} {p : Position} {n : Node}
    (hi : t.Stands i p) (hn : t.node? i = some n) {below : List NodeId}
    (hrun : descendants i t = .ok below t') :
    PartsByKind d t' n.source.closure below (t'.ofKind below) := by
  obtain ⟨hmoves, hids, -⟩ := stands_of_descendants h hi hn hrun
  have h' := (h.moves hmoves).arena
  have hlisted : ∀ j ∈ below, ∃ m k, t'.node? j = some m ∧ m.kind = some k ∧
      ∀ k', j ∈ t'.ofKind below k' ↔ k' = k := by
    intro j hj
    obtain ⟨m, k, hm, hk⟩ := kind_of_descendants h hi hn hrun hj
    refine ⟨m, k, hm, hk, fun k' => ?_⟩
    rw [mem_ofKind, hm, Option.bind_some, hk, Option.some_inj]
    exact ⟨fun hj' => hj'.2.symm, fun heq => ⟨hj, heq.symm⟩⟩
  refine ⟨hlisted, fun k => List.filter_sublist,
    map_source_ofKind h' (map_source_of_descendants h hi hn hrun), ?_⟩
  have hblock : (d.preorderAt p).tail.Sublist (d.preorder []) := by
    have hp := hi.valueAt? h.arena hn
    rw [SyntaxNode.preorderAt_of_valueAt? hp]
    exact (List.tail_sublist _).trans
      (SyntaxNode.preorder_block d.valueAt?_nil hp (hi.mem_preorder h.arena)).sublist
  refine mergeBy_eq (pairwise_place h' hids hblock) ?_ ?_ ?_
  · intro part hpart
    obtain ⟨k, -, rfl⟩ := List.mem_map.mp hpart
    exact List.filter_sublist
  · rw [List.pairwise_map]
    exact Kind.nodup_all.imp fun hne => disjoint_ofKind below hne
  · intro j hj
    obtain ⟨m, k, -, -, hiff⟩ := hlisted j hj
    exact ⟨_, List.mem_map_of_mem k.mem_all, (hiff k).mpr rfl⟩

/-- **How the questions for one kind relate to the walk** below a node. -/
structure SplitsByKind (d : SyntaxNode) (t : Tree) (i : NodeId) (n : Node) : Prop where
  /-- The question for a kind fails exactly if the walk does, with the same error. -/
  fails : ∀ k e t', descendantsOfKind i k t = .error e t' ↔ descendants i t = .error e t'
  /-- Otherwise the questions for all kinds, asked of this tree or of any later one, give the parts
  of the list. -/
  succeeds : ∀ below t', descendants i t = .ok below t' → ∃ parts : Kind → List NodeId,
    (∀ k, descendantsOfKind i k t = .ok (parts k) t') ∧
    (∀ k u, t'.LeadsTo u → descendantsOfKind i k u = .ok (parts k) u) ∧
    PartsByKind d t' n.source.closure below parts

end Tree

/-- **The kinds partition the nodes below a node**, in every reachable tree and for every node of
it. -/
theorem Reachable.descendantsOfKind_partition {d : SyntaxNode} {t : Tree} (h : Reachable d t)
    {i : NodeId} {n : Tree.Node} (hn : t.node? i = some n) : t.SplitsByKind d i n := by
  refine ⟨fun k e t' => Tree.descendantsOfKind_eq_error, fun below t' hrun => ?_⟩
  have hi := h.sound.arena.stands_position hn
  have h' := h.sound.moves (Tree.stands_of_descendants h.sound hi hn hrun).1
  refine ⟨t'.ofKind below, fun k => Tree.descendantsOfKind_of_ok hrun k, ?_, ?_⟩
  · intro k u hlater
    have hx := (hlater.moves h').extends
    have hknown := hx.knownBelow (Tree.knownBelow_of_descendants h.sound hi hrun)
    rw [Tree.descendantsOfKind_of_ok (Tree.descendants_of_knownBelow hknown) k,
      Tree.ofKind_of_extends hx _ k]
    intro j hj
    obtain ⟨m, -, hm, -⟩ := Tree.kind_of_descendants h.sound hi hn hrun hj
    exact ⟨m, hm⟩
  · exact Tree.partsByKind_of_descendants h.sound hi hn hrun

/-- The declarators of the small document, in the tree where the function has been walked by itself:
the first in the document has the last number. -/
theorem Sample.descendantsOfKind_partition_spliced :
    Reachable Sample.program Sample.spliced ∧
      ∃ n t', Sample.spliced.node? Tree.root = some n ∧
        Sample.spliced.SplitsByKind Sample.program Tree.root n ∧
        Tree.descendants Tree.root Sample.spliced = .ok [1, 6, 2, 3, 4, 5] t' ∧
        Tree.descendantsOfKind Tree.root .variableDeclarator Sample.spliced = .ok [6, 5] t' := by
  obtain ⟨n, hn, -⟩ := Sample.reachable_spliced.sound.arena.root
  have hsplit := Reachable.descendantsOfKind_partition Sample.reachable_spliced hn
  exact ⟨Sample.reachable_spliced, n, _, hn, hsplit, by rfl, by rfl⟩

end LexicalScope
