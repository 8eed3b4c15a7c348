import LexicalScope.Proofs.Walking

set_option autoImplicit false

/-! # The numbers that a full walk gives

A fresh tree that is walked from the root numbers its nodes in an order of its own. A node is
visited in pre-order, but its number is given when its parent is visited: the children of a node
are numbered together, after the children of all nodes visited before it. `SyntaxNode.number`
reads these numbers off the document.

The walk is followed turn by turn. Between two turns the nodes that remember their children are
those at the positions visited so far, a first part of the pre-order (`Tree.Expanded`), and the
children of each have the numbers that the document gives. Wrapping the children of the next node
in pre-order keeps it so.

* `SyntaxNode.number_of_getElem?`: the number of the `k`-th child of a node.
* `Tree.Walk.step_expanded`, `Tree.Walk.run_expanded`: one turn of the walk and all turns.
* `Tree.numbered_of_descendants`: a full walk numbers the nodes as the document says.
-/

namespace LexicalScope

open Query

/-! ## Numbers of a document -/

namespace SyntaxNode

/-- How many children the node at a position has. -/
def childCount (d : SyntaxNode) (p : Position) : Nat :=
  (d.valueAt? p).elim 0 fun n => n.branches.length

/-- The number of the first child of the node at a position, if it has one: the root and all
children of the nodes before it in pre-order have smaller numbers. -/
def firstNumber (d : SyntaxNode) (p : Position) : Nat :=
  1 + (((d.preorder []).takeWhile (· != p)).map d.childCount).sum

/-- **The number of the node at a position.** The root has number zero. The children of a node are
numbered in their order, from the first number of the node on. -/
def number (d : SyntaxNode) : Position → Nat
  | [] => 0
  | s :: p => d.firstNumber p + (d.valueAt? p).elim 0 fun n => n.steps.idxOf s

variable {d : SyntaxNode}

theorem childCount_of_ok {n : SyntaxNode} {p : Position} {cs : List SyntaxNode}
    (hp : d.valueAt? p = some n) (h : n.children = .ok cs) : d.childCount p = cs.length := by
  rw [childCount, hp, Option.elim_some, ← map_snd_branches h, List.length_map]

/-- A position is not listed before itself. -/
theorem notMem_of_preorder_eq {p : Position} {done rest : List Position}
    (h : d.preorder [] = done ++ p :: rest) : p ∉ done := by
  intro hp
  have hnodup := d.nodup_preorder []
  rw [h, List.nodup_append] at hnodup
  exact hnodup.2.2 p hp p List.mem_cons_self rfl

/-- The first number of a node, where the pre-order is split at it. -/
theorem firstNumber_of_preorder_eq {p : Position} {done rest : List Position}
    (h : d.preorder [] = done ++ p :: rest) :
    d.firstNumber p = 1 + (done.map d.childCount).sum := by
  have hdone : ∀ q ∈ done, (q != p) = true := by
    intro q hq
    exact bne_iff_ne.mpr fun heq => notMem_of_preorder_eq h (heq ▸ hq)
  rw [firstNumber, h, List.takeWhile_append_of_pos hdone]
  simp

theorem number_of_getElem? {n : SyntaxNode} {p : Position} {s : Step} {k : Nat}
    (hp : d.valueAt? p = some n) (hs : n.steps[k]? = some s) :
    d.number (s :: p) = d.firstNumber p + k := by
  obtain ⟨hk, rfl⟩ := List.getElem?_eq_some_iff.mp hs
  rw [number, hp, Option.elim_some, n.nodup_steps.idxOf_getElem k hk]

end SyntaxNode

namespace Tree

variable {d : SyntaxNode} {t t' : Tree}

/-- A tree whose numbers are those of the document. -/
def Numbered (d : SyntaxNode) (t : Tree) : Prop := ∀ {i p}, t.Stands i p → i = d.number p

/-! ## The nodes that have been expanded -/

/-- **The nodes at the positions `done`, and no others, remember their children**, and these
have the numbers that the document gives. -/
structure Expanded (d : SyntaxNode) (done : List Position) (t : Tree) : Prop where
  size : t.size = 1 + (done.map d.childCount).sum
  wrapped : ∀ p ∈ done, ∃ i, t.Stands i p
  children : ∀ {i p n}, t.Stands i p → t.node? i = some n →
    n.children = if p ∈ done then some (List.range' (d.firstNumber p) (d.childCount p)) else none

namespace Expanded

variable {done : List Position}

theorem ofDocument (d : SyntaxNode) : (ofDocument d).Expanded d [] where
  size := rfl
  wrapped := by simp
  children := by
    intro i p n _ hn
    cases i with
    | zero => cases hn; rfl
    | succ i => cases hn

/-- The numbers of the tree are those of the document. -/
theorem numbered (h : t.Expanded d done) (hm : t.Mirrors d) : t.Numbered d := by
  intro i p hi
  cases hi with
  | root => rfl
  | @child i j n p ids k s hi hn hids hj hs =>
      have hrange := h.children hi hn
      rw [hids] at hrange
      split at hrange
      · cases hrange
        obtain ⟨hk, rfl⟩ := List.getElem?_eq_some_iff.mp hj
        rw [List.getElem_range', one_mul, SyntaxNode.number_of_getElem? (hi.valueAt? hm hn) hs]
      · cases hrange

/-- The next node in pre-order remembers no children yet, and its children will be numbered from
the size of the tree on. -/
theorem next (h : t.Expanded d done) (hm : t.Mirrors d) {i : NodeId} {p : Position} {n : Node}
    {more : List Position} (hi : t.Stands i p) (hn : t.node? i = some n)
    (hpre : d.preorder [] = done ++ (d.preorderAt p ++ more)) :
    n.children = none ∧ d.firstNumber p = t.size := by
  rw [SyntaxNode.preorderAt_of_valueAt? (hi.valueAt? hm hn), SyntaxNode.preorder_eq n.source,
    List.cons_append] at hpre
  refine ⟨?_, by rw [SyntaxNode.firstNumber_of_preorder_eq hpre, h.size]⟩
  rw [h.children hi hn, if_neg (SyntaxNode.notMem_of_preorder_eq hpre)]

/-- **Wrapping the children of the next node in pre-order** expands one position more. -/
theorem adopt (h : t.Expanded d done) (hs : t.Sound d) {i : NodeId} {p : Position} {n : Node}
    {cs : List SyntaxNode} {more : List Position} (hi : t.Stands i p) (hn : t.node? i = some n)
    (hcs : n.source.children = .ok cs)
    (hpre : d.preorder [] = done ++ (d.preorderAt p ++ more)) :
    (t.adopt i n.depth cs).2.Expanded d (done ++ [p]) := by
  obtain ⟨hnone, hfirst⟩ := h.next hs.arena hi hn hpre
  have hmove : Move d t (t.adopt i n.depth cs).2 := .expand hn hnone hcs
  have hx := hmove.extends
  have hm' := (hs.move hmove).arena
  have hcount := SyntaxNode.childCount_of_ok (hi.valueAt? hs.arena hn) hcs
  have hold : ∀ q ∈ done ++ [p], ∃ j, t.Stands j q := by
    intro q hq
    rcases List.mem_append.mp hq with hq | hq
    · exact h.wrapped q hq
    · rw [List.mem_singleton.mp hq]
      exact ⟨i, hi⟩
  refine ⟨?_, ?_, ?_⟩
  · rw [size_adopt, h.size, List.map_append, List.sum_append, List.map_singleton,
      List.sum_singleton, hcount, Nat.add_assoc]
  · intro q hq
    obtain ⟨j, hj⟩ := hold q hq
    exact ⟨j, hj.extend hx⟩
  · intro j q m hj hm
    by_cases hji : j = i
    · subst hji
      have hq : q = p := hj.unique hm' (hi.extend hx)
      rw [node?_adopt_self hn cs] at hm
      cases hm
      rw [if_pos (by simp [hq]), hq, hfirst, hcount]
    · have hqp : q ≠ p := by
        rintro rfl
        exact hji (hj.inj (hi.extend hx))
      rcases node_of_adopt (lt_size_of_node? hn) hm with
        ⟨m₀, hm₀, ⟨rfl, -⟩ | rfl⟩ | ⟨k, c, rfl, -, rfl⟩
      · exact absurd rfl hji
      · -- a node from before stands where it stood
        obtain ⟨q₀, hq₀⟩ := hs.arena.exists_stands hm₀
        have heq : q = q₀ := hj.unique hm' (hq₀.extend hx)
        rw [heq] at hqp ⊢
        rw [h.children hq₀ hm₀]
        simp [hqp]
      · -- a new child stands where no number stood before
        have hq : q ∉ done ++ [p] := by
          intro hq
          obtain ⟨j, hj'⟩ := hold q hq
          have hlt := hj'.lt_size hs.arena
          rw [(hj'.extend hx).inj hj] at hlt
          exact absurd hlt (Nat.not_lt.mpr (Nat.le_add_right _ _))
        rw [if_neg hq]
        rfl

/-- The children of the next node in pre-order, as the walk gets them. -/
theorem children_of_ok (h : t.Expanded d done) (hs : t.Sound d) {i : NodeId} {p : Position}
    {ids : List NodeId} {more : List Position} (hi : t.Stands i p)
    (hpre : d.preorder [] = done ++ (d.preorderAt p ++ more))
    (hok : Tree.children i t = .ok ids t') :
    t.Moves d t' ∧ t'.Expanded d (done ++ [p]) ∧
      ∃ ps, List.Forall₂ t'.Stands ids ps ∧ d.preorderAt p = p :: ps.flatMap d.preorderAt := by
  obtain ⟨n, hn, hp⟩ := hi.exists_node hs.arena
  cases hcs : n.source.children with
  | error f =>
      rw [children_of_error hs.arena hn hcs] at hok
      cases hok
  | ok cs =>
      have hnone := (h.next hs.arena hi hn hpre).1
      rw [Tree.children, bind_of_ok (nodeAt_of_node? hn)] at hok
      simp only [hnone, hcs] at hok
      cases hok
      have hmoves : t.Moves d (t.adopt i n.depth cs).2 := .single (.expand hn hnone hcs)
      refine ⟨hmoves, h.adopt hs hi hn hcs hpre, n.source.steps.map (· :: p), ?_,
        SyntaxNode.preorderAt_of_ok hp hcs⟩
      have hstands := (hs.moves hmoves).arena.stands_children (hi.extend hmoves.extends)
        (node?_adopt_self hn cs) rfl
      exact hstands

end Expanded

/-! ## The walk -/

/-- **One turn of the walk** visits the first pending position and expands it. -/
theorem Walk.step_expanded {done : List Position} (h : t.Expanded d done) (hs : t.Sound d)
    {i : NodeId} {rest : List NodeId} {visited : Array NodeId} {p : Position} {ps : List Position}
    (hi : t.Stands i p) (hrest : List.Forall₂ t.Stands rest ps)
    (hpre : d.preorder [] = done ++ (p :: ps).flatMap d.preorderAt) {w : Walk}
    (hstep : Walk.step ⟨i :: rest, visited⟩ t = .ok w t') :
    t.Moves d t' ∧ t'.Expanded d (done ++ [p]) ∧ ∃ ps', List.Forall₂ t'.Stands w.pending ps' ∧
      d.preorder [] = done ++ [p] ++ ps'.flatMap d.preorderAt := by
  obtain ⟨n, hn, -⟩ := hi.exists_node hs.arena
  rw [List.flatMap_cons] at hpre
  -- what is below the node is not known, since not even its children are
  have hdesc : n.descendants = none := by
    cases hdesc : n.descendants with
    | none => rfl
    | some below =>
        obtain ⟨n', ids, hn', hids, -⟩ := hs.arena.descendants hn hdesc
        rw [(h.next hs.arena hi hn' hpre).1] at hids
        cases hids
  simp only [Walk.step] at hstep
  rw [bind_of_ok (nodeAt_of_node? hn)] at hstep
  simp only [hdesc] at hstep
  obtain ⟨ids, u, hids, hdone⟩ := bind_eq_ok hstep
  cases hdone
  obtain ⟨hmoves, hexp, qs, hqs, hbelow⟩ := h.children_of_ok hs hi hpre hids
  refine ⟨hmoves, hexp, qs ++ ps, ?_, ?_⟩
  · exact List.rel_append hqs (hrest.imp fun _ _ hj => hj.extend hmoves.extends)
  · rw [hpre, hbelow, List.flatMap_append]
    simp

theorem Walk.run_expanded (bound : Nat) {done : List Position} (h : t.Expanded d done)
    (hs : t.Sound d) (w : Walk) {ps : List Position} (hps : List.Forall₂ t.Stands w.pending ps)
    (hpre : d.preorder [] = done ++ ps.flatMap d.preorderAt) {ids : List NodeId}
    (hrun : Walk.run bound w t = .ok ids t') : t'.Sound d ∧ ∃ done', t'.Expanded d done' := by
  induction bound generalizing t done w ps with
  | zero =>
      cases hrun
      exact ⟨hs, done, h⟩
  | succ bound ih =>
      obtain ⟨pending, visited⟩ := w
      cases hps with
      | nil =>
          rw [run_of_nil rfl] at hrun
          cases hrun
          exact ⟨hs, done, h⟩
      | @cons i p rest ps hi hrest =>
          have hturn : Walk.run (bound + 1) ⟨i :: rest, visited⟩
              = Walk.step ⟨i :: rest, visited⟩ >>= fun w => w.run bound := by
            rw [Walk.run, if_neg (by simp)]
          rw [hturn] at hrun
          obtain ⟨w', u, hstep, hrest'⟩ := bind_eq_ok hrun
          obtain ⟨hmoves, hexp, ps', hps', hpre'⟩ := step_expanded h hs hi hrest hpre hstep
          exact ih hexp (hs.moves hmoves) w' hps' hpre' hrest'

/-- Remembering what is below a node moves no number. -/
theorem Stands.of_rememberDescendants {id i : NodeId} {below : List NodeId} {p : Position}
    (h : (t.rememberDescendants id below).Stands i p) : t.Stands i p := by
  induction h with
  | root => exact .root
  | child _ hn hids hj hs ih =>
      obtain ⟨n, hn₀, ⟨-, rfl⟩ | rfl⟩ :=
        node_of_modified (fun i => node?_rememberDescendants t _ i _) hn
      · exact .child ih hn₀ hids hj hs
      · exact .child ih hn₀ hids hj hs

/-- **A full walk numbers the nodes as the document says.** -/
theorem numbered_of_descendants {ids : List NodeId}
    (h : descendants root (ofDocument d) = .ok ids t') : t'.Numbered d := by
  have hs := sound_ofDocument d
  have hroot : (ofDocument d).node? root = some (Node.wrap d none 0) := rfl
  have hpre : d.preorder [] = [] ++ (d.preorderAt [] ++ []) := by
    rw [SyntaxNode.preorderAt_of_valueAt? d.valueAt?_nil, List.append_nil, List.nil_append]
  rw [descendants, bind_of_ok (nodeAt_of_node? hroot)] at h
  simp only [Node.wrap] at h
  obtain ⟨ids₁, t₁, hids, h⟩ := bind_eq_ok h
  obtain ⟨below, t₂, hrun, h⟩ := bind_eq_ok h
  cases h
  obtain ⟨hmoves, hexp, ps, hps, hbelow⟩ :=
    (Expanded.ofDocument d).children_of_ok hs .root hpre hids
  rw [hbelow] at hpre
  obtain ⟨hs₂, done, hexp₂⟩ :=
    Walk.run_expanded _ hexp (hs.moves hmoves) ⟨ids₁, #[]⟩ hps (by simpa using hpre) hrun
  intro i p hi
  exact hexp₂.numbered hs₂.arena hi.of_rememberDescendants

end Tree

end LexicalScope
