import LexicalScope.Proofs.Descent

set_option autoImplicit false

/-! # What a walk does to a tree

The walk of `Tree.descendants` keeps a stack of its own, takes over whole what is known to be below
a node, and may stop half way at a fault. All that it does to the tree is what a plain loop does
that asks for the children of one node after the other (`Tree.expandAll`): of the node itself, and
then of the nodes below it in pre-order. At the end, and only then, the list is remembered.

* `Tree.expandedBy_of_expandAll`: which nodes the loop expands, and which numbers it gives out.
* `Tree.Walk.step_expandAll`, `Tree.Walk.run_expandAll`: one turn of the walk and all turns.
* `Tree.expandAll_of_descendants_ok`, `Tree.stopsAt_of_descendants_error`: a walk that succeeds and
  a walk that fails.
* `Reachable.descendants_effect`: what this says of the walk below any node of any reachable tree.
-/

namespace LexicalScope

open Query

/-- Questions in sequence that fail have failed at the first of them or after it. -/
theorem Query.bind_eq_error {α β : Type} {x : Query α} {f : α → Query β} {t t' : Tree}
    {e : QueryError} (h : (x >>= f) t = .error e t') :
    x t = .error e t' ∨ ∃ a u, x t = .ok a u ∧ f a u = .error e t' := by
  cases hx : x t with
  | ok a u => exact Or.inr ⟨a, u, rfl, (bind_of_ok hx).symm.trans h⟩
  | error e' u =>
      rw [bind_of_error hx] at h
      cases h
      exact Or.inl rfl

namespace Tree

variable {d : SyntaxNode} {t t' : Tree}

/-! ## Asking for children, node by node -/

/-- **Asks for the children of the listed nodes**, one after the other, up to the first that has a
fault. -/
def expandAll : List NodeId → Query Unit
  | [] => return ()
  | i :: rest => do
    let _ ← children i
    expandAll rest

theorem expandAll_append (ids ids' : List NodeId) :
    expandAll (ids ++ ids') = expandAll ids >>= fun _ => expandAll ids' := by
  induction ids with
  | nil => rw [List.nil_append, expandAll, pure_bind]
  | cons i ids ih =>
      rw [List.cons_append, expandAll, expandAll, bind_assoc]
      exact congrArg _ (funext fun _ => ih)

theorem expandAll_append_of_ok {ids : List NodeId} (h : expandAll ids t = .ok () t')
    (ids' : List NodeId) : expandAll (ids ++ ids') t = expandAll ids' t' := by
  rw [expandAll_append]
  exact bind_of_ok h

theorem expandAll_singleton_of_ok {i : NodeId} {kids : List NodeId}
    (h : children i t = .ok kids t') : expandAll [i] t = .ok () t' := by
  rw [expandAll, bind_of_ok h]
  rfl

/-- A node that remembers its children is not expanded again. -/
theorem children_of_expansion {i : NodeId} {kids : List NodeId}
    (h : t.expansion i = some kids) : children i t = .ok kids t := by
  obtain ⟨n, hn, hkids⟩ := Option.bind_eq_some_iff.mp h
  rw [children, bind_of_ok (nodeAt_of_node? hn)]
  simp only [hkids]
  rfl

theorem expandAll_of_expanded {ids : List NodeId}
    (h : ∀ j ∈ ids, ∃ kids, t.expansion j = some kids) : expandAll ids t = .ok () t := by
  induction ids with
  | nil => rfl
  | cons i ids ih =>
      obtain ⟨⟨kids, hkids⟩, hrest⟩ := List.forall_mem_cons.mp h
      rw [expandAll, bind_of_ok (children_of_expansion hkids)]
      exact ih hrest

/-- All that is below a node is expanded, where this is remembered. -/
theorem Flatten.expanded {ids below : List NodeId} (h : t.Flatten ids below) :
    ∀ j ∈ below, ∃ kids, t.expansion j = some kids := by
  induction h with
  | nil => simp
  | @cons i n ids rest below after hn hids _ _ ih₁ ih₂ =>
      have hself : t.expansion i = some ids := by rw [expansion, hn, Option.bind_some, hids]
      exact List.forall_mem_cons.mpr ⟨⟨ids, hself⟩, List.forall_mem_append.mpr ⟨ih₁, ih₂⟩⟩

/-- **Taking over what is known to be below a node has no effect** that asking for all these
children would not have: it has none. -/
theorem Below.expandAll_eq {i : NodeId} {below : List NodeId} (h : t.Below i below) :
    expandAll (i :: below) t = .ok () t := by
  have hflat := h.flatten_cons .nil
  rw [List.append_nil] at hflat
  exact expandAll_of_expanded hflat.expanded

/-! ## The numbers that are given out -/

/-- **The listed nodes have been expanded**, those that were not yet, and no others. -/
structure ExpandedBy (t : Tree) (ids : List NodeId) (t' : Tree) : Prop where
  /-- The nodes that remember their children are those that did before, and the listed ones. -/
  expanded : ∀ j, t'.expansion j ≠ none ↔ t.expansion j ≠ none ∨ j ∈ ids
  /-- What was remembered is remembered still. -/
  kept : ∀ j kids, t.expansion j = some kids → t'.expansion j = some kids
  /-- New numbers are given out to the children of one node after the other, in the order of the
  list, and to siblings in a row. -/
  numbers : (ids.filter fun j => (t.expansion j).isNone).flatMap
    (fun j => (t'.expansion j).getD []) = List.range' t.size (t'.size - t.size)
  grows : t.size ≤ t'.size

theorem expansion_adopt {i : NodeId} {n : Node} (hn : t.node? i = some n) (cs : List SyntaxNode)
    (j : NodeId) : (t.adopt i n.depth cs).2.expansion j =
      if i = j then some (List.range' t.size cs.length) else t.expansion j := by
  by_cases hij : i = j
  · subst hij
    rw [if_pos rfl, expansion, node?_adopt_self hn]
    rfl
  · rw [if_neg hij, expansion, node?_adopt, if_neg hij, bind_wrapped? fun _ _ _ => rfl]
    rfl

/-- **What asking for the children of one node does**: nothing, if they are remembered or cannot be
had; else they are numbered from the size of the tree on. -/
theorem children_cases (t : Tree) (i : NodeId) :
    (∃ kids, t.expansion i = some kids ∧ children i t = .ok kids t) ∨
    (∃ e, children i t = .error e t) ∨
    ∃ n cs, t.node? i = some n ∧ n.children = none ∧ n.source.children = .ok cs ∧
      children i t = .ok (List.range' t.size cs.length) (t.adopt i n.depth cs).2 := by
  cases hn : t.node? i with
  | none =>
      refine Or.inr (Or.inl ⟨.noNode i, ?_⟩)
      rw [children, bind_of_error (nodeAt_of_none hn)]
  | some n =>
      cases hkids : n.children with
      | some kids =>
          have hold : t.expansion i = some kids := by rw [expansion, hn, Option.bind_some, hkids]
          exact Or.inl ⟨kids, hold, children_of_expansion hold⟩
      | none =>
          rw [children, bind_of_ok (nodeAt_of_node? hn), hkids]
          cases hcs : n.source.children with
          | error f => exact Or.inr (Or.inl ⟨.fault f, rfl⟩)
          | ok cs => exact Or.inr (Or.inr ⟨n, cs, rfl, hkids, hcs, rfl⟩)

theorem children_eq_ok {i : NodeId} {kids : List NodeId} (h : children i t = .ok kids t') :
    (t.expansion i = some kids ∧ t' = t) ∨
      ∃ n cs, t.node? i = some n ∧ n.children = none ∧ n.source.children = .ok cs ∧
        t' = (t.adopt i n.depth cs).2 := by
  rcases t.children_cases i with ⟨kids', hold, hrun⟩ | ⟨e, hrun⟩ | ⟨n, cs, hn, hnone, hcs, hrun⟩
  all_goals rw [h] at hrun; cases hrun
  · exact Or.inl ⟨hold, rfl⟩
  · exact Or.inr ⟨n, cs, hn, hnone, hcs, rfl⟩

theorem eq_of_children_error {i : NodeId} {e : QueryError} (h : children i t = .error e t') :
    t' = t := by
  rcases t.children_cases i with ⟨kids, -, hrun⟩ | ⟨e', hrun⟩ | ⟨n, cs, -, -, -, hrun⟩
  all_goals rw [h] at hrun; cases hrun
  rfl

theorem moves_of_expandAll (d : SyntaxNode) {ids : List NodeId}
    (h : expandAll ids t = .ok () t') : t.Moves d t' := by
  induction ids generalizing t with
  | nil =>
      cases h
      exact .refl
  | cons i ids ih =>
      obtain ⟨kids, u, hkids, hrest⟩ := bind_eq_ok h
      rcases children_eq_ok hkids with ⟨-, rfl⟩ | ⟨n, cs, hn, hnone, hcs, rfl⟩
      · exact ih hrest
      · exact .head (.expand hn hnone hcs) (ih hrest)

/-- **Which nodes the loop expands, and which numbers it gives out.** -/
theorem expandedBy_of_expandAll {ids : List NodeId} (hnodup : ids.Nodup)
    (h : expandAll ids t = .ok () t') : t.ExpandedBy ids t' := by
  induction ids generalizing t with
  | nil =>
      cases h
      exact ⟨by simp, fun _ _ hkids => hkids, by simp, Nat.le_refl _⟩
  | cons i ids ih =>
      obtain ⟨hi, hnodup⟩ := List.nodup_cons.mp hnodup
      obtain ⟨kids, u, hkids, hrest⟩ := bind_eq_ok h
      obtain ⟨hexp, hkept, hnumbers, hgrows⟩ := ih hnodup hrest
      rcases children_eq_ok hkids with ⟨hold, rfl⟩ | ⟨n, cs, hn, hnone, -, rfl⟩
      · -- nothing is added for a node that has its children
        refine ⟨fun j => ?_, hkept, ?_, hgrows⟩
        · rw [hexp j, List.mem_cons]
          refine ⟨fun hj => hj.imp id Or.inr, ?_⟩
          rintro (hj | rfl | hj)
          · exact Or.inl hj
          · exact Or.inl (by rw [hold]; exact Option.some_ne_none _)
          · exact Or.inr hj
        · rw [List.filter_cons_of_neg (by simp [hold]), hnumbers]
      · -- the children come first, then what the other nodes add
        have hupdate := expansion_adopt hn cs
        have hfresh : t.expansion i = none := by rw [expansion, hn, Option.bind_some, hnone]
        have hself := hkept i _ ((hupdate i).trans (if_pos rfl))
        have hsize := size_adopt t i n.depth cs
        refine ⟨fun j => ?_, fun j kids hj => ?_, ?_, by omega⟩
        · rw [hexp j, hupdate j, List.mem_cons]
          by_cases hij : i = j
          · simp [hij]
          · simp [hij, Ne.symm hij]
        · refine hkept j kids ?_
          have hij : i ≠ j := by
            rintro rfl
            rw [hfresh] at hj
            cases hj
          rw [hupdate j, if_neg hij, hj]
        · -- none of the other nodes has been expanded by this
          have hsame : (ids.filter fun j => (t.expansion j).isNone)
              = ids.filter fun j => ((t.adopt i n.depth cs).2.expansion j).isNone := by
            refine List.filter_congr fun j hj => ?_
            have hij : i ≠ j := by
              rintro rfl
              exact hi hj
            rw [hupdate j, if_neg hij]
          rw [List.filter_cons_of_pos (by simp [hfresh]), List.flatMap_cons, hself,
            Option.getD_some, hsame, hnumbers, hsize, List.range'_append_1]
          congr 1
          omega

/-! ## The walk -/

/-- What is left to be listed once the children of a node are known. -/
theorem stands_of_children (h : t.Sound d) {i : NodeId} {p : Position} (hi : t.Stands i p)
    {ids : List NodeId} (hrun : children i t = .ok ids t') :
    t.Moves d t' ∧ ∃ ps, List.Forall₂ t'.Stands ids ps ∧
      d.preorderAt p = p :: ps.flatMap d.preorderAt := by
  obtain ⟨n, hn, hp⟩ := hi.exists_node h.arena
  cases hcs : n.source.children with
  | error f =>
      rw [children_of_error h.arena hn hcs] at hrun
      cases hrun
  | ok cs =>
      obtain ⟨ids', u, n', hok, hmoves, hn', hsrc, hids⟩ := children_of_ok d hn hcs
      rw [hok] at hrun
      cases hrun
      have hstands := (h.moves hmoves).arena.stands_children (hi.extend hmoves.extends) hn' hids
      rw [hsrc] at hstands
      exact ⟨hmoves, _, hstands, SyntaxNode.preorderAt_of_ok hp hcs⟩

/-- **One turn of the walk**, at a node that stands at `p`, with other nodes pending that stand at
`ps`. Either the children of the node cannot be had. Or the turn has visited some nodes, and done
what asking for the children of these does; they stand at the first of the positions that were to
be listed, and what is pending then stands for the rest. -/
theorem Walk.step_expandAll (h : t.Sound d) {i : NodeId} {rest : List NodeId}
    (visited : Array NodeId) {p : Position} {ps : List Position} (hi : t.Stands i p)
    (hrest : List.Forall₂ t.Stands rest ps) :
    (∃ e t', Walk.step ⟨i :: rest, visited⟩ t = .error e t' ∧ children i t = .error e t') ∨
    ∃ w' t' new done ps', Walk.step ⟨i :: rest, visited⟩ t = .ok w' t' ∧ t.Moves d t' ∧
      w'.visited.toList = visited.toList ++ new ∧ expandAll new t = .ok () t' ∧
      List.Forall₂ t'.Stands new done ∧ List.Forall₂ t'.Stands w'.pending ps' ∧
      (p :: ps).flatMap d.preorderAt = done ++ ps'.flatMap d.preorderAt := by
  obtain ⟨n, hn, hp⟩ := hi.exists_node h.arena
  simp only [Walk.step]
  rw [bind_of_ok (nodeAt_of_node? hn), List.flatMap_cons]
  cases hdesc : n.descendants with
  | some below =>
      -- all that is below is taken over, and all of it is expanded already
      have hbelow := h.arena.descendants hn hdesc
      obtain ⟨hstands, -⟩ := hbelow.stands h.arena hi
      refine Or.inr ⟨_, t, i :: below, p :: (d.preorderAt p).tail, ps, rfl, .refl, by simp,
        hbelow.expandAll_eq, .cons hi hstands, hrest, ?_⟩
      rw [SyntaxNode.preorderAt_of_valueAt? hp, SyntaxNode.cons_tail_preorder]
  | none =>
      cases hkids : children i t with
      | error e t' => exact Or.inl ⟨e, t', bind_of_error hkids, rfl⟩
      | ok ids t' =>
          -- the children are to be listed next, before what was pending
          obtain ⟨hmoves, ps', hps', hlist⟩ := stands_of_children h hi hkids
          have hx := hmoves.extends
          refine Or.inr ⟨_, t', [i], [p], ps' ++ ps, bind_of_ok hkids, hmoves, by simp,
            expandAll_singleton_of_ok hkids, .cons (hi.extend hx) .nil, ?_, ?_⟩
          · exact List.rel_append hps' (hrest.imp fun _ _ hj => hj.extend hx)
          · rw [hlist, List.flatMap_append, List.cons_append, List.singleton_append]

/-- **Asking for the children of one node after the other stops at a fault**, where the nodes stand
at the positions `ps`: those before have been expanded, and the next one has the fault. -/
def StopsAt (t : Tree) (ps : List Position) (e : QueryError) (t' : Tree) : Prop :=
  ∃ done j before q after, ps = before ++ q :: after ∧ expandAll done t = .ok () t' ∧
    List.Forall₂ t'.Stands done before ∧ t'.Stands j q ∧ children j t' = .error e t'

/-- The first of the nodes may have the fault. -/
theorem StopsAt.of_children (h : t.Mirrors d) {i : NodeId} {p : Position} (hi : t.Stands i p)
    {e : QueryError} (hfail : children i t = .error e t') (ps : List Position) :
    t.StopsAt (d.preorderAt p ++ ps) e t' := by
  obtain rfl := eq_of_children_error hfail
  obtain ⟨n, -, hp⟩ := hi.exists_node h
  refine ⟨[], i, [], p, (n.source.preorder p).tail ++ ps, ?_, rfl, .nil, hi, hfail⟩
  rw [SyntaxNode.preorderAt_of_valueAt? hp, List.nil_append, ← List.cons_append,
    SyntaxNode.cons_tail_preorder]

/-- What comes before a loop that stops at a fault belongs to it. -/
theorem StopsAt.append (d : SyntaxNode) {u : Tree} {ids : List NodeId} {qs ps : List Position}
    {e : QueryError} (hids : expandAll ids t = .ok () u) (hqs : List.Forall₂ u.Stands ids qs)
    (h : u.StopsAt ps e t') : t.StopsAt (qs ++ ps) e t' := by
  obtain ⟨done, j, before, q, after, rfl, hdone, hbefore, hj, hfail⟩ := h
  have hx := (moves_of_expandAll d hdone).extends
  refine ⟨ids ++ done, j, qs ++ before, q, after, by simp, ?_, ?_, hj, hfail⟩
  · rw [expandAll_append_of_ok hids, hdone]
  · exact List.rel_append (hqs.imp fun _ _ hi => hi.extend hx) hbefore

/-- **All turns of the walk** do what asking for the children of the nodes that it visits does. -/
theorem Walk.run_expandAll (bound : Nat) (h : t.Sound d) (w : Walk) {ps : List Position}
    (hps : List.Forall₂ t.Stands w.pending ps) :
    (∀ ids t', Walk.run bound w t = .ok ids t' →
      ∃ new, ids = w.visited.toList ++ new ∧ expandAll new t = .ok () t') ∧
    ∀ e t', Walk.run bound w t = .error e t' → t.StopsAt (ps.flatMap d.preorderAt) e t' := by
  induction bound generalizing t w ps with
  | zero =>
      -- without a turn nothing is visited, and nothing can fail
      refine ⟨?_, ?_⟩
      · rintro ids t' ⟨⟩
        exact ⟨[], (List.append_nil _).symm, rfl⟩
      · rintro e t' ⟨⟩
  | succ bound ih =>
      obtain ⟨pending, visited⟩ := w
      cases hps with
      | nil =>
          rw [run_of_nil rfl]
          refine ⟨?_, ?_⟩
          · rintro ids t' ⟨⟩
            exact ⟨[], (List.append_nil _).symm, rfl⟩
          · rintro e t' ⟨⟩
      | @cons i p rest ps hi hrest =>
          have hturn : Walk.run (bound + 1) ⟨i :: rest, visited⟩
              = Walk.step ⟨i :: rest, visited⟩ >>= fun w => w.run bound := by
            rw [Walk.run, if_neg (by simp)]
          rw [hturn]
          rcases Walk.step_expandAll h visited hi hrest with ⟨e, t', hstep, hfail⟩ |
            ⟨w', u, new, done, ps', hstep, hmoves, hvisited, hnew, hdone, hps', hlist⟩
          · rw [bind_of_error hstep]
            refine ⟨?_, ?_⟩
            · rintro ids t' ⟨⟩
            · rintro e t' ⟨⟩
              exact .of_children h.arena hi hfail (ps.flatMap d.preorderAt)
          · -- what this turn has visited comes before what the others visit
            rw [bind_of_ok hstep]
            obtain ⟨hok, herror⟩ := ih (h.moves hmoves) w' hps'
            refine ⟨fun ids t' hrun => ?_, fun e t' hrun => ?_⟩
            · obtain ⟨new', rfl, hnew'⟩ := hok ids t' hrun
              refine ⟨new ++ new', by rw [hvisited, List.append_assoc], ?_⟩
              rw [expandAll_append_of_ok hnew, hnew']
            · rw [hlist]
              exact (herror e t' hrun).append d hnew hdone

/-! ## Descendants -/

/-- Remembering once more what is remembered already changes nothing. -/
theorem rememberDescendants_eq {i : NodeId} {n : Node} {below : List NodeId}
    (hn : t.node? i = some n) (hbelow : n.descendants = some below) :
    t.rememberDescendants i below = t := by
  have hnodes : (t.rememberDescendants i below).nodes = t.nodes := by
    refine Array.ext_getElem? fun j => ?_
    have hj := node?_rememberDescendants t i j below
    by_cases hij : i = j
    · subst hij
      rw [if_pos rfl, hn, Option.map_some, ← hbelow] at hj
      exact hj.trans hn.symm
    · rw [if_neg hij] at hj
      exact hj
  exact congrArg (fun nodes => { t with nodes := nodes }) hnodes

/-- **A walk that succeeds** has asked for the children of the node and of all that is below it, in
pre-order, and has then remembered the list. -/
theorem expandAll_of_descendants_ok (h : t.Sound d) {i : NodeId} {p : Position}
    (hi : t.Stands i p) {below : List NodeId} (hrun : descendants i t = .ok below t') :
    ∃ u, expandAll (i :: below) t = .ok () u ∧ t' = u.rememberDescendants i below := by
  obtain ⟨n, hn, -⟩ := hi.exists_node h.arena
  rw [descendants, bind_of_ok (nodeAt_of_node? hn)] at hrun
  cases hdesc : n.descendants with
  | some ids =>
      -- a list that is remembered is given again, and remembered again
      simp only [hdesc] at hrun
      cases hrun
      have hbelow := h.arena.descendants hn hdesc
      exact ⟨t, hbelow.expandAll_eq, (rememberDescendants_eq hn hdesc).symm⟩
  | none =>
      simp only [hdesc] at hrun
      obtain ⟨ids, t₁, hids, hrun⟩ := bind_eq_ok hrun
      obtain ⟨new, t₂, hwalk, hrun⟩ := bind_eq_ok hrun
      cases hrun
      obtain ⟨hmoves, ps, hps, -⟩ := stands_of_children h hi hids
      have hturns := Walk.run_expandAll n.source.objectCount (h.moves hmoves) ⟨ids, #[]⟩ hps
      obtain ⟨new', hnew, hall⟩ := hturns.1 _ _ hwalk
      obtain rfl : below = new' := by simpa using hnew
      exact ⟨t₂, by rw [expandAll, bind_of_ok hids, hall], rfl⟩

/-- **A walk that fails** has asked for the children of the node and of what is below it, in
pre-order, up to a node whose children cannot be had. -/
theorem stopsAt_of_descendants_error (h : t.Sound d) {i : NodeId} {p : Position}
    (hi : t.Stands i p) {e : QueryError} (hrun : descendants i t = .error e t') :
    t.StopsAt (d.preorderAt p) e t' := by
  obtain ⟨n, hn, hp⟩ := hi.exists_node h.arena
  rw [descendants, bind_of_ok (nodeAt_of_node? hn)] at hrun
  cases hdesc : n.descendants with
  | some ids =>
      simp only [hdesc] at hrun
      cases hrun
  | none =>
      simp only [hdesc] at hrun
      rcases bind_eq_error hrun with hfail | ⟨ids, t₁, hids, hrun⟩
      · have hstop := StopsAt.of_children h.arena hi hfail []
        rwa [List.append_nil] at hstop
      · rcases bind_eq_error hrun with hwalk | ⟨new, t₂, hwalk, hrun⟩
        · obtain ⟨hmoves, ps, hps, hlist⟩ := stands_of_children h hi hids
          have hstands : List.Forall₂ t₁.Stands [i] [p] :=
            .cons (hi.extend hmoves.extends) .nil
          have hturns := Walk.run_expandAll n.source.objectCount (h.moves hmoves) ⟨ids, #[]⟩ hps
          rw [hlist]
          exact .append d (expandAll_singleton_of_ok hids) hstands (hturns.2 _ _ hwalk)
        · cases hrun

/-! ## What is remembered -/

/-- The remembered list of the nodes below a number, if it has been walked. -/
def knownBelow (t : Tree) (j : NodeId) : Option (List NodeId) := (t.node? j).bind Node.descendants

theorem knownBelow_adopt (t : Tree) (i : NodeId) (depth : Nat) (cs : List SyntaxNode) :
    (t.adopt i depth cs).2.knownBelow = t.knownBelow := by
  funext j
  rw [knownBelow, knownBelow, node?_adopt, ← bind_wrapped? (fun _ _ _ => rfl) t i depth cs j]
  split
  · rw [Option.bind_map]
    rfl
  · rfl

/-- Asking for children remembers nothing of what is below. -/
theorem children_keeps_knownBelow (i : NodeId) : Keeps knownBelow (children i) := by
  intro t
  rcases t.children_cases i with ⟨kids, -, hrun⟩ | ⟨e, hrun⟩ | ⟨n, cs, -, -, -, hrun⟩
  · rw [after_of_ok hrun]
  · rw [after_of_error hrun]
  · rw [after_of_ok hrun, knownBelow_adopt]

theorem expandAll_keeps_knownBelow (ids : List NodeId) : Keeps knownBelow (expandAll ids) := by
  induction ids with
  | nil => exact .pure ()
  | cons i ids ih => exact .bind (children_keeps_knownBelow i) fun _ => ih

theorem knownBelow_of_expandAll {ids : List NodeId} (h : expandAll ids t = .ok () t') :
    t'.knownBelow = t.knownBelow := by
  have hkeeps := expandAll_keeps_knownBelow ids t
  rwa [after_of_ok h] at hkeeps

theorem knownBelow_rememberDescendants {i j : NodeId} (hij : j ≠ i) (t : Tree)
    (below : List NodeId) : (t.rememberDescendants i below).knownBelow j = t.knownBelow j := by
  rw [knownBelow, knownBelow, node?_rememberDescendants, if_neg hij.symm]

/-- A walk that succeeds is remembered. -/
theorem knownBelow_of_descendants (h : t.Sound d) {i : NodeId} {p : Position}
    (hi : t.Stands i p) {below : List NodeId} (hrun : descendants i t = .ok below t') :
    t'.knownBelow i = some below := by
  obtain ⟨u, hall, rfl⟩ := expandAll_of_descendants_ok h hi hrun
  have hmoves := moves_of_expandAll d hall
  obtain ⟨n, hn, -⟩ := (hi.extend hmoves.extends).exists_node (h.moves hmoves).arena
  rw [knownBelow, node?_rememberDescendants, if_pos rfl, hn]
  rfl

/-- A walk that is remembered is not made again. -/
theorem descendants_of_knownBelow {i : NodeId} {below : List NodeId}
    (h : t.knownBelow i = some below) : descendants i t = .ok below t := by
  obtain ⟨n, hn, hbelow⟩ := Option.bind_eq_some_iff.mp h
  rw [descendants, bind_of_ok (nodeAt_of_node? hn)]
  simp only [hbelow]
  rfl

theorem Extends.knownBelow (hx : t.Extends t') {i : NodeId} {below : List NodeId}
    (h : t.knownBelow i = some below) : t'.knownBelow i = some below := by
  obtain ⟨n, hn, hbelow⟩ := Option.bind_eq_some_iff.mp h
  obtain ⟨n', hn', hkeep⟩ := hx.node hn
  exact Option.bind_eq_some_iff.mpr ⟨n', hn', hkeep.descendants _ hbelow⟩

theorem expansion_rememberDescendants (t : Tree) (i : NodeId) (below : List NodeId) :
    (t.rememberDescendants i below).expansion = t.expansion := by
  funext j
  rw [expansion, expansion, node?_rememberDescendants]
  split
  · rw [Option.bind_map]
    rfl
  · rfl

/-- Remembering what is below a node does not count as expanding one. -/
theorem ExpandedBy.rememberDescendants {ids : List NodeId} (h : t.ExpandedBy ids t') (i : NodeId)
    (below : List NodeId) : t.ExpandedBy ids (t'.rememberDescendants i below) := by
  have hexp := expansion_rememberDescendants t' i below
  have hsize : (t'.rememberDescendants i below).size = t'.size := Array.size_modify
  refine ⟨?_, ?_, ?_, ?_⟩
  · rw [hexp]
    exact h.expanded
  · rw [hexp]
    exact h.kept
  · rw [hexp, hsize]
    exact h.numbers
  · rw [hsize]
    exact h.grows

/-- **What the walk below a node does to the tree**, in terms of asking for the children of one
node after the other. -/
structure WalkEffect (d : SyntaxNode) (t : Tree) (i : NodeId) : Prop where
  /-- A walk that succeeds does what asking for the children of the node, and then of all nodes
  below it in pre-order, does, and then remembers the list for this one node. -/
  succeeds : ∀ below t', descendants i t = .ok below t' →
    (i :: below).map t'.position = d.preorderAt (t.position i) ∧
      (∃ u, expandAll (i :: below) t = .ok () u ∧ t' = u.rememberDescendants i below) ∧
      t.ExpandedBy (i :: below) t' ∧ t'.knownBelow i = some below ∧
      ∀ j, j ≠ i → t'.knownBelow j = t.knownBelow j
  /-- A walk that fails does what asking for the children of these same nodes does up to the first
  one whose children cannot be had, and remembers no list at all. -/
  fails : ∀ e t', descendants i t = .error e t' → ∃ done j rest,
    done.map t'.position ++ t'.position j :: rest = d.preorderAt (t.position i) ∧
      expandAll done t = .ok () t' ∧ children j t' = .error e t' ∧ t.ExpandedBy done t' ∧
      t'.knownBelow = t.knownBelow

end Tree

/-- **The walk below a node has the effect of asking for children in pre-order**, in every
reachable tree and for every node of it, whether it ends well or at a fault. What it takes over
from earlier walks makes no difference to the numbers that it gives out. -/
theorem Reachable.descendants_effect {d : SyntaxNode} {t : Tree} (h : Reachable d t) {i : NodeId}
    {n : Tree.Node} (hn : t.node? i = some n) : t.WalkEffect d i := by
  have hi := h.sound.arena.stands_position hn
  have hp := hi.valueAt? h.sound.arena hn
  have hnodup : (d.preorderAt (t.position i)).Nodup := by
    rw [SyntaxNode.preorderAt_of_valueAt? hp]
    exact n.source.nodup_preorder _
  refine ⟨fun below t' hrun => ?_, fun e t' hrun => ?_⟩
  · obtain ⟨h', hstands⟩ := Tree.stands_cons_of_descendants h.sound hi hn hrun
    have hlist := (Tree.read_of_stands h'.arena hstands).2
    obtain ⟨u, hall, rfl⟩ := Tree.expandAll_of_descendants_ok h.sound hi hrun
    -- different positions, so different numbers
    have hids : (i :: below).Nodup := .of_map _ (hlist ▸ hnodup)
    have hknown := Tree.knownBelow_of_expandAll hall
    refine ⟨hlist, ⟨u, hall, rfl⟩, ?_, ?_, fun j hj => ?_⟩
    · exact (Tree.expandedBy_of_expandAll hids hall).rememberDescendants i below
    · obtain ⟨m, hm, -⟩ := (Tree.moves_of_expandAll d hall).extends.node hn
      rw [Tree.knownBelow, Tree.node?_rememberDescendants, if_pos rfl, hm]
      rfl
    · rw [Tree.knownBelow_rememberDescendants hj, hknown]
  · obtain ⟨done, j, before, q, rest, hlist, hdone, hbefore, hj, hfail⟩ :=
      Tree.stopsAt_of_descendants_error h.sound hi hrun
    have h' := (h.sound.moves (Tree.moves_of_expandAll d hdone)).arena
    have hpos := (Tree.read_of_stands h' hbefore).2
    have hids : done.Nodup := by
      rw [hlist] at hnodup
      exact .of_map t'.position (hpos ▸ hnodup.of_append_left)
    refine ⟨done, j, rest, ?_, hdone, hfail, Tree.expandedBy_of_expandAll hids hdone,
      Tree.knownBelow_of_expandAll hdone⟩
    rw [hpos, hj.eq_position h', hlist]

/-! ## A walk that stops half way

The statement in the second block lacks its parts. -/

namespace Sample

/-- A statement in a block. -/
def block (statement : SyntaxNode) : SyntaxNode :=
  .object [("type", .string "BlockStatement"), ("body", .array [statement])]

def halting : SyntaxNode :=
  .object [
    ("type", .string "Program"),
    ("body", .array [
      block (declaration "x"),
      block (.object [("type", .string "WithStatement")]),
      block (declaration "y")])]

/-- The tree after the first block has been walked by itself. -/
def halted : Tree :=
  (Question.descendants 1).after ((Question.children Tree.root).after (Tree.ofDocument halting))

theorem reachable_halted : Reachable halting halted :=
  .ask _ (.ask _ .refl (by decide +kernel)) (by decide +kernel)

/-- The walk from the root takes over the first block, expands the second one, which adds the last
number, and stops at the statement in it. The third block is not expanded. -/
theorem descendants_effect_halted :
    Reachable halting halted ∧ halted.WalkEffect halting Tree.root ∧ halted.size = 6 ∧
      ∃ n e t', halted.node? Tree.root = some n ∧
        Tree.descendants Tree.root halted = .error e t' ∧ t'.size = 7 ∧
        t'.expansion 2 = some [6] ∧ t'.expansion 3 = none ∧ t'.knownBelow 1 = some [4, 5] := by
  obtain ⟨n, hn, -⟩ := reachable_halted.sound.arena.root
  obtain ⟨e, t', hrun⟩ : ∃ e t', Tree.descendants Tree.root halted = .error e t' :=
    ⟨_, _, by rfl⟩
  refine ⟨reachable_halted, Reachable.descendants_effect reachable_halted hn, by decide +kernel,
    n, _, _, hn, hrun, ?_⟩
  cases hrun
  decide +kernel

end Sample

end LexicalScope
