import LexicalScope.Proofs.Answers
import LexicalScope.Tree.Traversal

set_option autoImplicit false

/-! # Walking a tree answers as the document says

`Tree.children`, `Tree.descendants`, `Tree.descendantsOfKind` and `Tree.chainAt`, asked of any
tree that agrees with the document, give the positions that the document gives, whatever has been
wrapped and remembered before. The walk of `descendants` is followed turn by turn: what is still
pending, together with all below it, is a part of the document that shrinks with each turn.
-/

namespace LexicalScope

open Query

namespace SyntaxNode

/-- The positions of the children of the node at a position. -/
def childrenAt (d : SyntaxNode) (p : Position) : Except Fault (List Position) :=
  (d.valueAt? p).elim (.ok []) fun n => n.children.map fun _ => n.steps.map (· :: p)

/-- The positions of the nodes of a kind below a position. -/
def belowOfKind (d : SyntaxNode) (p : Position) (k : Kind) : Except Fault (List Position) := do
  let ps ← d.below p
  return ps.filter fun q => (d.valueAt? q).bind kind? == some k

/-! ## The chain under an offset -/

/-- Whether a node has a span that covers the offset. -/
def covers (n : SyntaxNode) (offset : UInt64) : Bool := n.span?.any fun s => s.contains offset

/-- The chain from a node at `p` down: each node is followed by its first child that covers the
offset. -/
def chainFrom (n : SyntaxNode) (offset : UInt64) (p : Position) :
    Except Fault (List Position) :=
  match n.children with
  | .error f => .error f
  | .ok _ =>
    match _next : n.branches.find? fun b => b.2.covers offset with
    | none => .ok [p]
    | some b => (chainFrom b.2 offset (b.1 :: p)).map (p :: ·)
termination_by n.objectCount
decreasing_by exact objectCount_lt_of_mem_branches (List.mem_of_find?_eq_some _next)

/-- The chain of positions under an offset. -/
def chainAt (d : SyntaxNode) (offset : UInt64) : Except Fault (List Position) :=
  if d.span?.all fun s => s.contains offset then d.chainFrom offset [] else .ok []

theorem chainFrom_of_error {n : SyntaxNode} {f : Fault} (h : n.children = .error f)
    (offset : UInt64) (p : Position) : n.chainFrom offset p = .error f := by
  rw [chainFrom, h]

theorem chainFrom_of_none {n : SyntaxNode} {cs : List SyntaxNode} {offset : UInt64}
    (h : n.children = .ok cs) (hfind : n.branches.find? (fun b => b.2.covers offset) = none)
    (p : Position) : n.chainFrom offset p = .ok [p] := by
  rw [chainFrom, h]
  simp only
  split
  · rfl
  · next b hb => rw [hfind] at hb; cases hb

theorem chainFrom_of_some {n : SyntaxNode} {cs : List SyntaxNode} {offset : UInt64}
    {b : Step × SyntaxNode} (h : n.children = .ok cs)
    (hfind : n.branches.find? (fun b => b.2.covers offset) = some b) (p : Position) :
    n.chainFrom offset p = (b.2.chainFrom offset (b.1 :: p)).map (p :: ·) := by
  rw [chainFrom, h]
  simp only
  split
  · next hnone => rw [hfind] at hnone; cases hnone
  · next b' hb' =>
    rw [hfind] at hb'
    cases hb'
    rfl

end SyntaxNode

namespace Tree

variable {d : SyntaxNode} {t : Tree}

/-! ## Children -/

theorem children_of_error (h : t.Mirrors d) {i : NodeId} {n : Node} {f : Fault}
    (hn : t.node? i = some n) (hf : n.source.children = .error f) :
    children i t = .error (.fault f) t := by
  rw [children, bind_of_ok (nodeAt_of_node? hn)]
  cases hids : n.children with
  | some ids =>
      obtain ⟨cs, first, hcs, -⟩ := h.children hn hids
      rw [hf] at hcs
      cases hcs
  | none =>
      simp only [hf]
      rfl

/-- A node without a fault gives its children, wrapped now or before. -/
theorem children_of_ok (d : SyntaxNode) {i : NodeId} {n : Node} {cs : List SyntaxNode}
    (hn : t.node? i = some n) (hcs : n.source.children = .ok cs) :
    ∃ ids t' n', children i t = .ok ids t' ∧ t.Moves d t' ∧ t'.node? i = some n' ∧
      n'.source = n.source ∧ n'.children = some ids := by
  rw [children, bind_of_ok (nodeAt_of_node? hn)]
  cases hids : n.children with
  | some ids => exact ⟨ids, t, n, rfl, .refl, hn, rfl, hids⟩
  | none =>
      simp only [hcs]
      exact ⟨_, _, _, rfl, .single (.expand hn hids hcs), node?_adopt_self hn cs, rfl, rfl⟩

/-- **Children answer as the document says.** -/
theorem children_answers (h : t.Sound d) {i : NodeId} {p : Position} (hi : t.Stands i p) :
    (children i).Answers d t (d.childrenAt p) fun t' ids ps =>
      List.Forall₂ t'.Stands ids ps := by
  obtain ⟨n, hn, hp⟩ := hi.exists_node h.arena
  unfold SyntaxNode.childrenAt
  rw [hp, Option.elim_some]
  cases hcs : n.source.children with
  | error f => exact ⟨t, children_of_error h.arena hn hcs, .refl⟩
  | ok cs =>
      obtain ⟨ids, t', n', hok, hmoves, hn', hsrc, hids⟩ := children_of_ok d hn hcs
      refine ⟨ids, t', hok, hmoves, ?_⟩
      have hstands := (h.moves hmoves).arena.stands_children (hi.extend hmoves.extends) hn' hids
      rw [hsrc] at hstands
      exact hstands

/-! ## The walk -/

theorem length_preorderAt_pos {i : NodeId} {p : Position} (h : t.Mirrors d)
    (hi : t.Stands i p) : 0 < (d.preorderAt p).length := by
  obtain ⟨n, -, hp⟩ := hi.exists_node h
  rw [SyntaxNode.preorderAt_of_valueAt? hp]
  exact List.length_pos_of_ne_nil (n.source.preorder_ne_nil p)

/-- **One turn of a walk** whose pending nodes stand at `ps`. Either the next node has a fault,
the first one of all that is to be listed. Or the walk goes on with other pending nodes: there is
less to list, with the same first fault if there is one, and what will be listed after the turn
completes what was to be listed before it. -/
theorem Walk.step_cases (h : t.Sound d) (w : Walk) {ps : List Position}
    (hps : List.Forall₂ t.Stands w.pending ps) (hne : w.pending ≠ []) :
    (∃ f, w.step t = .error (.fault f) t ∧ d.firstFault (ps.flatMap d.preorderAt) = some f) ∨
    ∃ w' t' ps', w.step t = .ok w' t' ∧ t.Moves d t' ∧ List.Forall₂ t'.Stands w'.pending ps' ∧
      d.firstFault (ps.flatMap d.preorderAt) = d.firstFault (ps'.flatMap d.preorderAt) ∧
      (ps'.flatMap d.preorderAt).length < (ps.flatMap d.preorderAt).length ∧
      ∀ t'' new', t'.Extends t'' → t''.Flatten w'.pending new' →
        ∃ new, w'.visited.toList ++ new' = w.visited.toList ++ new ∧
          t''.Flatten w.pending new := by
  obtain ⟨pending, visited⟩ := w
  cases hps with
  | nil => exact absurd rfl hne
  | @cons i p rest ps hi hrest =>
      obtain ⟨n, hn, hp⟩ := hi.exists_node h.arena
      simp only [Walk.step]
      rw [bind_of_ok (nodeAt_of_node? hn), List.flatMap_cons]
      cases hdesc : n.descendants with
      | some below =>
          -- all below the node is known: it is listed whole, and none of it has a fault
          have hbelow := h.arena.descendants hn hdesc
          have hpos := length_preorderAt_pos h.arena hi
          refine Or.inr ⟨_, t, ps, rfl, .refl, hrest, ?_, ?_, ?_⟩
          · rw [SyntaxNode.firstFault_append, (hbelow.stands h.arena hi).2, Option.none_or]
          · rw [List.length_append]
            omega
          · intro t'' new' hx hflat
            exact ⟨i :: (below ++ new'), by simp, (hbelow.extend hx).flatten_cons hflat⟩
      | none =>
          cases hcs : n.source.children with
          | error f =>
              refine Or.inl ⟨f, bind_of_error (children_of_error h.arena hn hcs), ?_⟩
              rw [SyntaxNode.preorderAt_of_error hp hcs, List.singleton_append,
                SyntaxNode.firstFault_cons_of_error hp hcs]
          | ok cs =>
              -- the children come first, then what was pending
              obtain ⟨ids, t', n', hok, hmoves, hn', hsrc, hids⟩ := children_of_ok d hn hcs
              have hx := hmoves.extends
              have hstands := (h.moves hmoves).arena.stands_children (hi.extend hx) hn' hids
              rw [hsrc] at hstands
              refine Or.inr ⟨_, t', n.source.steps.map (· :: p) ++ ps, bind_of_ok hok, hmoves,
                ?_, ?_, ?_, ?_⟩
              · exact List.rel_append hstands (hrest.imp fun _ _ hj => hj.extend hx)
              · rw [SyntaxNode.preorderAt_of_ok hp hcs, List.cons_append,
                  SyntaxNode.firstFault_cons_of_ok hp hcs, List.flatMap_append]
              · rw [SyntaxNode.preorderAt_of_ok hp hcs, List.flatMap_append, List.cons_append,
                  List.length_cons]
                omega
              · intro t'' new' hx' hflat
                obtain ⟨a, b, rfl, ha, hb⟩ := hflat.of_append
                obtain ⟨n'', hn'', hkeep⟩ := hx'.node hn'
                exact ⟨i :: (a ++ b), by simp, .cons hn'' (hkeep.children _ hids) ha hb⟩

theorem Walk.run_of_nil {w : Walk} (h : w.pending = []) (bound : Nat) :
    Walk.run bound w t = .ok w.visited.toList t := by
  cases bound with
  | zero => rfl
  | succ bound => rw [Walk.run, h]; rfl

/-- **A walk answers as the document says.** It ends within as many turns as there are nodes to be
listed, and lists them after the visited ones unless one of them has a fault. -/
theorem Walk.run_answers (bound : Nat) (h : t.Sound d) (w : Walk) {ps : List Position}
    (hps : List.Forall₂ t.Stands w.pending ps) (hb : (ps.flatMap d.preorderAt).length ≤ bound) :
    (Walk.run bound w).Answers d t (d.barring (ps.flatMap d.preorderAt) ())
      fun t' ids _ => ∃ new, ids = w.visited.toList ++ new ∧ t'.Flatten w.pending new := by
  induction bound generalizing t w ps with
  | zero =>
      by_cases hne : w.pending = []
      · rw [hne] at hps
        cases hps
        refine ⟨_, t, run_of_nil hne 0, .refl, [], (List.append_nil _).symm, ?_⟩
        rw [hne]
        exact .nil
      · -- something pending leaves something to list, which the bound excludes
        rcases step_cases h w hps hne with ⟨f, -, hf⟩ | ⟨-, -, ps', -, -, -, -, hlt, -⟩
        · rw [List.eq_nil_of_length_eq_zero (Nat.le_zero.mp hb)] at hf
          cases hf
        · omega
  | succ bound ih =>
      by_cases hne : w.pending = []
      · rw [hne] at hps
        cases hps
        refine ⟨_, t, run_of_nil hne _, .refl, [], (List.append_nil _).symm, ?_⟩
        rw [hne]
        exact .nil
      · have hrun : Walk.run (bound + 1) w = w.step >>= fun w => w.run bound := by
          rw [Walk.run, if_neg (by simpa using hne)]
        rw [hrun]
        rcases step_cases h w hps hne with
          ⟨f, hstep, hf⟩ | ⟨w', t', ps', hstep, hmoves, hps', hfault, hlt, hlist⟩
        · rw [SyntaxNode.barring_of_some hf]
          exact ⟨t, bind_of_error hstep, .refl⟩
        · have hrest := ih (h.moves hmoves) w' hps' (by omega)
          rw [SyntaxNode.barring, hfault]
          refine .bind_ok hstep hmoves (hrest.imp ?_)
          rintro ids - t'' hmoves' ⟨new', rfl, hflat⟩
          exact hlist t'' new' hmoves'.extends hflat

/-! ## Descendants -/

/-- **Descendants answer as the document says**: the positions below, in pre-order, or the first
fault. -/
theorem descendants_answers (h : t.Sound d) {i : NodeId} {p : Position} (hi : t.Stands i p) :
    (descendants i).Answers d t (d.below p) fun t' ids ps =>
      t'.Below i ids ∧ List.Forall₂ t'.Stands ids ps := by
  obtain ⟨n, hn, hp⟩ := hi.exists_node h.arena
  rw [descendants]
  refine .bind_ok (nodeAt_of_node? hn) .refl ?_
  cases hdesc : n.descendants with
  | some below =>
      have hbelow := h.arena.descendants hn hdesc
      obtain ⟨hstands, hfault⟩ := hbelow.stands h.arena hi
      rw [SyntaxNode.below, SyntaxNode.barring_of_none hfault]
      exact .pure ⟨hbelow, hstands⟩
  | none =>
      simp only
      cases hcs : n.source.children with
      | error f =>
          have hfault : d.firstFault (d.preorderAt p) = some f := by
            rw [SyntaxNode.preorderAt_of_error hp hcs, SyntaxNode.firstFault_cons_of_error hp hcs]
          rw [SyntaxNode.below, SyntaxNode.barring_of_some hfault]
          exact ⟨t, bind_of_error (children_of_error h.arena hn hcs), .refl⟩
      | ok cs =>
          obtain ⟨ids, t', n', hok, hmoves, hn', hsrc, hids⟩ := children_of_ok d hn hcs
          refine .bind_ok hok hmoves ?_
          have h' := h.moves hmoves
          have hi' := hi.extend hmoves.extends
          have hstands := h'.arena.stands_children hi' hn' hids
          rw [hsrc] at hstands
          have hwalk := Walk.run_answers _ h' ⟨ids, #[]⟩ hstands
            (SyntaxNode.length_flatMap_steps_le hp hcs)
          rw [SyntaxNode.below_of_ok hp hcs]
          refine hwalk.bind ?_
          rintro below - t'' hmoves' ⟨new, hnew, hflat⟩
          have heq : below = new := by simpa using hnew
          subst heq
          have h'' := h'.moves hmoves'
          obtain ⟨n'', hn'', hkeep⟩ := hmoves'.extends.node hn'
          have hi'' := hi'.extend hmoves'.extends
          have hall : t''.Below i below := ⟨n'', ids, hn'', hkeep.children _ hids, hflat⟩
          -- whether the walk has remembered the same list already need not be known
          have hsame : ∀ ids', n''.descendants = some ids' → ids' = below := fun ids' hids' =>
            (h''.arena.descendants hn'' hids').unique hall
          have hmove : Move d t'' (t''.rememberDescendants i below) :=
            .recordDescendants hn'' hsame hall
          have hx := hmove.extends
          refine ⟨below, _, rfl, .single hmove, hall.extend hx, ?_⟩
          exact ((hall.extend hx).stands (h''.move hmove).arena (hi''.extend hx)).1

theorem descendantsOfKind_answers (h : t.Sound d) {i : NodeId} {p : Position}
    (hi : t.Stands i p) (k : Kind) :
    (descendantsOfKind i k).Answers d t (d.belowOfKind p k) fun t' ids ps =>
      List.Forall₂ t'.Stands ids ps := by
  refine (descendants_answers h hi).bind ?_
  rintro ids ps t' hmoves ⟨-, hps⟩
  have h' := (h.moves hmoves).arena
  refine ⟨_, t', rfl, .refl, ?_⟩
  refine List.rel_filter ?_ hps
  intro j q hj
  obtain ⟨m, hm, hq⟩ := hj.exists_node h'
  simp [hm, hq, h'.kind hm]

/-! ## The chain under an offset -/

/-- The remembered children of a node, side by side with its branches in the document. -/
theorem Mirrors.forall₂_branches (h : t.Mirrors d) {i : NodeId} {p : Position} {n : Node}
    {ids : List NodeId} (hi : t.Stands i p) (hn : t.node? i = some n)
    (hids : n.children = some ids) :
    List.Forall₂ (fun j b => t.Stands j (b.1 :: p) ∧ ∃ m, t.node? j = some m ∧ m.source = b.2)
      ids n.source.branches := by
  obtain ⟨cs, first, hcs, -⟩ := h.children hn hids
  have hp := hi.valueAt? h hn
  have hlen : ids.length = n.source.branches.length := by
    rw [h.length_children hn hids, ← SyntaxNode.map_fst_branches hcs, List.length_map]
  refine List.forall₂_iff_get.mpr ⟨hlen, ?_⟩
  intro k hk hk'
  have hstep : n.source.steps[k]? = some (n.source.branches.get ⟨k, hk'⟩).1 := by
    rw [← SyntaxNode.map_fst_branches hcs, List.getElem?_map, List.getElem?_eq_getElem hk']
    rfl
  have hstands : t.Stands (ids.get ⟨k, hk⟩) ((n.source.branches.get ⟨k, hk'⟩).1 :: p) :=
    .child hi hn hids (List.getElem?_eq_getElem hk) hstep
  obtain ⟨m, hm, hvalue⟩ := hstands.exists_node h
  have hbranch := SyntaxNode.valueAt?_branch hp (List.get_mem n.source.branches ⟨k, hk'⟩)
  rw [hvalue] at hbranch
  exact ⟨hstands, m, hm, Option.some.inj hbranch⟩

/-- **One step down the chain.** The node has a fault. Or its children are looked at, and the chain
ends here if none of them covers the offset and goes on at the first that does. -/
theorem chainFrom_cases (offset : UInt64) (bound : Nat) (h : t.Sound d) {i : NodeId}
    {p : Position} {n : Node} (hi : t.Stands i p) (hn : t.node? i = some n) :
    (∃ f, n.source.children = .error f ∧
      chainFrom offset (bound + 1) i t = .error (.fault f) t) ∨
    ∃ cs ids t', n.source.children = .ok cs ∧ children i t = .ok ids t' ∧ t.Moves d t' ∧
      (n.source.branches.find? (fun b => b.2.covers offset) = none ∧
          chainFrom offset (bound + 1) i t = (pure [i] : Query (List NodeId)) t' ∨
        ∃ b j m, n.source.branches.find? (fun b => b.2.covers offset) = some b ∧
          t'.Stands j (b.1 :: p) ∧ t'.node? j = some m ∧ m.source = b.2 ∧
          chainFrom offset (bound + 1) i t = ((i :: ·) <$> chainFrom offset bound j) t') := by
  rw [chainFrom]
  cases hcs : n.source.children with
  | error f => exact Or.inl ⟨f, rfl, bind_of_error (children_of_error h.arena hn hcs)⟩
  | ok cs =>
      obtain ⟨ids, t', n', hok, hmoves, hn', hsrc, hids⟩ := children_of_ok d hn hcs
      refine Or.inr ⟨cs, ids, t', rfl, hok, hmoves, ?_⟩
      have hbranches := (h.moves hmoves).arena.forall₂_branches (hi.extend hmoves.extends) hn' hids
      rw [hsrc] at hbranches
      have hcovers : ∀ j (b : Step × SyntaxNode), (t'.Stands j (b.1 :: p) ∧
          ∃ m, t'.node? j = some m ∧ m.source = b.2) →
          t'.covers offset j = b.2.covers offset := by
        rintro j b ⟨-, m, hm, hmb⟩
        simp [covers, hm, SyntaxNode.covers, hmb]
      rcases find?_of_forall₂ hbranches hcovers with
        ⟨hnone, hnone'⟩ | ⟨j, b, hj, hb, hstands, m, hm, hmb⟩
      · refine Or.inl ⟨hnone', ?_⟩
        rw [bind_of_ok hok, get_bind, hnone]
      · refine Or.inr ⟨b, j, m, hb, hstands, hm, hmb, ?_⟩
        rw [bind_of_ok hok, get_bind, hj]
        simp only
        rw [map_eq_pure_bind]

theorem chainFrom_answers (offset : UInt64) (bound : Nat) (h : t.Sound d) {i : NodeId}
    {p : Position} {n : Node} (hi : t.Stands i p) (hn : t.node? i = some n)
    (hb : n.source.objectCount < bound) :
    (chainFrom offset bound i).Answers d t (n.source.chainFrom offset p) fun t' ids ps =>
      List.Forall₂ t'.Stands ids ps := by
  induction bound generalizing t i p n with
  | zero => omega
  | succ bound ih =>
      rcases chainFrom_cases offset bound h hi hn with ⟨f, hf, hrun⟩ |
        ⟨cs, ids, t', hcs, -, hmoves, ⟨hnone, hrun⟩ | ⟨b, j, m, hfind, hj, hm, hmb, hrun⟩⟩
      · rw [SyntaxNode.chainFrom_of_error hf]
        exact ⟨t, hrun, .refl⟩
      · rw [SyntaxNode.chainFrom_of_none hcs hnone]
        exact .of_moves hrun hmoves (.pure (.cons (hi.extend hmoves.extends) .nil))
      · rw [SyntaxNode.chainFrom_of_some hcs hfind, ← hmb]
        -- the bound falls with the number of objects in the part below
        have hlt := SyntaxNode.objectCount_lt_of_mem_branches (List.mem_of_find?_eq_some hfind)
        rw [← hmb] at hlt
        refine .of_moves hrun hmoves ((ih (h.moves hmoves) hj hm (by omega)).map ?_)
        intro chain ps t'' hmoves' hps
        exact .cons ((hi.extend hmoves.extends).extend hmoves'.extends) hps

/-- **The chain under an offset is that of the document.** -/
theorem chainAt_answers (h : t.Sound d) (offset : UInt64) :
    (chainAt offset).Answers d t (d.chainAt offset) fun t' ids ps =>
      List.Forall₂ t'.Stands ids ps := by
  obtain ⟨n, hn, hsrc, -⟩ := h.arena.root
  rw [chainAt, SyntaxNode.chainAt]
  refine .bind_ok (nodeAt_of_node? hn) .refl ?_
  rw [hsrc]
  by_cases hspan : (d.span?.all fun s => s.contains offset) = true
  · rw [if_pos hspan, if_pos hspan]
    have hchain := chainFrom_answers offset _ h .root hn (Nat.lt_succ_self _)
    rw [hsrc] at hchain
    exact hchain
  · rw [if_neg hspan, if_neg hspan]
    exact .pure .nil

end Tree

end LexicalScope
