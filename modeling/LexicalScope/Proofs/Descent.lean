import LexicalScope.Proofs.Closure
import LexicalScope.Proofs.Stability
import Mathlib.Data.List.Chain

set_option autoImplicit false

/-! # The way down to an offset

`Tree.chainAt` goes down from the root, asks for the children of each node that it comes to and
takes the first one under the offset. Here it is compared with the same way down in the document
(`SyntaxNode.descent`), which goes as far as it can and does not stop at a fault.

* `SyntaxNode.chainFrom_of_expands`, `SyntaxNode.chainFrom_of_fault`: the chain is the way down,
  unless a node on it has a fault.
* `Tree.chainFrom_expands`: only the children of nodes on the way down are ever wrapped.
* `Reachable.chainAt_refines`: the chain under any offset, in any reachable tree.
-/

namespace LexicalScope

open Query

namespace SyntaxNode

variable {d n : SyntaxNode} {offset : UInt64} {p : Position}

/-! ## In the document -/

/-- **The way down to an offset** from a node at `p`: each node is followed by its first child that
covers the offset, until no child does. A node with a fault has no children. -/
def descent (n : SyntaxNode) (offset : UInt64) (p : Position) : List (Position × SyntaxNode) :=
  match _next : n.branches.find? fun b => b.2.covers offset with
  | none => [(p, n)]
  | some b => (p, n) :: descent b.2 offset (b.1 :: p)
termination_by n.objectCount
decreasing_by exact objectCount_lt_of_mem_branches (List.mem_of_find?_eq_some _next)

/-- The root does not exclude the offset: it covers it, or has no span. -/
def Admits (d : SyntaxNode) (offset : UInt64) : Prop :=
  ∀ s, d.span? = some s → s.contains offset = true

theorem descent_of_none (h : n.branches.find? (fun b => b.2.covers offset) = none)
    (p : Position) : n.descent offset p = [(p, n)] := by
  rw [descent]
  split
  · rfl
  · next b hb => rw [h] at hb; cases hb

theorem descent_of_some {b : Step × SyntaxNode}
    (h : n.branches.find? (fun b => b.2.covers offset) = some b) (p : Position) :
    n.descent offset p = (p, n) :: b.2.descent offset (b.1 :: p) := by
  rw [descent]
  split
  · next hnone => rw [h] at hnone; cases hnone
  · next b' hb' =>
    rw [h] at hb'
    cases hb'
    rfl

theorem head?_descent (n : SyntaxNode) (offset : UInt64) (p : Position) :
    (n.descent offset p).head? = some (p, n) := by
  rw [descent]
  split <;> rfl

/-- Without faults, the chain is the way down. -/
theorem chainFrom_of_expands (h : ∀ x ∈ n.descent offset p, ∃ cs, x.2.children = .ok cs) :
    n.chainFrom offset p = .ok ((n.descent offset p).map Prod.fst) := by
  induction n, p using descent.induct offset with
  | case1 n p hnone =>
      rw [descent_of_none hnone] at h ⊢
      obtain ⟨cs, hcs⟩ := h _ List.mem_cons_self
      exact chainFrom_of_none hcs hnone p
  | case2 n p b hfind ih =>
      rw [descent_of_some hfind] at h ⊢
      obtain ⟨⟨cs, hcs⟩, hrest⟩ := List.forall_mem_cons.mp h
      rw [chainFrom_of_some hcs hfind, ih hrest]
      rfl

/-- A fault on the way down is the fault of the chain. -/
theorem chainFrom_of_fault {x : Position × SyntaxNode} {f : Fault}
    (hx : x ∈ n.descent offset p) (hf : x.2.children = .error f) :
    n.chainFrom offset p = .error f := by
  induction n, p using descent.induct offset with
  | case1 n p hnone =>
      rw [descent_of_none hnone, List.mem_singleton] at hx
      subst hx
      exact chainFrom_of_error hf offset p
  | case2 n p b hfind ih =>
      rw [descent_of_some hfind, List.mem_cons] at hx
      rcases hx with rfl | hx
      · exact chainFrom_of_error hf offset p
      · -- a node that is gone down from has children
        obtain ⟨cs, hcs, -⟩ := exists_of_mem_branches (List.mem_of_find?_eq_some hfind)
        rw [chainFrom_of_some hcs hfind, ih hx]
        rfl

/-- What is on the way down stands in the document, and is reached from child to child. -/
theorem of_mem_descent (hp : d.valueAt? p = some n) {x : Position × SyntaxNode}
    (hx : x ∈ n.descent offset p) : d.valueAt? x.1 = some x.2 ∧ n.Reaches x.2 := by
  induction n, p using descent.induct offset with
  | case1 n p hnone =>
      rw [descent_of_none hnone, List.mem_singleton] at hx
      subst hx
      exact ⟨hp, .refl⟩
  | case2 n p b hfind ih =>
      rw [descent_of_some hfind, List.mem_cons] at hx
      rcases hx with rfl | hx
      · exact ⟨hp, .refl⟩
      · have hb := List.mem_of_find?_eq_some hfind
        obtain ⟨cs, hcs, hmem, -⟩ := exists_of_mem_branches hb
        obtain ⟨hvalue, hreach⟩ := ih (valueAt?_branch hp hb) hx
        exact ⟨hvalue, (reaches_of_ok hcs).mpr (Or.inr ⟨b.2, hmem, hreach⟩)⟩

/-- The way down goes one step at a time. -/
theorem isChain_descent (n : SyntaxNode) (offset : UInt64) (p : Position) :
    ((n.descent offset p).map Prod.fst).IsChain fun p q => ∃ s, q = s :: p := by
  induction n, p using descent.induct offset with
  | case1 n p hnone =>
      rw [descent_of_none hnone]
      exact List.isChain_singleton p
  | case2 n p b hfind ih =>
      rw [descent_of_some hfind, List.map_cons, List.isChain_cons]
      refine ⟨fun q hq => ⟨b.1, ?_⟩, ih⟩
      rw [List.head?_map, head?_descent] at hq
      exact (Option.some.inj hq).symm

theorem chainAt_of_admits (h : d.Admits offset) : d.chainAt offset = d.chainFrom offset [] := by
  rw [chainAt, if_pos ((Option.all_eq_true _ _).mpr h)]

end SyntaxNode

/-! ## What a question leaves -/

namespace Query

variable {α β γ : Type} {d : SyntaxNode} {t t' : Tree}

theorem after_of_eq {x y : Query α} (h : x t = y t') : x.after t = y.after t' := by
  rw [after, after, h]

theorem after_of_ok {x : Query α} {a : α} (h : x t = .ok a t') : x.after t = t' := by
  rw [after, h]

theorem after_of_error {x : Query α} {e : QueryError} (h : x t = .error e t') :
    x.after t = t' := by
  rw [after, h]

theorem after_map (f : α → β) (x : Query α) (t : Tree) : (f <$> x).after t = x.after t := by
  simp only [after, Functor.map, EStateM.map]
  cases x t <;> rfl

theorem Answers.moves_after {x : Query α} {r : Except Fault β} {rel : Tree → α → β → Prop}
    (h : x.Answers d t r rel) : t.Moves d (x.after t) := by
  cases r with
  | ok b =>
      obtain ⟨a, t', hrun, hmoves, -⟩ := h
      rw [after_of_ok hrun]
      exact hmoves
  | error f =>
      obtain ⟨t', hrun, hmoves⟩ := h
      rw [after_of_error hrun]
      exact hmoves

end Query

/-! ## In a tree -/

namespace Tree

variable {d : SyntaxNode} {t : Tree}

/-- The remembered children of a number, if it has been expanded. -/
def expansion (t : Tree) (j : NodeId) : Option (List NodeId) := (t.node? j).bind Node.children

/-- Asking for the children of a node expands no other. -/
theorem children_keeps_expansion {i j : NodeId} (hij : i ≠ j) :
    Keeps (fun t => t.expansion j) (children i) := by
  refine .bind (keeps_nodeAt _ i) fun n => ?_
  cases n.children with
  | some ids => exact .pure ids
  | none =>
      cases n.source.children with
      | error f => exact .throw _
      | ok cs =>
          refine .modifyGet fun t => ?_
          show ((t.adopt i n.depth cs).2.node? j).bind Node.children = _
          rw [node?_adopt, if_neg hij, bind_wrapped? fun _ _ _ => rfl]
          rfl

/-- **Going down expands only what is on the way**, whether it ends well or at a fault. -/
theorem chainFrom_expands (offset : UInt64) (bound : Nat) (h : t.Sound d) {i j : NodeId}
    {p : Position} {n : Node} (hi : t.Stands i p) (hn : t.node? i = some n)
    (hb : n.source.objectCount < bound)
    (hj : ((chainFrom offset bound i).after t).expansion j ≠ t.expansion j) :
    ∃ x ∈ n.source.descent offset p, ((chainFrom offset bound i).after t).Stands j x.1 := by
  induction bound generalizing t i p n with
  | zero => omega
  | succ bound ih =>
      rcases chainFrom_cases offset bound h hi hn with ⟨f, -, hrun⟩ |
        ⟨cs, ids, t', -, hkids, hmoves, hnext⟩
      · rw [after_of_error hrun] at hj
        exact absurd rfl hj
      · have hself : t'.expansion j ≠ t.expansion j → i = j := by
          intro hne
          by_contra hij
          rw [← after_of_ok hkids] at hne
          exact hne (children_keeps_expansion hij t)
        rcases hnext with ⟨hnone, hrun⟩ | ⟨b, k, m, hfind, hk, hm, hmb, hrun⟩
        · rw [after_of_eq hrun] at hj ⊢
          obtain rfl := hself hj
          rw [SyntaxNode.descent_of_none hnone]
          exact ⟨_, List.mem_cons_self, hi.extend hmoves.extends⟩
        · rw [after_of_eq hrun, after_map] at hj ⊢
          rw [SyntaxNode.descent_of_some hfind, ← hmb]
          have hlt := SyntaxNode.objectCount_lt_of_mem_branches (List.mem_of_find?_eq_some hfind)
          rw [← hmb] at hlt
          have hbound : m.source.objectCount < bound := by omega
          have h' := h.moves hmoves
          by_cases hlater : ((chainFrom offset bound k).after t').expansion j = t'.expansion j
          · -- nothing further down has expanded it, so this step has
            rw [hlater] at hj
            obtain rfl := hself hj
            have hdown := (chainFrom_answers offset bound h' hk hm hbound).moves_after
            exact ⟨_, List.mem_cons_self, (hi.extend hmoves.extends).extend hdown.extends⟩
          · obtain ⟨x, hx, hstands⟩ := ih h' hk hm hbound hlater
            exact ⟨x, List.mem_cons_of_mem _ hx, hstands⟩

/-- Numbers at positions one step apart are linked from parent to child. -/
theorem isChain_parent (h : t.Mirrors d) {ids : List NodeId} {ps : List Position}
    (hids : List.Forall₂ t.Stands ids ps) (hps : ps.IsChain fun p q => ∃ s, q = s :: p) :
    ids.IsChain fun a b => ∃ m, t.node? b = some m ∧ m.parent = some a := by
  induction hids with
  | nil => exact List.isChain_nil
  | @cons a p ids ps ha hids ih =>
      obtain ⟨hnext, hrest⟩ := List.isChain_cons.mp hps
      refine List.isChain_cons.mpr ⟨fun b hb => ?_, ih hrest⟩
      cases hids with
      | nil => cases hb
      | @cons b' q ids ps hq _ =>
          cases hb
          obtain ⟨s, rfl⟩ := hnext q rfl
          obtain ⟨m, hm, -⟩ := hq.exists_node h
          obtain ⟨a', -, -, hpar, -, ha', -⟩ := hq.parent_of_cons h hm
          exact ⟨m, hm, by rw [hpar, ha'.inj ha]⟩

/-- A root whose span does not cover the offset is all that is looked at. -/
theorem chainAt_of_outside (h : t.Mirrors d) {offset : UInt64} {s : Span}
    (hs : d.span? = some s) (hout : s.contains offset = false) :
    chainAt offset t = .ok [] t := by
  obtain ⟨n, hn, hsrc, -⟩ := h.root
  rw [chainAt, bind_of_ok (nodeAt_of_node? hn), hsrc, hs, Option.all_some, hout]
  rfl

theorem chainAt_of_admits (h : t.Mirrors d) {offset : UInt64} (hin : d.Admits offset) :
    chainAt offset t = chainFrom offset (d.objectCount + 1) root t := by
  obtain ⟨n, hn, hsrc, -⟩ := h.root
  rw [chainAt, bind_of_ok (nodeAt_of_node? hn), hsrc, if_pos ((Option.all_eq_true _ _).mpr hin)]

theorem chainAt_of_fault (h : t.Sound d) {offset : UInt64} (hin : d.Admits offset)
    {x : Position × SyntaxNode} {f : Fault} (hx : x ∈ d.descent offset [])
    (hf : x.2.children = .error f) : ∃ t', chainAt offset t = .error (.fault f) t' := by
  obtain ⟨t', hrun, -⟩ := (chainAt_answers h offset).exists_of_error
    ((SyntaxNode.chainAt_of_admits hin).trans (SyntaxNode.chainFrom_of_fault hx hf))
  exact ⟨t', hrun⟩

theorem chainAt_of_expands (h : t.Sound d) {offset : UInt64} (hin : d.Admits offset)
    (hall : ∀ x ∈ d.descent offset [], ∃ cs, x.2.children = .ok cs) :
    ∃ ids t', chainAt offset t = .ok ids t' ∧ t'.Sound d ∧
      List.Forall₂ t'.Stands ids ((d.descent offset []).map Prod.fst) := by
  obtain ⟨ids, t', hrun, hmoves, hids⟩ := (chainAt_answers h offset).exists_of_ok
    ((SyntaxNode.chainAt_of_admits hin).trans (SyntaxNode.chainFrom_of_expands hall))
  exact ⟨ids, t', hrun, h.moves hmoves, hids⟩

/-- A chain stands along the way down, on which there is no fault. -/
theorem stands_of_chainAt (h : t.Sound d) {offset : UInt64} (hin : d.Admits offset)
    {ids : List NodeId} {t' : Tree} (hrun : chainAt offset t = .ok ids t') :
    (∀ x ∈ d.descent offset [], ∃ cs, x.2.children = .ok cs) ∧ t'.Sound d ∧
      List.Forall₂ t'.Stands ids ((d.descent offset []).map Prod.fst) := by
  have hall : ∀ x ∈ d.descent offset [], ∃ cs, x.2.children = .ok cs := by
    intro x hx
    cases hcs : x.2.children with
    | ok cs => exact ⟨cs, rfl⟩
    | error f =>
        obtain ⟨u, hrun'⟩ := chainAt_of_fault h hin hx hcs
        rw [hrun] at hrun'
        cases hrun'
  obtain ⟨ids', u, hrun', hu⟩ := chainAt_of_expands h hin hall
  rw [hrun] at hrun'
  cases hrun'
  exact ⟨hall, hu⟩

/-- A root that excludes the offset has a span that does not cover it. -/
theorem chainAt_of_not_admits (h : t.Mirrors d) {offset : UInt64} (hin : ¬ d.Admits offset) :
    chainAt offset t = .ok [] t := by
  simp only [SyntaxNode.Admits, not_forall] at hin
  obtain ⟨s, hs, hout⟩ := hin
  exact chainAt_of_outside h hs (by simpa using hout)

theorem exists_chainAt_of_faultless (h : t.Sound d) (hd : d.Faultless) (offset : UInt64) :
    ∃ ids t', chainAt offset t = .ok ids t' := by
  by_cases hin : d.Admits offset
  · obtain ⟨ids, t', hrun, -⟩ := chainAt_of_expands h hin fun x hx =>
      hd x.2 (SyntaxNode.of_mem_descent d.valueAt?_nil hx).2
    exact ⟨ids, t', hrun⟩
  · exact ⟨[], t, chainAt_of_not_admits h.arena hin⟩

theorem chainAt_expands (h : t.Sound d) {offset : UInt64} (hin : d.Admits offset) {j : NodeId}
    (hj : ((chainAt offset).after t).expansion j ≠ t.expansion j) :
    ((chainAt offset).after t).position j ∈ (d.descent offset []).map Prod.fst := by
  have h' := h.moves (chainAt_answers h offset).moves_after
  rw [after_of_eq (chainAt_of_admits h.arena hin)] at hj h' ⊢
  obtain ⟨n, hn, rfl, -⟩ := h.arena.root
  obtain ⟨x, hx, hstands⟩ := chainFrom_expands offset _ h .root hn (Nat.lt_succ_self _) hj
  rw [hstands.eq_position h'.arena]
  exact List.mem_map_of_mem hx

/-- **What the chain under an offset is and what asking for it does**, in terms of the way down in
the document. -/
structure ChainRefines (d : SyntaxNode) (t : Tree) (offset : UInt64) : Prop where
  /-- If the root has a span that does not cover the offset, the chain is empty and the tree is left
  as it was. -/
  outside : ∀ s, d.span? = some s → s.contains offset = false → chainAt offset t = .ok [] t
  /-- Otherwise there is a chain exactly if no node on the way down has a fault. -/
  succeeds : d.Admits offset →
    ((∃ ids t', chainAt offset t = .ok ids t') ↔
      ∀ x ∈ d.descent offset [], ∃ cs, x.2.children = .ok cs)
  /-- A node on the way down that has a fault makes the question fail with it. -/
  fails : d.Admits offset → ∀ x ∈ d.descent offset [], ∀ f, x.2.children = .error f →
    ∃ t', chainAt offset t = .error (.fault f) t'
  /-- The chain is the way down, node by node and position by position. -/
  path : d.Admits offset → ∀ ids t', chainAt offset t = .ok ids t' →
    ids.map (fun j => (t'.node? j).map Node.source) =
        (d.descent offset []).map (fun x => some x.2) ∧
      ids.map t'.position = (d.descent offset []).map Prod.fst
  /-- Each node of the chain is the parent of the next. -/
  linked : ∀ ids t', chainAt offset t = .ok ids t' →
    ids.IsChain fun a b => ∃ m, t'.node? b = some m ∧ m.parent = some a
  /-- Only nodes on the way down are expanded, also if the question fails. -/
  expands : d.Admits offset → ∀ j,
    ((chainAt offset).after t).expansion j ≠ t.expansion j →
      ((chainAt offset).after t).position j ∈ (d.descent offset []).map Prod.fst
  /-- If all below the root can be walked, there is a chain in every tree over the document. -/
  total : (∃ below t', descendants root t = .ok below t') →
    ∀ t₂, Reachable d t₂ → ∃ ids t₃, chainAt offset t₂ = .ok ids t₃

end Tree

/-- **The chain under an offset is the way down to it**, in every reachable tree, whatever children
are remembered and wherever. -/
theorem Reachable.chainAt_refines {d : SyntaxNode} {t : Tree} (h : Reachable d t)
    (offset : UInt64) : t.ChainRefines d offset := by
  have harena := h.sound.arena
  refine ⟨fun s hs hout => Tree.chainAt_of_outside harena hs hout, ?_, ?_, ?_, ?_, ?_, ?_⟩
  · intro hin
    constructor
    · rintro ⟨ids, t', hrun⟩
      exact (Tree.stands_of_chainAt h.sound hin hrun).1
    · intro hall
      obtain ⟨ids, t', hrun, -⟩ := Tree.chainAt_of_expands h.sound hin hall
      exact ⟨ids, t', hrun⟩
  · intro hin x hx f hf
    exact Tree.chainAt_of_fault h.sound hin hx hf
  · intro hin ids t' hrun
    obtain ⟨-, h', hids⟩ := Tree.stands_of_chainAt h.sound hin hrun
    refine ⟨?_, (Tree.read_of_stands h'.arena hids).2⟩
    rw [Tree.map_source_of_stands h'.arena hids, List.map_map]
    refine List.map_congr_left fun x hx => ?_
    exact (SyntaxNode.of_mem_descent d.valueAt?_nil hx).1
  · intro ids t' hrun
    by_cases hin : d.Admits offset
    · obtain ⟨-, h', hids⟩ := Tree.stands_of_chainAt h.sound hin hrun
      exact Tree.isChain_parent h'.arena hids (d.isChain_descent offset [])
    · rw [Tree.chainAt_of_not_admits harena hin] at hrun
      cases hrun
      exact List.isChain_nil
  · intro hin j hj
    exact Tree.chainAt_expands h.sound hin hj
  · rintro ⟨below, t', hrun⟩ t₂ h₂
    obtain ⟨n, hn, rfl, -⟩ := harena.root
    obtain ⟨-, -, hfaultless⟩ := Tree.stands_of_descendants h.sound .root hn hrun
    exact Tree.exists_chainAt_of_faultless h₂.sound hfaultless offset

/-! ## A small document with a fault

The first statement lacks its parts; the second one is a name. -/

namespace Sample

def flawed : SyntaxNode :=
  .object [
    ("type", .string "Program"),
    ("body", .array [
      .object [
        ("type", .string "WithStatement"),
        ("range", .array [.number (.int 0), .number (.int 2)])],
      .object [
        ("type", .string "Identifier"),
        ("start", .number (.int 3)),
        ("end", .number (.int 4))]])]

/-- Under offset 3 there is a chain: the fault is not on the way down. -/
theorem chainAt_refines_flawed :
    Reachable flawed (Tree.ofDocument flawed) ∧
      (Tree.ofDocument flawed).ChainRefines flawed 3 ∧ flawed.Admits 3 ∧
      (∃ t', Tree.chainAt 3 (Tree.ofDocument flawed) = .ok [0, 2] t') ∧
      (∀ x ∈ flawed.descent 3 [], ∃ cs, x.2.children = .ok cs) ∧
      ∃ e t', Tree.descendants Tree.root (Tree.ofDocument flawed) = .error e t' := by
  have h : Reachable flawed (Tree.ofDocument flawed) := .refl
  have hchain := Reachable.chainAt_refines h 3
  have hin : flawed.Admits 3 := by
    intro s hs
    have hnone : flawed.span? = none := by decide +kernel
    rw [hnone] at hs
    cases hs
  obtain ⟨t', hrun⟩ : ∃ t', Tree.chainAt 3 (Tree.ofDocument flawed) = .ok [0, 2] t' :=
    ⟨_, by rfl⟩
  exact ⟨h, hchain, hin, ⟨t', hrun⟩, (hchain.succeeds hin).mp ⟨_, t', hrun⟩, _, _, by rfl⟩

end Sample

end LexicalScope
