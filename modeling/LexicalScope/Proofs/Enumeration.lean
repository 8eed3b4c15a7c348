import LexicalScope.Proofs.Ancestry
import LexicalScope.Proofs.Expansion

set_option autoImplicit false

/-! # All scopes, each exactly once

`Tree.allScopes` lists the scopes in the order of the nodes that introduce them. Some of them may
be open already, in any order, so that the numbers are those of a permutation. The list and what is
open then determine each other, since nothing but a node that introduces a scope opens one, and it
opens only one.

* `scopes_perm`: after the question, the open scopes are those of the list.
* `numbers_of_collectScopes`: scopes that the question opens are numbered in the order of the list.
* `allScopes_remembered`: asked again, it gives the same list and changes nothing.
* `outwards_answers`: the way from a scope outwards, step by step.
* `Reachable.allScopes_enumerates`: all of this in any reachable tree.
-/

namespace LexicalScope

open Query

/-! ## The scopes around a position -/

namespace SyntaxNode

variable {d : SyntaxNode}

/-- The positions of the scopes around a position, innermost first. -/
def outwards (d : SyntaxNode) (p : Position) : List Position := p.above.filter d.introduces

/-- A position introduces a scope, or has the same enclosing scopes as its parent. -/
theorem filter_introduces_above (d : SyntaxNode) (p : Position) :
    (p :: p.above).filter d.introduces =
      (d.enclosing? p).elim [] fun q => q :: d.outwards q := by
  induction p with
  | nil =>
      by_cases hi : d.introduces [] = true
      · rw [List.filter_cons_of_pos hi, enclosing?_of_introduces hi]
        rfl
      · rw [List.filter_cons_of_neg hi, enclosing?, if_neg hi]
        rfl
  | cons s p ih =>
      by_cases hi : d.introduces (s :: p) = true
      · rw [List.filter_cons_of_pos hi, enclosing?_of_introduces hi]
        rfl
      · rw [List.filter_cons_of_neg hi, enclosing?_cons_of_not (by simpa using hi)]
        exact ih

/-- **The way outwards goes through the scope around.** -/
theorem outwards_eq (d : SyntaxNode) (p : Position) :
    d.outwards p = (d.outer? p).elim [] fun q => q :: d.outwards q := by
  cases p with
  | nil => rfl
  | cons s p => exact d.filter_introduces_above p

theorem mem_outwards_preorder {p q : Position} (hp : p ∈ d.preorder []) (hq : q ∈ d.outwards p) :
    q ∈ (d.preorder []).filter d.introduces := by
  obtain ⟨habove, hintro⟩ := List.mem_filter.mp hq
  have hsuf := (Position.mem_above.mp habove).1
  exact List.mem_filter.mpr ⟨mem_preorder_of_suffix hp hsuf, hintro⟩

/-- The outermost scope is that of the root. -/
theorem getLast?_outwards (hroot : d.introduces [] = true) (p : Position) :
    (p :: d.outwards p).getLast? = some [] := by
  induction p with
  | nil => rfl
  | cons s p ih =>
      rw [List.getLast?_cons, Option.some_inj] at ih ⊢
      by_cases hi : d.introduces p = true
      · rw [outwards, Position.above, List.filter_cons_of_pos hi, List.getLast?_cons]
        exact ih
      · -- the parent is not the root, so there is a scope around it
        rw [outwards, Position.above, List.filter_cons_of_neg hi]
        cases hlast : ((Position.above p).filter d.introduces).getLast? with
        | some q =>
            rw [outwards, hlast] at ih
            exact ih
        | none =>
            rw [outwards, hlast] at ih
            obtain rfl : p = [] := ih
            exact absurd hroot hi

end SyntaxNode

namespace Tree

variable {d : SyntaxNode} {t t' : Tree}

/-! ## The list and the table -/

/-- The node that introduces a scope. -/
def introducer? (t : Tree) (s : ScopeId) : Option NodeId := (t.scope? s).map Scope.node

theorem introducer?_of_stands {s : ScopeId} {i : NodeId} {p : Position} (hs : t.ScopeStands s p)
    (hi : t.Stands i p) : t.introducer? s = some i := by
  obtain ⟨r, hr, hp⟩ := hs
  rw [introducer?, hr, Option.map_some, hp.inj hi]

/-- Scopes and nodes at the same positions: the nodes introduce the scopes. -/
theorem map_introducer?_of_stands {scopes : List ScopeId} {ids : List NodeId}
    {ps : List Position} (hs : List.Forall₂ t.ScopeStands scopes ps)
    (hids : List.Forall₂ t.Stands ids ps) : scopes.map t.introducer? = ids.map some := by
  induction hs generalizing ids with
  | nil =>
      cases hids
      rfl
  | cons hs _ ih =>
      cases hids with
      | cons hi hids => rw [List.map_cons, List.map_cons, introducer?_of_stands hs hi, ih hids]

/-- The nodes among those listed that introduce a scope. -/
theorem filter_introducesAt_of_stands (h : t.Mirrors d) {ids : List NodeId}
    {ps : List Position} (hids : List.Forall₂ t.Stands ids ps) :
    List.Forall₂ t.Stands (ids.filter t.introducesAt) (ps.filter d.introduces) :=
  List.rel_filter (fun _ _ hi => iff_of_eq (by simp only [introducesAt_of_stands h hi])) hids

/-- **If all scopes of the document are listed, then all open ones are**, each exactly once. -/
theorem scopes_perm (h : t.Sound d) {scopes : List ScopeId}
    (hs : List.Forall₂ t.ScopeStands scopes ((d.preorder []).filter d.introduces)) :
    scopes.Nodup ∧ scopes.Perm (List.range t.scopeCount) := by
  obtain ⟨hvalid, hpos⟩ := read_of_scopeStands h.arena hs
  have hnodup : scopes.Nodup := by
    refine .of_map t.scopePosition ?_
    rw [hpos]
    exact (d.nodup_preorder []).filter _
  have hsub : scopes ⊆ List.range t.scopeCount := fun s hs => List.mem_range.mpr (hvalid s hs)
  refine ⟨hnodup, (hnodup.subperm hsub).perm_of_length_le ?_⟩
  rw [List.length_range, hs.length_eq]
  exact h.scopes.scopeCount_le_scopes h.arena

/-! ## The numbers that are given out -/

/-- **The listed scopes from number `first` on are all the open ones from there on, in order.** -/
def OpenedFrom (t : Tree) (first : Nat) (scopes : List ScopeId) : Prop :=
  first ≤ t.scopeCount ∧
    scopes.filter (first ≤ ·) = List.range' first (t.scopeCount - first)

theorem OpenedFrom.of_scopes_eq {first : Nat} {scopes : List ScopeId}
    (h : t.OpenedFrom first scopes) (heq : t'.scopes = t.scopes) :
    t'.OpenedFrom first scopes := by
  have hcount : t'.scopeCount = t.scopeCount := congrArg Array.size heq
  rw [OpenedFrom, hcount]
  exact h

/-- A scope that was open before the first number is not counted. -/
theorem OpenedFrom.known {first s : Nat} {scopes : List ScopeId}
    (h : t.OpenedFrom first scopes) (hs : s < t.scopeCount) (hnew : s ∉ scopes) :
    t.OpenedFrom first (scopes ++ [s]) := by
  obtain ⟨hle, hlist⟩ := h
  have hlt : ¬ first ≤ s := by
    intro hfirst
    refine hnew (List.mem_of_mem_filter (p := (first ≤ ·)) ?_)
    rw [hlist, List.mem_range'_1]
    omega
  refine ⟨hle, ?_⟩
  rw [List.filter_append, hlist, List.filter_cons_of_neg (by simpa using hlt), List.filter_nil,
    List.append_nil]

/-- A scope that is opened gets the next number. -/
theorem OpenedFrom.opened {first : Nat} {scopes : List ScopeId} {r : Scope}
    (h : t.OpenedFrom first scopes) (heq : t'.scopes = t.scopes.push r) :
    t'.OpenedFrom first (scopes ++ [t.scopeCount]) := by
  obtain ⟨hle, hlist⟩ := h
  have hcount : t'.scopeCount = t.scopeCount + 1 := by
    rw [scopeCount, heq, Array.size_push]
    rfl
  refine ⟨by omega, ?_⟩
  rw [List.filter_append, hlist, List.filter_cons_of_pos (by simpa using hle), List.filter_nil,
    hcount, Nat.sub_add_comm hle, List.range'_1_concat, Nat.add_sub_cancel' hle]

/-- The step: asking a node for the scope that it introduces. -/
theorem OpenedFrom.scopeOf (h : t.Sound d) {first : Nat} {scopes : List ScopeId}
    (hlist : t.OpenedFrom first scopes) {x : NodeId} {p : Position} (hx : t.Stands x p)
    (hintro : d.introduces p = true) {s : ScopeId} (hrun : Tree.scopeOf x t = .ok s t')
    (hnew : s ∉ scopes) : t'.OpenedFrom first (scopes ++ [s]) := by
  obtain ⟨j, hj, hresolves⟩ := resolves_of_scopeOf h hrun
  have hself := (introducesAt_of_stands h.arena hx).trans hintro
  rw [nearestScope?, List.find?_cons_of_pos hself, Option.some_inj] at hj
  subst hj
  obtain ⟨n, hn, hp⟩ := hx.exists_node h.arena
  cases hscope : n.scope with
  | some s₀ =>
      have hs₀ : t.HasScope x s₀ := ⟨n, hn, hscope⟩
      obtain ⟨rfl, hsame⟩ := hresolves.known s₀ hs₀
      obtain ⟨q, -, hq⟩ := hs₀.scopeOf h hx
      exact (hlist.known hq.lt_scopeCount hnew).of_scopes_eq hsame
  | none =>
      obtain ⟨m, k, hm, hk, -⟩ := SyntaxNode.introduces_eq_true.mp hintro
      rw [hp] at hm
      cases hm
      obtain ⟨rfl, hpush⟩ := hresolves.opened n k hn ((h.arena.kind hn).trans hk) hscope
      exact hlist.opened hpush

/-- **Scopes are opened in the order of the list**: the run over all nodes of a list. -/
theorem numbers_of_collectScopes (h : t.Sound d) {first : Nat} {ids : List NodeId}
    {ps : List Position} (hids : List.Forall₂ t.Stands ids ps) {acc : Array ScopeId}
    {qs : List Position} (hacc : List.Forall₂ t.ScopeStands acc.toList qs)
    (hnodup : (qs ++ ps).Nodup) (hlist : t.OpenedFrom first acc.toList) {scopes : Array ScopeId}
    (hrun : collectScopes ids acc t = .ok scopes t') : t'.OpenedFrom first scopes.toList := by
  induction ids generalizing t ps acc qs with
  | nil =>
      cases hrun
      exact hlist
  | cons x ids ih =>
      cases hids with
      | @cons _ p _ ps hx hids =>
          cases hintro : d.introduces p with
          | false =>
              rw [collectScopes_other h.arena hx hintro] at hrun
              refine ih h hids hacc ?_ hlist hrun
              exact hnodup.sublist ((List.sublist_cons_self p ps).append_left qs)
          | true =>
              obtain ⟨s, u, hs, hmoves, hstands⟩ := scopeOf_introducer h hx hintro
              rw [collectScopes_introducer h.arena hx hintro hs] at hrun
              -- a scope of the list stands at an earlier position
              have hnew : s ∉ acc.toList := by
                intro hmem
                obtain ⟨q, hq, hsq⟩ := exists_of_mem_left hacc hmem
                rw [hstands.unique (h.moves hmoves).arena (hsq.extend hmoves.extends)] at hnodup
                exact (List.nodup_append.mp hnodup).2.2 q hq q List.mem_cons_self rfl
              have hlist' := hlist.scopeOf h hx hintro hs hnew
              rw [← Array.toList_push] at hlist'
              have hacc' : List.Forall₂ u.ScopeStands (acc.push s).toList (qs ++ [p]) := by
                rw [Array.toList_push]
                exact List.rel_append (hacc.imp fun _ _ hj => hj.extend hmoves.extends)
                  (.cons hstands .nil)
              refine ih (h.moves hmoves) (hids.imp fun _ _ hi => hi.extend hmoves.extends) hacc' ?_
                hlist' hrun
              rwa [List.append_assoc, List.singleton_append]

/-! ## Asked again -/

theorem ScopeStands.hasScope (h : t.Scoped d) {s : ScopeId} {i : NodeId} {p : Position}
    (hs : t.ScopeStands s p) (hi : t.Stands i p) : t.HasScope i s := by
  obtain ⟨r, hr, hp⟩ := hs
  obtain ⟨-, n, hn, -, hscope⟩ := h.record hr
  rw [← hp.inj hi]
  exact ⟨n, hn, hscope⟩

/-- A scope that is remembered is given without any change. -/
theorem scopeOf_of_hasScope {i : NodeId} {s : ScopeId} (h : t.HasScope i s) :
    scopeOf i t = .ok s t := by
  obtain ⟨n, hn, hs⟩ := h
  have hclimb : t.climb (i + 1) i [] = .ok (.known s, []) := by
    simp only [climb, hn, hs]
  rw [scopeOf_of_climb_ok hclimb]
  rfl

/-- Scopes that are all open are collected without any change. -/
theorem collectScopes_of_open (h : t.Sound d) {ids : List NodeId} {ps : List Position}
    (hids : List.Forall₂ t.Stands ids ps) {scopes : List ScopeId}
    (hs : List.Forall₂ t.ScopeStands scopes (ps.filter d.introduces)) (acc : Array ScopeId) :
    collectScopes ids acc t = .ok (acc ++ scopes.toArray) t := by
  induction hids generalizing scopes acc with
  | nil =>
      cases hs
      rw [Array.append_empty]
      rfl
  | @cons x p ids ps hx _ ih =>
      cases hintro : d.introduces p with
      | false =>
          rw [List.filter_cons_of_neg (by simp [hintro])] at hs
          rw [collectScopes_other h.arena hx hintro]
          exact ih hs acc
      | true =>
          rw [List.filter_cons_of_pos hintro] at hs
          cases hs with
          | @cons s _ rest _ hs hrest =>
              have hrun := scopeOf_of_hasScope (hs.hasScope h.scopes hx)
              rw [collectScopes_introducer h.arena hx hintro hrun, ih hrest (acc.push s)]
              simp

/-- **All scopes are listed without any change** once they are open and all nodes are known. -/
theorem allScopes_remembered (h : t.Sound d) (hroot : d.introduces [] = true)
    {below : List NodeId} (hbelow : t.knownBelow root = some below)
    (hids : List.Forall₂ t.Stands (root :: below) (d.preorder [])) {scopes : List ScopeId}
    (hs : List.Forall₂ t.ScopeStands scopes ((d.preorder []).filter d.introduces)) :
    allScopes t = .ok scopes t := by
  rw [SyntaxNode.filter_introduces_preorder hroot] at hs
  rw [← d.cons_tail_preorder []] at hids
  cases hids with
  | cons hi hids =>
      cases hs with
      | cons hs hrest =>
          rw [allScopes, bind_of_ok (scopeOf_of_hasScope (hs.hasScope h.scopes hi)),
            bind_of_ok (descendants_of_knownBelow hbelow),
            bind_of_ok (collectScopes_of_open h hids hrest _)]
          simp
          rfl

/-! ## Outwards -/

/-- **The scope that is reached from a scope in a number of steps outwards**, if it lies so deep. -/
def outwards : Nat → ScopeId → Query (Option ScopeId)
  | 0, s => return some s
  | steps + 1, s => do
    match ← outerScope s with
    | none => return none
    | some outer => outwards steps outer

/-- **The way outwards answers as the document says**, and never fails. -/
theorem outwards_answers (h : t.Sound d) (hroot : d.introduces [] = true) {s : ScopeId}
    {p : Position} (hs : t.ScopeStands s p) (steps : Nat) :
    (outwards steps s).Answers d t (.ok (p :: d.outwards p)[steps]?)
      fun t' => Option.Rel t'.ScopeStands := by
  induction steps generalizing t s p with
  | zero => exact .pure (.some hs)
  | succ steps ih =>
      have hp : p ∈ d.preorder [] := by
        obtain ⟨r, -, hp⟩ := hs
        exact hp.mem_preorder h.arena
      obtain ⟨o, t', hrun, hmoves, hrel⟩ := (outerScope_answers h hs).exists_of_ok
        (SyntaxNode.outerScope_of_mem_preorder hroot hp)
      rw [outwards, List.getElem?_cons_succ, d.outwards_eq p]
      refine .bind_ok hrun hmoves ?_
      generalize d.outer? p = outer at hrel ⊢
      cases hrel with
      | none => exact .pure .none
      | some hs' => exact ih (h.moves hmoves) hs'

/-- Scopes that are open at all positions of a list. -/
theorem exists_scopes {qs : List Position} (hqs : ∀ q ∈ qs, ∃ s, t.ScopeStands s q) :
    ∃ outer, List.Forall₂ t.ScopeStands outer qs := by
  choose! scopeAt hscope using hqs
  refine ⟨qs.map scopeAt, ?_⟩
  rw [List.forall₂_map_left_iff, List.forall₂_same]
  exact hscope

/-- A scope, or none, that stands at a place of the list is the one listed there. -/
theorem eq_getElem?_of_scopeStands (h : t.Scoped d) {scopes : List ScopeId} {ps : List Position}
    (hs : List.Forall₂ t.ScopeStands scopes ps) {k : Nat} {o : Option ScopeId}
    (ho : Option.Rel t.ScopeStands o ps[k]?) : o = scopes[k]? := by
  induction hs generalizing k with
  | nil =>
      cases ho
      rfl
  | cons hs _ ih =>
      cases k with
      | zero =>
          cases ho with
          | some hs' => rw [hs'.inj h hs, List.getElem?_cons_zero]
      | succ k => exact ih ho

/-- The last scope on the way outwards is that of the root. -/
theorem exists_outermost (hroot : d.introduces [] = true) {s : ScopeId} {p : Position}
    {outer : List ScopeId} (h : List.Forall₂ t.ScopeStands (s :: outer) (p :: d.outwards p)) :
    ∃ s₀, t.ScopeStands s₀ [] ∧ (s :: outer)[outer.length]? = some s₀ := by
  obtain ⟨inner, hsplit⟩ := List.getLast?_eq_some_iff.mp (d.getLast?_outwards hroot p)
  rw [hsplit] at h
  obtain ⟨front, back, heq, -, hback⟩ := append_of_forall₂ h.flip
  cases hback with
  | @cons _ s₀ _ _ hs₀ hnil =>
      cases hnil
      have hlen : outer.length = front.length := by simpa using congrArg List.length heq
      exact ⟨s₀, hs₀, by rw [heq, hlen, List.getElem?_concat_length]⟩

/-- **The way outwards from a scope**, then or later, leads through the listed scopes. -/
structure LeadsOut (t : Tree) (s : ScopeId) (outer : List ScopeId) : Prop where
  /-- They are the scopes of the nodes that introduce one, of those above its own. -/
  nodes : ∃ i, t.introducer? s = some i ∧
    outer.map t.introducer? = ((t.ancestors i).filter t.introducesAt).map some
  distinct : (s :: outer).Nodup
  /-- The steps do not fail, and give these scopes one after the other. -/
  steps : ∀ u, t.LeadsTo u → ∀ k, ∃ u', Tree.outwards k s u = .ok (s :: outer)[k]? u'
  /-- The last of them is the scope of the root, and there is none after it. -/
  ends : ∀ u, t.LeadsTo u → ∃ s₀, scopeOf root u = .ok s₀ u ∧
    (∃ u', Tree.outwards outer.length s u = .ok (some s₀) u') ∧
    ∃ u', Tree.outwards (outer.length + 1) s u = .ok none u'

theorem leadsOut_of_stands (h : t.Sound d) (hroot : d.introduces [] = true) {s : ScopeId}
    {p : Position} (hs : t.ScopeStands s p) {outer : List ScopeId}
    (houter : List.Forall₂ t.ScopeStands outer (d.outwards p)) : t.LeadsOut s outer := by
  have hall : List.Forall₂ t.ScopeStands (s :: outer) (p :: d.outwards p) := .cons hs houter
  have hsteps : ∀ u, t.LeadsTo u → ∀ k, ∃ u', Tree.outwards k s u = .ok (s :: outer)[k]? u' := by
    intro u hlater k
    have hmoves := hlater.moves h
    obtain ⟨o, u', hrun, hmoves', ho⟩ :=
      outwards_answers (h.moves hmoves) hroot (hs.extend hmoves.extends) k
    have hx := hmoves.extends.trans hmoves'.extends
    have heq := eq_getElem?_of_scopeStands ((h.moves hmoves).moves hmoves').scopes
      (hall.imp fun _ _ hj => hj.extend hx) ho
    exact ⟨u', heq ▸ hrun⟩
  obtain ⟨r, hr, hp⟩ := hs
  obtain ⟨n, hn, -⟩ := hp.exists_node h.arena
  have hnodes := map_introducer?_of_stands houter
    (filter_introducesAt_of_stands h.arena (hp.ancestors h.arena))
  have hself : t.introducer? s = some r.node := introducer?_of_stands ⟨r, hr, hp⟩ hp
  refine ⟨⟨r.node, hself, hnodes⟩, ?_, hsteps, ?_⟩
  · -- their nodes have falling numbers
    refine .of_map t.introducer? ?_
    rw [List.map_cons, hself, hnodes, ← List.map_cons]
    have hfall := List.isChain_iff_pairwise.mp (h.arena.isChain_ancestors hn)
    have hnodup : (r.node :: t.ancestors r.node).Nodup := hfall.imp fun hgt => Nat.ne_of_gt hgt
    have hsub : ((t.ancestors r.node).filter t.introducesAt).Sublist (t.ancestors r.node) :=
      List.filter_sublist
    exact (hnodup.sublist (hsub.cons_cons r.node)).map (Option.some_injective _)
  · intro u hlater
    obtain ⟨s₀, hs₀, hlast⟩ := exists_outermost hroot hall
    have hx := (hlater.moves h).extends
    obtain ⟨u₁, hrun₁⟩ := hsteps u hlater outer.length
    obtain ⟨u₂, hrun₂⟩ := hsteps u hlater (outer.length + 1)
    rw [hlast] at hrun₁
    rw [List.getElem?_eq_none (by rw [List.length_cons])] at hrun₂
    exact ⟨s₀, scopeOf_of_hasScope ((hs₀.hasScope h.scopes .root).extend hx), ⟨u₁, hrun₁⟩,
      u₂, hrun₂⟩

/-! ## The question for all scopes -/

/-- The list stands at the positions that introduce a scope; the root is one of them. -/
theorem stands_of_allScopes (h : t.Sound d) {scopes : List ScopeId}
    (hrun : allScopes t = .ok scopes t') :
    t.Moves d t' ∧ d.introduces [] = true ∧
      List.Forall₂ t'.ScopeStands scopes ((d.preorder []).filter d.introduces) := by
  cases hr : d.allScopes with
  | error f =>
      obtain ⟨u, hrun', -⟩ := (allScopes_answers h).exists_of_error hr
      rw [hrun] at hrun'
      cases hrun'
  | ok ps =>
      obtain ⟨scopes', u, hrun', hmoves, hscopes⟩ := (allScopes_answers h).exists_of_ok hr
      rw [hrun] at hrun'
      cases hrun'
      obtain ⟨hroot, -, rfl⟩ := SyntaxNode.faultless_of_allScopes hr
      exact ⟨hmoves, hroot, hscopes⟩

/-- The question in its three parts: the scope of the root, the walk below it, and the scopes that
are introduced there. -/
theorem allScopes_eq_ok {scopes : List ScopeId} (hrun : allScopes t = .ok scopes t') :
    ∃ s₀ t₁ below t₂ collected, scopeOf root t = .ok s₀ t₁ ∧
      descendants root t₁ = .ok below t₂ ∧ collectScopes below #[s₀] t₂ = .ok collected t' ∧
      scopes = collected.toList := by
  obtain ⟨s₀, t₁, hfirst, hrun⟩ := bind_eq_ok hrun
  obtain ⟨below, t₂, hwalk, hrun⟩ := bind_eq_ok hrun
  obtain ⟨collected, t₃, hcollect, hrun⟩ := bind_eq_ok hrun
  cases hrun
  exact ⟨s₀, t₁, below, t₂, collected, hfirst, hwalk, hcollect, rfl⟩

/-- The walk that the question has made is remembered, and the scopes that it has opened are
numbered in order. -/
theorem openedFrom_of_allScopes (h : t.Sound d) (hroot : d.introduces [] = true)
    {scopes : List ScopeId} (hrun : allScopes t = .ok scopes t') :
    t'.OpenedFrom t.scopeCount scopes ∧ ∃ below, t'.knownBelow root = some below ∧
      List.Forall₂ t'.Stands (root :: below) (d.preorder []) := by
  obtain ⟨s₀, t₁, below, t₂, collected, hfirst, hwalk, hcollect, rfl⟩ := allScopes_eq_ok hrun
  obtain ⟨s, u, hrun', hmoves₁, hs₀⟩ := scopeOf_introducer h .root hroot
  rw [hfirst] at hrun'
  cases hrun'
  have h₁ := h.moves hmoves₁
  have hopened₁ : t₁.OpenedFrom t.scopeCount [s₀] := by
    have hnone : t.OpenedFrom t.scopeCount [] := ⟨le_rfl, by simp⟩
    exact hnone.scopeOf h .root hroot hfirst List.not_mem_nil
  -- the walk leaves the scopes alone
  have hsame : t₂.scopes = t₁.scopes := by
    have hview := descendants_keeps_scopeView root t₁
    rw [after_of_ok hwalk] at hview
    exact congrArg Prod.fst hview
  obtain ⟨n, hn, -⟩ := h₁.arena.root
  obtain ⟨hmoves₂, hbelow, -⟩ := stands_of_descendants h₁ .root hn hwalk
  rw [d.preorderAt_nil] at hbelow
  have h₂ := h₁.moves hmoves₂
  have hacc : List.Forall₂ t₂.ScopeStands (#[s₀] : Array ScopeId).toList [[]] :=
    .cons (hs₀.extend hmoves₂.extends) .nil
  have hnodup := d.nodup_preorder []
  rw [← d.cons_tail_preorder []] at hnodup
  obtain ⟨collected', u, hrun', hmoves₃, -⟩ := collectScopes_answers h₂ hbelow hacc
  rw [hcollect] at hrun'
  cases hrun'
  refine ⟨numbers_of_collectScopes h₂ hbelow hacc hnodup (hopened₁.of_scopes_eq hsame) hcollect,
    below, hmoves₃.extends.knownBelow (knownBelow_of_descendants h₁ .root hwalk), ?_⟩
  rw [← d.cons_tail_preorder []]
  exact .cons .root (hbelow.imp fun _ _ hi => hi.extend hmoves₃.extends)

/-- **All scopes are listed, each exactly once, with a sound way outwards.** The tree `t'` is the
one that the question leaves, asked of `t`. -/
structure Enumerates (d : SyntaxNode) (t : Tree) (scopes : List ScopeId) (t' : Tree) : Prop where
  /-- Their nodes are those that introduce a scope, among the root and all that is below it, in
  pre-order. -/
  nodes : ∃ below, descendants root t' = .ok below t' ∧
    scopes.map t'.introducer? = ((root :: below).filter t'.introducesAt).map some
  distinct : scopes.Nodup
  /-- Together they are all scopes that are open. -/
  all : scopes.Perm (List.range t'.scopeCount)
  /-- The scopes that the question opens are numbered in the order of the list. -/
  opened : scopes.filter (t.scopeCount ≤ ·) =
    List.range' t.scopeCount (t'.scopeCount - t.scopeCount)
  /-- In a tree in which nothing has been asked, these are all. -/
  fresh : t = ofDocument d → scopes = List.range t'.scopeCount
  /-- Asked again, then or later, the question gives the same list and changes nothing. -/
  again : ∀ u, t'.LeadsTo u → allScopes u = .ok scopes u
  outwards : ∀ s ∈ scopes, ∃ outer, t'.LeadsOut s outer

end Tree

/-- **The question for all scopes lists each of them exactly once**, in every reachable tree,
whichever scopes have been opened before and in whatever order. -/
theorem Reachable.allScopes_enumerates {d : SyntaxNode} {t : Tree} (h : Reachable d t)
    {scopes : List ScopeId} {t' : Tree} (hrun : Tree.allScopes t = .ok scopes t') :
    Tree.Enumerates d t scopes t' := by
  obtain ⟨hmoves, hroot, hscopes⟩ := Tree.stands_of_allScopes h.sound hrun
  obtain ⟨hopened, below, hknown, hids⟩ := Tree.openedFrom_of_allScopes h.sound hroot hrun
  have h' := h.sound.moves hmoves
  obtain ⟨hnodup, hperm⟩ := Tree.scopes_perm h' hscopes
  refine ⟨⟨below, Tree.descendants_of_knownBelow hknown, ?_⟩, hnodup, hperm, hopened.2, ?_, ?_, ?_⟩
  · exact Tree.map_introducer?_of_stands hscopes (Tree.filter_introducesAt_of_stands h'.arena hids)
  · rintro rfl
    have hzero : (Tree.ofDocument d).scopeCount = 0 := rfl
    have hall := hopened.2
    rwa [hzero, List.filter_eq_self.mpr (by simp), Nat.sub_zero, ← List.range_eq_range'] at hall
  · intro u hlater
    have hmoves' := hlater.moves h'
    have hx := hmoves'.extends
    exact Tree.allScopes_remembered (h'.moves hmoves') hroot (hx.knownBelow hknown)
      (hids.imp fun _ _ hi => hi.extend hx) (hscopes.imp fun _ _ hs => hs.extend hx)
  · intro s hs
    obtain ⟨p, hp, hsp⟩ := exists_of_mem_left hscopes hs
    -- the scopes around it are listed too
    have hopen : ∀ q ∈ d.outwards p, ∃ s, t'.ScopeStands s q := by
      intro q hq
      have hmem := SyntaxNode.mem_outwards_preorder (List.mem_of_mem_filter hp) hq
      obtain ⟨s', -, hs'⟩ := exists_of_mem_right hscopes hmem
      exact ⟨s', hs'⟩
    obtain ⟨outer, houter⟩ := Tree.exists_scopes hopen
    exact ⟨outer, Tree.leadsOut_of_stands h' hroot hsp houter⟩

namespace Sample

/-- The tree in which the scope of the function has been opened before that of the program. -/
def inverted : Tree := (Question.scopeOf 2).after walked

theorem reachable_inverted : Reachable program inverted :=
  .ask _ reachable_walked (by decide +kernel)

/-- The scope of the program comes first in the list, although it has the last number. -/
theorem allScopes_enumerates_inverted :
    Reachable program inverted ∧ ∃ t', Tree.allScopes inverted = .ok [1, 0] t' ∧
      Tree.Enumerates program inverted [1, 0] t' ∧ t'.introducer? 0 = some 2 ∧
      ∃ outer, t'.LeadsOut 0 outer := by
  have hlist : (match Tree.allScopes inverted with
      | .ok scopes t' => (scopes, t'.introducer? 0)
      | .error _ _ => ([], none)) = ([1, 0], some 2) := by decide +kernel
  cases hrun : Tree.allScopes inverted with
  | error e t' => rw [hrun] at hlist; cases hlist
  | ok scopes t' =>
      rw [hrun, Prod.mk.injEq] at hlist
      obtain ⟨rfl, hnode⟩ := hlist
      have henum := Reachable.allScopes_enumerates reachable_inverted hrun
      exact ⟨reachable_inverted, t', rfl, henum, hnode, henum.outwards 0 (by decide)⟩

end Sample

end LexicalScope
