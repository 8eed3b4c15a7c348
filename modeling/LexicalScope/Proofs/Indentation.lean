import LexicalScope.Proofs.Attribution
import LexicalScope.Proofs.Closure
import LexicalScope.Proofs.DirectReport
import LexicalScope.Proofs.TreeListing
import Mathlib.Data.List.Chain

set_option autoImplicit false

/-! # Indentation shows nesting

Both listings are in pre-order and indented by depth. The depth of a node was written down when it
was wrapped; the depth of a scope is looked up in the summaries before its own. In both listings
an entry is inside the nearest one before it that is indented one level less, so the links between
the entries can be read off the indentation.

* `Nests.indented`: what follows for any list in which entries nest in this way.
* `SyntaxNode.nests_of_sublist`: positions in pre-order nest.
* `Tree.nests_of_summarized`: so do the summaries of all scopes, with the depths looked up.
* `Reachable.indentation_nests`: the nodes and the scopes of any reachable tree.
-/

namespace LexicalScope

open Query

/-! ## Links from depths -/

section Links

variable {ε α β : Type} {label : ε → α} {depth : ε → Nat} {parent : ε → Option α} {xs : List ε}

/-- The nearest entry with a depth one less, where the nearest comes first. -/
def nearestOuter? (before : List (α × Nat)) (depth : Nat) : Option α :=
  (before.find? fun e => e.2 + 1 == depth).map Prod.fst

/-- The links of further entries, after those before, nearest first. -/
def linksAfter (before : List (α × Nat)) : List (α × Nat) → List (Option α)
  | [] => []
  | e :: rest => nearestOuter? before e.2 :: linksAfter (e :: before) rest

/-- **The links between entries, read off their depths**: each is inside the nearest one before
with a depth one less. -/
def linksOf (entries : List (α × Nat)) : List (Option α) := linksAfter [] entries

/-- **A list that is indented as its entries nest.** -/
structure Indented (label : ε → α) (depth : ε → Nat) (parent : ε → Option α) (xs : List ε) :
    Prop where
  /-- The first entry is not indented, and in no other. -/
  first : ∃ x rest, xs = x :: rest ∧ depth x = 0 ∧ parent x = none
  /-- Every later one is indented, at most one level more than the one before. -/
  steps : (xs.map depth).IsChain fun a b => 1 ≤ b ∧ b ≤ a + 1
  /-- Every later one is inside the nearest one before that is indented one level less. -/
  nearest : ∀ before x after, xs = before ++ x :: after → before ≠ [] →
    ∃ earlier y between, before = earlier ++ y :: between ∧ parent x = some (label y) ∧
      depth y + 1 = depth x ∧ ∀ z ∈ between, depth z + 1 ≠ depth x
  /-- The links can be read off the depths. -/
  links : xs.map parent = linksOf (xs.map fun x => (label x, depth x))

/-- **Entries that nest**: the first is in no other, and every later one is one level inside one
before, and so is all that comes between the two. -/
def Nests (label : ε → α) (depth : ε → Nat) (parent : ε → Option α) (xs : List ε) : Prop :=
  ∀ before x after, xs = before ++ x :: after →
    (before = [] ∧ parent x = none ∧ depth x = 0) ∨
    ∃ earlier y between, before = earlier ++ y :: between ∧ parent x = some (label y) ∧
      depth x = depth y + 1 ∧ ∀ z ∈ between, depth y < depth z

namespace Nests

/-- An entry is indented at most one level more than the one before. -/
theorem steps (h : Nests label depth parent xs) :
    (xs.map depth).IsChain fun a b => 1 ≤ b ∧ b ≤ a + 1 := by
  rw [List.isChain_map, List.isChain_iff_forall_rel_of_append_cons_cons]
  intro a b l₁ l₂ hsplit
  rcases h (l₁ ++ [a]) b l₂ (by simp [hsplit]) with ⟨hnil, -⟩ |
    ⟨earlier, y, between, heq, -, hdepth, hbetween⟩
  · simp at hnil
  · -- the entry before is the one around, or comes after it
    have hlast : a ∈ y :: between := by
      have hmem := congrArg List.getLast? heq
      rw [List.getLast?_concat, List.getLast?_append_of_ne_nil _ (List.cons_ne_nil y between)]
        at hmem
      exact List.mem_of_getLast? hmem.symm
    rcases List.mem_cons.mp hlast with rfl | ha
    · omega
    · have := hbetween a ha
      omega

theorem nearestOuter?_eq {before after : List ε} {x : ε}
    (h : Nests label depth parent (before ++ x :: after)) :
    nearestOuter? (before.reverse.map fun z => (label z, depth z)) (depth x) = parent x := by
  rw [nearestOuter?]
  rcases h before x after rfl with ⟨rfl, hparent, -⟩ |
    ⟨earlier, y, between, rfl, hparent, hdepth, hbetween⟩
  · rw [hparent]
    rfl
  · have hskip : (between.reverse.map fun z => (label z, depth z)).find?
        (fun e => e.2 + 1 == depth x) = none := by
      rw [List.find?_eq_none, List.forall_mem_map]
      intro z hz
      have := hbetween z (List.mem_reverse.mp hz)
      simp only [beq_iff_eq]
      omega
    rw [List.reverse_append, List.reverse_cons, List.append_assoc, List.map_append,
      List.find?_append, hskip, Option.none_or, List.singleton_append, List.map_cons, hparent,
      hdepth]
    simp

theorem linksAfter_eq (before rest : List ε) (h : Nests label depth parent (before ++ rest)) :
    linksAfter (before.reverse.map fun z => (label z, depth z))
      (rest.map fun z => (label z, depth z)) = rest.map parent := by
  induction rest generalizing before with
  | nil => rfl
  | cons x rest ih =>
      -- what comes before is kept in reverse, so that the nearest is found first
      have hrest := ih (before ++ [x]) (by simpa using h)
      rw [List.reverse_concat, List.map_cons] at hrest
      rw [List.map_cons, List.map_cons, linksAfter, h.nearestOuter?_eq, hrest]

/-- **A list of entries that nest is indented as they do.** -/
theorem indented (h : Nests label depth parent xs) (hne : xs ≠ []) :
    Indented label depth parent xs where
  first := by
    obtain ⟨x, rest, rfl⟩ := List.exists_cons_of_ne_nil hne
    rcases h [] x rest rfl with ⟨-, hparent, hdepth⟩ | ⟨earlier, y, between, heq, -⟩
    · exact ⟨x, rest, rfl, hdepth, hparent⟩
    · simp at heq
  steps := h.steps
  nearest := by
    intro before x after hsplit hbefore
    rcases h before x after hsplit with ⟨hnil, -⟩ |
      ⟨earlier, y, between, heq, hparent, hdepth, hbetween⟩
    · exact absurd hnil hbefore
    · refine ⟨earlier, y, between, heq, hparent, hdepth.symm, fun z hz => ?_⟩
      have := hbetween z hz
      omega
  links := (linksAfter_eq [] xs h).symm

/-- Entries nest as the positions at which they stand. -/
theorem of_forall₂ {R : ε → β → Prop} {ps : List β} {depth' : β → Nat} {up : β → Option β}
    (h : Nests id depth' up ps) (hR : List.Forall₂ R xs ps)
    (hdepth : ∀ {x p}, R x p → depth x = depth' p)
    (hnone : ∀ {x p}, R x p → up p = none → parent x = none)
    (hsome : ∀ {x p y q}, R x p → R y q → up p = some q → parent x = some (label y)) :
    Nests label depth parent xs := by
  rintro before x after rfl
  obtain ⟨pbefore, prest, rfl, hbefore, hrest⟩ := append_of_forall₂ hR
  cases hrest with
  | @cons _ p _ pafter hx _ =>
      rcases h pbefore p pafter rfl with ⟨rfl, hup, hp⟩ |
        ⟨pearlier, q, pbetween, rfl, hup, hp, hbetween⟩
      · cases hbefore
        exact Or.inl ⟨rfl, hnone hx hup, (hdepth hx).trans hp⟩
      · obtain ⟨earlier, rest, rfl, -, hrest⟩ := append_of_forall₂ hbefore.flip
        cases hrest with
        | @cons _ y _ between hy hzs =>
            refine Or.inr ⟨earlier, y, between, rfl, hsome hx hy hup, ?_, fun z hz => ?_⟩
            · rw [hdepth hx, hdepth hy, hp]
            · obtain ⟨r, hr, hzr⟩ := exists_of_mem_right hzs hz
              rw [hdepth hy, hdepth hzr]
              exact hbetween r hr

end Nests

example : linksOf [('a', 0), ('b', 1), ('c', 2), ('d', 1)]
    = [none, some 'a', some 'b', some 'a'] := by decide

end Links

/-! ## Positions -/

namespace SyntaxNode

variable {d : SyntaxNode}

/-- In a list without repetitions, what comes between two members of a block is in the block. -/
theorem mem_block_of_between {before block after : List Position} {q r p : Position}
    (hnodup : (before ++ (block ++ after)).Nodup)
    (h : [q, r, p].Sublist (before ++ (block ++ after))) (hq : q ∈ block) (hp : p ∈ block) :
    r ∈ block := by
  obtain ⟨-, hinner, hbefore⟩ := List.nodup_append.mp hnodup
  obtain ⟨-, -, hafter⟩ := List.nodup_append.mp hinner
  obtain ⟨l₁, l₂, heq, h₁, h₂⟩ := List.sublist_append_iff.mp h
  cases l₁ with
  | cons x l₁ =>
      obtain ⟨rfl, -⟩ := List.cons.inj heq
      exact absurd rfl (hbefore q (h₁.subset (by simp)) q (List.mem_append_left _ hq))
  | nil =>
      rw [← heq.trans (List.nil_append l₂)] at h₂
      obtain ⟨m₁, m₂, heq, h₁, h₂⟩ := List.sublist_append_iff.mp h₂
      rcases List.eq_nil_or_concat m₂ with rfl | ⟨m, x, rfl⟩
      · rw [List.append_nil] at heq
        exact (heq ▸ h₁).subset (by simp)
      · have hlast := congrArg List.getLast? heq
        rw [List.concat_eq_append, ← List.append_assoc, List.getLast?_concat] at hlast
        obtain rfl : p = x := Option.some.inj hlast
        exact absurd rfl (hafter p hp p (h₂.subset (by simp)))

/-- **What comes between a position and one below it is below it, too.** -/
theorem suffix_of_between {q r p : Position} (h : [q, r, p].Sublist (d.preorder []))
    (hq : q <:+ p) : q <:+ r := by
  have hqmem : q ∈ d.preorder [] := h.subset (by simp)
  obtain ⟨m, hm⟩ := exists_valueAt?_of_mem_preorder d.valueAt?_nil hqmem
  -- what is below `q` is a block of the list, and `p` is in it
  obtain ⟨before, after, hblock⟩ := preorder_block d.valueAt?_nil hm hqmem
  have hp : p ∈ m.preorder q := mem_preorder_of_suffix_of_mem hm (h.subset (by simp)) hq
  have hnodup := d.nodup_preorder []
  rw [← hblock, List.append_assoc] at h hnodup
  exact suffix_of_mem_preorder (mem_block_of_between hnodup h (m.mem_preorder_self q) hp)

/-- **Positions in pre-order nest**, all of them or some, where each has the one around it in the
list and the depth grows from one to the other. -/
theorem nests_of_sublist {l : List Position} (hl : l.Sublist (d.preorder []))
    {up : Position → Option Position} {depth : Position → Nat}
    (hup : ∀ p ∈ l, (p = [] ∧ up p = none ∧ depth p = 0) ∨
      ∃ q ∈ l, up p = some q ∧ q <:+ p ∧ q ≠ p ∧ depth p = depth q + 1)
    (hdeep : ∀ q ∈ l, ∀ r ∈ l, q <:+ r → q ≠ r → depth q < depth r) : Nests id depth up l := by
  rintro before p after rfl
  obtain ⟨-, hpair, hcross⟩ := List.pairwise_append.mp ((d.pairwise_preorder []).sublist hl)
  rcases hup p (by simp) with ⟨rfl, hnone, hzero⟩ | ⟨q, hq, hsome, hsuf, hne, hdepth⟩
  · -- the root is above everything, so nothing comes before it
    refine Or.inl ⟨List.eq_nil_iff_forall_not_mem.mpr fun r hr => ?_, hnone, hzero⟩
    exact hcross r hr [] List.mem_cons_self List.nil_suffix
  · have hbefore : q ∈ before := by
      rcases List.mem_append.mp hq with hq | hq
      · exact hq
      · rcases List.mem_cons.mp hq with rfl | hq
        · exact absurd rfl hne
        · exact absurd hsuf ((List.pairwise_cons.mp hpair).1 q hq)
    obtain ⟨earlier, between, rfl⟩ := List.append_of_mem hbefore
    refine Or.inr ⟨earlier, q, between, rfl, hsome, hdepth, fun r hr => ?_⟩
    have htriple : [q, r, p].Sublist (earlier ++ q :: between ++ p :: after) := by
      have hleft : [q, r].Sublist (earlier ++ q :: between) :=
        ((List.singleton_sublist.mpr hr).cons_cons q).trans (List.sublist_append_right _ _)
      exact hleft.append (List.singleton_sublist.mpr List.mem_cons_self)
    have hqr : q ≠ r := by
      have hnodup := ((d.nodup_preorder []).sublist hl).sublist htriple
      simp only [List.nodup_cons, List.mem_cons, not_or] at hnodup
      exact hnodup.1.1
    exact hdeep q hq r (by simp [hr]) (suffix_of_between (htriple.trans hl) hsuf) hqr

/-- All positions nest by their lengths. -/
theorem nests_preorder (d : SyntaxNode) : Nests id List.length List.tail? (d.preorder []) := by
  refine nests_of_sublist (List.Sublist.refl _) (fun p hp => ?_) fun q _ r _ hsuf hne => ?_
  · cases p with
    | nil => exact Or.inl ⟨rfl, rfl, rfl⟩
    | cons s q =>
        obtain ⟨hq, -⟩ := tail_mem_preorder d.valueAt?_nil hp (List.cons_ne_nil s q)
        exact Or.inr ⟨q, hq, rfl, List.suffix_cons s q, (List.cons_ne_self s q).symm, rfl⟩
  · exact Nat.lt_of_le_of_ne hsuf.length_le fun heq => hne (hsuf.eq_of_length heq)

theorem scopeDepth_le_cons (d : SyntaxNode) (s : Step) (p : Position) :
    d.scopeDepth p ≤ d.scopeDepth (s :: p) := by
  rw [scopeDepth.eq_def d (s :: p)]
  dsimp only
  split <;> omega

/-- A scope inside another is deeper. -/
theorem scopeDepth_lt_of_suffix {q r : Position} (hq : d.introduces q = true) (hsuf : q <:+ r)
    (hne : q ≠ r) : d.scopeDepth q < d.scopeDepth r := by
  induction r with
  | nil => exact absurd (List.suffix_nil.mp hsuf) hne
  | cons s r ih =>
      rcases List.suffix_cons_iff.mp hsuf with rfl | hsuf
      · exact absurd rfl hne
      · by_cases heq : q = r
        · rw [← heq, scopeDepth, if_pos hq]
          omega
        · exact Nat.lt_of_lt_of_le (ih hsuf heq) (d.scopeDepth_le_cons s r)

/-- The positions that introduce scopes nest by the scopes around them. -/
theorem nests_scopes (hroot : d.introduces [] = true) :
    Nests id d.scopeDepth d.outer? ((d.preorder []).filter d.introduces) := by
  refine nests_of_sublist List.filter_sublist (fun p hp => ?_) fun q hq r _ hsuf hne => ?_
  · obtain ⟨hmem, -⟩ := List.mem_filter.mp hp
    rw [← d.cons_tail_preorder [], List.mem_cons] at hmem
    rcases hmem with rfl | htail
    · exact Or.inl ⟨rfl, rfl, rfl⟩
    · obtain ⟨q, hq, houter⟩ := exists_outer?_of_mem_tail hroot htail
      obtain ⟨hsuf, hne⟩ := suffix_of_outer? houter
      refine Or.inr ⟨q, hq, houter, hsuf, hne, ?_⟩
      rw [scopeDepth_eq, houter, Option.elim_some]
  · exact scopeDepth_lt_of_suffix (List.mem_filter.mp hq).2 hsuf hne

end SyntaxNode

namespace Tree

variable {d : SyntaxNode} {t t' : Tree}

/-! ## Nodes -/

/-- The depth of a node. -/
def depthOf (t : Tree) (i : NodeId) : Nat := (t.node? i).elim 0 Node.depth

/-- The parent of a node. -/
def parentOf (t : Tree) (i : NodeId) : Option NodeId := (t.node? i).bind Node.parent

/-- The nodes of a tree nest as their positions. -/
theorem nests_of_stands (h : t.Mirrors d) {ids : List NodeId}
    (hids : List.Forall₂ t.Stands ids (d.preorder [])) : Nests id t.depthOf t.parentOf ids := by
  refine d.nests_preorder.of_forall₂ hids ?_ ?_ ?_
  · intro i p hi
    obtain ⟨n, hn, -⟩ := hi.exists_node h
    rw [depthOf, hn, Option.elim_some, hi.depth_eq h hn]
  · intro i p hi hnone
    cases p with
    | cons s p => cases hnone
    | nil =>
        obtain ⟨n, hn, -⟩ := hi.exists_node h
        rw [parentOf, hn, Option.bind_some, hi.parent_of_nil h hn]
  · intro i p j q hi hj hsome
    cases p with
    | nil => cases hsome
    | cons s p =>
        cases hsome
        obtain ⟨n, hn, -⟩ := hi.exists_node h
        obtain ⟨j', -, -, hpar, -, hj', -⟩ := hi.parent_of_cons h hn
        rw [parentOf, hn, Option.bind_some, hpar, hj'.inj hj]
        rfl

/-! ## Scopes -/

namespace Summarized

variable {s s' : ScopeSummary} {p q : Position}

theorem parent_eq_none (hs : Summarized d t s p) (hout : d.outer? p = none) : s.parent = none := by
  have hparent := hs.parent
  rw [hout] at hparent
  cases hpar : s.parent with
  | none => rfl
  | some o => rw [hpar] at hparent; cases hparent

/-- The scope around is the one that its own summary is about. -/
theorem parent_eq_some (h : t.Scoped d) (hs : Summarized d t s p) (hs' : Summarized d t s' q)
    (hout : d.outer? p = some q) : s.parent = some s'.id := by
  have hparent := hs.parent
  rw [hout] at hparent
  cases hpar : s.parent with
  | none => rw [hpar] at hparent; cases hparent
  | some o =>
      rw [hpar] at hparent
      cases hparent with
      | some ho => rw [ho.inj h hs'.id]

end Summarized

section Nesting

variable {summaries : List ScopeSummary}

theorem ne_nil_of_summarized (hroot : d.introduces [] = true)
    (hsum : List.Forall₂ (Summarized d t) summaries ((d.preorder []).filter d.introduces)) :
    summaries ≠ [] := by
  rintro rfl
  rw [SyntaxNode.filter_introduces_preorder hroot] at hsum
  cases hsum

/-- **The summaries of all scopes nest as their positions.** -/
theorem nests_of_summarized (h : t.Scoped d) (hroot : d.introduces [] = true)
    (hsum : List.Forall₂ (Summarized d t) summaries ((d.preorder []).filter d.introduces)) :
    Nests ScopeSummary.id ScopeSummary.depth ScopeSummary.parent summaries :=
  (SyntaxNode.nests_scopes hroot).of_forall₂ hsum Summarized.depth
    Summarized.parent_eq_none (Summarized.parent_eq_some h)

/-- Their rows nest in the same way. Two scopes may share a word, but a row refers to the scope
around by the word in the row of that scope. -/
theorem nests_rows_of_summarized (h : t.Sound d) (hroot : d.introduces [] = true)
    (hsum : List.Forall₂ (Summarized d t) summaries ((d.preorder []).filter d.introduces))
    (hd : d.objectCount < 2 ^ 64) :
    Nests ScopeRow.id (fun r => r.depth.toNat) ScopeRow.parent
      (summaries.map ScopeSummary.row) := by
  have hrows : List.Forall₂ (fun r p => ∃ s, r = s.row ∧ Summarized d t s p)
      (summaries.map ScopeSummary.row) ((d.preorder []).filter d.introduces) :=
    List.forall₂_map_left_iff.mpr (hsum.imp fun s _ hs => ⟨s, rfl, hs⟩)
  refine (SyntaxNode.nests_scopes hroot).of_forall₂ hrows ?_ ?_ ?_
  · rintro _ p ⟨s, rfl, hs⟩
    rw [← SyntaxNode.toNat_scopeDepth hd (hs.node.mem_preorder h.arena), ← hs.depth]
    rfl
  · rintro _ p ⟨s, rfl, hs⟩ hout
    rw [ScopeSummary.row, hs.parent_eq_none hout]
    rfl
  · rintro _ p _ q ⟨s, rfl, hs⟩ ⟨s', rfl, hs'⟩ hout
    rw [ScopeSummary.row, hs.parent_eq_some h.scopes hs' hout]
    rfl

end Nesting

end Tree

/-- **Indentation shows nesting**, in both listings of any reachable tree: the root and all below
it, and the scopes of a report. A report is made in the numbers of the tree, and its rows are what
these come to in words. The rows show the nesting themselves, unless a depth outgrows its word of
64 bits, for which a document needs as many objects. -/
theorem Reachable.indentation_nests {d : SyntaxNode} {t : Tree} (h : Reachable d t) :
    (∀ below t', Tree.descendants Tree.root t = .ok below t' →
      Indented id t'.depthOf t'.parentOf (Tree.root :: below)) ∧
    (∀ rows t', Tree.scopeReport t = .ok rows t' →
      ∃ summaries, Tree.scopeSummaries t = .ok summaries t' ∧
        rows = summaries.map Tree.ScopeSummary.row ∧
        Indented Tree.ScopeSummary.id Tree.ScopeSummary.depth Tree.ScopeSummary.parent
          summaries) ∧
    (d.objectCount < 2 ^ 64 → ∀ rows t', Tree.scopeReport t = .ok rows t' →
      Indented ScopeRow.id (fun r => r.depth.toNat) ScopeRow.parent rows) := by
  refine ⟨?_, ?_, ?_⟩
  · intro below t' hrun
    obtain ⟨n, hn, -⟩ := h.sound.arena.root
    obtain ⟨h', hstands⟩ := Tree.stands_cons_of_descendants h.sound .root hn hrun
    rw [SyntaxNode.preorderAt_nil] at hstands
    exact (Tree.nests_of_stands h'.arena hstands).indented (List.cons_ne_nil _ _)
  · intro rows t' hrun
    obtain ⟨summaries, hsummaries, hrows, h', hroot, -, hsum⟩ :=
      Tree.summarized_of_scopeReport h.sound hrun
    have hnests := Tree.nests_of_summarized h'.scopes hroot hsum
    exact ⟨summaries, hsummaries, hrows, hnests.indented (Tree.ne_nil_of_summarized hroot hsum)⟩
  · intro hd rows t' hrun
    obtain ⟨summaries, -, rfl, h', hroot, -, hsum⟩ :=
      Tree.summarized_of_scopeReport h.sound hrun
    have hne := Tree.ne_nil_of_summarized hroot hsum
    exact (Tree.nests_rows_of_summarized h' hroot hsum hd).indented fun hnil =>
      hne (List.map_eq_nil_iff.mp hnil)

/-- The small document in a tree where the function has been walked before the rest, so that the
numbers of the nodes are not in pre-order. -/
theorem Sample.indentation_nests_spliced :
    Reachable Sample.program Sample.spliced ∧
      (∃ t', Tree.descendants Tree.root Sample.spliced = .ok [1, 6, 2, 3, 4, 5] t' ∧
        [0, 1, 6, 2, 3, 4, 5].map t'.depthOf = [0, 1, 2, 1, 2, 3, 4] ∧
        Indented id t'.depthOf t'.parentOf [0, 1, 6, 2, 3, 4, 5]) ∧
      ∃ summaries t', Tree.scopeSummaries Sample.spliced = .ok summaries t' ∧
        summaries.map (fun s => (s.id, s.depth, s.parent)) = [(0, 0, none), (1, 1, some 0)] ∧
        Indented Tree.ScopeSummary.id Tree.ScopeSummary.depth Tree.ScopeSummary.parent
          summaries ∧
        Tree.scopeReport Sample.spliced = .ok (summaries.map Tree.ScopeSummary.row) t' ∧
        Indented ScopeRow.id (fun r => r.depth.toNat) ScopeRow.parent
          (summaries.map Tree.ScopeSummary.row) := by
  have h := Sample.reachable_spliced
  obtain ⟨hnodes, hscopes, hrows⟩ := Reachable.indentation_nests h
  obtain ⟨t₁, hwalk, hdepths⟩ :
      ∃ t', Tree.descendants Tree.root Sample.spliced = .ok [1, 6, 2, 3, 4, 5] t' ∧
        [0, 1, 6, 2, 3, 4, 5].map t'.depthOf = [0, 1, 2, 1, 2, 3, 4] :=
    ⟨_, by rfl, by decide +kernel⟩
  have hanswer : (Tree.scopeSummaries.answer? Sample.spliced).map
      (fun summaries => summaries.map fun s => (s.id, s.depth, s.parent))
        = some [(0, 0, none), (1, 1, some 0)] := by decide +kernel
  obtain ⟨summaries, hsummaries, hlist⟩ := Option.map_eq_some_iff.mp hanswer
  obtain ⟨t₂, hrun⟩ := exists_of_answer? hsummaries
  have hreport := Tree.scopeReport_of_ok hrun
  obtain ⟨summaries', hrun', -, hindented⟩ := hscopes _ _ hreport
  rw [hrun] at hrun'
  cases hrun'
  have hd : Sample.program.objectCount < 2 ^ 64 := by decide +kernel
  exact ⟨h, ⟨t₁, hwalk, hdepths, hnodes _ _ hwalk⟩, summaries, t₂, hrun, hlist, hindented, hreport,
    hrows hd _ _ hreport⟩

end LexicalScope
