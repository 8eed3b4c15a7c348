import LexicalScope.Proofs.Questions

set_option autoImplicit false

/-! # Well-nested source spans

The chain under an offset follows, from each node, only the first child whose span covers the
offset. Where the spans of a document are well nested (`SyntaxNode.WellNested`) nothing is lost by
that: a node that does not cover the offset has nothing below it that does, and of the children of
a node at most one covers it.

* `SyntaxNode.chainFrom_eq_filter`: from a node down, the chain is all that covers the offset.
* `Reachable.chainAt_complete`: in every reachable tree, the chain under an offset is the list of
  all nodes of the document that lie under it.
-/

namespace LexicalScope

/-! ## Spans as sets of offsets -/

namespace Span

theorem contains_iff {s : Span} {offset : UInt64} :
    s.contains offset = true ↔ s.start ≤ offset ∧ offset < s.stop := by
  rw [contains, Bool.and_eq_true, decide_eq_true_iff, decide_eq_true_iff]

/-- All that a span covers is covered by the other. -/
def Within (s s' : Span) : Prop :=
  ∀ offset, s.contains offset = true → s'.contains offset = true

/-- No offset is covered by both spans. -/
def Apart (s s' : Span) : Prop :=
  ∀ offset, ¬ (s.contains offset = true ∧ s'.contains offset = true)

/-- A span lies within another if it covers nothing or its ends lie within those of the other. -/
theorem within_iff {s s' : Span} :
    s.Within s' ↔ s.stop ≤ s.start ∨ s'.start ≤ s.start ∧ s.stop ≤ s'.stop := by
  simp only [Within, contains_iff]
  constructor
  · intro h
    by_contra hne
    simp only [not_or, not_and, UInt64.not_le] at hne
    obtain ⟨hpos, hout⟩ := hne
    have hstart := h s.start ⟨UInt64.le_refl _, hpos⟩
    have hstop := hout hstart.1
    exact UInt64.lt_irrefl _ (h s'.stop ⟨UInt64.le_of_lt hstart.2, hstop⟩).2
  · rintro (hempty | ⟨hstart, hstop⟩) offset ⟨hle, hlt⟩
    · exact absurd (UInt64.lt_of_le_of_lt hle hlt) (UInt64.not_lt.mpr hempty)
    · exact ⟨UInt64.le_trans hstart hle, UInt64.lt_of_lt_of_le hlt hstop⟩

/-- Two spans are apart if one of them covers nothing or one ends before the other starts. -/
theorem apart_iff {s s' : Span} :
    s.Apart s' ↔ s.stop ≤ s.start ∨ s'.stop ≤ s'.start ∨ s.stop ≤ s'.start ∨ s'.stop ≤ s.start := by
  simp only [Apart, contains_iff]
  constructor
  · intro h
    by_contra hne
    simp only [not_or, UInt64.not_le] at hne
    obtain ⟨hs, hs', hlt, hlt'⟩ := hne
    -- the later of the two starts is covered by both
    rcases UInt64.le_total s.start s'.start with hle | hle
    · exact h s'.start ⟨⟨hle, hlt⟩, UInt64.le_refl _, hs'⟩
    · exact h s.start ⟨⟨UInt64.le_refl _, hs⟩, hle, hlt'⟩
  · rintro hcases offset ⟨⟨hle, hlt⟩, hle', hlt'⟩
    have h₁ := UInt64.lt_of_le_of_lt hle hlt
    have h₂ := UInt64.lt_of_le_of_lt hle' hlt'
    have h₃ := UInt64.lt_of_le_of_lt hle' hlt
    have h₄ := UInt64.lt_of_le_of_lt hle hlt'
    rcases hcases with h | h | h | h <;> exact absurd h (UInt64.not_le.mpr ‹_›)

instance (s s' : Span) : Decidable (s.Within s') := decidable_of_iff _ within_iff.symm

instance (s s' : Span) : Decidable (s.Apart s') := decidable_of_iff _ apart_iff.symm

end Span

/-! ## Documents -/

/-- Where at most one item of a list is marked and the others contribute nothing, the first marked
item contributes all. -/
theorem flatMap_eq_of_pairwise {α β : Type} {f : α → List β} {marked : α → Bool} {l : List α}
    (hpair : l.Pairwise fun a b => ¬ (marked a = true ∧ marked b = true))
    (hnil : ∀ a ∈ l, marked a = false → f a = []) :
    l.flatMap f = (l.find? marked).elim [] f := by
  induction l with
  | nil => rfl
  | cons a l ih =>
      obtain ⟨ha, hl⟩ := List.pairwise_cons.mp hpair
      obtain ⟨hnila, hnill⟩ := List.forall_mem_cons.mp hnil
      rw [List.flatMap_cons]
      cases hm : marked a with
      | true =>
          have hrest : l.flatMap f = [] := by
            refine List.flatMap_eq_nil_iff.mpr fun b hb => hnill b hb ?_
            by_contra hmb
            exact ha b hb ⟨hm, by simpa using hmb⟩
          rw [List.find?_cons_of_pos hm, hrest, List.append_nil, Option.elim_some]
      | false =>
          rw [List.find?_cons_of_neg (by simp [hm]), hnila hm, List.nil_append, ih hl hnill]

namespace SyntaxNode

/-- **A document whose source spans are well nested.** All its nodes have their children, and all
but the root have a span. A span, taken as the set of offsets that it covers, lies within the span
of the parent if the parent has one, and apart from those of the other children of the parent. -/
structure WellNested (d : SyntaxNode) : Prop where
  faultless : ∀ p ∈ d.preorder [], ∀ n, d.valueAt? p = some n → ∃ cs, n.children = .ok cs
  spanned : ∀ p ∈ (d.preorder []).tail, ∀ n ∈ d.valueAt? p, n.span?.isSome = true
  within : ∀ p ∈ d.preorder [], ∀ n ∈ d.valueAt? p, ∀ b ∈ n.branches,
    ∀ s ∈ n.span?, ∀ s' ∈ b.2.span?, s'.Within s
  apart : ∀ p ∈ d.preorder [], ∀ n ∈ d.valueAt? p,
    n.branches.Pairwise fun a b => ∀ s ∈ a.2.span?, ∀ s' ∈ b.2.span?, s.Apart s'

/-- Whether spans are well nested can be computed: `faultless` asks for the first fault, and the
other conditions are about finitely many spans. -/
instance (d : SyntaxNode) : Decidable d.WellNested :=
  decidable_of_iff
    (d.firstFault (d.preorder []) = none ∧
      (∀ p ∈ (d.preorder []).tail, ∀ n ∈ d.valueAt? p, n.span?.isSome = true) ∧
      (∀ p ∈ d.preorder [], ∀ n ∈ d.valueAt? p, ∀ b ∈ n.branches,
        ∀ s ∈ n.span?, ∀ s' ∈ b.2.span?, s'.Within s) ∧
      ∀ p ∈ d.preorder [], ∀ n ∈ d.valueAt? p,
        n.branches.Pairwise fun a b => ∀ s ∈ a.2.span?, ∀ s' ∈ b.2.span?, s.Apart s')
    ⟨fun ⟨hf, hs, hw, ha⟩ => ⟨firstFault_eq_none.mp hf, hs, hw, ha⟩,
      fun h => ⟨firstFault_eq_none.mpr h.faultless, h.spanned, h.within, h.apart⟩⟩

theorem covers_eq_true {n : SyntaxNode} {offset : UInt64} :
    n.covers offset = true ↔ ∃ s ∈ n.span?, s.contains offset = true := by
  rw [covers, Option.any_eq_true]
  rfl

/-- Whether the node at a position has a span that covers the offset. -/
def coversAt (d : SyntaxNode) (offset : UInt64) (p : Position) : Bool :=
  (d.valueAt? p).any fun n => n.covers offset

/-- Whether the node at a position lies under the offset: its span covers the offset, or it is the
root and has no span. -/
def isUnder (d : SyntaxNode) (offset : UInt64) (p : Position) : Bool :=
  d.coversAt offset p || (p == [] && d.span?.isNone)

theorem coversAt_of_valueAt? {d n : SyntaxNode} {p : Position} (hp : d.valueAt? p = some n)
    (offset : UInt64) : d.coversAt offset p = n.covers offset := by
  rw [coversAt, hp, Option.any_some]

theorem isUnder_of_ne_nil {d : SyntaxNode} {p : Position} (hp : p ≠ []) (offset : UInt64) :
    d.isUnder offset p = d.coversAt offset p := by
  rw [isUnder, beq_false_of_ne hp, Bool.false_and, Bool.or_false]

theorem ne_nil_of_mem_tail {d : SyntaxNode} {p : Position} (h : p ∈ (d.preorder []).tail) :
    p ≠ [] := by
  have hnodup := d.nodup_preorder []
  rw [← d.cons_tail_preorder []] at hnodup
  rintro rfl
  exact (List.nodup_cons.mp hnodup).1 h

theorem mem_tail_of_ne_nil {d : SyntaxNode} {p : Position} (h : p ∈ d.preorder [])
    (hp : p ≠ []) : p ∈ (d.preorder []).tail := by
  rw [← d.cons_tail_preorder []] at h
  exact (List.mem_cons.mp h).resolve_left hp

namespace WellNested

variable {d : SyntaxNode}

/-- A child of a node of the document stands in it, has a span, and lies within its parent. -/
theorem branch (h : d.WellNested) {n : SyntaxNode} {p : Position} (hp : d.valueAt? p = some n)
    (hmem : p ∈ d.preorder []) {b : Step × SyntaxNode} (hb : b ∈ n.branches) :
    b.1 :: p ∈ d.preorder [] ∧ d.valueAt? (b.1 :: p) = some b.2 ∧ b.2.span?.isSome = true ∧
      (n.span?.isSome = true → ∀ offset, b.2.covers offset = true → n.covers offset = true) := by
  have hmem' := cons_mem_preorder d.valueAt?_nil hp hmem hb
  have hp' := valueAt?_branch hp hb
  refine ⟨hmem', hp', ?_, ?_⟩
  · exact h.spanned _ (mem_tail_of_ne_nil hmem' (List.cons_ne_nil _ _)) _ hp'
  · intro hspan offset hcov
    obtain ⟨s, hs⟩ := Option.isSome_iff_exists.mp hspan
    obtain ⟨s', hs', hin⟩ := covers_eq_true.mp hcov
    exact covers_eq_true.mpr ⟨s, hs, h.within p hmem n hp b hb s hs s' hs' offset hin⟩

/-- **Below a node that does not cover the offset, nothing covers it.** -/
theorem coversAt_eq_false (h : d.WellNested) {offset : UInt64} {n : SyntaxNode} {p : Position}
    (hp : d.valueAt? p = some n) (hmem : p ∈ d.preorder []) (hspan : n.span?.isSome = true)
    (hn : n.covers offset = false) : ∀ q ∈ n.preorder p, d.coversAt offset q = false := by
  induction n, p using preorder.induct with
  | case1 n p ih =>
      intro q hq
      rcases mem_preorder.mp hq with rfl | ⟨b, hb, hq⟩
      · rw [coversAt_of_valueAt? hp, hn]
      · obtain ⟨hmem', hp', hspan', hwithin⟩ := h.branch hp hmem hb
        have hb' : b.2.covers offset = false := by
          by_contra hcov
          rw [hwithin hspan offset (by simpa using hcov)] at hn
          cases hn
        exact ih ⟨b, hb⟩ hp' hmem' hspan' hb' q hq

theorem filter_preorder_eq_nil (h : d.WellNested) {offset : UInt64} {n : SyntaxNode}
    {p : Position} (hp : d.valueAt? p = some n) (hmem : p ∈ d.preorder [])
    (hspan : n.span?.isSome = true) (hn : n.covers offset = false) :
    (n.preorder p).filter (d.coversAt offset) = [] := by
  refine List.filter_eq_nil_iff.mpr fun q hq => ?_
  rw [h.coversAt_eq_false hp hmem hspan hn q hq]
  decide

/-- A node that covers the offset is the first of all that cover it at or below the node. -/
theorem filter_preorder_of_covers {offset : UInt64} {n : SyntaxNode} {p : Position}
    (hp : d.valueAt? p = some n) (hn : n.covers offset = true) :
    (n.preorder p).filter (d.coversAt offset)
      = p :: (n.preorder p).tail.filter (d.coversAt offset) := by
  conv_lhs => rw [← n.cons_tail_preorder p]
  rw [List.filter_cons_of_pos (by rw [coversAt_of_valueAt? hp, hn])]

/-- The spans of two branches of a node are apart. -/
theorem pairwise_branches (h : d.WellNested) {n : SyntaxNode} {p : Position}
    (hp : d.valueAt? p = some n) (hmem : p ∈ d.preorder []) (offset : UInt64) :
    n.branches.Pairwise fun a b => ¬ (a.2.covers offset = true ∧ b.2.covers offset = true) := by
  refine (h.apart p hmem n hp).imp ?_
  rintro a b hab ⟨ha, hb⟩
  obtain ⟨s, hs, hin⟩ := covers_eq_true.mp ha
  obtain ⟨s', hs', hin'⟩ := covers_eq_true.mp hb
  exact hab s hs s' hs' offset ⟨hin, hin'⟩

end WellNested

/-- **From a node down, the chain is all that covers the offset.** -/
theorem chainFrom_eq_filter {d : SyntaxNode} (h : d.WellNested) (offset : UInt64)
    {n : SyntaxNode} {p : Position} (hp : d.valueAt? p = some n) (hmem : p ∈ d.preorder []) :
    n.chainFrom offset p = .ok (p :: (n.preorder p).tail.filter (d.coversAt offset)) := by
  induction n, p using preorder.induct with
  | case1 n p ih =>
      obtain ⟨cs, hcs⟩ := h.faultless p hmem n hp
      have hdark : ∀ b ∈ n.branches, b.2.covers offset = false →
          (b.2.preorder (b.1 :: p)).filter (d.coversAt offset) = [] := by
        intro b hb hcov
        obtain ⟨hmem', hp', hspan', -⟩ := h.branch hp hmem hb
        exact h.filter_preorder_eq_nil hp' hmem' hspan' hcov
      rw [preorder_eq, List.tail_cons, List.filter_flatMap,
        flatMap_eq_of_pairwise (h.pairwise_branches hp hmem offset) hdark]
      cases hfind : n.branches.find? fun b => b.2.covers offset with
      | none =>
          rw [chainFrom_of_none hcs hfind]
          rfl
      | some b =>
          have hb : b ∈ n.branches := List.mem_of_find?_eq_some hfind
          have hcov : b.2.covers offset = true := by simpa using List.find?_some hfind
          obtain ⟨hmem', hp', -⟩ := h.branch hp hmem hb
          rw [chainFrom_of_some hcs hfind, ih ⟨b, hb⟩ hp' hmem', Option.elim_some,
            WellNested.filter_preorder_of_covers hp' hcov]
          rfl

/-- **The chain under an offset is all that lies under it**, in pre-order. -/
theorem chainAt_eq_filter {d : SyntaxNode} (h : d.WellNested) (offset : UInt64) :
    d.chainAt offset = .ok ((d.preorder []).filter (d.isUnder offset)) := by
  have hroot := d.mem_preorder_self []
  have htail : (d.preorder []).tail.filter (d.isUnder offset)
      = (d.preorder []).tail.filter (d.coversAt offset) :=
    List.filter_congr fun p hp => isUnder_of_ne_nil (ne_nil_of_mem_tail hp) offset
  have hself : d.isUnder offset [] = d.span?.all fun s => s.contains offset := by
    rw [isUnder, coversAt_of_valueAt? d.valueAt?_nil, covers]
    cases d.span? <;> simp
  rw [← d.cons_tail_preorder [], List.filter_cons, htail, chainAt, ← hself]
  by_cases hunder : d.isUnder offset [] = true
  · rw [if_pos hunder, if_pos hunder]
    exact chainFrom_eq_filter h offset d.valueAt?_nil hroot
  · -- the root has a span that does not cover the offset, so nothing covers it
    rw [if_neg hunder, if_neg hunder]
    rw [hself] at hunder
    obtain ⟨s, hs, hout⟩ : ∃ s, d.span? = some s ∧ s.contains offset = false := by
      cases hs : d.span? with
      | none => rw [hs] at hunder; exact absurd rfl hunder
      | some s => exact ⟨s, rfl, by simpa [hs] using hunder⟩
    have hcovers : d.covers offset = false := by rw [covers, hs, Option.any_some, hout]
    have hdark := h.coversAt_eq_false d.valueAt?_nil hroot (by rw [hs]; rfl) hcovers
    have hnone : (d.preorder []).tail.filter (d.coversAt offset) = [] := by
      refine List.filter_eq_nil_iff.mpr fun q hq => ?_
      rw [hdark q (List.mem_of_mem_tail hq)]
      decide
    rw [hnone]

end SyntaxNode

/-! ## The chain in a tree -/

namespace Tree

variable {d : SyntaxNode} {t : Tree}

/-- Whether a node lies under an offset: its span covers the offset, or it is the root and has no
span. -/
def isUnder (t : Tree) (offset : UInt64) (id : NodeId) : Bool :=
  t.covers offset id || (id == root && ((t.node? root).bind fun n => n.source.span?).isNone)

theorem isUnder_of_stands (h : t.Mirrors d) {i : NodeId} {p : Position} (hi : t.Stands i p)
    (offset : UInt64) : t.isUnder offset i = d.isUnder offset p := by
  obtain ⟨n, hn, hp⟩ := hi.exists_node h
  obtain ⟨m, hm, hsrc, -⟩ := h.root
  have hroot : (i == root) = (p == []) := by
    rw [Bool.eq_iff_iff, beq_iff_eq, beq_iff_eq]
    constructor
    · rintro rfl
      exact hi.unique h .root
    · rintro rfl
      exact hi.inj .root
  rw [isUnder, SyntaxNode.isUnder, SyntaxNode.coversAt_of_valueAt? hp, hroot, hm, Option.bind_some,
    hsrc, covers, hn, Option.bind_some]
  rfl

/-- Numbers of one tree that stand at the positions under an offset are those, of all numbers in
pre-order, that lie under it. -/
theorem eq_filter_of_stands (h : t.Mirrors d) {offset : UInt64} {chain below : List NodeId}
    (hchain : List.Forall₂ t.Stands chain ((d.preorder []).filter (d.isUnder offset)))
    (hbelow : List.Forall₂ t.Stands below (d.preorder []).tail) :
    chain = (root :: below).filter (t.isUnder offset) := by
  have hall : List.Forall₂ t.Stands (root :: below) (d.preorder []) := by
    rw [← d.cons_tail_preorder []]
    exact .cons .root hbelow
  have hfilter : List.Forall₂ t.Stands ((root :: below).filter (t.isUnder offset))
      ((d.preorder []).filter (d.isUnder offset)) := by
    refine List.rel_filter (fun {i p} hi => ?_) hall
    show t.isUnder offset i = true ↔ d.isUnder offset p = true
    rw [isUnder_of_stands h hi]
  have hinj : Relator.LeftUnique t.Stands := fun i p j hi hj => hi.inj hj
  exact hinj.forall₂ hchain hfilter

end Tree

/-- **On well-nested spans, the chain under an offset is all that lies under it.** In every
reachable tree the chain can be asked for, and so can the nodes below the root, in either order
and with any questions in between; the chain is the root followed by these nodes, less those whose
span does not cover the offset. A root without a span is kept. -/
theorem Reachable.chainAt_complete {d : SyntaxNode} (hd : d.WellNested) {t : Tree}
    (h : Reachable d t) (offset : UInt64) :
    (∃ chain t₁, Tree.chainAt offset t = .ok chain t₁ ∧ ∀ t₂, t₁.LeadsTo t₂ →
      ∃ below t₃, Tree.descendants Tree.root t₂ = .ok below t₃ ∧
        chain = (Tree.root :: below).filter (t₃.isUnder offset)) ∧
    ∃ below t₁, Tree.descendants Tree.root t = .ok below t₁ ∧ ∀ t₂, t₁.LeadsTo t₂ →
      ∃ chain t₃, Tree.chainAt offset t₂ = .ok chain t₃ ∧
        chain = (Tree.root :: below).filter (t₃.isUnder offset) := by
  have hchainAt := SyntaxNode.chainAt_eq_filter hd offset
  have hbelow : d.below [] = .ok (d.preorder []).tail := by
    rw [SyntaxNode.below, SyntaxNode.preorderAt_nil,
      SyntaxNode.barring_of_none (SyntaxNode.firstFault_eq_none.mpr hd.faultless)]
  refine ⟨?_, ?_⟩
  · obtain ⟨chain, t₁, hrun, hmoves, hchain⟩ :=
      (Tree.chainAt_answers h.sound offset).exists_of_ok hchainAt
    have h₁ := h.sound.moves hmoves
    refine ⟨chain, t₁, hrun, fun t₂ hlater => ?_⟩
    have hmoves₂ := hlater.moves h₁
    obtain ⟨below, t₃, hrun₃, hmoves₃, -, hstands⟩ :=
      (Tree.descendants_answers (h₁.moves hmoves₂) .root).exists_of_ok hbelow
    have hx := hmoves₂.extends.trans hmoves₃.extends
    refine ⟨below, t₃, hrun₃, ?_⟩
    exact Tree.eq_filter_of_stands (h₁.moves (hmoves₂.trans hmoves₃)).arena
      (hchain.imp fun _ _ hi => hi.extend hx) hstands
  · obtain ⟨below, t₁, hrun, hmoves, -, hstands⟩ :=
      (Tree.descendants_answers h.sound .root).exists_of_ok hbelow
    have h₁ := h.sound.moves hmoves
    refine ⟨below, t₁, hrun, fun t₂ hlater => ?_⟩
    have hmoves₂ := hlater.moves h₁
    obtain ⟨chain, t₃, hrun₃, hmoves₃, hchain⟩ :=
      (Tree.chainAt_answers (h₁.moves hmoves₂) offset).exists_of_ok hchainAt
    have hx := hmoves₂.extends.trans hmoves₃.extends
    refine ⟨chain, t₃, hrun₃, ?_⟩
    exact Tree.eq_filter_of_stands (h₁.moves (hmoves₂.trans hmoves₃)).arena hchain
      (hstands.imp fun _ _ hi => hi.extend hx)

/-! ## A small document with spans

The program `a; f(b)`, whose root has no span. -/

namespace Sample

def name (start stop : Int) : SyntaxNode :=
  .object [
    ("type", .string "Identifier"),
    ("range", .array [.number (.int start), .number (.int stop)])]

def spanned : SyntaxNode :=
  .object [
    ("type", .string "Program"),
    ("body", .array [
      name 0 1,
      .object [
        ("type", .string "CallExpression"),
        ("range", .array [.number (.int 3), .number (.int 7)]),
        ("callee", name 3 4),
        ("arguments", .array [name 5 6])]])]

/-- The root, the call and its argument lie under offset 5. -/
theorem chainAt_complete_spanned :
    spanned.WellNested ∧ Reachable spanned (Tree.ofDocument spanned) ∧
      ∃ t₁ below t₂, Tree.chainAt 5 (Tree.ofDocument spanned) = .ok [0, 2, 4] t₁ ∧
        Tree.descendants Tree.root t₁ = .ok below t₂ ∧
        [0, 2, 4] = (Tree.root :: below).filter (t₂.isUnder 5) := by
  have hd : spanned.WellNested := by decide +kernel
  have h : Reachable spanned (Tree.ofDocument spanned) := .refl
  have hchain : (match Tree.chainAt 5 (Tree.ofDocument spanned) with
      | .ok chain _ => chain
      | .error _ _ => []) = [0, 2, 4] := by decide +kernel
  obtain ⟨⟨chain, t₁, hrun, hlater⟩, -⟩ := Reachable.chainAt_complete hd h 5
  rw [hrun] at hchain
  obtain ⟨below, t₂, hrun₂, heq⟩ := hlater t₁ .refl
  simp only at hchain
  subst hchain
  exact ⟨hd, h, t₁, below, t₂, hrun, hrun₂, heq⟩

end Sample

end LexicalScope
