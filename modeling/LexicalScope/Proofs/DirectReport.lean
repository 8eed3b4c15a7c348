import LexicalScope.Proofs.Questions

set_option autoImplicit false

/-! # The scope report as a recursion on the document

A scope report is collected in a loop over all scopes, with a search for the summary of the scope
around each of them among those before and a walk over everything below each scope for its names.
Here it is compared with one plain recursion on the document, which passes the scope around and
the depth down (`SyntaxNode.entriesFrom`) and takes the names of a scope from a recursion that
does not enter nested scopes (`SyntaxNode.localNames`).

* `SyntaxNode.names_eq_localNames`: both ways to find the names of a scope agree.
* `SyntaxNode.entriesFrom_eq`: the recursion lists the scopes in pre-order.
* `SyntaxNode.scopeReport_eq_directReport`: the report of a document is the recursion, or the
  fault that keeps it from being made.
* `Reachable.scopeReport_refines`: what this says of the report of every reachable tree.
-/

namespace LexicalScope

open Query

namespace SyntaxNode

variable {d : SyntaxNode}

/-- Whether a node introduces a scope. -/
def isScope (n : SyntaxNode) : Bool := n.kind?.any Kind.introducesScope

theorem introduces_of_valueAt? {n : SyntaxNode} {p : Position} (hp : d.valueAt? p = some n) :
    d.introduces p = n.isScope := by
  rw [introduces, hp, Option.bind_some, isScope]

/-! ## Names without nested scopes -/

/-- **The names declared in a scope, by recursion**: over the children of a node in order, the
name that a child declares, then the names found in the same way below it, unless the child
introduces a scope of its own. -/
def localNames (n : SyntaxNode) : List String :=
  n.branches.attach.flatMap fun b =>
    b.1.2.declaredName?.toList ++ if b.1.2.isScope then [] else localNames b.1.2
termination_by n.objectCount
decreasing_by exact objectCount_lt_of_mem_branches b.2

theorem localNames_eq (n : SyntaxNode) :
    n.localNames = n.branches.flatMap fun b =>
      b.2.declaredName?.toList ++ if b.2.isScope then [] else b.2.localNames := by
  rw [localNames]
  rw [List.flatMap_subtype (g := fun b : Step × SyntaxNode =>
      b.2.declaredName?.toList ++ if b.2.isScope then [] else b.2.localNames) fun _ _ => rfl,
    List.unattach_attach]

/-- Below a nested scope nothing is declared in a scope above it. -/
theorem filterMap_declaredIn?_eq_nil {n : SyntaxNode} {p scope : Position}
    (hp : d.valueAt? p = some n) (hi : d.introduces p = true) (hlt : scope.length < p.length) :
    (n.preorder p).tail.filterMap (d.declaredIn? scope) = [] := by
  refine List.filterMap_eq_nil_iff.mpr fun q hq => ?_
  obtain ⟨s, r, -, -, rfl, hr, -, -⟩ := parent_of_mem_tail hp hq
  obtain ⟨o, ho, hpo⟩ := exists_enclosing?_of_suffix hi (suffix_of_mem_preorder hr)
  refine if_neg fun houter => ?_
  have heq : o = scope := Option.some.inj (ho.symm.trans houter)
  have hle := hpo.length_le
  rw [heq] at hle
  omega

/-- Below a node that lies in a scope, the names declared in this scope are those that the
recursion finds. -/
theorem filterMap_declaredIn?_eq {n : SyntaxNode} {p scope : Position}
    (hp : d.valueAt? p = some n) (henc : d.enclosing? p = some scope) :
    (n.preorder p).tail.filterMap (d.declaredIn? scope) = n.localNames := by
  induction n, p using preorder.induct with
  | case1 n p ih =>
      rw [preorder_eq, List.tail_cons, List.filterMap_flatMap, localNames_eq]
      refine List.flatMap_congr fun b hb => ?_
      have hp' := valueAt?_branch hp hb
      have hself : d.declaredIn? scope (b.1 :: p) = b.2.declaredName? := by
        rw [declaredIn?, outer?, if_pos henc, hp', Option.bind_some]
      have hcons : ∀ l : List Position, (((b.1 :: p) :: l).filterMap (d.declaredIn? scope))
          = b.2.declaredName?.toList ++ l.filterMap (d.declaredIn? scope) := by
        intro l
        rw [List.filterMap_cons, hself]
        cases b.2.declaredName? <;> rfl
      rw [← b.2.cons_tail_preorder (b.1 :: p), hcons]
      congr 1
      cases hb' : b.2.isScope with
      | true =>
          have hlen := (suffix_of_enclosing? henc).length_le
          rw [if_pos rfl]
          refine filterMap_declaredIn?_eq_nil hp' ((introduces_of_valueAt? hp').trans hb') ?_
          rw [List.length_cons]
          omega
      | false =>
          rw [if_neg Bool.false_ne_true]
          refine ih ⟨b, hb⟩ hp' ?_
          rw [enclosing?_cons_of_not ((introduces_of_valueAt? hp').trans hb'), henc]

/-- **The names of a scope are found without entering nested scopes.** -/
theorem names_eq_localNames {n : SyntaxNode} {p : Position} (hp : d.valueAt? p = some n)
    (hi : d.introduces p = true) : d.names p = n.localNames := by
  rw [names, preorderAt_of_valueAt? hp]
  exact filterMap_declaredIn?_eq hp (enclosing?_of_introduces hi)

/-! ## Entries by recursion -/

/-- **The entries of a node at `p` and of everything below it, by recursion.** The scope around
the node and its depth are passed down. -/
def entriesFrom (n : SyntaxNode) (p : Position) (outer : Option Position) (depth : Nat) :
    List ScopeEntry :=
  match n.kind?.filter Kind.introducesScope with
  | some k =>
    { scope := p
      kind := k
      name := n.declaredName?
      node := p
      parent := outer
      depth := depth.toUInt64
      identifiers := n.localNames } ::
        n.branches.attach.flatMap fun b => entriesFrom b.1.2 (b.1.1 :: p) (some p) (depth + 1)
  | none => n.branches.attach.flatMap fun b => entriesFrom b.1.2 (b.1.1 :: p) outer depth
termination_by n.objectCount
decreasing_by all_goals exact objectCount_lt_of_mem_branches b.2

private theorem flatMap_attach_entriesFrom (n : SyntaxNode) (p : Position)
    (outer : Option Position) (depth : Nat) :
    (n.branches.attach.flatMap fun b => entriesFrom b.1.2 (b.1.1 :: p) outer depth)
      = n.branches.flatMap fun b => b.2.entriesFrom (b.1 :: p) outer depth := by
  rw [List.flatMap_subtype (g := fun b => b.2.entriesFrom (b.1 :: p) outer depth)
    fun _ _ => rfl, List.unattach_attach]

/-- What stands around the children of a node: the node itself, if it introduces a scope, else
what stands around the node. -/
theorem enclosing?_eq (d : SyntaxNode) (p : Position) :
    d.enclosing? p = if d.introduces p then some p else d.outer? p := by
  cases p <;> rfl

/-- **The recursion lists the scopes in pre-order**, each with the entry that the document gives
for it. -/
theorem entriesFrom_eq {n : SyntaxNode} {p : Position} (hp : d.valueAt? p = some n) :
    n.entriesFrom p (d.outer? p) (d.scopeDepth p)
      = ((n.preorder p).filter d.introduces).filterMap d.scopeEntry? := by
  induction n, p using preorder.induct with
  | case1 n p ih =>
      have hbelow : (n.branches.flatMap fun b =>
            b.2.entriesFrom (b.1 :: p) (d.enclosing? p) (d.scopeDepth (b.1 :: p)))
          = (((n.preorder p).tail).filter d.introduces).filterMap d.scopeEntry? := by
        rw [preorder_eq, List.tail_cons, List.filter_flatMap, List.filterMap_flatMap]
        exact List.flatMap_congr fun b hb => ih ⟨b, hb⟩ (valueAt?_branch hp hb)
      rw [← n.cons_tail_preorder p]
      rw [entriesFrom]
      cases hk : n.kind?.filter Kind.introducesScope with
      | some k =>
          obtain ⟨hkind, hintro⟩ := Option.filter_eq_some_iff.mp hk
          have hi : d.introduces p = true := (introduces_of_kind? hp hkind).trans hintro
          have hentry : d.scopeEntry? p = some
              { scope := p, kind := k, name := n.declaredName?, node := p, parent := d.outer? p,
                depth := (d.scopeDepth p).toUInt64, identifiers := n.localNames } := by
            simp [ scopeEntry?, hp, hkind, names_eq_localNames hp hi]
          rw [List.filter_cons_of_pos hi, List.filterMap_cons, hentry, ← hbelow]
          simp only [flatMap_attach_entriesFrom]
          rw [enclosing?_of_introduces hi]
          simp only [scopeDepth, if_pos hi]
      | none =>
          have hi : d.introduces p = false := by
            rw [introduces_of_valueAt? hp, isScope]
            cases hkind : n.kind? with
            | none => rfl
            | some k => simpa [hkind] using hk
          rw [List.filter_cons_of_neg (by simp [hi]), ← hbelow]
          simp only [flatMap_attach_entriesFrom]
          rw [enclosing?_eq, hi]
          simp only [scopeDepth, hi]
          rfl

/-! ## The report and its faults -/

/-- **The scope report by recursion on the document**, or the fault that keeps it from being made:
the root is of no supported kind, or it introduces no scope, or some node has a fault, of which
the first in pre-order counts. -/
def directReport (d : SyntaxNode) : Except Fault (List ScopeEntry) :=
  match d.kind? with
  | none => .error d.unsupported
  | some k =>
    if k.introducesScope then d.barring (d.preorder []) (d.entriesFrom [] none 0)
    else .error (.noEnclosingScope d.digest)

theorem directReport_of_introduces (hroot : d.introduces [] = true) :
    d.directReport = d.barring (d.preorder []) (d.entriesFrom [] none 0) := by
  obtain ⟨n, k, hn, hk, hi⟩ := introduces_eq_true.mp hroot
  cases hn
  rw [directReport, hk]
  exact if_pos hi

theorem allScopes_of_scopeOf_error {f : Fault} (h : d.scopeOf [] = .error f) :
    d.allScopes = .error f := by
  rw [allScopes, h]
  rfl

/-- **The report of a document is the recursion.** -/
theorem scopeReport_eq_directReport (d : SyntaxNode) : d.scopeReport = d.directReport := by
  cases hk : d.kind? with
  | none =>
      have hscope := scopeOf_of_kind?_eq_none d.valueAt?_nil hk
      rw [scopeReport, allScopes_of_scopeOf_error hscope, directReport, hk]
      rfl
  | some k =>
      have hintro := introduces_of_kind? d.valueAt?_nil hk
      cases hi : k.introducesScope with
      | false =>
          have hnone : d.enclosing? [] = none := by
            rw [enclosing?_eq, hintro, hi]
            rfl
          have hscope := scopeOf_of_enclosing?_eq_none d.valueAt?_nil hk hnone
          rw [scopeReport, allScopes_of_scopeOf_error hscope, directReport, hk]
          simp only [hi]
          rfl
      | true =>
          have hroot : d.introduces [] = true := hintro.trans hi
          rw [directReport_of_introduces hroot, scopeReport]
          cases hfault : d.firstFault (d.preorder []) with
          | none =>
              rw [allScopes_of_faultless hroot hfault, barring_of_none hfault]
              exact congrArg Except.ok (entriesFrom_eq d.valueAt?_nil).symm
          | some f =>
              rw [allScopes, scopeOf_nil hroot, below, preorderAt_nil, barring_of_some hfault,
                barring_of_some hfault]
              rfl

/-! ## How deep scopes are nested -/

theorem scopeDepth_le_length (d : SyntaxNode) (p : Position) : d.scopeDepth p ≤ p.length := by
  induction p with
  | nil => exact Nat.le_refl 0
  | cons s p ih =>
      rw [scopeDepth, List.length_cons]
      split <;> omega

/-- Every step down a document leaves an object behind. -/
theorem length_add_objectCount_le {n : SyntaxNode} {p : Position} (hp : p ∈ d.preorder [])
    (hn : d.valueAt? p = some n) : p.length + n.objectCount ≤ d.objectCount := by
  induction p generalizing n with
  | nil =>
      cases hn
      simp
  | cons s p ih =>
      obtain ⟨hp', m, c, hm, hb⟩ := tail_mem_preorder d.valueAt?_nil hp (List.cons_ne_nil s p)
      have hc : n = c := Option.some.inj (hn.symm.trans (valueAt?_branch hm hb))
      have hlt := objectCount_lt_of_mem_branches hb
      have hle := ih hp' hm
      rw [List.length_cons, hc]
      simp only at hlt
      omega

/-- The depth of a scope fits a word of a report. -/
theorem toNat_scopeDepth (hd : d.objectCount < 2 ^ 64) {p : Position} (hp : p ∈ d.preorder []) :
    (d.scopeDepth p).toUInt64.toNat = d.scopeDepth p := by
  obtain ⟨n, hn⟩ := exists_valueAt?_of_mem_preorder d.valueAt?_nil hp
  have hlen := length_add_objectCount_le hp hn
  have hdepth := d.scopeDepth_le_length p
  have hlt : d.scopeDepth p < 2 ^ 64 := by omega
  exact UInt64.toNat_ofNat_of_lt hlt

/-- In a document whose root introduces a scope, only the root has no scope around it. -/
theorem outer?_eq_none_iff (hroot : d.introduces [] = true) {p : Position}
    (hp : p ∈ d.preorder []) : d.outer? p = none ↔ p = [] := by
  constructor
  · intro hnone
    rw [← d.cons_tail_preorder [], List.mem_cons] at hp
    rcases hp with hp | hp
    · exact hp
    · obtain ⟨-, -, q, -, -, houter⟩ := scopeOf_parent_of_mem_tail d.valueAt?_nil hroot hp
      rw [hnone] at houter
      cases houter
  · rintro rfl
    rfl

end SyntaxNode

/-! ## The report of a tree -/

namespace Tree

variable {d : SyntaxNode} {t : Tree}

/-- **A row that is right about the scope at a position**, in the tree that the report leaves. -/
structure RowFor (d : SyntaxNode) (t : Tree) (row : ScopeRow) (p : Position) : Prop where
  /-- The words of the row are numbers of the tree. -/
  valid : row.Valid t
  scope : t.scopePosition row.id.toNat = p
  node : t.position row.node.toNat = p
  /-- The kind is the type of the node, and the name is the one that the node declares. -/
  source : ∃ n, d.valueAt? p = some n ∧ n.typeName? = some row.kind ∧
    row.name = n.declaredName?
  /-- The parent is the scope of the nearest node above that introduces one. -/
  parent : row.parent.map (fun w => t.scopePosition w.toNat) = d.outer? p
  parentless : row.parent = none ↔ p = []
  depth : row.depth.toNat = d.scopeDepth p
  /-- The identifiers are what the tree answers when asked for the names of the scope. -/
  identifiers : ∃ t', declaredNames row.id.toNat t = .ok row.identifiers t'

theorem Summarized.rowFor (h : t.Sound d) (hd : d.objectCount < 2 ^ 32)
    (hroot : d.introduces [] = true) (hfault : d.firstFault (d.preorder []) = none)
    {s : ScopeSummary} {p : Position} (hs : Summarized d t s p) : RowFor d t s.row p := by
  have hid : s.row.id.toNat = s.id := hs.id.toNat_word h hd
  have hnode : s.row.node.toNat = s.node := hs.node.toNat_word h.arena hd
  have hp : p ∈ d.preorder [] := hs.node.mem_preorder h.arena
  obtain ⟨hvalid, -⟩ := hs.entry h hd
  obtain ⟨-, hparent⟩ := hs.parent_row h hd
  refine ⟨hvalid, ?_, ?_, ?_, hparent, ?_, ?_, ?_⟩
  · rw [hid, hs.id.eq_scopePosition h.arena]
  · rw [hnode, hs.node.eq_position h.arena]
  · obtain ⟨n, hn, hk⟩ := Option.bind_eq_some_iff.mp hs.kind
    obtain ⟨name, hname, hof⟩ := Option.bind_eq_some_iff.mp hk
    have hdeclared := hs.name
    rw [hn, Option.bind_some] at hdeclared
    refine ⟨n, hn, ?_, hdeclared⟩
    rw [hname, ← Kind.name_of_ofName? hof]
    rfl
  · rw [← SyntaxNode.outer?_eq_none_iff hroot hp, ← hparent, Option.map_eq_none_iff]
  · have hd' : d.objectCount < 2 ^ 64 := by omega
    rw [← SyntaxNode.toNat_scopeDepth hd' hp, ← hs.depth]
    rfl
  · obtain ⟨names, t', hrun, -, hnames⟩ := (declaredNames_answers h hs.id).exists_of_ok
      (SyntaxNode.declaredNames_of_mem_preorder hfault hp)
    refine ⟨t', ?_⟩
    rw [hid, hrun, hnames, ← hs.identifiers]
    rfl

/-! ### One turn of the loop -/

theorem collectSummaries_append (ids ids' : List ScopeId) (summaries : Array ScopeSummary) :
    collectSummaries (ids ++ ids') summaries
      = collectSummaries ids summaries >>= collectSummaries ids' := by
  induction ids generalizing summaries with
  | nil => rw [List.nil_append, collectSummaries, pure_bind]
  | cons s ids ih =>
      rw [List.cons_append, collectSummaries, collectSummaries, bind_assoc]
      exact congrArg _ (funext fun summary => ih (summaries.push summary))

/-- **One turn of the loop over all scopes.** The summaries of the scopes before have been
collected, and the report goes on from there. The scope around the next one is found, its summary
is among those collected, and the names of the next scope are found, too. -/
theorem scopeReport_turn (h : t.Sound d) (hd : d.objectCount < 2 ^ 32)
    {ids done rest : List ScopeId} {s : ScopeId} {t₀ : Tree}
    (hall : allScopes t = .ok ids t₀) (hsplit : ids = done ++ s :: rest) :
    ∃ summaries t₁ outer t₂ names t₃, collectSummaries done #[] t₀ = .ok summaries t₁ ∧
      scopeReport t = ((fun all => all.toList.map ScopeSummary.row) <$>
        collectSummaries (s :: rest) summaries) t₁ ∧
      outerScope s t₁ = .ok outer t₂ ∧
      (∀ o ∈ outer, ∃ r ∈ summaries, r.id = o ∧ r.row.id.toNat = o) ∧
      declaredNames s t₂ = .ok names t₃ := by
  obtain ⟨all, hall', hmoves, hids⟩ : ∃ all, d.allScopes = .ok all ∧ t.Moves d t₀ ∧
      List.Forall₂ t₀.ScopeStands ids all := by
    have hanswers := allScopes_answers h
    cases hr : d.allScopes with
    | error f =>
        obtain ⟨t', hrun, -⟩ := hanswers.exists_of_error hr
        rw [hall] at hrun
        cases hrun
    | ok all =>
        obtain ⟨ids', t', hrun, hmoves, hids⟩ := hanswers.exists_of_ok hr
        rw [hall] at hrun
        cases hrun
        exact ⟨all, rfl, hmoves, hids⟩
  obtain ⟨hroot, hfault, -⟩ := SyntaxNode.faultless_of_allScopes hall'
  have h₀ := h.moves hmoves
  rw [hsplit] at hids
  obtain ⟨before, p, after, rfl, hbefore, hs⟩ := split_of_forall₂ hids
  have hnone : List.Forall₂ (Summarized d t₀) (#[] : Array ScopeSummary).toList [] := .nil
  obtain ⟨summaries, t₁, hrun₁, hmoves₁, hsum⟩ := collectSummaries_answers h₀ hall'
    (List.nil_append _).symm hbefore hnone
  rw [List.nil_append] at hsum
  have h₁ := h₀.moves hmoves₁
  have hs₁ := hs.extend hmoves₁.extends
  have hp : p ∈ d.preorder [] := by
    obtain ⟨r, -, hstands⟩ := hs₁
    exact hstands.mem_preorder h₁.arena
  obtain ⟨outer, t₂, hrun₂, hmoves₂, hrel⟩ := (outerScope_answers h₁ hs₁).exists_of_ok
    (SyntaxNode.outerScope_of_mem_preorder hroot hp)
  have h₂ := h₁.moves hmoves₂
  obtain ⟨names, t₃, hrun₃, -⟩ :=
    (declaredNames_answers h₂ (hs₁.extend hmoves₂.extends)).exists_of_ok
      (SyntaxNode.declaredNames_of_mem_preorder hfault hp)
  refine ⟨summaries, t₁, outer, t₂, names, t₃, hrun₁, ?_, hrun₂, ?_, hrun₃⟩
  · rw [scopeReport, scopeSummaries, bind_assoc, bind_of_ok hall, hsplit, collectSummaries_append,
      bind_assoc, bind_assoc, bind_of_ok hrun₁, map_eq_pure_bind]
    simp only [pure_bind]
  · -- the scope around comes earlier in pre-order, so its summary has been collected
    rintro o ho
    rw [Option.mem_def.mp ho] at hrel
    cases hq : d.outer? p with
    | none => rw [hq] at hrel; cases hrel
    | some q =>
        rw [hq] at hrel
        cases hrel with
        | some hoq =>
            obtain ⟨r, hr, hrq⟩ :=
              exists_of_mem_right hsum (outer_mem_of_allScopes hall' rfl hp hq)
            have hro : r.id = o := (hrq.id.extend hmoves₂.extends).inj h₂.scopes hoq
            exact ⟨r, Array.mem_toList_iff.mp hr, hro, hro ▸ hrq.id.toNat_word h₁ hd⟩

/-! ### The whole report -/

/-- **What the scope report of a tree is**, in terms of the document `d` alone. -/
structure ReportRefines (d : SyntaxNode) (t : Tree) : Prop where
  /-- There is a report exactly if the root introduces a scope and every node has its children. -/
  succeeds : (∃ rows t', scopeReport t = .ok rows t') ↔
    d.introduces [] = true ∧
      ∀ p ∈ d.preorder [], ∀ n, d.valueAt? p = some n → ∃ cs, n.children = .ok cs
  /-- The rows are the recursion on the document, read back from words to positions. There is one
  row for each node that introduces a scope, in pre-order. -/
  rows : ∀ rows t', scopeReport t = .ok rows t' →
    rows.map (ScopeRow.entry t') = d.entriesFrom [] none 0 ∧
      List.Forall₂ (RowFor d t') rows ((d.preorder []).filter d.introduces)
  /-- A root of unsupported kind is the first thing that can be wrong. -/
  unsupported : d.kind? = none → ∃ t', scopeReport t = .error (.fault d.unsupported) t'
  /-- The next is a root that introduces no scope. -/
  unscoped : ∀ k, d.kind? = some k → k.introducesScope = false →
    ∃ t', scopeReport t = .error (.fault (.noEnclosingScope d.digest)) t'
  /-- Last comes the first node in pre-order that does not have its children. -/
  fault : d.introduces [] = true → ∀ f, d.firstFault (d.preorder []) = some f →
    ∃ t', scopeReport t = .error (.fault f) t'
  /-- Once all scopes have been found, no turn of the loop over them fails, and at each turn the
  summary of the scope around is there already, under the number and, in its row, the word of that
  scope. -/
  turn : ∀ ids t₀, allScopes t = .ok ids t₀ → ∀ done s rest, ids = done ++ s :: rest →
    ∃ summaries t₁ outer t₂ names t₃, collectSummaries done #[] t₀ = .ok summaries t₁ ∧
      scopeReport t = ((fun all => all.toList.map ScopeSummary.row) <$>
        collectSummaries (s :: rest) summaries) t₁ ∧
      outerScope s t₁ = .ok outer t₂ ∧
      (∀ o ∈ outer, ∃ r ∈ summaries, r.id = o ∧ r.row.id.toNat = o) ∧
      declaredNames s t₂ = .ok names t₃

theorem scopeReport_of_directReport_error (h : t.Sound d) {f : Fault}
    (hf : d.directReport = .error f) : ∃ t', scopeReport t = .error (.fault f) t' := by
  obtain ⟨t', hrun, -⟩ := (scopeReport_answers h).exists_of_error
    ((SyntaxNode.scopeReport_eq_directReport d).trans hf)
  exact ⟨t', hrun⟩

end Tree

/-- **The scope report refines a recursion on the document**, in every reachable tree: whatever
has been asked before, and in whatever order the scopes have been opened. -/
theorem Reachable.scopeReport_refines {d : SyntaxNode} (hd : d.objectCount < 2 ^ 32) {t : Tree}
    (h : Reachable d t) : t.ReportRefines d where
  succeeds := by
    constructor
    · rintro ⟨rows, t', hrun⟩
      obtain ⟨-, -, -, -, hroot, hfault, -⟩ := Tree.summarized_of_scopeReport h.sound hrun
      exact ⟨hroot, SyntaxNode.firstFault_eq_none.mp hfault⟩
    · rintro ⟨hroot, hfaultless⟩
      obtain ⟨summaries, t', hrun, -⟩ := Tree.scopeSummaries_of_allScopes h.sound
        (SyntaxNode.allScopes_of_faultless hroot (SyntaxNode.firstFault_eq_none.mpr hfaultless))
      exact ⟨_, t', Tree.scopeReport_of_ok hrun⟩
  rows := by
    intro rows t' hrun
    obtain ⟨summaries, -, rfl, h', hroot, hfault, hsum⟩ :=
      Tree.summarized_of_scopeReport h.sound hrun
    constructor
    · rw [(Tree.entries_of_summarized h' hd hsum).2]
      exact (SyntaxNode.entriesFrom_eq d.valueAt?_nil).symm
    · exact List.forall₂_map_left_iff.mpr
        (hsum.imp fun _ _ hs => hs.rowFor h' hd hroot hfault)
  unsupported := by
    intro hk
    refine Tree.scopeReport_of_directReport_error h.sound ?_
    rw [SyntaxNode.directReport, hk]
  unscoped := by
    intro k hk hi
    refine Tree.scopeReport_of_directReport_error h.sound ?_
    rw [SyntaxNode.directReport, hk]
    simp only [hi]
    rfl
  fault := by
    intro hroot f hf
    refine Tree.scopeReport_of_directReport_error h.sound ?_
    rw [SyntaxNode.directReport_of_introduces hroot, SyntaxNode.barring_of_some hf]
  turn := by
    intro ids t₀ hall done s rest hsplit
    exact Tree.scopeReport_turn h.sound hd hall hsplit

/-- The report of a tree in which the scopes have been opened in another order: the function's
first, then the program's. The program comes first in the report nevertheless, and its row is the
one that the function's refers to. -/
theorem Sample.scopeReport_refines_walked :
    Sample.program.objectCount < 2 ^ 32 ∧
      Reachable Sample.program ((Question.scopeOf 2).after Sample.walked) ∧
      ((Question.scopeOf 2).after Sample.walked).scopePosition 0 ≠ [] ∧
      ((Question.scopeOf 2).after Sample.walked).ReportRefines Sample.program ∧
      ∃ t', Tree.scopeReport ((Question.scopeOf 2).after Sample.walked) = .ok [
          { id := 1, kind := "Program", name := none, node := 0, parent := none, depth := 0
            identifiers := ["x", "f"] },
          { id := 0, kind := "FunctionDeclaration", name := some "f", node := 2
            parent := some 1, depth := 1, identifiers := ["y"] }] t' := by
  have hd : Sample.program.objectCount < 2 ^ 32 := by decide +kernel
  have h : Reachable Sample.program ((Question.scopeOf 2).after Sample.walked) :=
    .ask _ Sample.reachable_walked (by decide +kernel)
  exact ⟨hd, h, by decide +kernel, Reachable.scopeReport_refines hd h,
    exists_of_answer? (by decide +kernel)⟩

end LexicalScope
