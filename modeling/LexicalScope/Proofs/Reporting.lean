import LexicalScope.Proofs.Scoping
import LexicalScope.Tree.Rows

set_option autoImplicit false

/-! # Scope reports answer as the document says

A report is made in the numbers of the tree. Scopes come in pre-order, hence the summary of the
scope around is always there already, and the depth in a summary is `SyntaxNode.scopeDepth`.

Rows name nodes and scopes by 32-bit words. In a document of fewer than 2^32 objects no two
numbers of a tree share a word, so every word can be read back as a position (`ScopeRow.entry`).
-/

namespace LexicalScope

open Query

/-- What a report says about a scope, with positions in the document in place of words. -/
structure ScopeEntry where
  scope : Position
  kind : String
  name : Option String
  node : Position
  parent : Option Position
  depth : UInt64
  identifiers : List String
deriving DecidableEq

/-- A row with its words read back as positions. -/
def ScopeRow.entry (t : Tree) (r : ScopeRow) : ScopeEntry where
  scope := t.scopePosition r.id.toNat
  kind := r.kind
  name := r.name
  node := t.position r.node.toNat
  parent := r.parent.map fun w => t.scopePosition w.toNat
  depth := r.depth
  identifiers := r.identifiers

/-- A row whose words are numbers of the tree. -/
def ScopeRow.Valid (t : Tree) (r : ScopeRow) : Prop :=
  r.id.toNat < t.scopeCount ∧ r.node.toNat < t.size ∧ ∀ w ∈ r.parent, w.toNat < t.scopeCount

namespace SyntaxNode

/-- What a report says about the scope at a position. -/
def scopeEntry? (d : SyntaxNode) (p : Position) : Option ScopeEntry := do
  let n ← d.valueAt? p
  let k ← n.kind?
  return {
    scope := p
    kind := k
    name := n.declaredName?
    node := p
    parent := d.outer? p
    depth := (d.scopeDepth p).toUInt64
    identifiers := d.names p }

/-- The report on all scopes, from the document alone. -/
def scopeReport (d : SyntaxNode) : Except Fault (List ScopeEntry) := do
  let ps ← d.allScopes
  return ps.filterMap d.scopeEntry?

end SyntaxNode

namespace Tree

variable {d : SyntaxNode} {t : Tree}

/-! ## Words -/

theorem toNat_toUInt32_of_lt {count i : Nat} (hd : d.objectCount < 2 ^ 32)
    (hcount : count ≤ max 1 d.objectCount) (hi : i < count) : i.toUInt32.toNat = i := by
  have hlt : i < 2 ^ 32 := by omega
  exact UInt32.toNat_ofNat_of_lt hlt

/-- The word of a node, read back, is its number. -/
theorem Stands.toNat_word (h : t.Mirrors d) (hd : d.objectCount < 2 ^ 32) {i : NodeId}
    {p : Position} (hi : t.Stands i p) : i.toUInt32.toNat = i :=
  toNat_toUInt32_of_lt hd h.size_le (hi.lt_size h)

/-- The word of a scope, read back, is its number. -/
theorem ScopeStands.toNat_word (h : t.Sound d) (hd : d.objectCount < 2 ^ 32) {s : ScopeId}
    {p : Position} (hs : t.ScopeStands s p) : s.toUInt32.toNat = s :=
  toNat_toUInt32_of_lt hd (h.scopes.scopeCount_le h.arena) hs.lt_scopeCount

/-! ## Summaries -/

/-- A summary that says what the document says about the scope at a position. -/
structure Summarized (d : SyntaxNode) (t : Tree) (s : ScopeSummary) (p : Position) : Prop where
  id : t.ScopeStands s.id p
  kind : (d.valueAt? p).bind SyntaxNode.kind? = some s.kind
  name : s.name = (d.valueAt? p).bind SyntaxNode.declaredName?
  node : t.Stands s.node p
  parent : Option.Rel t.ScopeStands s.parent (d.outer? p)
  depth : s.depth = d.scopeDepth p
  identifiers : s.identifiers = d.names p

namespace Summarized

variable {s : ScopeSummary} {p : Position}

theorem extend {t' : Tree} (hx : t.Extends t') (h : Summarized d t s p) :
    Summarized d t' s p where
  id := h.id.extend hx
  kind := h.kind
  name := h.name
  node := h.node.extend hx
  parent := rel_imp (fun _ _ hs => hs.extend hx) h.parent
  depth := h.depth
  identifiers := h.identifiers

/-- The words in the row for the scope around, read back. -/
theorem parent_row (h : t.Sound d) (hd : d.objectCount < 2 ^ 32) (hs : Summarized d t s p) :
    (∀ w ∈ s.row.parent, w.toNat < t.scopeCount) ∧
      s.row.parent.map (fun w => t.scopePosition w.toNat) = d.outer? p := by
  have hword : Option.Rel (fun w q => t.ScopeStands w.toNat q) s.row.parent (d.outer? p) := by
    rw [← Option.map_id' (x := d.outer? p)]
    refine rel_map (fun o q ho => ?_) hs.parent
    rw [ho.toNat_word h hd]
    exact ho
  exact read_of_rel (fun _ _ ho => ⟨ho.lt_scopeCount, ho.eq_scopePosition h.arena⟩) hword

/-- **A row read back is the entry of the document.** -/
theorem entry (h : t.Sound d) (hd : d.objectCount < 2 ^ 32) (hs : Summarized d t s p) :
    s.row.Valid t ∧ d.scopeEntry? p = some (s.row.entry t) := by
  obtain ⟨n, hn, hp⟩ := hs.node.exists_node h.arena
  have hid : s.row.id.toNat = s.id := hs.id.toNat_word h hd
  have hnode : s.row.node.toNat = s.node := hs.node.toNat_word h.arena hd
  obtain ⟨hvalid, hparent⟩ := hs.parent_row h hd
  refine ⟨⟨hid ▸ hs.id.lt_scopeCount, hnode ▸ lt_size_of_node? hn, hvalid⟩, ?_⟩
  have hkind := hs.kind
  have hname := hs.name
  rw [hp, Option.bind_some] at hkind hname
  simp only [ScopeRow.entry, hid, hnode, hparent, hs.id.eq_scopePosition h.arena,
    hs.node.eq_position h.arena]
  simp [SyntaxNode.scopeEntry?, hp, hkind, ScopeSummary.row, hname, hs.depth, hs.identifiers]

end Summarized

/-- Rows read back are the entries of their positions. -/
theorem entries_of_summarized (h : t.Sound d) (hd : d.objectCount < 2 ^ 32)
    {summaries : List ScopeSummary} {ps : List Position}
    (hs : List.Forall₂ (Summarized d t) summaries ps) :
    (∀ r ∈ summaries.map ScopeSummary.row, r.Valid t) ∧
      (summaries.map ScopeSummary.row).map (ScopeRow.entry t)
        = ps.filterMap d.scopeEntry? := by
  induction hs with
  | nil => exact ⟨by simp, rfl⟩
  | cons hs _ ih =>
      obtain ⟨hvalid, hentry⟩ := hs.entry h hd
      refine ⟨List.forall_mem_cons.mpr ⟨hvalid, ih.1⟩, ?_⟩
      rw [List.filterMap_cons, hentry, List.map_cons, List.map_cons, ih.2]

/-! ## The summary of a scope -/

/-- The summary of a scope is found by its number among those before. -/
theorem find?_of_summarized (h : t.Sound d) {before : Array ScopeSummary} {done : List Position}
    (hbefore : List.Forall₂ (Summarized d t) before.toList done) {o : ScopeId} {q : Position}
    (ho : t.ScopeStands o q) (hq : q ∈ done) :
    ∃ s, (before.find? fun s => s.id == o) = some s ∧ Summarized d t s q := by
  rw [← Array.find?_toList]
  obtain ⟨s, hmem, hs⟩ := exists_of_mem_right hbefore hq
  have hid : (s.id == o) = true := beq_iff_eq.mpr (hs.id.inj h.scopes ho)
  have hsome : (before.toList.find? fun s => s.id == o).isSome = true :=
    List.find?_isSome.mpr ⟨s, hmem, hid⟩
  obtain ⟨found, hfound⟩ := Option.isSome_iff_exists.mp hsome
  obtain ⟨q', -, hs'⟩ := exists_of_mem_left hbefore (List.mem_of_find?_eq_some hfound)
  have hid' : found.id = o := by simpa using List.find?_some hfound
  have heq : q' = q := (hid' ▸ hs'.id).unique h.arena ho
  exact ⟨found, hfound, heq ▸ hs'⟩

/-- The depth in a summary, one more than in that of the scope around. -/
theorem depth_of_summarized (h : t.Sound d) {before : Array ScopeSummary} {done : List Position}
    (hbefore : List.Forall₂ (Summarized d t) before.toList done) {outer : Option ScopeId}
    {p : Position} (houter : Option.Rel t.ScopeStands outer (d.outer? p))
    (hdone : ∀ q, d.outer? p = some q → q ∈ done) :
    (outer.bind fun o => before.find? fun s => s.id == o).elim 0 (fun s => s.depth + 1)
      = d.scopeDepth p := by
  rw [d.scopeDepth_eq p]
  generalize d.outer? p = around at houter hdone
  cases houter with
  | none => rfl
  | @some o q ho =>
      obtain ⟨s, hfind, hs⟩ := find?_of_summarized h hbefore ho (hdone q rfl)
      rw [Option.bind_some, hfind, Option.elim_some, Option.elim_some, hs.depth]

/-- **The summary of a scope says what the document says**, when the summary of the scope around
stands before it. -/
theorem scopeSummary_answers (h : t.Sound d) {s : ScopeId} {p : Position} (hs : t.ScopeStands s p)
    (houter : d.outerScope p = .ok (d.outer? p)) (hnames : d.declaredNames p = .ok (d.names p))
    {before : Array ScopeSummary} {done : List Position}
    (hbefore : List.Forall₂ (Summarized d t) before.toList done)
    (hdone : ∀ q, d.outer? p = some q → q ∈ done) :
    (scopeSummary s before).Answers d t (.ok p) (Summarized d) := by
  obtain ⟨outer, t₁, hrun₁, hmoves₁, hrel⟩ := (outerScope_answers h hs).exists_of_ok houter
  have h₁ := h.moves hmoves₁
  have hs₁ := hs.extend hmoves₁.extends
  obtain ⟨names, t₂, hrun₂, hmoves₂, rfl⟩ := (declaredNames_answers h₁ hs₁).exists_of_ok hnames
  have hx : t.Extends t₂ := hmoves₁.extends.trans hmoves₂.extends
  have h₂ := h₁.moves hmoves₂
  have hs₂ := hs₁.extend hmoves₂.extends
  obtain ⟨r, hr, hp⟩ := hs
  obtain ⟨n, hn, hvalue⟩ := hp.exists_node h.arena
  obtain ⟨-, n', hn', hkind, -⟩ := h.scopes.record hr
  rw [hn] at hn'
  cases hn'
  rw [scopeSummary]
  refine .bind_ok (scopeAt_of_scope? hr) .refl (.bind_ok (nodeAt_of_node? hn) .refl ?_)
  refine .bind_ok hrun₁ hmoves₁ (.bind_ok hrun₂ hmoves₂ (.pure ?_))
  have hparent : Option.Rel t₂.ScopeStands outer (d.outer? p) :=
    rel_imp (fun _ _ hq => hq.extend hmoves₂.extends) hrel
  have hbefore₂ := hbefore.imp fun _ _ hsum => hsum.extend hx
  exact {
    id := hs₂
    kind := by rw [hvalue, Option.bind_some, ← h.arena.kind hn, hkind]
    name := by rw [hvalue, Option.bind_some]
    node := hp.extend hx
    parent := hparent
    depth := depth_of_summarized h₂ hbefore₂ hparent hdone
    identifiers := rfl }

/-! ## All summaries -/

/-- The scope around a scope comes before it. -/
theorem outer_mem_of_pairwise {done rest : List Position} {p q : Position}
    (hpair : (done ++ p :: rest).Pairwise fun a b => ¬ b <:+ a) (hout : d.outer? p = some q)
    (hmem : q ∈ done ++ p :: rest) : q ∈ done := by
  cases p with
  | nil => cases hout
  | cons s p =>
      have hsuf : q <:+ p := SyntaxNode.suffix_of_enclosing? hout
      have hlt := hsuf.length_le
      rcases List.mem_append.mp hmem with hq | hq
      · exact hq
      · obtain ⟨-, hrest, -⟩ := List.pairwise_append.mp hpair
        rcases List.mem_cons.mp hq with rfl | hq
        · rw [List.length_cons] at hlt
          omega
        · exact absurd (hsuf.trans (List.suffix_cons s p)) ((List.pairwise_cons.mp hrest).1 q hq)

/-- The scopes of a document come in pre-order, so the one around a scope is listed before it. -/
theorem outer_mem_of_allScopes {all done rest : List Position} {p q : Position}
    (hall : d.allScopes = .ok all) (hsplit : all = done ++ p :: rest) (hp : p ∈ d.preorder [])
    (hout : d.outer? p = some q) : q ∈ done := by
  obtain ⟨-, -, rfl⟩ := SyntaxNode.faultless_of_allScopes hall
  have hpair := (d.pairwise_preorder []).filter d.introduces
  have hmem := SyntaxNode.mem_filter_of_outer? hp hout
  rw [hsplit] at hpair hmem
  exact outer_mem_of_pairwise hpair hout hmem

/-- Summaries collected from a part of all scopes, after those before. -/
theorem collectSummaries_answers (h : t.Sound d) {ids : List ScopeId}
    {done part rest all : List Position} (hall : d.allScopes = .ok all)
    (hsplit : all = done ++ (part ++ rest)) (hids : List.Forall₂ t.ScopeStands ids part)
    {before : Array ScopeSummary} (hbefore : List.Forall₂ (Summarized d t) before.toList done) :
    (collectSummaries ids before).Answers d t (.ok (done ++ part)) fun t' summaries ps =>
      List.Forall₂ (Summarized d t') summaries.toList ps := by
  induction ids generalizing t done part before with
  | nil =>
      cases hids
      rw [List.append_nil]
      exact .pure hbefore
  | cons s ids ih =>
      cases hids with
      | @cons _ p _ part hs hids =>
          obtain ⟨hroot, hfault, -⟩ := SyntaxNode.faultless_of_allScopes hall
          have hp : p ∈ d.preorder [] := by
            obtain ⟨r, -, hp⟩ := hs
            exact hp.mem_preorder h.arena
          obtain ⟨sum, t', hrun, hmoves, hsum⟩ := scopeSummary_answers h hs
            (SyntaxNode.outerScope_of_mem_preorder hroot hp)
            (SyntaxNode.declaredNames_of_mem_preorder hfault hp) hbefore
            fun q hq => outer_mem_of_allScopes hall hsplit hp hq
          have hx := hmoves.extends
          have hbefore' : List.Forall₂ (Summarized d t') (before.push sum).toList
              (done ++ [p]) := by
            rw [Array.toList_push]
            exact List.rel_append (hbefore.imp fun _ _ hr => hr.extend hx) (.cons hsum .nil)
          have hsplit' : all = (done ++ [p]) ++ (part ++ rest) := by
            rw [hsplit, List.append_assoc, List.cons_append, List.singleton_append]
          have hrest := ih (h.moves hmoves) hsplit' (hids.imp fun _ _ hj => hj.extend hx) hbefore'
          rw [List.append_assoc, List.singleton_append] at hrest
          rw [collectSummaries]
          exact .bind_ok hrun hmoves hrest

/-- **A document that has all its scopes has a summary of each of them.** -/
theorem scopeSummaries_of_allScopes (h : t.Sound d) {all : List Position}
    (hall : d.allScopes = .ok all) :
    ∃ summaries t', scopeSummaries t = .ok summaries t' ∧ t.Moves d t' ∧
      List.Forall₂ (Summarized d t') summaries all := by
  obtain ⟨ids, t', hrun, hmoves, hids⟩ := (allScopes_answers h).exists_of_ok hall
  have hnone : List.Forall₂ (Summarized d t') (#[] : Array ScopeSummary).toList [] := .nil
  have hsplit : all = [] ++ (all ++ []) := by rw [List.append_nil, List.nil_append]
  obtain ⟨summaries, t'', hrun', hmoves', hsum⟩ :=
    collectSummaries_answers (h.moves hmoves) hall hsplit hids hnone
  refine ⟨summaries.toList, t'', ?_, hmoves.trans hmoves', hsum⟩
  rw [scopeSummaries, bind_of_ok hrun, bind_of_ok hrun']
  rfl

/-! ## The report -/

/-- The report puts the summaries into rows. -/
theorem scopeReport_of_ok {t' : Tree} {summaries : List ScopeSummary}
    (h : scopeSummaries t = .ok summaries t') :
    scopeReport t = .ok (summaries.map ScopeSummary.row) t' :=
  bind_of_ok h

theorem scopeReport_of_error {t' : Tree} {e : QueryError} (h : allScopes t = .error e t') :
    scopeReport t = .error e t' :=
  bind_of_error (bind_of_error h)

/-- **A report that succeeds** is made of a summary of each position that introduces a scope, the
root among them, in a document without a fault. -/
theorem summarized_of_scopeReport (h : t.Sound d) {rows : List ScopeRow} {t' : Tree}
    (hrun : scopeReport t = .ok rows t') :
    ∃ summaries, scopeSummaries t = .ok summaries t' ∧ rows = summaries.map ScopeSummary.row ∧
      t'.Sound d ∧ d.introduces [] = true ∧ d.firstFault (d.preorder []) = none ∧
      List.Forall₂ (Summarized d t') summaries ((d.preorder []).filter d.introduces) := by
  cases hall : d.allScopes with
  | error f =>
      obtain ⟨t'', hrun', -⟩ := (allScopes_answers h).exists_of_error hall
      rw [scopeReport_of_error hrun'] at hrun
      cases hrun
  | ok all =>
      obtain ⟨summaries, t'', hrun', hmoves, hsum⟩ := scopeSummaries_of_allScopes h hall
      rw [scopeReport_of_ok hrun'] at hrun
      cases hrun
      obtain ⟨hroot, hfault, rfl⟩ := SyntaxNode.faultless_of_allScopes hall
      exact ⟨summaries, hrun', rfl, h.moves hmoves, hroot, hfault, hsum⟩

/-- **The scope report answers as the document says.** -/
theorem scopeReport_answers (h : t.Sound d) :
    scopeReport.Answers d t d.scopeReport fun t' rows entries =>
      d.objectCount < 2 ^ 32 →
        (∀ r ∈ rows, r.Valid t') ∧ rows.map (ScopeRow.entry t') = entries := by
  rw [SyntaxNode.scopeReport]
  cases hall : d.allScopes with
  | error f =>
      obtain ⟨t', hrun, hmoves⟩ := (allScopes_answers h).exists_of_error hall
      exact ⟨t', scopeReport_of_error hrun, hmoves⟩
  | ok all =>
      obtain ⟨summaries, t', hrun, hmoves, hsum⟩ := scopeSummaries_of_allScopes h hall
      exact ⟨_, t', scopeReport_of_ok hrun, hmoves,
        fun hd => entries_of_summarized (h.moves hmoves) hd hsum⟩

end Tree

end LexicalScope
