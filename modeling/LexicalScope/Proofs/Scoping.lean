import LexicalScope.Proofs.Walking
import LexicalScope.Tree.Scoping

set_option autoImplicit false

/-! # Scopes answer as the document says

`Tree.scopeOf`, `Tree.outerScope`, `Tree.declaredNames` and `Tree.allScopes`, asked of any tree
that agrees with the document, give what the document alone says, under the numbers of that tree.

The climb of `scopeOf` is cut in two. `climb_cases` follows it from step to step (`climb_step`) and
says where it lands without changing the tree, and `moves_foldl_rememberScope` says that
remembering the scope down the way just climbed is a sequence of moves, each node taking over what
its parent remembers by then.
-/

namespace LexicalScope

open Query

namespace Tree

variable {d : SyntaxNode} {t : Tree}

/-! ## The climb -/

/-- The way down from a node that a climb has passed, nearest node first: each hangs from the one
before, and none introduces a scope. -/
def Hangs (t : Tree) : NodeId → List NodeId → Prop
  | _, [] => True
  | j, x :: passed =>
    (∃ n k, t.node? x = some n ∧ n.kind = some k ∧ k.introducesScope = false ∧
      n.parent = some j) ∧ t.Hangs x passed

/-- A landing at a node: its scope is known, or it introduces one that is not opened yet. -/
def LandsAt (t : Tree) (j : NodeId) : Landing → Prop
  | .known s => t.HasScope j s
  | .introduces i k => i = j ∧ ∃ n, t.node? j = some n ∧ n.scope = none ∧ n.kind = some k ∧
      k.introducesScope = true

theorem hangs_nil (t : Tree) (j : NodeId) : t.Hangs j [] := trivial

theorem Hangs.extend {t t' : Tree} (hx : t.Extends t') {j : NodeId} {passed : List NodeId}
    (h : t.Hangs j passed) : t'.Hangs j passed := by
  induction passed generalizing j with
  | nil => trivial
  | cons x passed ih =>
      obtain ⟨⟨n, k, hn, hk, hi, hpar⟩, hrest⟩ := h
      obtain ⟨n', hn', hkeep⟩ := hx.node hn
      exact ⟨⟨n', k, hn', hkeep.kind.trans hk, hi, hkeep.parent.trans hpar⟩, ih hrest⟩

theorem unscoped_eq (h : t.Mirrors d) : t.unscoped = .fault (.noEnclosingScope d.digest) := by
  obtain ⟨n, hn, hsrc, -⟩ := h.root
  rw [unscoped, hn, ← hsrc]

/-- **One step of a climb** from a node that is there. It lands if the scope of the node is known or
the node introduces one, fails if the kind of the node is unsupported or nothing is above it, and
goes on at the parent otherwise. -/
theorem climb_step (bound : Nat) {i : NodeId} {n : Node} (hn : t.node? i = some n)
    (passed : List NodeId) :
    (∃ s, n.scope = some s ∧ t.climb (bound + 1) i passed = .ok (.known s, passed)) ∨
    n.scope = none ∧
      ((n.kind = none ∧
        t.climb (bound + 1) i passed = .error (.fault n.source.unsupported)) ∨
      ∃ k, n.kind = some k ∧
        (k.introducesScope = true ∧
            t.climb (bound + 1) i passed = .ok (.introduces i k, passed) ∨
          k.introducesScope = false ∧
            (n.parent = none ∧ t.climb (bound + 1) i passed = .error t.unscoped ∨
              ∃ p, n.parent = some p ∧
                t.climb (bound + 1) i passed = t.climb bound p (i :: passed)))) := by
  simp only [climb, hn]
  cases n.scope with
  | some s => exact Or.inl ⟨s, rfl, rfl⟩
  | none =>
      refine Or.inr ⟨rfl, ?_⟩
      cases n.kind with
      | none => exact Or.inl ⟨rfl, rfl⟩
      | some k =>
          refine Or.inr ⟨k, rfl, ?_⟩
          cases hintro : k.introducesScope with
          | true => exact Or.inl ⟨rfl, by simp [hintro]⟩
          | false =>
              refine Or.inr ⟨rfl, ?_⟩
              cases n.parent with
              | none => exact Or.inl ⟨rfl, by simp [hintro]⟩
              | some p => exact Or.inr ⟨p, rfl, by simp [hintro]⟩

/-- **Where a climb ends.** It fails exactly as the document says, or it lands at a node from
which all that it has passed hangs. -/
theorem climb_cases (bound : Nat) (h : t.Sound d) {i : NodeId} {p : Position}
    {passed : List NodeId} (hi : t.Stands i p) (hb : i < bound) (hpassed : t.Hangs i passed) :
    (∃ f, t.climb bound i passed = .error (.fault f) ∧ d.scopeOf p = .error f) ∨
    ∃ landing passed' j, t.climb bound i passed = .ok (landing, passed') ∧ t.LandsAt j landing ∧
      t.Hangs j passed' ∧ i :: passed ⊆ j :: passed' := by
  induction bound generalizing i p passed with
  | zero => exact absurd hb (Nat.not_lt_zero _)
  | succ bound ih =>
      obtain ⟨n, hn, hp⟩ := hi.exists_node h.arena
      have hkind := h.arena.kind hn
      rcases climb_step bound hn passed with ⟨s, hscope, hclimb⟩ | ⟨hscope, ⟨hk, hclimb⟩ |
        ⟨k, hk, ⟨hintro, hclimb⟩ | ⟨hnot, ⟨hpar, hclimb⟩ | ⟨j, hpar, hclimb⟩⟩⟩⟩
      · exact Or.inr ⟨_, _, i, hclimb, ⟨n, hn, hscope⟩, hpassed, List.Subset.refl _⟩
      · rw [hk] at hkind
        exact Or.inl ⟨_, hclimb, SyntaxNode.scopeOf_of_kind?_eq_none hp hkind.symm⟩
      · exact Or.inr ⟨_, _, i, hclimb, ⟨rfl, n, hn, hscope, hk, hintro⟩, hpassed,
          List.Subset.refl _⟩
      · rw [hk] at hkind
        cases p with
        | nil =>
            -- the root introduces no scope, and nothing is above it
            have hnone : d.enclosing? [] = none := by
              rw [SyntaxNode.enclosing?, SyntaxNode.introduces_of_kind? hp hkind.symm, hnot]
              rfl
            rw [unscoped_eq h.arena] at hclimb
            exact Or.inl ⟨_, hclimb, SyntaxNode.scopeOf_of_enclosing?_eq_none hp hkind.symm hnone⟩
        | cons s p =>
            obtain ⟨j, -, -, hpar', -⟩ := hi.parent_of_cons h.arena hn
            rw [hpar] at hpar'
            cases hpar'
      · rw [hk] at hkind
        cases p with
        | nil =>
            rw [hi.parent_of_nil h.arena hn] at hpar
            cases hpar
        | cons s p =>
            obtain ⟨j', m, cs, hpar', hlt, hj, hm, hcs⟩ := hi.parent_of_cons h.arena hn
            rw [hpar] at hpar'
            cases hpar'
            obtain ⟨k', hk'⟩ := SyntaxNode.kind?_of_children hcs
            have hhangs : t.Hangs j (i :: passed) := ⟨⟨n, k, hn, hk, hnot, hpar⟩, hpassed⟩
            have hjb : j < bound := Nat.lt_of_lt_of_le hlt (Nat.le_of_lt_succ hb)
            rw [hclimb,
              SyntaxNode.scopeOf_cons hp hkind.symm hnot (hj.valueAt? h.arena hm) hk']
            rcases ih hj hjb hhangs with
              hfail | ⟨landing, passed', j', hok, hland, hhangs', hsub⟩
            · exact Or.inl hfail
            · exact Or.inr ⟨landing, passed', j', hok, hland, hhangs',
                fun x hx => hsub (List.mem_cons_of_mem _ hx)⟩

/-- Opening the scope at a landing is a move, if it is not open already. -/
theorem moves_land (d : SyntaxNode) {j : NodeId} {landing : Landing} (h : t.LandsAt j landing) :
    t.Moves d (t.land landing).2 ∧ (t.land landing).2.HasScope j (t.land landing).1 := by
  cases landing with
  | known s => exact ⟨.refl, h⟩
  | introduces i k =>
      obtain ⟨rfl, n, hn, hnone, hk, hintro⟩ := h
      refine ⟨.single (.openScope hn hnone hk hintro), { n with scope := some t.scopes.size }, ?_,
        rfl⟩
      rw [land, node?_openScope, if_pos rfl, hn]
      rfl

/-- **Remembering a scope down the way climbed** is a sequence of moves, after which every node
passed has the scope. -/
theorem moves_foldl_rememberScope (h : t.Sound d) {j : NodeId} {s : ScopeId}
    {passed : List NodeId} (hj : t.HasScope j s) (hpassed : t.Hangs j passed) :
    t.Moves d (passed.foldl (fun t n => t.rememberScope n s) t) ∧
      ∀ x ∈ j :: passed, (passed.foldl (fun t n => t.rememberScope n s) t).HasScope x s := by
  induction passed generalizing t j with
  | nil =>
      refine ⟨.refl, fun x hx => ?_⟩
      rw [List.mem_singleton.mp hx]
      exact hj
  | cons x passed ih =>
      obtain ⟨⟨n, k, hn, hk, hnot, hpar⟩, hrest⟩ := hpassed
      -- a scope that the node remembers already is that of its parent
      have hsame : ∀ s', n.scope = some s' → s' = s := by
        intro s' hs'
        obtain ⟨k', hk', ⟨hintro, -⟩ | ⟨-, j', hpar', hj'⟩⟩ := h.scopes.cached hn hs'
        · rw [hk] at hk'
          cases hk'
          rw [hnot] at hintro
          cases hintro
        · rw [hpar] at hpar'
          cases hpar'
          exact hj'.unique hj
      have hmove : Move d t (t.rememberScope x s) := .inheritScope hn hsame hk hnot hpar hj
      have hx : (t.rememberScope x s).HasScope x s := by
        refine ⟨{ n with scope := some s }, ?_, rfl⟩
        rw [node?_rememberScope, if_pos rfl, hn]
        rfl
      obtain ⟨hmoves, hall⟩ := ih (h.move hmove) hx (hrest.extend hmove.extends)
      refine ⟨hmoves.head hmove, fun y hy => ?_⟩
      rcases List.mem_cons.mp hy with rfl | hy
      · exact (hj.extend hmove.extends).extend hmoves.extends
      · exact hall y hy

/-! ## The scope of a node -/

theorem HasScope.scopeOf (h : t.Sound d) {i : NodeId} {p : Position} {s : ScopeId}
    (hi : t.Stands i p) (hs : t.HasScope i s) :
    ∃ q, d.scopeOf p = .ok q ∧ t.ScopeStands s q := by
  obtain ⟨q, hq, hsq⟩ := hs.enclosing? h.arena h.scopes hi
  obtain ⟨n, hn, hscope⟩ := hs
  obtain ⟨k, hk, -⟩ := h.scopes.cached hn hscope
  rw [h.arena.kind hn] at hk
  exact ⟨q, SyntaxNode.scopeOf_of_enclosing? (hi.valueAt? h.arena hn) hk hq, hsq⟩

theorem scopeOf_of_climb_error {i : NodeId} {e : QueryError}
    (h : t.climb (i + 1) i [] = .error e) : scopeOf i t = .error e t := by
  rw [scopeOf, get_bind]
  simp only [h]
  rfl

theorem scopeOf_of_climb_ok {i : NodeId} {landing : Landing} {passed : List NodeId}
    (h : t.climb (i + 1) i [] = .ok (landing, passed)) :
    scopeOf i t = .ok (t.land landing).1
      (passed.foldl (fun t' n => t'.rememberScope n (t.land landing).1) (t.land landing).2) := by
  rw [scopeOf, get_bind]
  simp only [h]
  rfl

/-- **The scope of a node answers as the document says**, and the node remembers it. -/
theorem scopeOf_answers (h : t.Sound d) {i : NodeId} {p : Position} (hi : t.Stands i p) :
    (scopeOf i).Answers d t (d.scopeOf p) fun t' s q => t'.ScopeStands s q ∧ t'.HasScope i s := by
  rcases climb_cases (i + 1) h hi (Nat.lt_succ_self i) (t.hangs_nil i) with
    ⟨f, hclimb, hf⟩ | ⟨landing, passed, j, hclimb, hland, hpassed, hsub⟩
  · rw [hf]
    exact ⟨t, scopeOf_of_climb_error hclimb, .refl⟩
  · obtain ⟨hopen, hj⟩ := moves_land d hland
    obtain ⟨hdown, hall⟩ :=
      moves_foldl_rememberScope (h.moves hopen) hj (hpassed.extend hopen.extends)
    have hmoves : t.Moves d _ := hopen.trans hdown
    have hscope := hall i (hsub (List.mem_singleton_self i))
    obtain ⟨q, hq, hsq⟩ := hscope.scopeOf (h.moves hmoves) (hi.extend hmoves.extends)
    rw [hq]
    exact ⟨_, _, scopeOf_of_climb_ok hclimb, hmoves, hsq, hscope⟩

/-- The scope around a scope answers as the document says. -/
theorem outerScope_answers (h : t.Sound d) {s : ScopeId} {p : Position}
    (hs : t.ScopeStands s p) :
    (outerScope s).Answers d t (d.outerScope p) fun t' => Option.Rel t'.ScopeStands := by
  obtain ⟨r, hr, hp⟩ := hs
  obtain ⟨n, hn, -⟩ := hp.exists_node h.arena
  rw [outerScope]
  refine .bind_ok (scopeAt_of_scope? hr) .refl (.bind_ok (nodeAt_of_node? hn) .refl ?_)
  cases p with
  | nil =>
      rw [hp.parent_of_nil h.arena hn]
      exact .pure .none
  | cons step p =>
      obtain ⟨j, -, -, hpar, -, hj, -⟩ := hp.parent_of_cons h.arena hn
      rw [hpar]
      exact (scopeOf_answers h hj).map fun s q t' _ hq => .some hq.1

/-! ## Declared names -/

/-- **Below the node of a scope, the scope of a parent is always found**: it is the one that stands
around the node in the document. -/
theorem scopeOf_parent_answers (h : t.Sound d) {s : ScopeId} {x : NodeId} {q p : Position}
    (hs : t.ScopeStands s q) (hx : t.Stands x p) (hmem : p ∈ (d.preorderAt q).tail) :
    ∃ n j outer s' t', t.node? x = some n ∧ n.parent = some j ∧ d.outer? p = some outer ∧
      scopeOf j t = .ok s' t' ∧ t.Moves d t' ∧ t'.ScopeStands s' outer := by
  obtain ⟨m, hm⟩ := hs.exists_valueAt? h.arena
  rw [SyntaxNode.preorderAt_of_valueAt? hm] at hmem
  obtain ⟨step, r, outer, rfl, hscope, houter⟩ :=
    SyntaxNode.scopeOf_parent_of_mem_tail hm (hs.introduces h.arena h.scopes) hmem
  obtain ⟨n, hn, -⟩ := hx.exists_node h.arena
  obtain ⟨j, -, -, hpar, -, hj, -⟩ := hx.parent_of_cons h.arena hn
  obtain ⟨s', t', hrun, hmoves, hs', -⟩ := (scopeOf_answers h hj).exists_of_ok hscope
  exact ⟨n, j, outer, s', t', hn, hpar, houter, hrun, hmoves, hs'⟩

/-- Below the node of a scope, every node answers with the name that it declares there. -/
theorem nameIn_answers (h : t.Sound d) {s : ScopeId} {x : NodeId} {q p : Position}
    (hs : t.ScopeStands s q) (hx : t.Stands x p) (hmem : p ∈ (d.preorderAt q).tail) :
    (nameIn s x).Answers d t (.ok (d.declaredIn? q p)) fun _ name name' => name = name' := by
  obtain ⟨n, j, outer, s', t', hn, hpar, houter, hrun, hmoves, hs'⟩ :=
    scopeOf_parent_answers h hs hx hmem
  rw [nameIn]
  refine .bind_ok (nodeAt_of_node? hn) .refl ?_
  simp only [hpar]
  refine .bind_ok hrun hmoves (.pure ?_)
  -- numbers of scopes agree when their positions do
  have h' := h.moves hmoves
  have hiff : s' = s ↔ d.outer? p = some q := by
    rw [houter, Option.some_inj]
    have hq := hs.extend hmoves.extends
    constructor
    · rintro rfl
      exact hs'.unique h'.arena hq
    · rintro rfl
      exact hs'.inj h'.scopes hq
  rw [SyntaxNode.declaredIn?, hx.valueAt? h.arena hn, Option.bind_some]
  exact if_congr hiff rfl rfl

/-- Names collected from a list of nodes below the node of a scope. -/
theorem collectNames_answers (h : t.Sound d) {s : ScopeId} {q : Position}
    (hs : t.ScopeStands s q) {ids : List NodeId} {ps : List Position}
    (hids : List.Forall₂ t.Stands ids ps) (hsub : ps ⊆ (d.preorderAt q).tail)
    (acc : Array String) :
    (collectNames s ids acc).Answers d t (.ok (acc.toList ++ ps.filterMap (d.declaredIn? q)))
      fun _ names names' => names.toList = names' := by
  induction ids generalizing t ps acc with
  | nil =>
      cases hids
      exact .pure (by simp)
  | cons x ids ih =>
      cases hids with
      | @cons _ p _ ps hx hids =>
          obtain ⟨hp, hsub⟩ := List.cons_subset.mp hsub
          obtain ⟨name, t', hrun, hmoves, rfl⟩ := nameIn_answers h hs hx hp
          rw [collectNames]
          refine .bind_ok hrun hmoves ?_
          have hx := hmoves.extends
          have hrest := ih (h.moves hmoves) (hs.extend hx) (hids.imp fun _ _ hj => hj.extend hx)
            hsub (acc ++ (d.declaredIn? q p).toArray)
          rw [List.filterMap_cons]
          cases hname : d.declaredIn? q p with
          | none => simpa [hname] using hrest
          | some name => simpa [hname] using hrest

/-- **The names of a scope answer as the document says.** -/
theorem declaredNames_answers (h : t.Sound d) {s : ScopeId} {q : Position}
    (hs : t.ScopeStands s q) :
    (declaredNames s).Answers d t (d.declaredNames q) fun _ names names' => names = names' := by
  obtain ⟨r, hr, hq⟩ := hs
  have hs : t.ScopeStands s q := ⟨r, hr, hq⟩
  rw [declaredNames]
  refine .bind_ok (scopeAt_of_scope? hr) .refl ?_
  cases hl : r.names with
  | some l =>
      obtain ⟨rfl, hfault⟩ := (h.scopes.names hr hl).eq_names h.arena hq
      rw [SyntaxNode.declaredNames, SyntaxNode.below, SyntaxNode.barring_of_none hfault]
      exact .pure rfl
  | none =>
      refine (descendants_answers h hq).bind ?_
      rintro below - t' hmoves ⟨hbelow, -⟩
      have h' := h.moves hmoves
      have hbelow' := (hbelow.stands h'.arena (hq.extend hmoves.extends)).1
      obtain ⟨names, t'', hrun, hmoves', hnames⟩ := collectNames_answers h'
        (hs.extend hmoves.extends) hbelow' (List.Subset.refl _) #[]
      refine .bind_ok hrun hmoves' ?_
      have h'' := h'.moves hmoves'
      have hx := hmoves.extends.trans hmoves'.extends
      obtain ⟨r'', hr'', hkeep⟩ := hx.scope hr
      have hq'' : t''.Stands r''.node q := by
        rw [hkeep.node]
        exact hq.extend hx
      have hbelow'' : t''.Below r''.node below := by
        rw [hkeep.node]
        exact hbelow.extend hmoves'.extends
      have hmove : Move d t'' (t''.rememberNames s (d.names q)) :=
        .recordNames hr'' (fun l hl => ((h''.scopes.names hr'' hl).eq_names h''.arena hq'').1)
          hq'' hbelow''
      have hlist : names.toList = d.names q := by simpa [SyntaxNode.names] using hnames
      rw [hlist]
      exact ⟨_, _, rfl, .single hmove, rfl⟩

/-! ## All scopes -/

/-- The scope that a node introduces, asked of that node. -/
theorem scopeOf_introducer (h : t.Sound d) {x : NodeId} {p : Position} (hx : t.Stands x p)
    (hintro : d.introduces p = true) :
    ∃ s t', scopeOf x t = .ok s t' ∧ t.Moves d t' ∧ t'.ScopeStands s p := by
  obtain ⟨m, k, hm, hk, -⟩ := SyntaxNode.introduces_eq_true.mp hintro
  have hscope : d.scopeOf p = .ok p :=
    SyntaxNode.scopeOf_of_enclosing? hm hk (SyntaxNode.enclosing?_of_introduces hintro)
  obtain ⟨s, t', hrun, hmoves, hs, -⟩ := (scopeOf_answers h hx).exists_of_ok hscope
  exact ⟨s, t', hrun, hmoves, hs⟩

/-- The step of collecting scopes. -/
theorem collectScopes_cons (h : t.Mirrors d) {x : NodeId} {p : Position} (hx : t.Stands x p)
    (ids : List NodeId) (acc : Array ScopeId) :
    collectScopes (x :: ids) acc t =
      if d.introduces p then (do collectScopes ids (acc.push (← scopeOf x))) t
      else collectScopes ids acc t := by
  obtain ⟨n, hn, hp⟩ := hx.exists_node h
  have hkind : n.kind.any Kind.introducesScope = d.introduces p := by
    rw [h.kind hn, SyntaxNode.introduces, hp, Option.bind_some]
  rw [collectScopes, bind_of_ok (nodeAt_of_node? hn), hkind]
  split <;> rfl

/-- A node that introduces a scope adds it to the list. -/
theorem collectScopes_introducer (h : t.Mirrors d) {x : NodeId} {p : Position}
    (hx : t.Stands x p) (hintro : d.introduces p = true) {s : ScopeId} {t' : Tree}
    (hrun : scopeOf x t = .ok s t') (ids : List NodeId) (acc : Array ScopeId) :
    collectScopes (x :: ids) acc t = collectScopes ids (acc.push s) t' := by
  rw [collectScopes_cons h hx, if_pos hintro, bind_of_ok hrun]

/-- Any other node is passed over. -/
theorem collectScopes_other (h : t.Mirrors d) {x : NodeId} {p : Position} (hx : t.Stands x p)
    (hintro : d.introduces p = false) (ids : List NodeId) (acc : Array ScopeId) :
    collectScopes (x :: ids) acc t = collectScopes ids acc t := by
  rw [collectScopes_cons h hx, hintro, if_neg Bool.false_ne_true]

/-- Scopes collected from a list of nodes. -/
theorem collectScopes_answers (h : t.Sound d) {ids : List NodeId} {ps : List Position}
    (hids : List.Forall₂ t.Stands ids ps) {acc : Array ScopeId} {acc' : List Position}
    (hacc : List.Forall₂ t.ScopeStands acc.toList acc') :
    (collectScopes ids acc).Answers d t (.ok (acc' ++ ps.filter d.introduces))
      fun t' scopes qs => List.Forall₂ t'.ScopeStands scopes.toList qs := by
  induction ids generalizing t ps acc acc' with
  | nil =>
      cases hids
      exact .pure (by simpa using hacc)
  | cons x ids ih =>
      cases hids with
      | @cons _ p _ ps hx hids =>
          cases hintro : d.introduces p with
          | false =>
              rw [List.filter_cons_of_neg (by simp [hintro])]
              exact .of_moves (collectScopes_other h.arena hx hintro ids acc) .refl
                (ih h hids hacc)
          | true =>
              obtain ⟨s, t', hrun, hmoves, hs⟩ := scopeOf_introducer h hx hintro
              have hxt := hmoves.extends
              have hacc' : List.Forall₂ t'.ScopeStands (acc.push s).toList (acc' ++ [p]) := by
                rw [Array.toList_push]
                exact List.rel_append (hacc.imp fun _ _ hj => hj.extend hxt) (.cons hs .nil)
              have hrest := ih (h.moves hmoves) (hids.imp fun _ _ hj => hj.extend hxt) hacc'
              rw [List.append_assoc, List.singleton_append] at hrest
              rw [List.filter_cons_of_pos hintro]
              exact .of_moves (collectScopes_introducer h.arena hx hintro hrun ids acc) hmoves hrest

/-- **All scopes answer as the document says.** -/
theorem allScopes_answers (h : t.Sound d) :
    allScopes.Answers d t d.allScopes fun t' scopes qs =>
      List.Forall₂ t'.ScopeStands scopes qs := by
  rw [allScopes, SyntaxNode.allScopes]
  refine (scopeOf_answers h .root).bind ?_
  rintro s q t' hmoves ⟨hs, -⟩
  have h' := h.moves hmoves
  refine (descendants_answers h' .root).bind ?_
  rintro below ps t'' hmoves' ⟨-, hps⟩
  have hfirst : List.Forall₂ t''.ScopeStands (#[s] : Array ScopeId).toList [q] :=
    .cons (hs.extend hmoves'.extends) .nil
  obtain ⟨scopes, t₃, hrun, hmoves₃, hscopes⟩ :=
    collectScopes_answers (h'.moves hmoves') hps hfirst
  exact .bind_ok hrun hmoves₃ (.pure hscopes)

end Tree

end LexicalScope
