import LexicalScope.Syntax.Grammar
import LexicalScope.Syntax.Node

set_option autoImplicit false

/-! # Children of a syntax node

`SyntaxNode.children` reads the slots of a node from left to right and lists the nodes in them.
The first slot that does not hold what its form asks for decides the fault.

A child holds fewer objects than its parent (`SyntaxNode.objectCount_lt_of_mem_children`), which
bounds every walk down a document.
-/

namespace LexicalScope

/-- The nodes that a slot holds, given the value of its field, or nothing when the value does
not fit the form. A hole in a sparse list contributes no node. -/
def Slot.Form.nodes? : Slot.Form → Option Json → Option (List SyntaxNode)
  | .node, value => if value.any Json.isObject then some value.toList else none
  | .optional, value => if value.all Json.isObject then some value.toList else none
  | .list, value => value.bind Json.array? |>.filter fun items => items.all Json.isObject
  | .sparse, value =>
    (value.bind Json.array?).map (fun items => items.filter fun v => !v.isNull)
      |>.filter fun items => items.all Json.isObject

namespace SyntaxNode

/-- The nodes in a list of slots, in order. -/
def nodesIn (n : SyntaxNode) : List Slot → Except Fault (List SyntaxNode)
  | [] => .ok []
  | slot :: slots =>
    match slot.form.nodes? (n.field? slot.field) with
    | none => .error (.missingChild slot.field n.digest)
    | some nodes => (nodes ++ ·) <$> n.nodesIn slots

/-- The children of a node. -/
def children (n : SyntaxNode) : Except Fault (List SyntaxNode) :=
  n.kind.bind fun k => n.nodesIn k.slots

end SyntaxNode

/-! ## Children are smaller -/

theorem Slot.Form.objectCount_le_of_nodes? {form : Slot.Form} {value : Option Json}
    {nodes : List SyntaxNode} (h : form.nodes? value = some nodes) {c : SyntaxNode}
    (hc : c ∈ nodes) : ∃ v, value = some v ∧ c.objectCount ≤ v.objectCount := by
  cases value with
  | none =>
    cases form with
    | optional =>
      cases h
      cases hc
    | node | list | sparse => cases h
  | some v =>
    refine ⟨v, rfl, ?_⟩
    cases form with
    | node | optional =>
      simp only [nodes?, Option.any_some, Option.all_some] at h
      split at h
      · cases h
        simp only [Option.toList_some, List.mem_singleton] at hc
        exact Nat.le_of_eq (congrArg Json.objectCount hc)
      · cases h
    | list =>
      cases v with
      | array items =>
        simp only [nodes?, Option.bind_some, Json.array?, Option.filter_eq_some_iff,
          Option.some.injEq] at h
        obtain ⟨rfl, -⟩ := h
        exact Json.objectCount_le_itemObjects hc
      | _ => simp [nodes?, Json.array?] at h
    | sparse =>
      cases v with
      | array items =>
        simp only [nodes?, Option.bind_some, Json.array?, Option.map_some,
          Option.filter_eq_some_iff, Option.some.injEq] at h
        obtain ⟨rfl, -⟩ := h
        exact Json.objectCount_le_itemObjects (List.mem_filter.1 hc).1
      | _ => simp [nodes?, Json.array?] at h

namespace SyntaxNode

theorem objectCount_lt_of_mem_nodesIn {n c : SyntaxNode} {slots : List Slot}
    {nodes : List SyntaxNode} (h : n.nodesIn slots = .ok nodes) (hc : c ∈ nodes) :
    c.objectCount < n.objectCount := by
  induction slots generalizing nodes with
  | nil =>
    cases h
    cases hc
  | cons slot slots ih =>
    rw [nodesIn] at h
    split at h
    · cases h
    · next here hhere =>
      cases hrest : n.nodesIn slots with
      | error f =>
        rw [hrest] at h
        cases h
      | ok rest =>
        rw [hrest] at h
        cases h
        rcases List.mem_append.1 hc with hc | hc
        · obtain ⟨v, hv, hle⟩ := Slot.Form.objectCount_le_of_nodes? hhere hc
          have hm := (Option.filter_eq_some_iff.1 hv).1
          exact Nat.lt_of_le_of_lt hle (Json.objectCount_lt_of_member? hm)
        · exact ih hrest hc

/-- A child holds fewer objects than its parent. -/
theorem objectCount_lt_of_mem_children {n c : SyntaxNode} {nodes : List SyntaxNode}
    (h : n.children = .ok nodes) (hc : c ∈ nodes) : c.objectCount < n.objectCount := by
  rw [children] at h
  cases hk : n.kind with
  | error f => simp [hk, Except.bind] at h
  | ok k =>
    rw [hk] at h
    exact objectCount_lt_of_mem_nodesIn h hc

end SyntaxNode

end LexicalScope
