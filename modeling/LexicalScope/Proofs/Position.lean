import LexicalScope.Syntax.Children
import Mathlib.Algebra.GroupWithZero.Nat
import Mathlib.Algebra.Order.BigOperators.Group.List
import Mathlib.Algebra.Order.Group.Nat
import Mathlib.Data.List.Nodup

set_option autoImplicit false

/-! # Positions in a document

A node of a syntax tree is a place in the document, not only a value: two children of one node
may be the same value and are still two nodes. A place is named by a `Position`, the members and
items that lead to it from the document, and `SyntaxNode.valueAt?` reads the value at a position
without any grammar.

`SyntaxNode.steps` lists the steps from a node to its children, in the order of the children.

* `map_step?_steps`: following the steps of a node gives its children, one by one.
* `nodup_steps`: no two children of a node stand at the same place.
* `sum_objectCount_lt`: the children of a node together hold fewer objects than the node.
-/

namespace LexicalScope

/-- One step down a document: a member of an object and, when the member is an array, an item
of it. -/
structure Step where
  field : String
  item : Option Nat
deriving DecidableEq, Repr

/-- Where a value stands in a document: the steps that lead to it, the last one first. The
document itself stands at `[]`. -/
abbrev Position := List Step

namespace SyntaxNode

/-- The value that one step leads to. -/
def step? (n : SyntaxNode) (s : Step) : Option SyntaxNode :=
  match s.item with
  | none => n.member? s.field
  | some k => ((n.member? s.field).bind Json.array?).bind fun items => items[k]?

/-- The value at a position. -/
def valueAt? (d : SyntaxNode) : Position → Option SyntaxNode
  | [] => some d
  | s :: p => (d.valueAt? p).bind fun n => n.step? s

@[simp] theorem valueAt?_nil (d : SyntaxNode) : d.valueAt? [] = some d := rfl

theorem valueAt?_cons {d n : SyntaxNode} {p : Position} (h : d.valueAt? p = some n)
    (s : Step) : d.valueAt? (s :: p) = n.step? s := by
  rw [valueAt?, h, Option.bind_some]

end SyntaxNode

/-! ## What a slot holds -/

private theorem isNull_eq_false_of_isObject {v : Json} (h : v.isObject = true) :
    v.isNull = false := by
  cases v <;> first | rfl | cases h

/-- What a slot holds when its value fits the form: objects only, and either the value itself or
the items of it that are no holes. (A list without holes is the list of its items.) -/
theorem Slot.Form.nodes?_eq_some {form : Slot.Form} {value : Option Json}
    {nodes : List SyntaxNode} (h : form.nodes? value = some nodes) :
    (∀ c ∈ nodes, c.isObject = true) ∧
      match form with
      | .node | .optional => nodes = value.toList
      | .list | .sparse =>
        ∃ items, value.bind Json.array? = some items ∧
          nodes = items.filter fun v => !v.isNull := by
  cases form with
  | node | optional =>
      simp only [nodes?] at h
      split at h
      · next hobj =>
        cases h
        refine ⟨?_, rfl⟩
        intro c hc
        rw [Option.mem_toList] at hc
        rw [hc] at hobj
        exact hobj
      · cases h
  | list =>
      obtain ⟨hitems, hall⟩ := Option.filter_eq_some_iff.mp h
      have hobj : ∀ c ∈ nodes, c.isObject = true := List.all_eq_true.mp hall
      refine ⟨hobj, nodes, hitems, ?_⟩
      symm
      refine List.filter_eq_self.mpr fun v hv => ?_
      rw [isNull_eq_false_of_isObject (hobj v hv)]
      rfl
  | sparse =>
      obtain ⟨hmap, hall⟩ := Option.filter_eq_some_iff.mp h
      obtain ⟨items, hitems, rfl⟩ := Option.map_eq_some_iff.mp hmap
      exact ⟨List.all_eq_true.mp hall, items, hitems, rfl⟩

namespace SyntaxNode

theorem nodesIn_cons_eq_ok {n : SyntaxNode} {slot : Slot} {slots : List Slot}
    {nodes : List SyntaxNode} (h : n.nodesIn (slot :: slots) = .ok nodes) :
    ∃ here rest, slot.form.nodes? (n.field? slot.field) = some here ∧
      n.nodesIn slots = .ok rest ∧ nodes = here ++ rest := by
  rw [nodesIn] at h
  split at h
  · cases h
  · next here hhere =>
    cases hrest : n.nodesIn slots with
    | error f => rw [hrest] at h; cases h
    | ok rest =>
        rw [hrest] at h
        cases h
        exact ⟨here, rest, hhere, rfl, rfl⟩

theorem children_eq_ok {n : SyntaxNode} {cs : List SyntaxNode} (h : n.children = .ok cs) :
    ∃ k, n.kind? = some k ∧ n.nodesIn k.slots = .ok cs := by
  unfold children kind at h
  cases hk : n.kind? with
  | none => rw [hk] at h; cases h
  | some k => rw [hk] at h; exact ⟨k, rfl, h⟩

theorem isObject_of_mem_nodesIn {n c : SyntaxNode} {slots : List Slot} {nodes : List SyntaxNode}
    (h : n.nodesIn slots = .ok nodes) (hc : c ∈ nodes) : c.isObject = true := by
  induction slots generalizing nodes with
  | nil => cases h; cases hc
  | cons slot slots ih =>
      obtain ⟨here, rest, hhere, hrest, rfl⟩ := nodesIn_cons_eq_ok h
      rcases List.mem_append.mp hc with hc | hc
      · exact (Slot.Form.nodes?_eq_some hhere).1 c hc
      · exact ih hrest hc

/-- Children are objects. -/
theorem isObject_of_mem_children {n c : SyntaxNode} {cs : List SyntaxNode}
    (h : n.children = .ok cs) (hc : c ∈ cs) : c.isObject = true := by
  obtain ⟨k, -, hcs⟩ := children_eq_ok h
  exact isObject_of_mem_nodesIn hcs hc

theorem member?_of_field? {n : SyntaxNode} {field : String} {v : Json}
    (h : n.field? field = some v) : n.member? field = some v :=
  (Option.filter_eq_some_iff.mp h).1

end SyntaxNode

/-! ## The steps to the children -/

/-- The steps to the nodes that a slot holds, given the value of its field. A hole of a list has
no step. -/
def Slot.steps (slot : Slot) (value : Option Json) : List Step :=
  match slot.form with
  | .node | .optional => value.toList.map fun _ => ⟨slot.field, none⟩
  | .list | .sparse =>
    (((value.bind Json.array?).getD []).zipIdx.filter fun x => !x.1.isNull).map
      fun x => ⟨slot.field, some x.2⟩

namespace SyntaxNode

/-- The steps to the nodes in a list of slots. -/
def stepsIn (n : SyntaxNode) (slots : List Slot) : List Step :=
  slots.flatMap fun slot => slot.steps (n.field? slot.field)

/-- The steps from a node to its children, in the order of the children. -/
def steps (n : SyntaxNode) : List Step := n.kind?.elim [] fun k => n.stepsIn k.slots

end SyntaxNode

/-- The items of an array that are no holes, found again by their numbers. -/
private theorem map_getElem?_zipIdx_filter (items : List Json) :
    ((items.zipIdx.filter fun x => !x.1.isNull).map fun x => items[x.2]?)
      = (items.filter fun v => !v.isNull).map some := by
  have hget : ∀ x ∈ items.zipIdx.filter fun x => !x.1.isNull, items[x.2]? = some x.1 := by
    intro x hx
    exact List.mem_zipIdx_iff_getElem?.mp (List.mem_filter.mp hx).1
  rw [List.map_congr_left hget]
  calc (items.zipIdx.filter fun x => !x.1.isNull).map (fun x => some x.1)
      = ((items.zipIdx.filter ((fun v => !v.isNull) ∘ Prod.fst)).map Prod.fst).map some := by
        rw [List.map_map]; rfl
    _ = ((items.zipIdx.map Prod.fst).filter fun v => !v.isNull).map some := by
        rw [List.filter_map]
    _ = (items.filter fun v => !v.isNull).map some := by
        rw [List.zipIdx_map_fst]

theorem Slot.map_step?_steps {n : SyntaxNode} {slot : Slot} {nodes : List SyntaxNode}
    (h : slot.form.nodes? (n.field? slot.field) = some nodes) :
    (slot.steps (n.field? slot.field)).map n.step? = nodes.map some := by
  obtain ⟨form, field⟩ := slot
  have hnodes := (Slot.Form.nodes?_eq_some h).2
  cases form with
  | node | optional =>
      simp only at hnodes
      subst hnodes
      cases hv : n.field? field with
      | none => rfl
      | some v => simp [Slot.steps, SyntaxNode.step?, SyntaxNode.member?_of_field? hv]
  | list | sparse =>
      obtain ⟨items, hitems, rfl⟩ := hnodes
      obtain ⟨v, hv, harr⟩ := Option.bind_eq_some_iff.mp hitems
      have hm : n.member? field = some v := SyntaxNode.member?_of_field? hv
      simp only [Slot.steps, hitems, Option.getD_some]
      rw [← map_getElem?_zipIdx_filter items, List.map_map]
      refine List.map_congr_left fun x _ => ?_
      simp [SyntaxNode.step?, hm, harr]

namespace SyntaxNode

theorem map_step?_stepsIn {n : SyntaxNode} {slots : List Slot} {nodes : List SyntaxNode}
    (h : n.nodesIn slots = .ok nodes) : (n.stepsIn slots).map n.step? = nodes.map some := by
  induction slots generalizing nodes with
  | nil => cases h; rfl
  | cons slot slots ih =>
      obtain ⟨here, rest, hhere, hrest, rfl⟩ := nodesIn_cons_eq_ok h
      have hslot := Slot.map_step?_steps hhere
      have htail := ih hrest
      rw [stepsIn, List.flatMap_cons, List.map_append, hslot, List.map_append]
      exact congrArg _ htail

/-- **The steps of a node lead to its children**, in order and number. -/
theorem map_step?_steps {n : SyntaxNode} {cs : List SyntaxNode} (h : n.children = .ok cs) :
    n.steps.map n.step? = cs.map some := by
  obtain ⟨k, hk, hcs⟩ := children_eq_ok h
  rw [steps, hk]
  exact map_step?_stepsIn hcs

theorem length_steps {n : SyntaxNode} {cs : List SyntaxNode} (h : n.children = .ok cs) :
    n.steps.length = cs.length := by
  have := congrArg List.length (map_step?_steps h)
  simpa using this

/-- The `k`-th step leads to the `k`-th child. -/
theorem step?_of_getElem? {n : SyntaxNode} {cs : List SyntaxNode} (h : n.children = .ok cs)
    {k : Nat} {s : Step} (hs : n.steps[k]? = some s) : n.step? s = cs[k]? := by
  have hk := congrArg (fun l => l[k]?) (map_step?_steps h)
  simp only [List.getElem?_map, hs, Option.map_some] at hk
  cases hc : cs[k]? with
  | none => rw [hc] at hk; cases hk
  | some c => rw [hc] at hk; exact Option.some.inj hk

end SyntaxNode

/-! ## Two children never stand at the same place -/

theorem Kind.nodup_slots (k : Kind) : (k.slots.map Slot.field).Nodup := by
  cases k <;> decide

theorem Slot.field_of_mem_steps {slot : Slot} {value : Option Json} {s : Step}
    (h : s ∈ slot.steps value) : s.field = slot.field := by
  obtain ⟨form, field⟩ := slot
  cases form <;> (obtain ⟨x, -, rfl⟩ := List.mem_map.mp h; rfl)

theorem Slot.nodup_steps (slot : Slot) (value : Option Json) : (slot.steps value).Nodup := by
  obtain ⟨form, field⟩ := slot
  have hone : (value.toList.map fun _ => (⟨field, none⟩ : Step)).Nodup := by
    cases value <;> simp
  have hmany : ∀ items : List Json,
      ((items.zipIdx.filter fun x => !x.1.isNull).map
        fun x => (⟨field, some x.2⟩ : Step)).Nodup := by
    intro items
    have hnum : (items.zipIdx.map Prod.snd).Nodup := by
      rw [List.zipIdx_map_snd]; exact List.nodup_range'
    have hsub : ((items.zipIdx.filter fun x => !x.1.isNull).map Prod.snd).Nodup :=
      hnum.sublist (List.Sublist.map _ List.filter_sublist)
    have hinj : Function.Injective fun k : Nat => (⟨field, some k⟩ : Step) := by
      intro a b hab; simpa using hab
    have hmap := hsub.map hinj
    rwa [List.map_map] at hmap
  cases form with
  | node | optional => exact hone
  | list | sparse => exact hmany _

/-- **No two children of a node stand at the same place.** -/
theorem SyntaxNode.nodup_steps (n : SyntaxNode) : n.steps.Nodup := by
  unfold steps
  cases n.kind? with
  | none => exact List.nodup_nil
  | some k =>
      refine List.nodup_flatMap.mpr ⟨fun slot _ => slot.nodup_steps _, ?_⟩
      refine (List.pairwise_map.mp k.nodup_slots).imp ?_
      intro a b hab s ha hb
      exact hab ((Slot.field_of_mem_steps ha).symm.trans (Slot.field_of_mem_steps hb))

/-! ## The children of a node are apart in size too

A child holds fewer objects than its parent; here all children together do. Distinct slots read
distinct members, so no object is counted twice. -/

namespace Json

/-- The number of objects in the value of a member, none when there is no such member. -/
def objectsUnder (members : List (String × Json)) (key : String) : Nat :=
  ((members.lookup key).map objectCount).getD 0

theorem sum_objectsUnder_le (members : List (String × Json)) {keys : List String}
    (h : keys.Nodup) : (keys.map (objectsUnder members)).sum ≤ memberObjects members := by
  induction members generalizing keys with
  | nil =>
      have hzero : keys.map (objectsUnder []) = keys.map fun _ => 0 := rfl
      rw [hzero]
      simp
  | cons m rest ih =>
      obtain ⟨k, v⟩ := m
      have hother : ∀ key, key ≠ k →
          objectsUnder ((k, v) :: rest) key = objectsUnder rest key := by
        intro key hkey
        rw [objectsUnder, List.lookup_cons, beq_false_of_ne hkey, objectsUnder]
      rw [memberObjects]
      by_cases hk : k ∈ keys
      · have hperm : keys.Perm (k :: keys.erase k) := List.perm_cons_erase hk
        have hnotin : k ∉ keys.erase k := h.not_mem_erase
        have hrest : (keys.erase k).map (objectsUnder ((k, v) :: rest))
            = (keys.erase k).map (objectsUnder rest) :=
          List.map_congr_left fun key hkey =>
            hother key fun he => hnotin (he ▸ hkey)
        have hhere : objectsUnder ((k, v) :: rest) k = v.objectCount := by
          simp [objectsUnder]
        have hle := ih (h.erase k)
        rw [(hperm.map _).sum_eq, List.map_cons, List.sum_cons, hrest, hhere]
        omega
      · have hrest : keys.map (objectsUnder ((k, v) :: rest)) = keys.map (objectsUnder rest) :=
          List.map_congr_left fun key hkey => hother key fun he => hk (he ▸ hkey)
        have hle := ih h
        rw [hrest]
        omega

theorem sum_map_objectCount (items : List Json) :
    (items.map objectCount).sum = itemObjects items := by
  induction items with
  | nil => rfl
  | cons v rest ih => rw [List.map_cons, List.sum_cons, ih, itemObjects]

end Json

theorem Slot.Form.sum_objectCount_le {form : Slot.Form} {value : Option Json}
    {nodes : List SyntaxNode} (h : form.nodes? value = some nodes) :
    (nodes.map Json.objectCount).sum ≤ (value.map Json.objectCount).getD 0 := by
  have hnodes := (nodes?_eq_some h).2
  cases form with
  | node | optional =>
      simp only at hnodes
      subst hnodes
      cases value <;> simp
  | list | sparse =>
      obtain ⟨items, hitems, rfl⟩ := hnodes
      obtain ⟨v, rfl, harr⟩ := Option.bind_eq_some_iff.mp hitems
      have hle : ((items.filter fun v => !v.isNull).map Json.objectCount).sum
          ≤ (items.map Json.objectCount).sum :=
        (List.filter_sublist.map Json.objectCount).sum_le_sum fun _ _ => Nat.zero_le _
      cases v with
      | array its =>
          cases harr
          rw [Json.sum_map_objectCount items] at hle
          exact hle
      | _ => cases harr

namespace SyntaxNode

theorem sum_objectCount_nodesIn_le {members : List (String × Json)} {slots : List Slot}
    {nodes : List SyntaxNode} (h : nodesIn (.object members) slots = .ok nodes) :
    (nodes.map Json.objectCount).sum
      ≤ ((slots.map Slot.field).map (Json.objectsUnder members)).sum := by
  induction slots generalizing nodes with
  | nil => cases h; simp
  | cons slot slots ih =>
      obtain ⟨here, rest, hhere, hrest, rfl⟩ := nodesIn_cons_eq_ok h
      have hfield : ((field? (.object members) slot.field).map Json.objectCount).getD 0
          ≤ Json.objectsUnder members slot.field := by
        cases hv : field? (.object members) slot.field with
        | none => simp
        | some v =>
            have hm : members.lookup slot.field = some v := member?_of_field? hv
            simp [Json.objectsUnder, hm]
      have hhead := Slot.Form.sum_objectCount_le hhere
      have htail := ih hrest
      simp only [List.map_append, List.sum_append, List.map_cons, List.sum_cons]
      omega

/-- **The children of a node together hold fewer objects than the node**, if it is an object. -/
theorem sum_objectCount_lt {n : SyntaxNode} {cs : List SyntaxNode} (hn : n.isObject = true)
    (h : n.children = .ok cs) : (cs.map Json.objectCount).sum < n.objectCount := by
  obtain ⟨k, -, hcs⟩ := children_eq_ok h
  cases n with
  | object members =>
      have hle := sum_objectCount_nodesIn_le hcs
      have hall := Json.sum_objectsUnder_le members k.nodup_slots
      rw [Json.objectCount]
      omega
  | _ => cases hn

end SyntaxNode

end LexicalScope
