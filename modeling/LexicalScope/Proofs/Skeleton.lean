import LexicalScope.Proofs.Answers

set_option autoImplicit false

/-! # What the scopes of a document depend on

The scopes of a document depend on the types of its nodes, on the names that they declare and on
the fields that hold their children. `SyntaxNode.skeleton` keeps these and nothing else; of a
fault it keeps all but the digest, which shows every field of a node.

`SyntaxNode.Edits` are the changes that leave all this alone: the members of any object in another
order, and in any node of the document any change to members that neither give its type nor its
declared name nor hold its children.

* `SyntaxNode.skeleton_congr`: a node is known by its type, its declared name and its slots.
* `SyntaxNode.Edits.skeleton_eq`: edits keep the skeleton.
-/

namespace LexicalScope

/-- The fault without the digest of the node where it was found. -/
def Fault.withoutDigest : Fault → Fault
  | unsupportedKind kind _ => unsupportedKind kind ""
  | missingChild field _ => missingChild field ""
  | noEnclosingScope _ => noEnclosingScope ""

/-- What scopes depend on: the type and the declared name of a node, and its children or the fault
that keeps it from having them. -/
inductive Skeleton where
  | node (type name : Option String) (children : List Skeleton)
  | faulty (type name : Option String) (fault : Fault)

namespace Skeleton

/-- The type of the node. -/
def type : Skeleton → Option String
  | node type _ _ | faulty type _ _ => type

/-- The name that the node declares. -/
def name : Skeleton → Option String
  | node _ name _ | faulty _ name _ => name

end Skeleton

namespace SyntaxNode

/-- **What the scopes of a document depend on.** -/
def skeleton (n : SyntaxNode) : Skeleton :=
  match _h : n.children with
  | .ok cs => .node n.typeName? n.declaredName? (cs.attach.map fun c => skeleton c.1)
  | .error f => .faulty n.typeName? n.declaredName? f.withoutDigest
termination_by n.objectCount
decreasing_by exact objectCount_lt_of_mem_children _h c.2

theorem skeleton_of_ok {n : SyntaxNode} {cs : List SyntaxNode} (h : n.children = .ok cs) :
    n.skeleton = .node n.typeName? n.declaredName? (cs.map skeleton) := by
  rw [skeleton]
  split
  · next cs' hcs' =>
    rw [h] at hcs'
    cases hcs'
    rw [List.attach_map_val (f := skeleton)]
  · next f hf => rw [h] at hf; cases hf

theorem skeleton_of_error {n : SyntaxNode} {f : Fault} (h : n.children = .error f) :
    n.skeleton = .faulty n.typeName? n.declaredName? f.withoutDigest := by
  rw [skeleton]
  split
  · next cs hcs => rw [h] at hcs; cases hcs
  · next f' hf' => rw [h] at hf'; cases hf'; rfl

theorem type_skeleton (n : SyntaxNode) : n.skeleton.type = n.typeName? := by
  cases h : n.children with
  | ok cs => rw [skeleton_of_ok h]; rfl
  | error f => rw [skeleton_of_error h]; rfl

theorem name_skeleton (n : SyntaxNode) : n.skeleton.name = n.declaredName? := by
  cases h : n.children with
  | ok cs => rw [skeleton_of_ok h]; rfl
  | error f => rw [skeleton_of_error h]; rfl

/-! ## Nodes with the same skeleton -/

section Same

variable {n n' : SyntaxNode} (h : n.skeleton = n'.skeleton)

include h

theorem typeName?_of_skeleton_eq : n.typeName? = n'.typeName? := by
  rw [← type_skeleton, h, type_skeleton]

theorem declaredName?_of_skeleton_eq : n.declaredName? = n'.declaredName? := by
  rw [← name_skeleton, h, name_skeleton]

theorem kind?_of_skeleton_eq : n.kind? = n'.kind? := by
  rw [kind?, typeName?_of_skeleton_eq h, kind?]

theorem unsupported_of_skeleton_eq :
    n.unsupported.withoutDigest = n'.unsupported.withoutDigest := by
  simp only [unsupported, typeName, typeName?_of_skeleton_eq h, Fault.withoutDigest]

/-- Nodes with the same skeleton have children with the same skeletons, or the same fault up to
digests. -/
theorem children_of_skeleton_eq :
    (∃ cs cs', n.children = .ok cs ∧ n'.children = .ok cs' ∧
      cs.map skeleton = cs'.map skeleton) ∨
    ∃ f f', n.children = .error f ∧ n'.children = .error f' ∧
      f.withoutDigest = f'.withoutDigest := by
  cases hcs : n.children with
  | ok cs =>
      rw [skeleton_of_ok hcs] at h
      cases hcs' : n'.children with
      | ok cs' =>
          rw [skeleton_of_ok hcs'] at h
          exact Or.inl ⟨cs, cs', rfl, rfl, (Skeleton.node.inj h).2.2⟩
      | error f' => rw [skeleton_of_error hcs'] at h; cases h
  | error f =>
      rw [skeleton_of_error hcs] at h
      cases hcs' : n'.children with
      | ok cs' => rw [skeleton_of_ok hcs'] at h; cases h
      | error f' =>
          rw [skeleton_of_error hcs'] at h
          exact Or.inr ⟨f, f', rfl, rfl, (Skeleton.faulty.inj h).2.2⟩

end Same

end SyntaxNode

/-! ## Values that a slot reads alike -/

namespace Json

/-- Two values that count alike as nodes of a slot. -/
structure Alike (a b : Json) : Prop where
  isNull : a.isNull = b.isNull
  isObject : a.isObject = b.isObject
  skeleton : SyntaxNode.skeleton a = SyntaxNode.skeleton b

/-- Two values that count alike in a slot, by themselves and, if they are arrays, item by item. -/
structure SlotAlike (a b : Json) : Prop where
  value : a.Alike b
  items : Option.Rel (List.Forall₂ Alike) a.array? b.array?

theorem Alike.refl (a : Json) : a.Alike a := ⟨rfl, rfl, rfl⟩

theorem forall₂_alike_refl (items : List Json) : List.Forall₂ Alike items items :=
  List.forall₂_same.mpr fun v _ => .refl v

theorem SlotAlike.refl (a : Json) : a.SlotAlike a := by
  refine ⟨.refl a, ?_⟩
  cases a.array? with
  | none => exact .none
  | some items => exact .some (forall₂_alike_refl items)

/-- Two arrays count alike as nodes, since neither is one. -/
theorem Alike.array (items items' : List Json) : (Json.array items).Alike (.array items') := by
  refine ⟨rfl, rfl, ?_⟩
  rw [SyntaxNode.skeleton_of_error (f := SyntaxNode.unsupported (.array items)) rfl,
    SyntaxNode.skeleton_of_error (f := SyntaxNode.unsupported (.array items')) rfl]
  rfl

theorem SlotAlike.array {items items' : List Json} (h : List.Forall₂ Alike items items') :
    (Json.array items).SlotAlike (.array items') :=
  ⟨.array items items', .some h⟩

theorem all_isObject_of_alike {items items' : List Json} (h : List.Forall₂ Alike items items') :
    items.all isObject = items'.all isObject := by
  induction h with
  | nil => rfl
  | cons hab _ ih => rw [List.all_cons, List.all_cons, hab.isObject, ih]

theorem filter_of_alike {items items' : List Json} (h : List.Forall₂ Alike items items') :
    List.Forall₂ Alike (items.filter fun v => !v.isNull) (items'.filter fun v => !v.isNull) := by
  refine List.rel_filter (fun {a b} hab => ?_) h
  show (!a.isNull) = true ↔ (!b.isNull) = true
  rw [hab.isNull]

end Json

open Json (Alike SlotAlike)

/-- A slot holds alike nodes if its values are alike. -/
theorem Slot.Form.nodes?_congr (form : Slot.Form) {a b : Option Json}
    (h : Option.Rel SlotAlike a b) :
    Option.Rel (List.Forall₂ Alike) (form.nodes? a) (form.nodes? b) := by
  have hitems : Option.Rel (List.Forall₂ Alike) (a.bind Json.array?) (b.bind Json.array?) := by
    cases h with
    | none => exact .none
    | some hab => exact hab.items
  have hobjects : ∀ {x y : Option (List Json)}, Option.Rel (List.Forall₂ Alike) x y →
      Option.Rel (List.Forall₂ Alike) (x.filter fun items => items.all Json.isObject)
        (y.filter fun items => items.all Json.isObject) :=
    fun h => rel_filter_of_eq (fun _ _ hab => Json.all_isObject_of_alike hab) h
  cases form with
  | node =>
      cases h with
      | none => exact .none
      | some hab =>
          simp only [nodes?, Option.any_some, Option.toList_some, hab.value.isObject]
          split
          · exact .some (.cons hab.value .nil)
          · exact .none
  | optional =>
      cases h with
      | none => exact .some .nil
      | some hab =>
          simp only [nodes?, Option.all_some, Option.toList_some, hab.value.isObject]
          split
          · exact .some (.cons hab.value .nil)
          · exact .none
  | list => exact hobjects hitems
  | sparse =>
      refine hobjects ?_
      generalize a.bind Json.array? = x, b.bind Json.array? = y at hitems
      cases hitems with
      | none => exact .none
      | some hab => exact .some (Json.filter_of_alike hab)

namespace SyntaxNode

/-- Slots with alike values hold alike nodes, or the same one of them does not hold what its form
asks for. -/
theorem nodesIn_congr {n n' : SyntaxNode} {slots : List Slot}
    (h : ∀ slot ∈ slots, Option.Rel SlotAlike (n.field? slot.field) (n'.field? slot.field)) :
    (∃ cs cs', n.nodesIn slots = .ok cs ∧ n'.nodesIn slots = .ok cs' ∧
      List.Forall₂ Alike cs cs') ∨
    ∃ f f', n.nodesIn slots = .error f ∧ n'.nodesIn slots = .error f' ∧
      f.withoutDigest = f'.withoutDigest := by
  induction slots with
  | nil => exact Or.inl ⟨[], [], rfl, rfl, .nil⟩
  | cons slot slots ih =>
      obtain ⟨hslot, hslots⟩ := List.forall_mem_cons.mp h
      have hhere := slot.form.nodes?_congr hslot
      rw [nodesIn, nodesIn]
      cases ha : slot.form.nodes? (n.field? slot.field) with
      | none =>
          rw [ha] at hhere
          generalize slot.form.nodes? (n'.field? slot.field) = held at hhere
          cases hhere
          exact Or.inr ⟨_, _, rfl, rfl, rfl⟩
      | some here =>
          rw [ha] at hhere
          generalize slot.form.nodes? (n'.field? slot.field) = held at hhere
          cases hhere with
          | some hhere =>
              rcases ih hslots with ⟨cs, cs', hcs, hcs', hall⟩ | ⟨f, f', hf, hf', hsame⟩
              · rw [hcs, hcs']
                exact Or.inl ⟨_, _, rfl, rfl, List.rel_append hhere hall⟩
              · rw [hf, hf']
                exact Or.inr ⟨f, f', rfl, rfl, hsame⟩

theorem map_skeleton_of_alike {cs cs' : List SyntaxNode} (h : List.Forall₂ Alike cs cs') :
    cs.map skeleton = cs'.map skeleton := by
  induction h with
  | nil => rfl
  | cons hab _ ih => rw [List.map_cons, List.map_cons, hab.skeleton, ih]

/-- **A node is known by its type, its declared name and its slots.** -/
theorem skeleton_congr {n n' : SyntaxNode} (htype : n.typeName? = n'.typeName?)
    (hname : n.declaredName? = n'.declaredName?)
    (hslots : ∀ k, n.kind? = some k → ∀ slot ∈ k.slots,
      Option.Rel SlotAlike (n.field? slot.field) (n'.field? slot.field)) :
    n.skeleton = n'.skeleton := by
  -- both nodes have the same kind, hence the same slots or none
  have hkind : n.kind? = n'.kind? := by rw [kind?, htype, kind?]
  cases hk : n.kind? with
  | none =>
      have hcs : n.children = .error n.unsupported := by rw [children, kind, hk]; rfl
      have hcs' : n'.children = .error n'.unsupported := by rw [children, kind, ← hkind, hk]; rfl
      rw [skeleton_of_error hcs, skeleton_of_error hcs', htype, hname]
      simp only [unsupported, typeName, htype, Fault.withoutDigest]
  | some k =>
      have hcs : n.children = n.nodesIn k.slots := by rw [children, kind, hk]; rfl
      have hcs' : n'.children = n'.nodesIn k.slots := by rw [children, kind, ← hkind, hk]; rfl
      rcases nodesIn_congr (hslots k hk) with ⟨cs, cs', hin, hin', hall⟩ | ⟨f, f', hin, hin', hsame⟩
      · rw [skeleton_of_ok (hcs.trans hin), skeleton_of_ok (hcs'.trans hin'), htype, hname,
          map_skeleton_of_alike hall]
      · rw [skeleton_of_error (hcs.trans hin), skeleton_of_error (hcs'.trans hin'), htype, hname,
          hsame]

/-- An object is known by its members for the type, the declared name and the slots. -/
theorem alike_object {ms ms' : List (String × Json)}
    (htype : ms.lookup "type" = ms'.lookup "type") (hid : ms.lookup "id" = ms'.lookup "id")
    (hslots : ∀ k, kind? (.object ms) = some k → ∀ slot ∈ k.slots,
      Option.Rel SlotAlike (ms.lookup slot.field) (ms'.lookup slot.field)) :
    (Json.object ms).Alike (.object ms') := by
  refine ⟨rfl, rfl, skeleton_congr ?_ ?_ fun k hk slot hslot => ?_⟩
  · simp only [typeName?, Json.member?, htype]
  · simp only [declaredName?, child?, field?, Json.member?, hid]
  · exact rel_filter_of_eq (fun _ _ hab => by rw [hab.value.isNull]) (hslots k hk slot hslot)

end SyntaxNode

/-! ## Members in another order -/

namespace Json

/-- **A value with the members of one object in it in another order.** The keys of the object are
distinct, as they are in every value that is read. -/
inductive Reordered : Json → Json → Prop
  | members {ms ms' : List (String × Json)} :
      (ms.map Prod.fst).Nodup → ms.Perm ms' → Reordered (.object ms) (.object ms')
  | item {v v' : Json} (before after : List Json) :
      Reordered v v' → Reordered (.array (before ++ v :: after)) (.array (before ++ v' :: after))
  | member {v v' : Json} (before after : List (String × Json)) (key : String) :
      Reordered v v' →
      Reordered (.object (before ++ (key, v) :: after)) (.object (before ++ (key, v') :: after))

theorem lookup_eq_of_perm {ms ms' : List (String × Json)} (h : ms.Perm ms')
    (hkeys : (ms.map Prod.fst).Nodup) (key : String) : ms.lookup key = ms'.lookup key := by
  induction h with
  | nil => rfl
  | cons m _ ih =>
      rw [List.map_cons, List.nodup_cons] at hkeys
      rw [List.lookup_cons, List.lookup_cons, ih hkeys.2]
  | swap m m' ms =>
      -- the two keys differ, so at most one of them is the key asked for
      have hne : m'.1 ≠ m.1 := by
        rw [List.map_cons, List.map_cons, List.nodup_cons] at hkeys
        exact fun he => hkeys.1 (he ▸ List.mem_cons_self)
      rw [List.lookup_cons, List.lookup_cons, List.lookup_cons, List.lookup_cons]
      by_cases hm : key = m.1
      · subst hm
        rw [beq_self_eq_true, beq_false_of_ne hne.symm]
      · rw [beq_false_of_ne hm]
  | trans h _ ih ih' => exact (ih hkeys).trans (ih' ((h.map Prod.fst).nodup_iff.mp hkeys))

/-- Two values that read alike wherever they stand: in a slot, as a text and as an identifier. -/
structure ReadsAs (a b : Json) : Prop where
  slot : a.SlotAlike b
  text : a.string? = b.string?
  identifier : SyntaxNode.identifier? a = SyntaxNode.identifier? b

theorem ReadsAs.refl (a : Json) : a.ReadsAs a := ⟨.refl a, rfl, rfl⟩

theorem rel_readsAs_refl (x : Option Json) : Option.Rel ReadsAs x x := by
  cases x with
  | none => exact .none
  | some v => exact .some (.refl v)

/-- Objects read alike if their members do. -/
theorem ReadsAs.object {ms ms' : List (String × Json)}
    (h : ∀ key, Option.Rel ReadsAs (ms.lookup key) (ms'.lookup key)) :
    (Json.object ms).ReadsAs (.object ms') := by
  have htext : ∀ key, (ms.lookup key).bind string? = (ms'.lookup key).bind string? := fun key =>
    bind_eq_of_rel (fun _ _ hab => hab.text) (h key)
  have hfield : ∀ key, Option.Rel ReadsAs (SyntaxNode.field? (.object ms) key)
      (SyntaxNode.field? (.object ms') key) := fun key =>
    rel_filter_of_eq (fun _ _ hab => by rw [hab.slot.value.isNull]) (h key)
  have htype : SyntaxNode.typeName? (.object ms) = SyntaxNode.typeName? (.object ms') :=
    htext "type"
  have hname : SyntaxNode.declaredName? (.object ms) = SyntaxNode.declaredName? (.object ms') :=
    bind_eq_of_rel (fun _ _ hab => hab.identifier)
      (rel_filter_of_eq (fun _ _ hab => hab.slot.value.isObject) (hfield "id"))
  refine ⟨⟨⟨rfl, rfl, ?_⟩, .none⟩, rfl, ?_⟩
  · refine SyntaxNode.skeleton_congr htype hname fun k _ slot _ => ?_
    exact rel_imp (fun _ _ hab => hab.slot) (hfield slot.field)
  · rw [SyntaxNode.identifier?, SyntaxNode.identifier?, htype]
    exact if_congr Iff.rfl (htext "name") rfl

/-- **The order of members does not matter.** -/
theorem Reordered.readsAs {a b : Json} (h : a.Reordered b) : a.ReadsAs b := by
  induction h with
  | members hkeys hperm =>
      refine .object fun key => ?_
      rw [lookup_eq_of_perm hperm hkeys key]
      exact rel_readsAs_refl _
  | item before after _ ih =>
      refine ⟨.array ?_, rfl, rfl⟩
      exact List.rel_append (forall₂_alike_refl before)
        (.cons ih.slot.value (forall₂_alike_refl after))
  | member before after key _ ih =>
      -- the edited member is what a look-up gives, unless an earlier member has the same key
      refine .object fun key' => ?_
      rw [List.lookup_append, List.lookup_append]
      cases before.lookup key' with
      | some v => exact rel_readsAs_refl _
      | none =>
          rw [Option.none_or, Option.none_or, List.lookup_cons, List.lookup_cons]
          split
          · exact .some ih
          · exact rel_readsAs_refl _

theorem lookup_put (key key' : String) (v : Json) (ms : List (String × Json)) :
    (put key v ms).lookup key' = if key' = key then some v else ms.lookup key' := by
  induction ms with
  | nil =>
      rw [put, List.lookup_cons]
      by_cases h : key' = key
      · rw [if_pos h, beq_iff_eq.mpr h]
      · rw [if_neg h, beq_false_of_ne h]
  | cons m ms ih =>
      obtain ⟨k, w⟩ := m
      rw [put]
      by_cases hk : k = key
      · subst hk
        rw [if_pos rfl, List.lookup_cons, List.lookup_cons]
        by_cases h : key' = k
        · rw [if_pos h, beq_iff_eq.mpr h]
        · rw [if_neg h, beq_false_of_ne h]
      · rw [if_neg hk, List.lookup_cons, List.lookup_cons, ih]
        by_cases h : key' = key
        · rw [if_pos h, if_pos h, beq_false_of_ne fun he => hk (he.symm.trans h)]
        · rw [if_neg h, if_neg h]

theorem forall₂_alike_set {items : List Json} {k : Nat} {c c' : Json} (hc : items[k]? = some c)
    (h : c.Alike c') : List.Forall₂ Alike items (items.set k c') := by
  induction items generalizing k with
  | nil => simp at hc
  | cons v items ih =>
      cases k with
      | zero =>
          cases hc
          exact .cons h (forall₂_alike_refl items)
      | succ k => exact .cons (.refl v) (ih hc)

end Json

/-- No slot is the field of the type or of the declared name. -/
theorem Kind.field_of_mem_slots (k : Kind) :
    ∀ slot ∈ k.slots, slot.field ≠ "type" ∧ slot.field ≠ "id" := by
  cases k <;> decide

/-! ## Edits -/

namespace SyntaxNode

/-- The keys of the members of a node that matter for scopes. -/
def scopeKeys (n : SyntaxNode) : List String :=
  "type" :: "id" :: n.kind?.elim [] fun k => k.slots.map Slot.field

/-- A node with another value at a step. -/
def putStep (n : SyntaxNode) (s : Step) (v : Json) : SyntaxNode :=
  match n, s.item with
  | .object ms, none => .object (Json.put s.field v ms)
  | .object ms, some k =>
    let items := ((ms.lookup s.field).bind Json.array?).getD []
    .object (Json.put s.field (.array (items.set k v)) ms)
  | n, _ => n

/-- **One edit that leaves alone what scopes depend on.** Either the members of an object get
another order, wherever in the document the object is. Or, in a node of the document, members
whose keys do not matter for scopes are added, deleted or changed. -/
inductive Edit : SyntaxNode → SyntaxNode → Prop
  | reorder {n n' : SyntaxNode} : n.Reordered n' → Edit n n'
  | members {ms ms' : List (String × Json)} :
      (∀ key ∈ scopeKeys (.object ms), ms'.lookup key = ms.lookup key) →
      Edit (.object ms) (.object ms')
  /-- A child is edited in its place. -/
  | child {n c c' : SyntaxNode} {s : Step} :
      (s, c) ∈ n.branches → Edit c c' → Edit n (n.putStep s c')

/-- A sequence of edits. -/
abbrev Edits : SyntaxNode → SyntaxNode → Prop := Relation.ReflTransGen Edit

theorem exists_slot_of_mem_branches {n : SyntaxNode} {b : Step × SyntaxNode}
    (h : b ∈ n.branches) : ∃ k, ∃ slot ∈ k.slots, n.kind? = some k ∧ b.1.field = slot.field := by
  obtain ⟨cs, hcs, -, -⟩ := exists_of_mem_branches h
  obtain ⟨k, hk, -⟩ := children_eq_ok hcs
  have hstep : b.1 ∈ n.steps := by
    rw [← map_fst_branches hcs]
    exact List.mem_map_of_mem h
  rw [steps, hk] at hstep
  obtain ⟨slot, hslot, hmem⟩ := List.mem_flatMap.mp hstep
  exact ⟨k, slot, hslot, hk, Slot.field_of_mem_steps hmem⟩

/-- A child that is replaced by an alike one leaves its place in the slot alike. -/
theorem slotAlike_putStep {ms : List (String × Json)} {s : Step} {c c' : SyntaxNode}
    (hstep : step? (.object ms) s = some c) (hc : c.isObject = true) (halike : c.Alike c') :
    ∃ v v', ms.lookup s.field = some v ∧ v.SlotAlike v' ∧
      putStep (.object ms) s c' = .object (Json.put s.field v' ms) := by
  obtain ⟨field, item⟩ := s
  cases item with
  | none =>
      -- two objects have no items to compare
      refine ⟨c, c', hstep, ⟨halike, ?_⟩, rfl⟩
      have hc' : c'.isObject = true := halike.isObject ▸ hc
      cases c with
      | object _ =>
          cases c' with
          | object _ => exact .none
          | _ => cases hc'
      | _ => cases hc
  | some k =>
      obtain ⟨items, hitems, hk⟩ := Option.bind_eq_some_iff.mp hstep
      obtain ⟨v, hv, hv'⟩ := Option.bind_eq_some_iff.mp hitems
      have hvitems : v = .array items := by
        cases v with
        | array _ => cases hv'; rfl
        | _ => cases hv'
      subst hvitems
      refine ⟨.array items, .array (items.set k c'), hv, .array (Json.forall₂_alike_set hk halike),
        ?_⟩
      have hv₀ : ms.lookup field = some (.array items) := hv
      simp only [putStep, hv₀, Option.bind_some, Json.array?, Option.getD_some]

/-- A child that is replaced by an alike one leaves the node alike. -/
theorem alike_putStep {n c c' : SyntaxNode} {s : Step} (hb : (s, c) ∈ n.branches)
    (halike : c.Alike c') : n.Alike (n.putStep s c') := by
  obtain ⟨cs, hcs, hc, hstep⟩ := exists_of_mem_branches hb
  obtain ⟨k, slot, hslot, -, hfield⟩ := exists_slot_of_mem_branches hb
  -- the step leads into a slot, so the type and the declared name are left alone
  obtain ⟨htype, hid⟩ := k.field_of_mem_slots slot hslot
  obtain ⟨ms, rfl⟩ : ∃ ms, n = .object ms := by
    cases n with
    | object ms => exact ⟨ms, rfl⟩
    | _ => cases hcs
  obtain ⟨v, v', hv, hslotAlike, hput⟩ :=
    slotAlike_putStep hstep (isObject_of_mem_children hcs hc) halike
  rw [hput]
  have hother : ∀ key, key ≠ s.field → ms.lookup key = (Json.put s.field v' ms).lookup key := by
    intro key hkey
    rw [Json.lookup_put, if_neg hkey]
  refine alike_object (hother _ ?_) (hother _ ?_) fun _ _ other _ => ?_
  · exact fun he => htype (hfield.symm.trans he.symm)
  · exact fun he => hid (hfield.symm.trans he.symm)
  · by_cases he : other.field = s.field
    · rw [he, hv, Json.lookup_put, if_pos rfl]
      exact .some hslotAlike
    · rw [← hother _ he]
      exact rel_imp (fun _ _ hab => hab.slot) (Json.rel_readsAs_refl _)

/-- **An edit is not seen.** -/
theorem Edit.alike {n n' : SyntaxNode} (h : n.Edit n') : n.Alike n' := by
  induction h with
  | reorder h => exact h.readsAs.slot.value
  | @members ms ms' h =>
      refine alike_object (h _ (by simp [scopeKeys])).symm (h _ (by simp [scopeKeys])).symm ?_
      intro k hk slot hslot
      have hmem : slot.field ∈ scopeKeys (.object ms) := by
        rw [scopeKeys, hk]
        exact List.mem_cons_of_mem _ (List.mem_cons_of_mem _ (List.mem_map_of_mem hslot))
      rw [h _ hmem]
      exact rel_imp (fun _ _ hab => hab.slot) (Json.rel_readsAs_refl _)
  | child hb _ ih => exact alike_putStep hb ih

/-- **Edits keep the skeleton.** -/
theorem Edits.skeleton_eq {d d' : SyntaxNode} (h : d.Edits d') : d.skeleton = d'.skeleton := by
  induction h with
  | refl => rfl
  | tail _ hedit ih => exact ih.trans hedit.alike.skeleton

end SyntaxNode

end LexicalScope
