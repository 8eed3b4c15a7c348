import LexicalScope.Proofs.Position

set_option autoImplicit false

/-! # Children follow the grammar

`SyntaxNode.children` reads a node slot by slot and stops at the first slot that is not filled as
its form asks. Here the table of slots is read as a specification, about the plain members of an
object and without any reading order: `Slot.Form.Fits` says what a field may hold in a slot of each
form, and `Json.objects` lists the nodes that it holds.

* `Slot.Form.nodes?_eq_some_iff`: a slot gives nodes exactly if its field fits.
* `SyntaxNode.nodesIn_eq_ok_iff`, `SyntaxNode.nodesIn_eq_error_iff`: a list of slots.
* `SyntaxNode.children_follow_grammar`: when a node has children and which, and which fault it has
  otherwise.
-/

namespace LexicalScope

/-! ## What a slot asks for -/

/-- **What a field may hold in a slot of the form.** A missing field is `none`. -/
def Slot.Form.Fits : Slot.Form → Option Json → Prop
  | .node, value => ∃ v, value = some v ∧ v.isObject = true
  | .optional, value =>
    value = none ∨ value = some .null ∨ ∃ v, value = some v ∧ v.isObject = true
  | .list, value => ∃ items, value = some (.array items) ∧ ∀ v ∈ items, v.isObject = true
  | .sparse, value =>
    ∃ items, value = some (.array items) ∧ ∀ v ∈ items, v.isObject = true ∨ v = .null

/-- The objects that a value holds: itself, or those among the items of an array. -/
def Json.objects : Json → List Json
  | .object members => [.object members]
  | .array items => items.filter isObject
  | _ => []

namespace Json

theorem not_isNull_of_ne {v : Json} (h : v ≠ .null) : (!v.isNull) = true := by
  cases v with
  | null => exact absurd rfl h
  | _ => rfl

theorem eq_array_of_array? {v : Json} {items : List Json} (h : v.array? = some items) :
    v = .array items := by
  cases v with
  | array its => exact congrArg array (Option.some.inj h)
  | _ => cases h

/-- Where every item is an object or a hole, the items that are no holes are the objects. -/
theorem filter_isNull_eq_filter_isObject {items : List Json}
    (h : ∀ v ∈ items, v.isObject = true ∨ v = .null) :
    (items.filter fun v => !v.isNull) = items.filter isObject := by
  refine List.filter_congr fun v hv => ?_
  rcases h v hv with hobj | rfl
  · cases v with
    | object members => rfl
    | _ => cases hobj
  · rfl

end Json

namespace Slot.Form

/-! ## One slot -/

theorem nodes?_of_fits {form : Slot.Form} {value : Option Json} (h : form.Fits value) :
    form.nodes? (value.filter fun v => !v.isNull) = some (value.elim [] Json.objects) := by
  have hone : ∀ v : Json, v.isObject = true →
      (some v).filter (fun v => !v.isNull) = some v ∧ v.objects = [v] := by
    intro v hv
    cases v with
    | object members => exact ⟨rfl, rfl⟩
    | _ => cases hv
  cases form with
  | node =>
      obtain ⟨v, rfl, hv⟩ := h
      obtain ⟨hsome, hobjects⟩ := hone v hv
      rw [hsome, Option.elim_some, hobjects, nodes?, Option.any_some, if_pos hv]
      rfl
  | optional =>
      rcases h with rfl | rfl | ⟨v, rfl, hv⟩
      · rfl
      · rfl
      · obtain ⟨hsome, hobjects⟩ := hone v hv
        rw [hsome, Option.elim_some, hobjects, nodes?, Option.all_some, if_pos hv]
        rfl
  | list =>
      obtain ⟨items, rfl, hall⟩ := h
      have hobjects : (Json.array items).objects = items := List.filter_eq_self.mpr hall
      rw [Option.elim_some, hobjects]
      show (some items).filter (fun items => items.all Json.isObject) = some items
      exact Option.filter_eq_some_iff.mpr ⟨rfl, List.all_eq_true.mpr hall⟩
  | sparse =>
      obtain ⟨items, rfl, hall⟩ := h
      rw [Option.elim_some, Json.objects]
      show (some (items.filter fun v => !v.isNull)).filter (fun nodes => nodes.all Json.isObject)
        = _
      rw [Json.filter_isNull_eq_filter_isObject hall]
      refine Option.filter_eq_some_iff.mpr ⟨rfl, List.all_eq_true.mpr fun v hv => ?_⟩
      exact (List.mem_filter.mp hv).2

/-- A slot that gives nodes is filled as its form asks. -/
theorem fits_of_nodes? {form : Slot.Form} {value : Option Json} {nodes : List SyntaxNode}
    (h : form.nodes? (value.filter fun v => !v.isNull) = some nodes) : form.Fits value := by
  have harray : ∀ {items}, (value.filter fun v => !v.isNull).bind Json.array? = some items →
      value = some (.array items) := by
    intro items hitems
    obtain ⟨v, hv, harr⟩ := Option.bind_eq_some_iff.mp hitems
    rw [(Option.filter_eq_some_iff.mp hv).1, Json.eq_array_of_array? harr]
  cases form with
  | node =>
      obtain ⟨hany, -⟩ := Option.ite_none_right_eq_some.mp h
      obtain ⟨v, hv, hobj⟩ := (Option.any_eq_true _ _).mp hany
      exact ⟨v, (Option.filter_eq_some_iff.mp hv).1, hobj⟩
  | optional =>
      obtain ⟨hall, -⟩ := Option.ite_none_right_eq_some.mp h
      cases value with
      | none => exact Or.inl rfl
      | some v =>
          by_cases hnull : v = .null
          · exact Or.inr (Or.inl (congrArg some hnull))
          · refine Or.inr (Or.inr ⟨v, rfl, ?_⟩)
            exact (Option.all_eq_true _ _).mp hall v
              (Option.filter_eq_some_iff.mpr ⟨rfl, Json.not_isNull_of_ne hnull⟩)
  | list =>
      obtain ⟨hitems, hall⟩ := Option.filter_eq_some_iff.mp h
      exact ⟨nodes, harray hitems, List.all_eq_true.mp hall⟩
  | sparse =>
      obtain ⟨hmap, hall⟩ := Option.filter_eq_some_iff.mp h
      obtain ⟨items, hitems, rfl⟩ := Option.map_eq_some_iff.mp hmap
      refine ⟨items, harray hitems, fun v hv => ?_⟩
      by_cases hnull : v = .null
      · exact Or.inr hnull
      · refine Or.inl (List.all_eq_true.mp hall v ?_)
        exact List.mem_filter.mpr ⟨hv, Json.not_isNull_of_ne hnull⟩

/-- **A slot gives nodes exactly if its field fits**, and gives the objects in the field. -/
theorem nodes?_eq_some_iff {form : Slot.Form} {value : Option Json} {nodes : List SyntaxNode} :
    form.nodes? (value.filter fun v => !v.isNull) = some nodes ↔
      form.Fits value ∧ nodes = value.elim [] Json.objects := by
  constructor
  · intro h
    have hfits := fits_of_nodes? h
    rw [nodes?_of_fits hfits] at h
    exact ⟨hfits, (Option.some.inj h).symm⟩
  · rintro ⟨hfits, rfl⟩
    exact nodes?_of_fits hfits

theorem nodes?_eq_none_iff {form : Slot.Form} {value : Option Json} :
    form.nodes? (value.filter fun v => !v.isNull) = none ↔ ¬ form.Fits value := by
  rw [← not_iff_not, not_not, ← Ne, Option.ne_none_iff_exists']
  constructor
  · rintro ⟨nodes, h⟩
    exact fits_of_nodes? h
  · intro h
    exact ⟨_, nodes?_of_fits h⟩

/-- The value `null` is a hole in a sparse list, and a fault in a list. -/
example : sparse.nodes? (some (.array [.null])) = some [] ∧
    list.nodes? (some (.array [.null])) = none := ⟨rfl, rfl⟩

end Slot.Form

namespace SyntaxNode

variable {n : SyntaxNode}

/-! ## A list of slots -/

/-- The slot is filled as its form asks. -/
def Fills (n : SyntaxNode) (slot : Slot) : Prop := slot.form.Fits (n.member? slot.field)

/-- The objects that the slot holds. -/
def heldIn (n : SyntaxNode) (slot : Slot) : List SyntaxNode :=
  (n.member? slot.field).elim [] Json.objects

/-- Slots that are all filled give what they hold, slot by slot. -/
theorem nodesIn_eq_ok_iff {slots : List Slot} {cs : List SyntaxNode} :
    n.nodesIn slots = .ok cs ↔ (∀ slot ∈ slots, n.Fills slot) ∧ cs = slots.flatMap n.heldIn := by
  induction slots generalizing cs with
  | nil => simp [nodesIn, eq_comm]
  | cons slot slots ih =>
      rw [List.forall_mem_cons, List.flatMap_cons]
      constructor
      · intro h
        obtain ⟨here, rest, hhere, hrest, rfl⟩ := nodesIn_cons_eq_ok h
        obtain ⟨hfits, rfl⟩ := Slot.Form.nodes?_eq_some_iff.mp hhere
        obtain ⟨hall, rfl⟩ := ih.mp hrest
        exact ⟨⟨hfits, hall⟩, rfl⟩
      · rintro ⟨⟨hfits, hall⟩, rfl⟩
        have hhere : slot.form.nodes? (n.field? slot.field) = some (n.heldIn slot) :=
          Slot.Form.nodes?_of_fits hfits
        rw [nodesIn, hhere, ih.mpr ⟨hall, rfl⟩]
        rfl

/-- The first slot that is not filled decides the fault. -/
theorem nodesIn_eq_error_iff {slots : List Slot} {f : Fault} :
    n.nodesIn slots = .error f ↔ ∃ before slot after, slots = before ++ slot :: after ∧
      (∀ s ∈ before, n.Fills s) ∧ ¬ n.Fills slot ∧ f = .missingChild slot.field n.digest := by
  -- both ways go along the slots, the way back only along those before the one that is not filled
  constructor
  · intro h
    induction slots with
    | nil => cases h
    | cons slot slots ih =>
        rw [nodesIn] at h
        split at h
        · next hnone =>
          cases h
          exact ⟨[], slot, slots, rfl, by simp, Slot.Form.nodes?_eq_none_iff.mp hnone, rfl⟩
        · next here hhere =>
          cases hrest : n.nodesIn slots with
          | ok rest => rw [hrest] at h; cases h
          | error f' =>
              rw [hrest] at h
              cases h
              obtain ⟨before, s, after, rfl, hbefore, hs, hf⟩ := ih hrest
              have hslot : n.Fills slot := Slot.Form.fits_of_nodes? hhere
              have hall := List.forall_mem_cons.mpr ⟨hslot, hbefore⟩
              exact ⟨slot :: before, s, after, rfl, hall, hs, hf⟩
  · rintro ⟨before, slot, after, rfl, hbefore, hslot, rfl⟩
    induction before with
    | nil =>
        have hnone : slot.form.nodes? (n.field? slot.field) = none :=
          Slot.Form.nodes?_eq_none_iff.mpr hslot
        rw [List.nil_append, nodesIn, hnone]
    | cons s before ih =>
        obtain ⟨hs, hrest⟩ := List.forall_mem_cons.mp hbefore
        have hhere : s.form.nodes? (n.field? s.field) = some (n.heldIn s) :=
          Slot.Form.nodes?_of_fits hs
        rw [List.cons_append, nodesIn, hhere, ih hrest]
        rfl

/-! ## A node -/

/-- The node is an object whose `type` is the name of the kind. -/
def IsOfKind (n : SyntaxNode) (k : Kind) : Prop :=
  n.isObject = true ∧ n.member? "type" = some (.string k.name)

theorem kind?_eq_some_iff {k : Kind} : n.kind? = some k ↔ n.IsOfKind k := by
  constructor
  · intro h
    obtain ⟨name, hname, hk⟩ := Option.bind_eq_some_iff.mp h
    obtain ⟨v, hv, hstring⟩ := Option.bind_eq_some_iff.mp hname
    have htype : n.member? "type" = some (.string k.name) := by
      cases v with
      | string s =>
          cases hstring
          rw [hv, Kind.name_of_ofName? hk]
      | _ => cases hstring
    refine ⟨?_, htype⟩
    cases n with
    | object members => rfl
    | _ => cases htype
  · rintro ⟨-, htype⟩
    rw [kind?, typeName?, htype]
    exact Kind.ofName?_name k

theorem kind?_eq_none_iff : n.kind? = none ↔ ∀ k, ¬ n.IsOfKind k := by
  rw [Option.eq_none_iff_forall_ne_some]
  exact forall_congr' fun k => not_congr kind?_eq_some_iff

/-- **Children follow the grammar.** A node has children exactly if it is an object whose `type`
names a kind and every slot of this kind is filled; the children are then the objects in the slots,
in the order of the slots. Otherwise its fault is that no kind has its type or, if one has, that
the first slot of the kind that is not filled is missing its child. -/
theorem children_follow_grammar (n : SyntaxNode) :
    (∀ cs, n.children = .ok cs ↔ ∃ k, n.IsOfKind k ∧ (∀ slot ∈ k.slots, n.Fills slot) ∧
      cs = k.slots.flatMap n.heldIn) ∧
    (∀ f, n.children = .error f ↔
      ((∀ k, ¬ n.IsOfKind k) ∧ f = .unsupportedKind (n.typeName?.getD "<unknown>") n.digest) ∨
      ∃ k before slot after, n.IsOfKind k ∧ k.slots = before ++ slot :: after ∧
        (∀ s ∈ before, n.Fills s) ∧ ¬ n.Fills slot ∧ f = .missingChild slot.field n.digest) := by
  have hunfold : ∀ k, n.IsOfKind k → n.children = n.nodesIn k.slots := by
    intro k hk
    rw [children, kind, kind?_eq_some_iff.mpr hk]
    rfl
  refine ⟨fun cs => ⟨?_, ?_⟩, fun f => ⟨?_, ?_⟩⟩
  · intro h
    obtain ⟨k, hk, hcs⟩ := children_eq_ok h
    exact ⟨k, kind?_eq_some_iff.mp hk, nodesIn_eq_ok_iff.mp hcs⟩
  · rintro ⟨k, hk, hfills⟩
    rw [hunfold k hk]
    exact nodesIn_eq_ok_iff.mpr hfills
  · intro h
    cases hk : n.kind? with
    | none =>
        rw [children, kind, hk] at h
        cases h
        exact Or.inl ⟨kind?_eq_none_iff.mp hk, rfl⟩
    | some k =>
        have hk := kind?_eq_some_iff.mp hk
        rw [hunfold k hk] at h
        obtain ⟨before, slot, after, hslots, hrest⟩ := nodesIn_eq_error_iff.mp h
        exact Or.inr ⟨k, before, slot, after, hk, hslots, hrest⟩
  · rintro (⟨hnone, rfl⟩ | ⟨k, before, slot, after, hk, hslots, hrest⟩)
    · rw [children, kind, kind?_eq_none_iff.mpr hnone]
      rfl
    · rw [hunfold k hk]
      exact nodesIn_eq_error_iff.mpr ⟨before, slot, after, hslots, hrest⟩

end SyntaxNode

/-! ## A loop over holes -/

namespace Sample

/-- An array with a hole between its elements. -/
def holes : SyntaxNode :=
  .object [
    ("type", .string "ArrayExpression"),
    ("elements", .array [
      .object [("type", .string "ThisExpression")],
      .null,
      .object [("type", .string "Literal")]])]

/-- A `for` loop whose fields are not in the order of the slots. Of the optional ones, `init` is
null and `test` is missing. -/
def loop : SyntaxNode :=
  .object [
    ("type", .string "ForStatement"),
    ("body", .object [("type", .string "EmptyStatement")]),
    ("update", holes),
    ("init", .null)]

/-- A `for` loop with a number for a test, and no body. -/
def stuckLoop : SyntaxNode :=
  .object [
    ("type", .string "ForStatement"),
    ("init", holes),
    ("test", .number (.int 5))]

/-- The children of the loop come in the order of the slots and those of the array without the
hole. The other loop is blamed for its test, which comes before the body. -/
theorem children_follow_grammar_loop :
    loop.children = .ok [holes, .object [("type", .string "EmptyStatement")]] ∧
      holes.children = .ok [
        .object [("type", .string "ThisExpression")],
        .object [("type", .string "Literal")]] ∧
      stuckLoop.children
        = .error (.missingChild "test" "ForStatement (init:ArrayExpression, test:number)") := by
  have hloop : ∀ slot ∈ Kind.forStatement.slots, loop.Fills slot := by
    simp only [Kind.slots, List.forall_mem_cons]
    exact ⟨Or.inr (Or.inl rfl), Or.inl rfl, Or.inr (Or.inr ⟨holes, rfl, rfl⟩), ⟨_, rfl, rfl⟩,
      by simp⟩
  have hholes : ∀ slot ∈ Kind.arrayExpression.slots, holes.Fills slot := by
    simp only [Kind.slots, List.forall_mem_singleton]
    exact ⟨_, rfl, by simp [Json.isObject]⟩
  have hinit : ∀ slot ∈ [(⟨.optional, "init"⟩ : Slot)], stuckLoop.Fills slot := by
    simp only [List.forall_mem_singleton]
    exact Or.inr (Or.inr ⟨holes, rfl, rfl⟩)
  have htest : ¬ stuckLoop.Fills ⟨.optional, "test"⟩ := by
    rintro (hnone | hnull | ⟨v, hv, hobj⟩)
    · cases hnone
    · cases hnull
    · cases hv
      cases hobj
  refine ⟨?_, ?_, ?_⟩
  · exact ((SyntaxNode.children_follow_grammar loop).1 _).mpr
      ⟨.forStatement, ⟨rfl, rfl⟩, hloop, rfl⟩
  · exact ((SyntaxNode.children_follow_grammar holes).1 _).mpr
      ⟨.arrayExpression, ⟨rfl, rfl⟩, hholes, rfl⟩
  · refine ((SyntaxNode.children_follow_grammar stuckLoop).2 _).mpr
      (Or.inr ⟨.forStatement, _, _, _, ⟨rfl, rfl⟩, rfl, hinit, htest, ?_⟩)
    decide +kernel

end Sample

end LexicalScope
