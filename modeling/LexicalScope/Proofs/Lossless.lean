import LexicalScope.Listing.Style
import LexicalScope.Proofs.RoundTrip

set_option autoImplicit false

/-! # Listings in JSON are lossless

A listing in JSON is an indented array with an object for each row, and a line feed after it. The
texts in a row may hold any characters, a member without a value is left out, and both the list of
rows and a list in a row may be empty. Nothing of this loses anything: the text is read as the
array that was written, since its objects have distinct keys and integers that fit, and each row is
read back from the members of its object.

* `Token.Spaced.append_blanks`: blanks after a text are skipped.
* `NodeRow.Held`, `ScopeRow.Held`: what the members of an object say of a row.
* `NodeRow.Held.ofJson?`, `ScopeRow.Held.ofJson?`: they determine the row.
* `Style.lossless_list`: the argument for any rows.
* `Style.json_lossless`: the listings of nodes and of scopes.
-/

namespace LexicalScope

/-! ## The text of a value and a line feed -/

namespace Token.Spaced

variable {ts : List Token} {cs : List Char}

theorem append_blanks {gap : List Char} (hgap : ∀ c ∈ gap, Lexer.isBlank c = true)
    (h : Spaced ts cs) : Spaced ts (cs ++ gap) := by
  induction h with
  | nil =>
      have hblank := Spaced.nil.blanks hgap
      rwa [List.append_nil] at hblank
  | blank hc _ ih => exact .blank hc ih
  | token hexact hsep _ ih =>
      rw [List.append_assoc]
      exact .token hexact hsep ih

end Token.Spaced

/-- Values that are read one by one from the items of a list. -/
theorem mapM_of_forall₂ {α β : Type} {read? : β → Option α} {l : List α} {items : List β}
    (h : List.Forall₂ (fun a b => read? b = some a) l items) : items.mapM read? = some l := by
  induction h with
  | nil => rfl
  | cons hab _ ih => rw [List.mapM_cons, hab, ih]; rfl

namespace Json

/-- A value is read back from its indented text, also if a line feed follows. -/
theorem IsExact.parse?_pretty_line {v : Json} (h : v.IsExact) :
    parse? (v.pretty ++ "\n") = some v := by
  refine h.parse?_of_spaced ?_
  rw [String.toList_append]
  exact h.legible_tokens.spaced_indent.append_blanks (by simp [Lexer.isBlank])

/-! ## Members -/

/-- The unsigned 32-bit integer that a value is. -/
def uint32? : Json → Option UInt32
  | number (.int n) => if 0 ≤ n ∧ n < 4294967296 then some n.toNat.toUInt32 else none
  | _ => none

/-- The texts of an array of strings. -/
def strings? (v : Json) : Option (List String) := v.array?.bind fun items => items.mapM string?

/-- A member that may be missing. A member that is there has to be read. -/
def optional? {α : Type} (read? : Json → Option α) : Option Json → Option (Option α)
  | none => some none
  | some v => (read? v).map some

theorem uint32?_nat (n : UInt32) : (nat n.toNat).uint32? = some n := by
  have hlt := n.toNat_lt
  rw [nat, uint32?, if_pos (by omega), Int.toNat_natCast]
  exact congrArg some n.ofNat_toNat

theorem uint64?_nat (n : UInt64) : (nat n.toNat).uint64? = some n := by
  have hlt := n.toNat_lt
  rw [nat, uint64?, Number.toUInt64?, if_pos (by omega), Int.toNat_natCast]
  exact congrArg some n.ofNat_toNat

theorem string?_string (s : String) : (string s).string? = some s := rfl

theorem strings?_array (l : List String) : (array (l.map string)).strings? = some l := by
  refine mapM_of_forall₂ (List.forall₂_map_right_iff.mpr ?_)
  exact List.forall₂_same.mpr fun s _ => string?_string s

theorem optional?_map {α : Type} {read? : Json → Option α} {write : α → Json}
    (h : ∀ a, read? (write a) = some a) (o : Option α) :
    optional? read? (o.map write) = some o := by
  cases o with
  | none => rfl
  | some a => rw [Option.map_some, optional?, h, Option.map_some]

/-! ## Objects -/

theorem isExact_nat {n : Nat} (h : n < UInt64.size) : (nat n).IsExact := by
  rw [UInt64.size] at h
  refine .number ⟨?_, ?_⟩ <;> omega

theorem isExact_uint32 (n : UInt32) : (nat n.toNat).IsExact :=
  isExact_nat (n.toNat_lt_size.trans (by decide))

theorem isExact_uint64 (n : UInt64) : (nat n.toNat).IsExact := isExact_nat n.toNat_lt_size

/-- The members that are there are exact if those that might be are. -/
theorem isExact_member {key : String} {o : Option Json} (h : ∀ v ∈ o, v.IsExact) :
    ∀ m ∈ member key o, m.2.IsExact := by
  cases o with
  | none => exact nofun
  | some v =>
      intro m hm
      rw [List.mem_singleton.mp hm]
      exact h v rfl

end Json

/-! ## Nodes -/

namespace NodeRow

/-- **An object that holds a row of a node**: it has these members, and a parent exactly if the row
has one. -/
structure Held (r : NodeRow) (v : Json) : Prop where
  object : v.isObject = true
  index : v.member? "index" = some (.nat r.index.toNat)
  parent : v.member? "parent" = r.parent.map fun p => .nat p.toNat
  depth : v.member? "depth" = some (.nat r.depth.toNat)
  kind : v.member? "kind" = some (.string r.kind)
  digest : v.member? "digest" = some (.string r.digest)

/-- The row that an object holds. -/
def ofJson? (v : Json) : Option NodeRow := do
  let index ← (v.member? "index").bind Json.uint32?
  let parent ← Json.optional? Json.uint32? (v.member? "parent")
  let depth ← (v.member? "depth").bind Json.uint32?
  let kind ← (v.member? "kind").bind Json.string?
  let digest ← (v.member? "digest").bind Json.string?
  return { index, parent, depth, kind, digest }

/-- **A row is read back from the object that holds it.** -/
theorem Held.ofJson? {r : NodeRow} {v : Json} (h : r.Held v) : NodeRow.ofJson? v = some r := by
  have hindex : (v.member? "index").bind Json.uint32? = some r.index := by
    rw [h.index, Option.bind_some, Json.uint32?_nat]
  have hparent : Json.optional? Json.uint32? (v.member? "parent") = some r.parent := by
    rw [h.parent, Json.optional?_map Json.uint32?_nat]
  have hdepth : (v.member? "depth").bind Json.uint32? = some r.depth := by
    rw [h.depth, Option.bind_some, Json.uint32?_nat]
  have hkind : (v.member? "kind").bind Json.string? = some r.kind := by
    rw [h.kind, Option.bind_some, Json.string?_string]
  have hdigest : (v.member? "digest").bind Json.string? = some r.digest := by
    rw [h.digest, Option.bind_some, Json.string?_string]
  rw [NodeRow.ofJson?, hindex, hparent, hdepth, hkind, hdigest]
  rfl

theorem held_toJson (r : NodeRow) : r.Held r.toJson := by
  cases hparent : r.parent <;> constructor <;>
    simp [toJson, Json.member?, Json.member, Json.isObject, List.lookup_cons, hparent]

theorem isExact_toJson (r : NodeRow) : r.toJson.IsExact := by
  refine .object ?_ ?_
  · cases r.parent <;> simp [Json.member]
  · simp only [List.forall_mem_append, List.forall_mem_cons]
    refine ⟨⟨⟨Json.isExact_uint32 _, nofun⟩, Json.isExact_member ?_⟩, Json.isExact_uint32 _,
      .string _, .string _, nofun⟩
    intro v hv
    obtain ⟨p, -, rfl⟩ := Option.map_eq_some_iff.mp hv
    exact Json.isExact_uint32 p

end NodeRow

/-! ## Scopes -/

namespace ScopeRow

/-- **An object that holds a row of a scope**: it has these members, and a name and a parent exactly
if the row has them. -/
structure Held (r : ScopeRow) (v : Json) : Prop where
  object : v.isObject = true
  id : v.member? "id" = some (.nat r.id.toNat)
  kind : v.member? "kind" = some (.string r.kind)
  name : v.member? "name" = r.name.map .string
  node : v.member? "node" = some (.nat r.node.toNat)
  parent : v.member? "parent" = r.parent.map fun p => .nat p.toNat
  depth : v.member? "depth" = some (.nat r.depth.toNat)
  identifiers : v.member? "identifiers" = some (.array (r.identifiers.map .string))

/-- The row that an object holds. -/
def ofJson? (v : Json) : Option ScopeRow := do
  let id ← (v.member? "id").bind Json.uint32?
  let kind ← (v.member? "kind").bind Json.string?
  let name ← Json.optional? Json.string? (v.member? "name")
  let node ← (v.member? "node").bind Json.uint32?
  let parent ← Json.optional? Json.uint32? (v.member? "parent")
  let depth ← (v.member? "depth").bind Json.uint64?
  let identifiers ← (v.member? "identifiers").bind Json.strings?
  return { id, kind, name, node, parent, depth, identifiers }

/-- **A row is read back from the object that holds it.** -/
theorem Held.ofJson? {r : ScopeRow} {v : Json} (h : r.Held v) :
    ScopeRow.ofJson? v = some r := by
  have hid : (v.member? "id").bind Json.uint32? = some r.id := by
    rw [h.id, Option.bind_some, Json.uint32?_nat]
  have hkind : (v.member? "kind").bind Json.string? = some r.kind := by
    rw [h.kind, Option.bind_some, Json.string?_string]
  have hname : Json.optional? Json.string? (v.member? "name") = some r.name := by
    rw [h.name, Json.optional?_map Json.string?_string]
  have hnode : (v.member? "node").bind Json.uint32? = some r.node := by
    rw [h.node, Option.bind_some, Json.uint32?_nat]
  have hparent : Json.optional? Json.uint32? (v.member? "parent") = some r.parent := by
    rw [h.parent, Json.optional?_map Json.uint32?_nat]
  have hdepth : (v.member? "depth").bind Json.uint64? = some r.depth := by
    rw [h.depth, Option.bind_some, Json.uint64?_nat]
  have hidentifiers : (v.member? "identifiers").bind Json.strings? = some r.identifiers := by
    rw [h.identifiers, Option.bind_some, Json.strings?_array]
  rw [ScopeRow.ofJson?, hid, hkind, hname, hnode, hparent, hdepth, hidentifiers]
  rfl

theorem held_toJson (r : ScopeRow) : r.Held r.toJson := by
  cases hname : r.name <;> cases hparent : r.parent <;> constructor <;>
    simp [toJson, Json.member?, Json.member, Json.isObject, List.lookup_cons, hname, hparent]

theorem isExact_toJson (r : ScopeRow) : r.toJson.IsExact := by
  refine .object ?_ ?_
  · cases r.name <;> cases r.parent <;> simp [Json.member]
  · simp only [List.forall_mem_append, List.forall_mem_cons]
    refine ⟨⟨⟨⟨⟨Json.isExact_uint32 _, .string _, nofun⟩, Json.isExact_member ?_⟩,
      Json.isExact_uint32 _, nofun⟩, Json.isExact_member ?_⟩, Json.isExact_uint64 _,
      .array ?_, nofun⟩
    · intro v hv
      obtain ⟨name, -, rfl⟩ := Option.map_eq_some_iff.mp hv
      exact .string name
    · intro v hv
      obtain ⟨p, -, rfl⟩ := Option.map_eq_some_iff.mp hv
      exact Json.isExact_uint32 p
    · intro v hv
      obtain ⟨name, -, rfl⟩ := List.mem_map.mp hv
      exact .string name

end ScopeRow

/-! ## Listings -/

/-- **A listing that loses nothing** of its rows. -/
structure Lossless {α : Type} (listing : List α → String) (holds : α → Json → Prop)
    (read? : Json → Option α) : Prop where
  /-- The listing is one array and a line feed. It is read as such, with an object for each row, in
  order, that holds the row and from which the row is read back. -/
  recovers : ∀ rows, ∃ objects, listing rows = (Json.array objects).pretty ++ "\n" ∧
    Json.parse? (Json.array objects).pretty = some (.array objects) ∧
    Json.parse? (listing rows) = some (.array objects) ∧
    List.Forall₂ holds rows objects ∧ objects.mapM read? = some rows
  /-- Different lists of rows have different listings. -/
  injective : Function.Injective listing

namespace Style

/-- Rows whose objects are exact and hold them. -/
theorem lossless_list {α : Type} (line : α → Bool → String) {object : α → Json}
    {holds : α → Json → Prop} {read? : Json → Option α} (hexact : ∀ r, (object r).IsExact)
    (hholds : ∀ r, holds r (object r)) (hread : ∀ r v, holds r v → read? v = some r)
    (color : Bool) : Lossless ((⟨.json, color⟩ : Style).list line object) holds read? := by
  have hrecovers : ∀ rows : List α, ∃ objects,
      (⟨.json, color⟩ : Style).list line object rows = (Json.array objects).pretty ++ "\n" ∧
      Json.parse? (Json.array objects).pretty = some (.array objects) ∧
      Json.parse? ((⟨.json, color⟩ : Style).list line object rows) = some (.array objects) ∧
      List.Forall₂ holds rows objects ∧ objects.mapM read? = some rows := by
    intro rows
    have harray : (Json.array (rows.map object)).IsExact := by
      refine .array fun v hv => ?_
      obtain ⟨r, -, rfl⟩ := List.mem_map.mp hv
      exact hexact r
    have hheld : List.Forall₂ holds rows (rows.map object) :=
      List.forall₂_map_right_iff.mpr (List.forall₂_same.mpr fun r _ => hholds r)
    exact ⟨rows.map object, rfl, harray.parse?_pretty, harray.parse?_pretty_line, hheld,
      mapM_of_forall₂ (hheld.imp hread)⟩
  refine ⟨hrecovers, fun rows rows' heq => ?_⟩
  obtain ⟨objects, -, -, hparse, -, hrows⟩ := hrecovers rows
  obtain ⟨objects', -, -, hparse', -, hrows'⟩ := hrecovers rows'
  rw [heq, hparse', Option.some_inj, Json.array.injEq] at hparse
  rw [hparse, hrows, Option.some_inj] at hrows'
  exact hrows'

/-- **Listings of nodes and of scopes in JSON are lossless**, whatever the texts in them. -/
theorem json_lossless (color : Bool) :
    Lossless (nodes ⟨.json, color⟩) NodeRow.Held NodeRow.ofJson? ∧
      Lossless (scopes ⟨.json, color⟩) ScopeRow.Held ScopeRow.ofJson? :=
  ⟨lossless_list NodeRow.line NodeRow.isExact_toJson NodeRow.held_toJson
      (fun _ _ h => h.ofJson?) color,
    lossless_list ScopeRow.line ScopeRow.isExact_toJson ScopeRow.held_toJson
      (fun _ _ h => h.ofJson?) color⟩

end Style

end LexicalScope
