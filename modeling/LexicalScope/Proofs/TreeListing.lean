import LexicalScope.Command.Run
import LexicalScope.Proofs.Numbering
import LexicalScope.Proofs.Words

set_option autoImplicit false

/-! # The tree listing, read off the document

The listing of a whole tree is made from rows, the rows from wrapped nodes, and these are wrapped
and numbered by a walk. Here the listing is compared with one that needs no tree: the nodes of the
document in pre-order (`SyntaxNode.nodesFrom`), each with a line or an object of its own. The
order of the nodes is that of the walk, but their numbers are those of the wrapping
(`Proofs/Numbering`).

* `Tree.Node.line_row`, `Tree.Node.toJson_row`: what a row says is what the document says.
* `Tree.ask_nodeReport_of_error`, `Tree.ask_nodeReport_of_ok`: the report of a fresh tree.
* `Mode.listing_tree_refines`: the listing, in text and in JSON.
-/

namespace LexicalScope

open Query

/-! ## The listing of a document -/

namespace SyntaxNode

/-- **A node that stands at `p` and everything below it, in pre-order**, with the positions. -/
def nodesFrom (n : SyntaxNode) (p : Position) : List (Position × SyntaxNode) :=
  (p, n) :: n.branches.attach.flatMap fun b => nodesFrom b.1.2 (b.1.1 :: p)
termination_by n.objectCount
decreasing_by exact objectCount_lt_of_mem_branches b.2

/-- Whether every node of a document has its children. -/
def Expands (d : SyntaxNode) : Prop := ∀ x ∈ d.nodesFrom [], ∃ cs, x.2.children = .ok cs

/-- The fault of the first node in pre-order that has one. -/
def treeFault? (d : SyntaxNode) : Option Fault := (d.nodesFrom []).findSome? fun x => x.2.fault?

/-- The line of a node: its digest, indented by two spaces for each node above it. -/
def lineAt (p : Position) (n : SyntaxNode) : String :=
  String.ofList (List.replicate (2 * p.length) ' ') ++ n.digest ++ "\n"

/-- The number of the parent of the node at a position. Only the root has none. -/
def parentNumber? (d : SyntaxNode) : Position → Option Nat
  | [] => none
  | _ :: p => some (d.number p)

/-- The object of a node. -/
def objectAt (d : SyntaxNode) (p : Position) (n : SyntaxNode) : Json :=
  .object <|
    [("index", .number (.int (d.number p)))] ++
    (d.parentNumber? p).toList.map (fun i => ("parent", .number (.int i))) ++
    [("depth", .number (.int p.length)), ("kind", .string n.typeName),
      ("digest", .string n.digest)]

/-- **The listing of a document in text**, without colour. -/
def textListing (d : SyntaxNode) : String :=
  String.join ((d.nodesFrom []).map fun x => lineAt x.1 x.2)

/-- **The listing of a document in JSON.** -/
def jsonListing (d : SyntaxNode) : String :=
  (Json.array ((d.nodesFrom []).map fun x => d.objectAt x.1 x.2)).pretty ++ "\n"

variable {d : SyntaxNode}

theorem nodesFrom_eq (n : SyntaxNode) (p : Position) :
    n.nodesFrom p = (p, n) :: n.branches.flatMap fun b => b.2.nodesFrom (b.1 :: p) := by
  rw [nodesFrom]
  congr 1
  rw [List.flatMap_subtype (g := fun b => b.2.nodesFrom (b.1 :: p)) fun _ _ => rfl,
    List.unattach_attach]

theorem map_fst_nodesFrom (n : SyntaxNode) (p : Position) :
    (n.nodesFrom p).map Prod.fst = n.preorder p := by
  induction n, p using preorder.induct with
  | case1 n p ih =>
      rw [nodesFrom_eq, preorder_eq, List.map_cons, List.map_flatMap]
      congr 1
      exact List.flatMap_congr fun b hb => ih ⟨b, hb⟩

theorem valueAt?_of_mem_nodesFrom {n : SyntaxNode} {p : Position} (hp : d.valueAt? p = some n)
    {x : Position × SyntaxNode} (hx : x ∈ n.nodesFrom p) : d.valueAt? x.1 = some x.2 := by
  induction n, p using preorder.induct with
  | case1 n p ih =>
      rw [nodesFrom_eq, List.mem_cons, List.mem_flatMap] at hx
      rcases hx with rfl | ⟨b, hb, hx⟩
      · exact hp
      · exact ih ⟨b, hb⟩ (valueAt?_branch hp hb) hx

theorem firstFault_map_fst {xs : List (Position × SyntaxNode)}
    (h : ∀ x ∈ xs, d.valueAt? x.1 = some x.2) :
    d.firstFault (xs.map Prod.fst) = xs.findSome? fun x => x.2.fault? := by
  induction xs with
  | nil => rfl
  | cons x xs ih =>
      obtain ⟨hx, hxs⟩ := List.forall_mem_cons.mp h
      have hrest := ih hxs
      rw [firstFault] at hrest ⊢
      rw [List.map_cons, List.findSome?_cons, List.findSome?_cons, hx, Option.bind_some, hrest]

theorem treeFault?_eq (d : SyntaxNode) : d.treeFault? = d.firstFault (d.preorder []) := by
  rw [← map_fst_nodesFrom, treeFault?]
  exact (firstFault_map_fst fun x => valueAt?_of_mem_nodesFrom d.valueAt?_nil).symm

theorem treeFault?_eq_none : d.treeFault? = none ↔ d.Expands := by
  rw [treeFault?, List.findSome?_eq_none_iff]
  exact forall₂_congr fun x _ => fault?_eq_none

end SyntaxNode

namespace Tree

variable {d : SyntaxNode} {t : Tree}

/-! ## Rows -/

/-- A node is as deep as its position is long. -/
theorem Stands.depth_eq (h : t.Mirrors d) {i : NodeId} {p : Position} {n : Node}
    (hi : t.Stands i p) (hn : t.node? i = some n) : n.depth = p.length := by
  induction hi generalizing n with
  | root =>
      obtain ⟨m, hm, -, -, hdepth⟩ := h.root
      rw [hn] at hm
      cases hm
      exact hdepth
  | @child i j m p ids k s hi hm hids hj hs ih =>
      obtain ⟨-, -, n', -, -, hn', -, hpar⟩ := h.child hm hids hj
      rw [hn] at hn'
      cases hn'
      have hlt := h.parent_lt hn hpar
      obtain ⟨i', m', -, hpar', -, hm', -, -, hdepth⟩ :=
        h.parent hn (Nat.ne_of_gt (Nat.zero_lt_of_lt hlt))
      rw [hpar] at hpar'
      cases hpar'
      rw [hm] at hm'
      cases hm'
      rw [hdepth, ih hm, List.length_cons]

theorem Stands.parent_eq (h : t.Mirrors d) (hnum : t.Numbered d) {i : NodeId} {p : Position}
    {n : Node} (hi : t.Stands i p) (hn : t.node? i = some n) : n.parent = d.parentNumber? p := by
  cases p with
  | nil => exact hi.parent_of_nil h hn
  | cons s p =>
      obtain ⟨j, -, -, hpar, -, hj, -⟩ := hi.parent_of_cons h hn
      rw [hpar, hnum hj]
      rfl

/-- The kind and what follows it in a digest make up the digest. -/
theorem Node.kind_append_afterKind (n : Node) (i : NodeId) :
    (n.row i).kind ++ (n.row i).afterKind = n.source.digest := by
  have hdigest : n.source.typeName.toList.isPrefixOf? n.source.digest.toList
      = some (" (" ++ n.source.outline ++ ")").toList := by
    rw [List.isPrefixOf?_eq_some_iff_append_eq, ← String.toList_append, SyntaxNode.digest]
    simp only [String.append_assoc]
  rw [NodeRow.afterKind]
  simp only [Node.row, hdigest, String.ofList_toList]
  rw [SyntaxNode.digest]
  simp only [String.append_assoc]

/-- **The line of a row** is the line of the node in the document. -/
theorem Node.line_row (h : t.Mirrors d) (hfits : t.FitsWords) {i : NodeId} {p : Position} {n : Node}
    (hi : t.Stands i p) (hn : t.node? i = some n) :
    (n.row i).line false = SyntaxNode.lineAt p n.source := by
  obtain ⟨-, -, hdepth⟩ := hfits.row i n hn
  rw [NodeRow.line, hdepth, hi.depth_eq h hn, indentation, Paint.apply,
    if_neg Bool.false_ne_true, SyntaxNode.lineAt, ← n.kind_append_afterKind i,
    ← String.append_assoc]

/-- **The object of a row** is the object of the node in the document. -/
theorem Node.toJson_row (h : t.Mirrors d) (hnum : t.Numbered d) (hfits : t.FitsWords) {i : NodeId}
    {p : Position} {n : Node} (hi : t.Stands i p) (hn : t.node? i = some n) :
    (n.row i).toJson = d.objectAt p n.source := by
  obtain ⟨hindex, hparent, hdepth⟩ := hfits.row i n hn
  have hmember : Json.member "parent" ((n.row i).parent.map fun w => Json.nat w.toNat)
      = (d.parentNumber? p).toList.map fun j => ("parent", .number (.int j)) := by
    rw [← hi.parent_eq h hnum hn, ← hparent, Json.member]
    cases (n.row i).parent with
    | none => rfl
    | some w => rfl
  rw [NodeRow.toJson, hmember, hindex, hdepth, hnum hi, hi.depth_eq h hn, SyntaxNode.objectAt]
  rfl

/-- What holds of the row of each node holds of each row and the node of the document. -/
theorem forall₂_rows {R : NodeRow → Position → SyntaxNode → Prop} (h : t.Mirrors d)
    (hR : ∀ {i p n}, t.Stands i p → t.node? i = some n → R (n.row i) p n.source)
    {ids : List NodeId} {xs : List (Position × SyntaxNode)}
    (hxs : ∀ x ∈ xs, d.valueAt? x.1 = some x.2)
    (hids : List.Forall₂ t.Stands ids (xs.map Prod.fst)) :
    List.Forall₂ (fun r x => R r x.1 x.2) (t.rows ids) xs := by
  induction xs generalizing ids with
  | nil =>
      cases hids
      exact .nil
  | cons x xs ih =>
      obtain ⟨hx, hxs⟩ := List.forall_mem_cons.mp hxs
      cases hids with
      | @cons i _ ids _ hi hids =>
          obtain ⟨n, hn, hp⟩ := hi.exists_node h
          have hsource : n.source = x.2 := Option.some.inj (hp.symm.trans hx)
          have hrow := hR hi hn
          rw [hsource] at hrow
          have hrest := ih hxs hids
          rw [rows] at hrest ⊢
          rw [List.filterMap_cons, hn]
          exact .cons hrow hrest

/-- What is made of each row is made of each node of the document. -/
theorem map_rows {β : Type} (f : NodeRow → β) (g : Position → SyntaxNode → β) (h : t.Mirrors d)
    (hfg : ∀ {i p n}, t.Stands i p → t.node? i = some n → f (n.row i) = g p n.source)
    {ids : List NodeId} {xs : List (Position × SyntaxNode)}
    (hxs : ∀ x ∈ xs, d.valueAt? x.1 = some x.2)
    (hids : List.Forall₂ t.Stands ids (xs.map Prod.fst)) :
    (t.rows ids).map f = xs.map fun x => g x.1 x.2 := by
  rw [← List.forall₂_eq_eq_eq, List.forall₂_map_left_iff, List.forall₂_map_right_iff]
  exact forall₂_rows (R := fun r p n => f r = g p n) h hfg hxs hids

/-! ## The report of a fresh tree -/

theorem ask_nodeReport_of_error {f : Fault} (hf : d.treeFault? = some f) :
    ask nodeReport d = .error (.fault f) := by
  have hbelow : d.below [] = .error f := by
    rw [SyntaxNode.below, SyntaxNode.preorderAt_of_valueAt? d.valueAt?_nil]
    exact SyntaxNode.barring_of_some (d.treeFault?_eq.symm.trans hf) _
  obtain ⟨t', hrun, -⟩ := (descendants_answers (sound_ofDocument d) .root).exists_of_error hbelow
  have hreport : nodeReport (ofDocument d) = .error (.fault f) t' := bind_of_error hrun
  rw [ask, EStateM.run, hreport]

/-- **The report of a fresh tree** lists the rows of the nodes in pre-order, numbered as the
document says. -/
theorem ask_nodeReport_of_ok (hd : d.Expands) :
    ∃ (t' : Tree) (ids : List NodeId), ask nodeReport d = .ok (t'.rows ids) ∧ t'.Sound d ∧
      t'.Numbered d ∧ List.Forall₂ t'.Stands ids (d.preorder []) := by
  have hbelow : d.below [] = .ok (d.preorder []).tail := by
    rw [SyntaxNode.below, SyntaxNode.preorderAt_of_valueAt? d.valueAt?_nil]
    exact SyntaxNode.barring_of_none
      (d.treeFault?_eq.symm.trans (SyntaxNode.treeFault?_eq_none.mpr hd)) _
  obtain ⟨ids, t', hrun, hmoves, -, hids⟩ :=
    (descendants_answers (sound_ofDocument d) .root).exists_of_ok hbelow
  have hreport : nodeReport (ofDocument d) = .ok (t'.rows (root :: ids)) t' := bind_of_ok hrun
  refine ⟨t', root :: ids, by rw [ask, EStateM.run, hreport], (sound_ofDocument d).moves hmoves,
    numbered_of_descendants hrun, ?_⟩
  rw [← d.cons_tail_preorder []]
  exact .cons .root hids

end Tree

/-! ## The listing -/

/-- **The tree listing is read off the document.** A document of fewer than 2^32 objects has a
listing, in any style, if and only if each of its nodes has its children; otherwise the fault is
that of the first node in pre-order that has one. Without colour the text has a line for each node
in pre-order, and the JSON text has an object for each, with the numbers of the document. -/
theorem Mode.listing_tree_refines {d : SyntaxNode} (hcount : d.objectCount ≤ 2 ^ 32 - 1) :
    (∀ style, (∃ text, Mode.tree.listing style d = .ok text) ↔ d.Expands) ∧
      (∀ style f, d.treeFault? = some f → Mode.tree.listing style d = .error (.fault f)) ∧
      (d.Expands → Mode.tree.listing ⟨.text, false⟩ d = .ok d.textListing ∧
        ∀ color, Mode.tree.listing ⟨.json, color⟩ d = .ok d.jsonListing) := by
  have herror : ∀ style f, d.treeFault? = some f →
      Mode.tree.listing style d = .error (.fault f) := by
    intro style f hf
    rw [Mode.listing, Tree.ask_nodeReport_of_error hf]
    rfl
  refine ⟨fun style => ⟨?_, ?_⟩, herror, ?_⟩
  · rintro ⟨text, htext⟩
    rw [← SyntaxNode.treeFault?_eq_none]
    cases hf : d.treeFault? with
    | none => rfl
    | some f =>
        rw [herror style f hf] at htext
        cases htext
  · intro hd
    obtain ⟨t, ids, hask, -⟩ := Tree.ask_nodeReport_of_ok hd
    exact ⟨style.nodes (t.rows ids), by rw [Mode.listing, hask]; rfl⟩
  · intro hd
    obtain ⟨t, ids, hask, hs, hnum, hids⟩ := Tree.ask_nodeReport_of_ok hd
    have hfits := hs.fitsWords (by omega)
    rw [← d.map_fst_nodesFrom []] at hids
    have hvalue : ∀ x ∈ d.nodesFrom [], d.valueAt? x.1 = some x.2 := fun x =>
      SyntaxNode.valueAt?_of_mem_nodesFrom d.valueAt?_nil
    have hlines := Tree.map_rows (fun r => r.line false) SyntaxNode.lineAt hs.arena
      (Tree.Node.line_row hs.arena hfits) hvalue hids
    have hobjects := Tree.map_rows NodeRow.toJson d.objectAt hs.arena
      (Tree.Node.toJson_row hs.arena hnum hfits) hvalue hids
    have hlisting : ∀ style : Style,
        Mode.tree.listing style d = .ok (style.nodes (t.rows ids)) := by
      intro style
      rw [Mode.listing, hask]
      rfl
    refine ⟨?_, fun color => ?_⟩
    · rw [hlisting, SyntaxNode.textListing, ← hlines]
      rfl
    · rw [hlisting, SyntaxNode.jsonListing, ← hobjects]
      rfl

/-- A program with one statement, which does nothing. -/
def Sample.idle : SyntaxNode :=
  .object [
    ("type", .string "Program"),
    ("body", .array [.object [("type", .string "EmptyStatement")]])]

/-- In the small document the function comes fourth, with the number two: it is numbered together
with the declaration before it, before the child of that one. The text in JSON is shown for a
program with one statement. -/
theorem Sample.listing_tree_program :
    Sample.program.objectCount ≤ 2 ^ 32 - 1 ∧ Sample.program.Expands ∧
      (Sample.program.nodesFrom []).map (fun x => Sample.program.number x.1)
        = [0, 1, 3, 2, 4, 5, 6] ∧
      (Sample.program.nodesFrom []).map (fun x => Sample.program.parentNumber? x.1)
        = [none, some 0, some 1, some 0, some 2, some 4, some 5] ∧
      Mode.tree.listing ⟨.text, false⟩ Sample.program = .ok Sample.program.textListing ∧
      Sample.program.textListing =
        "Program (body:[])\n" ++
        "  VariableDeclaration (declarations:[])\n" ++
        "    VariableDeclarator (id:Identifier)\n" ++
        "  FunctionDeclaration (id:Identifier, body:BlockStatement)\n" ++
        "    BlockStatement (body:[])\n" ++
        "      VariableDeclaration (declarations:[])\n" ++
        "        VariableDeclarator (id:Identifier)\n" ∧
      Mode.tree.listing ⟨.json, false⟩ Sample.program = .ok Sample.program.jsonListing ∧
      Mode.tree.listing ⟨.json, false⟩ Sample.idle = .ok (
        "[\n" ++
        "  \x7b\n    \"index\": 0,\n    \"depth\": 0,\n" ++
        "    \"kind\": \"Program\",\n    \"digest\": \"Program (body:[])\"\n  \x7d,\n" ++
        "  \x7b\n    \"index\": 1,\n    \"parent\": 0,\n    \"depth\": 1,\n" ++
        "    \"kind\": \"EmptyStatement\",\n    \"digest\": \"EmptyStatement ()\"\n  \x7d\n" ++
        "]\n") := by
  have hcount : Sample.program.objectCount ≤ 2 ^ 32 - 1 := by decide +kernel
  have hexpands : Sample.program.Expands :=
    SyntaxNode.treeFault?_eq_none.mp (by decide +kernel)
  obtain ⟨-, -, hlisting⟩ := Mode.listing_tree_refines hcount
  obtain ⟨htext, hjson⟩ := hlisting hexpands
  exact ⟨hcount, hexpands, by decide +kernel, by decide +kernel, htext, by decide +kernel,
    hjson false, by decide +kernel⟩

end LexicalScope
