import LexicalScope.Proofs.Attribution
import LexicalScope.Proofs.Descent
import LexicalScope.Proofs.DirectReport
import LexicalScope.Proofs.TreeListing

set_option autoImplicit false

/-! # Lines of a listing

In text, a listing has a line for each entry. But what a line says of an entry is taken from the
document as it stands there: field names and types in the digest of a node, declared names in the
line of a scope. A line feed in one of these breaks the line. Here the line feeds of a listing are
counted.

* `SyntaxNode.lineFeeds_digest_eq_zero_iff`: when a digest is on one line.
* `lineFeeds_of_prints`: the line feeds of a list of lines.
* `Mode.prints_of_listing`: every listing has a line for each entry.
* `Mode.lines_match_entries_iff`: when there are as many line feeds as entries.
-/

namespace LexicalScope

open Query

/-! ## Line feeds -/

/-- The number of line feeds in a text. -/
def lineFeeds (s : String) : Nat := s.toList.count '\n'

theorem lineFeeds_append (s s' : String) : lineFeeds (s ++ s') = lineFeeds s + lineFeeds s' := by
  rw [lineFeeds, String.toList_append, List.count_append]
  rfl

theorem lineFeeds_join (l : List String) : lineFeeds (String.join l) = (l.map lineFeeds).sum := by
  rw [lineFeeds, String.toList_join, List.flatMap, List.count_flatten, List.map_map]
  rfl

/-- A separator without line feeds adds none. -/
theorem lineFeeds_intercalate {sep : String} (hsep : lineFeeds sep = 0) (l : List String) :
    lineFeeds (sep.intercalate l) = (l.map lineFeeds).sum := by
  induction l with
  | nil => simp [lineFeeds]
  | cons s l ih =>
      cases l with
      | nil => simp
      | cons s' l =>
          rw [String.intercalate_cons_cons, lineFeeds_append, lineFeeds_append, ih, hsep,
            Nat.add_zero]
          rfl

theorem lineFeeds_indentation (depth : Nat) : lineFeeds (indentation depth) = 0 := by
  rw [lineFeeds, indentation, String.toList_ofList, List.count_replicate]
  rfl

theorem Kind.lineFeeds_name (k : Kind) : lineFeeds k.name = 0 := by
  cases k <;> decide +kernel

theorem sum_lineFeeds_eq_zero {l : List String} :
    (l.map lineFeeds).sum = 0 ↔ ∀ s ∈ l, lineFeeds s = 0 := by
  rw [List.sum_eq_zero_iff, List.forall_mem_map]

/-! ## Digests -/

namespace SyntaxNode

/-- **No field breaks a line**: neither its name nor the type of a node in it has a line feed. -/
def FieldsUnbroken : SyntaxNode → Prop
  | .object members => ∀ m ∈ members, m.1 ≠ "type" →
      lineFeeds m.1 = 0 ∧ ∀ s, typeName? m.2 = some s → lineFeeds s = 0
  | _ => True

/-- The word for a value has a line feed only if it is the type of a node. -/
theorem lineFeeds_shape_eq_zero {v : Json} :
    lineFeeds (shape v) = 0 ↔ ∀ s, typeName? v = some s → lineFeeds s = 0 := by
  have hwords : ∀ w ∈ ["null", "boolean", "number", "string", "[]", "object"],
      lineFeeds w = 0 := by decide +kernel
  cases v with
  | object members =>
      rw [shape]
      cases typeName? (.object members) with
      | none => exact iff_of_true (hwords _ (by simp)) (by simp)
      | some s => simp
  | _ => exact iff_of_true (hwords _ (by simp [shape])) fun s hs => by cases hs

theorem lineFeeds_outline_eq_zero {members : List (String × Json)} :
    lineFeeds (outline (.object members)) = 0 ↔ FieldsUnbroken (.object members) := by
  have hcolon : lineFeeds ":" = 0 := by decide +kernel
  have hmember : ∀ m : String × Json, lineFeeds (m.1 ++ ":" ++ shape m.2) = 0 ↔
      lineFeeds m.1 = 0 ∧ ∀ s, typeName? m.2 = some s → lineFeeds s = 0 := by
    intro m
    rw [← lineFeeds_shape_eq_zero, lineFeeds_append, lineFeeds_append, hcolon]
    omega
  rw [outline, lineFeeds_intercalate (by decide +kernel), sum_lineFeeds_eq_zero,
    List.forall_mem_map]
  simp only [FieldsUnbroken, hmember, List.mem_filter, bne_iff_ne, and_imp]

/-- **The digest of a node that has its children is on one line** exactly if no field breaks it:
the type of such a node is the name of a kind. -/
theorem lineFeeds_digest_eq_zero_iff {n : SyntaxNode} {cs : List SyntaxNode}
    (h : n.children = .ok cs) : lineFeeds n.digest = 0 ↔ n.FieldsUnbroken := by
  obtain ⟨k, hk⟩ := kind?_of_children h
  obtain ⟨s, hs, hks⟩ := Option.bind_eq_some_iff.mp hk
  have htype : lineFeeds n.typeName = 0 := by
    rw [typeName, hs, Option.getD_some, ← Kind.name_of_ofName? hks]
    exact k.lineFeeds_name
  have hopen : lineFeeds " (" = 0 := by decide +kernel
  have hclose : lineFeeds ")" = 0 := by decide +kernel
  have hdigest : lineFeeds n.digest = lineFeeds n.outline := by
    rw [digest, lineFeeds_append, lineFeeds_append, lineFeeds_append]
    omega
  cases n with
  | object members => rw [hdigest, lineFeeds_outline_eq_zero]
  | _ => cases hs

end SyntaxNode

/-! ## Lines -/

/-- **A line that prints an entry** ends with a line feed of its own. The others are those of the
texts that the entry consists of. -/
def Prints (line : String) (entry : List String) : Prop :=
  ∃ body, line = body ++ "\n" ∧ lineFeeds body = (entry.map lineFeeds).sum

/-- **The line feeds of a list of lines**: one for each entry, and those of all texts. -/
theorem lineFeeds_of_prints {lines : List String} {entries : List (List String)}
    (h : List.Forall₂ Prints lines entries) :
    lineFeeds (String.join lines) = entries.length + (entries.flatten.map lineFeeds).sum := by
  rw [lineFeeds_join]
  induction h with
  | nil => rfl
  | @cons line entry lines entries hline _ ih =>
      obtain ⟨body, rfl, hbody⟩ := hline
      have hend : lineFeeds "\n" = 1 := by decide +kernel
      rw [List.map_cons, List.sum_cons, ih, lineFeeds_append, hbody, hend, List.flatten_cons,
        List.map_append, List.sum_append, List.length_cons]
      omega

/-- The line of a scope prints its name and the names declared in it, where the kind does not break
it. -/
theorem ScopeRow.prints_line {r : ScopeRow} (hkind : lineFeeds r.kind = 0) :
    Prints (r.line false) (r.name.toList ++ r.identifiers) := by
  have hsep : lineFeeds ", " = 0 := by decide +kernel
  have hspace : lineFeeds " " = 0 := by decide +kernel
  have hcolon : lineFeeds ":" = 0 := by decide +kernel
  have hempty : lineFeeds "" = 0 := by decide +kernel
  have hname : lineFeeds (r.name.elim "" fun name => " " ++ Paint.name.apply false name)
      = (r.name.toList.map lineFeeds).sum := by
    cases r.name with
    | none => exact hempty
    | some name =>
        rw [Option.elim_some, lineFeeds_append, hspace, Paint.apply, if_neg Bool.false_ne_true]
        simp
  have hnames : lineFeeds
      (if r.identifiers.isEmpty then "" else " " ++ ", ".intercalate r.identifiers)
      = (r.identifiers.map lineFeeds).sum := by
    cases hids : r.identifiers with
    | nil => exact hempty
    | cons s l =>
        rw [if_neg (by simp), lineFeeds_append, hspace, lineFeeds_intercalate hsep, Nat.zero_add]
  refine ⟨_, rfl, ?_⟩
  rw [lineFeeds_append, lineFeeds_append, lineFeeds_append, lineFeeds_append, hname, hnames, hcolon,
    lineFeeds_indentation, Paint.apply, if_neg Bool.false_ne_true, hkind,
    List.map_append, List.sum_append]
  omega

namespace Tree

variable {d : SyntaxNode} {t : Tree}

/-- The line of a node prints its digest. -/
theorem Node.prints_line (n : Node) (i : NodeId) :
    Prints ((n.row i).line false) [n.source.digest] := by
  refine ⟨indentation (n.row i).depth.toNat ++ n.source.digest, ?_, ?_⟩
  · rw [NodeRow.line, Paint.apply, if_neg Bool.false_ne_true, ← n.kind_append_afterKind i,
      ← String.append_assoc]
  · rw [lineFeeds_append, lineFeeds_indentation, List.map_singleton, List.sum_singleton]
    omega

/-- Rows of nodes that stand in the document print the digests of these. -/
theorem prints_rows (h : t.Mirrors d) {ids : List NodeId} {xs : List (Position × SyntaxNode)}
    (hxs : ∀ x ∈ xs, d.valueAt? x.1 = some x.2)
    (hids : List.Forall₂ t.Stands ids (xs.map Prod.fst)) :
    List.Forall₂ Prints ((t.rows ids).map fun r => r.line false)
      (xs.map fun x => [x.2.digest]) := by
  rw [List.forall₂_map_left_iff, List.forall₂_map_right_iff]
  exact forall₂_rows (R := fun r _ n => Prints (r.line false) [n.digest]) h
    (fun {i _ n} _ _ => n.prints_line i) hxs hids

end Tree

/-! ## Entries of a document -/

namespace SyntaxNode

variable {d : SyntaxNode}

/-- The nodes under an offset, from the root down. There are none if the root excludes it. -/
def under (d : SyntaxNode) (offset : UInt64) : List (Position × SyntaxNode) :=
  if d.span?.all fun s => s.contains offset then d.descent offset [] else []

/-- The name of the scope at a position and the names declared in it. -/
def scopeTexts (d : SyntaxNode) (p : Position) : List String :=
  ((d.valueAt? p).bind declaredName?).toList ++ d.names p

/-- **The names in the lines of all scopes are the names that nodes declare**, the root
included. -/
theorem exists_mem_scopeTexts (hroot : d.introduces [] = true) {name : String} :
    (∃ p ∈ (d.preorder []).filter d.introduces, name ∈ d.scopeTexts p) ↔
      ∃ p ∈ d.preorder [], (d.valueAt? p).bind declaredName? = some name := by
  have hperm := perm_flatMap_names hroot
  constructor
  · rintro ⟨p, hp, hname⟩
    rcases List.mem_append.mp hname with hself | hname
    · exact ⟨p, List.mem_of_mem_filter hp, by simpa using hself⟩
    · have hdecl := hperm.subset (List.mem_flatMap.mpr ⟨p, hp, hname⟩)
      obtain ⟨q, hq, hqname⟩ := List.mem_filterMap.mp hdecl
      exact ⟨q, List.mem_of_mem_tail hq, hqname⟩
  · rintro ⟨p, hp, hname⟩
    rw [← d.cons_tail_preorder [], List.mem_cons] at hp
    rcases hp with rfl | hp
    · -- the root declares its name nowhere, but shows it in its own line
      refine ⟨[], List.mem_filter.mpr ⟨d.mem_preorder_self [], hroot⟩, ?_⟩
      exact List.mem_append_left _ (by simpa using hname)
    · have hdecl : name ∈ d.declarations := List.mem_filterMap.mpr ⟨p, hp, hname⟩
      obtain ⟨q, hq, hqname⟩ := List.mem_flatMap.mp (hperm.symm.subset hdecl)
      exact ⟨q, hq, List.mem_append_right _ hqname⟩

end SyntaxNode

namespace Mode

/-- **The entries of a listing**, each with the texts of the document that its line shows: the
digest of a node, or the names in the line of a scope. -/
def entries (d : SyntaxNode) : Mode → List (List String)
  | scopes => ((d.preorder []).filter d.introduces).map d.scopeTexts
  | tree => (d.nodesFrom []).map fun x => [x.2.digest]
  | chain offset => (d.under offset).map fun x => [x.2.digest]

/-- **Nothing that a listing shows has a line feed.** -/
def Unbroken (d : SyntaxNode) : Mode → Prop
  | scopes => ∀ p ∈ d.preorder [], ∀ name,
      (d.valueAt? p).bind SyntaxNode.declaredName? = some name → lineFeeds name = 0
  | tree => ∀ x ∈ d.nodesFrom [], x.2.FieldsUnbroken
  | chain offset => ∀ x ∈ d.under offset, x.2.FieldsUnbroken

end Mode

/-! ## Reports of a fresh tree -/

theorem Query.ask_eq_ok {α : Type} {question : Query α} {d : SyntaxNode} {a : α}
    (h : question.ask d = .ok a) : ∃ t', question (Tree.ofDocument d) = .ok a t' := by
  rw [ask, EStateM.run] at h
  cases hrun : question (Tree.ofDocument d) with
  | ok a' t' =>
      rw [hrun] at h
      cases h
      exact ⟨t', rfl⟩
  | error e t' =>
      rw [hrun] at h
      cases h

theorem Query.exists_of_map_ask {α β : Type} {question : Query α} {d : SyntaxNode} {f : α → β}
    {b : β} (h : (question.ask d).map f = .ok b) : ∃ a, question.ask d = .ok a ∧ f a = b := by
  cases hask : question.ask d with
  | ok a =>
      rw [hask] at h
      exact ⟨a, rfl, Except.ok.inj h⟩
  | error e =>
      rw [hask] at h
      cases h

namespace Tree

variable {d : SyntaxNode}

theorem expands_of_ask_nodeReport {rows : List NodeRow} (h : ask nodeReport d = .ok rows) :
    d.Expands := by
  rw [← SyntaxNode.treeFault?_eq_none]
  cases hf : d.treeFault? with
  | none => rfl
  | some f =>
      rw [ask_nodeReport_of_error hf] at h
      cases h

theorem prints_nodeReport {rows : List NodeRow} (h : ask nodeReport d = .ok rows) :
    List.Forall₂ Prints (rows.map fun r => r.line false) (Mode.tree.entries d) ∧ d.Expands := by
  have hd := expands_of_ask_nodeReport h
  obtain ⟨t, ids, hask, hs, -, hids⟩ := ask_nodeReport_of_ok hd
  rw [h] at hask
  cases hask
  rw [← d.map_fst_nodesFrom []] at hids
  exact ⟨prints_rows hs.arena (fun x => SyntaxNode.valueAt?_of_mem_nodesFrom d.valueAt?_nil) hids,
    hd⟩

theorem prints_chainReport {offset : UInt64} {rows : List NodeRow}
    (h : ask (chainReport offset) d = .ok rows) :
    List.Forall₂ Prints (rows.map fun r => r.line false) ((Mode.chain offset).entries d) ∧
      ∀ x ∈ d.under offset, ∃ cs, x.2.children = .ok cs := by
  obtain ⟨t', hrun⟩ := ask_eq_ok h
  obtain ⟨ids, u, hids, hrest⟩ := bind_eq_ok hrun
  cases hrest
  rw [Mode.entries]
  by_cases hin : d.Admits offset
  · have hunder : d.under offset = d.descent offset [] :=
      if_pos ((Option.all_eq_true _ _).mpr hin)
    obtain ⟨hall, hs, hstands⟩ := stands_of_chainAt (sound_ofDocument d) hin hids
    rw [hunder]
    exact ⟨prints_rows hs.arena (fun x hx => (SyntaxNode.of_mem_descent d.valueAt?_nil hx).1)
      hstands, hall⟩
  · have hunder : d.under offset = [] :=
      if_neg fun hall => hin ((Option.all_eq_true _ _).mp hall)
    rw [chainAt_of_not_admits (sound_ofDocument d).arena hin] at hids
    cases hids
    rw [hunder]
    exact ⟨.nil, by simp⟩

theorem prints_scopeReport {rows : List ScopeRow} (h : ask scopeReport d = .ok rows) :
    List.Forall₂ Prints (rows.map fun r => r.line false) (Mode.scopes.entries d) ∧
      d.introduces [] = true := by
  obtain ⟨t', hrun⟩ := ask_eq_ok h
  obtain ⟨summaries, -, rfl, -, hroot, -, hsum⟩ :=
    summarized_of_scopeReport (sound_ofDocument d) hrun
  refine ⟨?_, hroot⟩
  rw [Mode.entries, List.map_map, List.forall₂_map_left_iff, List.forall₂_map_right_iff]
  refine hsum.imp fun s p hs => ?_
  have hline : Prints (s.row.line false) (s.name.toList ++ s.identifiers) :=
    ScopeRow.prints_line s.kind.lineFeeds_name
  rw [hs.name, hs.identifiers] at hline
  exact hline

end Tree

/-! ## Listings -/

namespace Mode

variable {mode : Mode} {d : SyntaxNode} {text : String}

/-- **Every listing in text has a line for each entry.** What it shows is unbroken exactly if none
of the texts has a line feed. -/
theorem prints_of_listing (h : mode.listing ⟨.text, false⟩ d = .ok text) :
    (∃ lines, text = String.join lines ∧ List.Forall₂ Prints lines (mode.entries d)) ∧
      (mode.Unbroken d ↔ ∀ s ∈ (mode.entries d).flatten, lineFeeds s = 0) := by
  -- a node that has its children is of a kind, so only its fields can break the line
  have hdigests : ∀ xs : List (Position × SyntaxNode),
      (∀ x ∈ xs, ∃ cs, x.2.children = .ok cs) →
      ((∀ x ∈ xs, x.2.FieldsUnbroken) ↔
        ∀ s ∈ (xs.map fun x => [x.2.digest]).flatten, lineFeeds s = 0) := by
    intro xs hxs
    simp only [List.forall_mem_flatten, List.forall_mem_map, List.forall_mem_singleton]
    refine forall₂_congr fun x hx => ?_
    obtain ⟨cs, hcs⟩ := hxs x hx
    exact (SyntaxNode.lineFeeds_digest_eq_zero_iff hcs).symm
  cases mode with
  | scopes =>
      obtain ⟨rows, hask, rfl⟩ := exists_of_map_ask h
      obtain ⟨hlines, hroot⟩ := Tree.prints_scopeReport hask
      refine ⟨⟨_, rfl, hlines⟩, ?_⟩
      simp only [Unbroken, entries, List.forall_mem_flatten, List.forall_mem_map]
      constructor
      · intro hall p hp name hname
        obtain ⟨q, hq, hqname⟩ := (SyntaxNode.exists_mem_scopeTexts hroot).mp ⟨p, hp, hname⟩
        exact hall q hq name hqname
      · intro hall p hp name hname
        obtain ⟨q, hq, hqname⟩ := (SyntaxNode.exists_mem_scopeTexts hroot).mpr ⟨p, hp, hname⟩
        exact hall q hq name hqname
  | tree =>
      obtain ⟨rows, hask, rfl⟩ := exists_of_map_ask h
      obtain ⟨hlines, hall⟩ := Tree.prints_nodeReport hask
      exact ⟨⟨_, rfl, hlines⟩, hdigests _ hall⟩
  | chain offset =>
      obtain ⟨rows, hask, rfl⟩ := exists_of_map_ask h
      obtain ⟨hlines, hall⟩ := Tree.prints_chainReport hask
      exact ⟨⟨_, rfl, hlines⟩, hdigests _ hall⟩

/-- **A listing has as many lines as entries exactly if nothing that it shows has a line feed.** In
any case it has a line for each entry, and these have the line feeds that end them and those of
the texts in them. -/
theorem lines_match_entries_iff (h : mode.listing ⟨.text, false⟩ d = .ok text) :
    (∃ lines, text = String.join lines ∧ List.Forall₂ Prints lines (mode.entries d)) ∧
      lineFeeds text
        = (mode.entries d).length + ((mode.entries d).flatten.map lineFeeds).sum ∧
      (lineFeeds text = (mode.entries d).length ↔ mode.Unbroken d) := by
  obtain ⟨⟨lines, rfl, hlines⟩, hunbroken⟩ := prints_of_listing h
  have hcount := lineFeeds_of_prints hlines
  refine ⟨⟨lines, rfl, hlines⟩, hcount, ?_⟩
  rw [hunbroken, ← sum_lineFeeds_eq_zero]
  omega

end Mode

/-! ## A field that breaks a line -/

namespace Sample

/-- An empty program with a field whose name has a line feed in it. -/
def broken : SyntaxNode :=
  .object [
    ("type", .string "Program"),
    ("body", .array []),
    ("a\nb", .number (.int 1))]

/-- The program is the only entry, but it is printed on two lines. -/
theorem lines_exceed_entries_broken :
    ∃ text, Mode.tree.listing ⟨.text, false⟩ broken = .ok text ∧
      (Mode.tree.entries broken).length = 1 ∧ lineFeeds text = 2 := by
  refine ⟨"Program (body:[], a\nb:number)\n", ?_, by decide +kernel, by decide +kernel⟩
  rfl

/-- The small document has two scopes, with three names in them, and seven nodes. Nothing that is
printed of them has a line feed, so each is on a line of its own. -/
theorem lines_match_entries_program :
    (∃ text, Mode.scopes.listing ⟨.text, false⟩ program = .ok text ∧
      text = "Program: x, f\n  FunctionDeclaration f: y\n" ∧
      Mode.scopes.entries program = [["x", "f"], ["f", "y"]] ∧ Mode.scopes.Unbroken program ∧
      lineFeeds text = (Mode.scopes.entries program).length) ∧
    ∃ text, Mode.tree.listing ⟨.text, false⟩ program = .ok text ∧
      (Mode.tree.entries program).length = 7 ∧ Mode.tree.Unbroken program ∧
      lineFeeds text = 7 := by
  constructor
  · have htext : Mode.scopes.listing ⟨.text, false⟩ program
        = .ok "Program: x, f\n  FunctionDeclaration f: y\n" := by decide +kernel
    have hnames : ∀ p ∈ program.preorder [],
        ((program.valueAt? p).bind SyntaxNode.declaredName?).all
          (fun name => lineFeeds name == 0) = true := by decide +kernel
    have hunbroken : Mode.scopes.Unbroken program := by
      intro p hp name hname
      have hall := hnames p hp
      rw [hname] at hall
      exact beq_iff_eq.mp hall
    exact ⟨_, htext, rfl, by decide +kernel, hunbroken,
      (Mode.lines_match_entries_iff htext).2.2.mpr hunbroken⟩
  · have hexpands : program.Expands := SyntaxNode.treeFault?_eq_none.mp (by decide +kernel)
    obtain ⟨t, ids, hask, -⟩ := Tree.ask_nodeReport_of_ok hexpands
    have htext : Mode.tree.listing ⟨.text, false⟩ program
        = .ok (Style.nodes ⟨.text, false⟩ (t.rows ids)) := by
      rw [Mode.listing, hask]
      rfl
    have hentries : (Mode.tree.entries program).length = 7 := by decide +kernel
    have hunbroken : Mode.tree.Unbroken program :=
      (Mode.prints_of_listing htext).2.mpr (by decide +kernel)
    refine ⟨_, htext, hentries, hunbroken, ?_⟩
    rw [(Mode.lines_match_entries_iff htext).2.2.mpr hunbroken, hentries]

end Sample

end LexicalScope
