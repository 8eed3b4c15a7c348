import LexicalScope.Proofs.Reporting

set_option autoImplicit false

/-! # Questions and the trees they lead to

A tree can be asked nine kinds of `Question`. Numbers mean different nodes in different trees, so
a question and its answer are compared by the positions that the numbers stand for
(`Question.locate`, `Answer.locate`). `SyntaxNode.answer` gives the answer from the document alone.

* `Question.ask_answers`: a tree that agrees with the document answers every question as the
  document does.
* `Reachable.sound`: every tree that questions lead to, whether they succeeded or failed, agrees
  with the document.
-/

namespace LexicalScope

open Query

/-- A question about nodes, given as `ν`, and scopes, given as `σ`. -/
inductive Question (ν σ : Type) where
  | children (node : ν)
  | descendants (node : ν)
  | descendantsOfKind (node : ν) (kind : Kind)
  | chainAt (offset : UInt64)
  | scopeOf (node : ν)
  | outerScope (scope : σ)
  | declaredNames (scope : σ)
  | allScopes
  | scopeReport
deriving DecidableEq

/-- An answer in terms of nodes, given as `ν`, scopes, given as `σ`, and rows of a report, given
as `ρ`. -/
inductive Answer (ν σ ρ : Type) where
  | nodes (nodes : List ν)
  | scope (scope : σ)
  | outer (scope : Option σ)
  | names (names : List String)
  | scopes (scopes : List σ)
  | report (rows : List ρ)
deriving DecidableEq

namespace Question

/-- Asks a tree. -/
def ask : Question NodeId ScopeId → Query (Answer NodeId ScopeId ScopeRow)
  | children i => .nodes <$> Tree.children i
  | descendants i => .nodes <$> Tree.descendants i
  | descendantsOfKind i k => .nodes <$> Tree.descendantsOfKind i k
  | chainAt offset => .nodes <$> Tree.chainAt offset
  | scopeOf i => .scope <$> Tree.scopeOf i
  | outerScope s => .outer <$> Tree.outerScope s
  | declaredNames s => .names <$> Tree.declaredNames s
  | allScopes => .scopes <$> Tree.allScopes
  | scopeReport => .report <$> Tree.scopeReport

/-- The tree that a question leaves, whether it has succeeded or failed. -/
def after (q : Question NodeId ScopeId) (t : Tree) : Tree :=
  match q.ask t with
  | .ok _ t' => t'
  | .error _ t' => t'

/-- A question about nodes and scopes that the tree has. -/
def Valid (t : Tree) : Question NodeId ScopeId → Prop
  | children i | descendants i | descendantsOfKind i _ | scopeOf i => i < t.size
  | outerScope s | declaredNames s => s < t.scopeCount
  | chainAt _ | allScopes | scopeReport => True

instance (t : Tree) : (q : Question NodeId ScopeId) → Decidable (q.Valid t)
  | children i | descendants i | descendantsOfKind i _ | scopeOf i => Nat.decLt i t.size
  | outerScope s | declaredNames s => Nat.decLt s t.scopeCount
  | chainAt _ | allScopes | scopeReport => instDecidableTrue

/-- The question with positions in place of the numbers of a tree. -/
def locate (t : Tree) : Question NodeId ScopeId → Question Position Position
  | children i => .children (t.position i)
  | descendants i => .descendants (t.position i)
  | descendantsOfKind i k => .descendantsOfKind (t.position i) k
  | chainAt offset => .chainAt offset
  | scopeOf i => .scopeOf (t.position i)
  | outerScope s => .outerScope (t.scopePosition s)
  | declaredNames s => .declaredNames (t.scopePosition s)
  | allScopes => .allScopes
  | scopeReport => .scopeReport

end Question

/-- The answer with positions in place of the numbers of a tree. -/
def Answer.locate (t : Tree) : Answer NodeId ScopeId ScopeRow → Answer Position Position ScopeEntry
  | nodes ids => .nodes (ids.map t.position)
  | scope s => .scope (t.scopePosition s)
  | outer s => .outer (s.map t.scopePosition)
  | names l => .names l
  | scopes ss => .scopes (ss.map t.scopePosition)
  | report rows => .report (rows.map (ScopeRow.entry t))

/-- An answer in nodes and scopes that the tree has. -/
def Answer.Valid (t : Tree) : Answer NodeId ScopeId ScopeRow → Prop
  | nodes ids => ∀ i ∈ ids, i < t.size
  | scope s => s < t.scopeCount
  | outer s => ∀ x ∈ s, x < t.scopeCount
  | names _ => True
  | scopes ss => ∀ s ∈ ss, s < t.scopeCount
  | report rows => ∀ r ∈ rows, r.Valid t

/-- **The answer to a question from the document alone.** -/
def SyntaxNode.answer (d : SyntaxNode) :
    Question Position Position → Except Fault (Answer Position Position ScopeEntry)
  | .children p => (d.childrenAt p).map .nodes
  | .descendants p => (d.below p).map .nodes
  | .descendantsOfKind p k => (d.belowOfKind p k).map .nodes
  | .chainAt offset => (d.chainAt offset).map .nodes
  | .scopeOf p => (d.scopeOf p).map .scope
  | .outerScope p => (d.outerScope p).map .outer
  | .declaredNames p => (d.declaredNames p).map .names
  | .allScopes => d.allScopes.map .scopes
  | .scopeReport => d.scopeReport.map .report

/-! ## Answers located -/

namespace Tree

variable {d : SyntaxNode} {t : Tree}

theorem read_of_stands (h : t.Mirrors d) {ids : List NodeId} {ps : List Position}
    (hids : List.Forall₂ t.Stands ids ps) :
    (∀ i ∈ ids, i < t.size) ∧ ids.map t.position = ps :=
  read_of_forall₂ (fun _ _ hi => ⟨hi.lt_size h, hi.eq_position h⟩) hids

theorem read_of_scopeStands (h : t.Mirrors d) {ss : List ScopeId} {ps : List Position}
    (hss : List.Forall₂ t.ScopeStands ss ps) :
    (∀ s ∈ ss, s < t.scopeCount) ∧ ss.map t.scopePosition = ps :=
  read_of_forall₂ (fun _ _ hs => ⟨hs.lt_scopeCount, hs.eq_scopePosition h⟩) hss

theorem read_of_outer (h : t.Mirrors d) {s : Option ScopeId} {p : Option Position}
    (hs : Option.Rel t.ScopeStands s p) :
    (∀ x ∈ s, x < t.scopeCount) ∧ s.map t.scopePosition = p :=
  read_of_rel (fun _ _ hs => ⟨hs.lt_scopeCount, hs.eq_scopePosition h⟩) hs

theorem Sound.stands_of_lt (h : t.Sound d) {i : NodeId} (hi : i < t.size) :
    t.Stands i (t.position i) := by
  obtain ⟨n, hn⟩ := exists_node?_of_lt hi
  exact h.arena.stands_position hn

theorem Sound.scopeStands_of_lt (h : t.Sound d) {s : ScopeId} (hs : s < t.scopeCount) :
    t.ScopeStands s (t.scopePosition s) :=
  h.scopes.scopeStands_scopePosition h.arena (Array.getElem?_eq_getElem hs)

end Tree

namespace Question

variable {d : SyntaxNode} {t : Tree}

/-- An answer in the numbers of a tree that says what an answer in positions says. A report is
read through its words, so this needs a document in which no two numbers share one. -/
def Says (d : SyntaxNode) (t : Tree) (a : Answer NodeId ScopeId ScopeRow)
    (b : Answer Position Position ScopeEntry) : Prop :=
  d.objectCount < 2 ^ 32 → a.Valid t ∧ a.locate t = b

theorem answers_nodes (h : t.Sound d) {x : Query (List NodeId)}
    {r : Except Fault (List Position)}
    (hx : x.Answers d t r fun t' ids ps => List.Forall₂ t'.Stands ids ps) :
    Answers (Answer.nodes <$> x) d t (r.map .nodes) (Says d) := by
  refine hx.map fun ids ps t' hmoves hps _ => ?_
  obtain ⟨hvalid, hpos⟩ := Tree.read_of_stands (h.moves hmoves).arena hps
  exact ⟨hvalid, congrArg Answer.nodes hpos⟩

/-- **Every question answers as the document says.** -/
theorem ask_answers (h : t.Sound d) {q : Question NodeId ScopeId} (hq : q.Valid t) :
    q.ask.Answers d t (d.answer (q.locate t)) (Says d) := by
  cases q with
  | children i => exact answers_nodes h (Tree.children_answers h (h.stands_of_lt hq))
  | descendants i =>
      have hbelow := Tree.descendants_answers h (h.stands_of_lt hq)
      exact answers_nodes h (hbelow.imp fun _ _ _ _ hb => hb.2)
  | descendantsOfKind i k =>
      exact answers_nodes h (Tree.descendantsOfKind_answers h (h.stands_of_lt hq) k)
  | chainAt offset => exact answers_nodes h (Tree.chainAt_answers h offset)
  | scopeOf i =>
      refine (Tree.scopeOf_answers h (h.stands_of_lt hq)).map fun s p t' hmoves hs _ => ?_
      exact ⟨hs.1.lt_scopeCount,
        congrArg Answer.scope (hs.1.eq_scopePosition (h.moves hmoves).arena)⟩
  | outerScope s =>
      refine (Tree.outerScope_answers h (h.scopeStands_of_lt hq)).map fun s p t' hmoves hs _ => ?_
      obtain ⟨hvalid, hpos⟩ := Tree.read_of_outer (h.moves hmoves).arena hs
      exact ⟨hvalid, congrArg Answer.outer hpos⟩
  | declaredNames s =>
      refine (Tree.declaredNames_answers h (h.scopeStands_of_lt hq)).map fun l l' t' _ hl _ => ?_
      exact ⟨trivial, congrArg Answer.names hl⟩
  | allScopes =>
      refine (Tree.allScopes_answers h).map fun ss ps t' hmoves hss _ => ?_
      obtain ⟨hvalid, hpos⟩ := Tree.read_of_scopeStands (h.moves hmoves).arena hss
      exact ⟨hvalid, congrArg Answer.scopes hpos⟩
  | scopeReport =>
      refine (Tree.scopeReport_answers h).map fun rows entries t' _ hrows hd => ?_
      obtain ⟨hvalid, hentries⟩ := hrows hd
      exact ⟨hvalid, congrArg Answer.report hentries⟩

/-- A question changes a tree by moves only. -/
theorem moves_after (h : t.Sound d) {q : Question NodeId ScopeId} (hq : q.Valid t) :
    t.Moves d (q.after t) := by
  have hanswers := ask_answers h hq
  rw [after]
  cases hr : d.answer (q.locate t) with
  | error f =>
      obtain ⟨t', hrun, hmoves⟩ := hanswers.exists_of_error hr
      rw [hrun]
      exact hmoves
  | ok b =>
      obtain ⟨a, t', hrun, hmoves, -⟩ := hanswers.exists_of_ok hr
      rw [hrun]
      exact hmoves

end Question

/-! ## Reachable trees -/

/-- **The trees that questions lead to from a tree**, whether they succeed or fail. -/
inductive Tree.LeadsTo (t : Tree) : Tree → Prop
  | refl : LeadsTo t t
  | ask {t' : Tree} (q : Question NodeId ScopeId) :
      LeadsTo t t' → q.Valid t' → LeadsTo t (q.after t')

/-- The trees over a document that questions lead to from the one in which only the root is
wrapped. -/
def Reachable (d : SyntaxNode) (t : Tree) : Prop := (Tree.ofDocument d).LeadsTo t

namespace Tree

variable {d : SyntaxNode} {t t' : Tree}

theorem LeadsTo.moves (h : t.Sound d) (hl : t.LeadsTo t') : t.Moves d t' := by
  induction hl with
  | refl => exact .refl
  | ask q _ hq ih => exact ih.trans (q.moves_after (h.moves ih) hq)

end Tree

theorem Reachable.sound {d : SyntaxNode} {t : Tree} (h : Reachable d t) : t.Sound d :=
  (Tree.sound_ofDocument d).moves (h.moves (Tree.sound_ofDocument d))

/-! ## A small document

The program `var x; function f() { var y }`, for examples of trees with different histories. -/

namespace Sample

def declaration (name : String) : SyntaxNode :=
  .object [
    ("type", .string "VariableDeclaration"),
    ("declarations", .array [
      .object [
        ("type", .string "VariableDeclarator"),
        ("id", .object [("type", .string "Identifier"), ("name", .string name)])]])]

def program : SyntaxNode :=
  .object [
    ("type", .string "Program"),
    ("body", .array [
      declaration "x",
      .object [
        ("type", .string "FunctionDeclaration"),
        ("id", .object [("type", .string "Identifier"), ("name", .string "f")]),
        ("body", .object [
          ("type", .string "BlockStatement"),
          ("body", .array [declaration "y"])])]])]

/-- The tree after the whole program has been walked. -/
def walked : Tree := (Question.descendants Tree.root).after (Tree.ofDocument program)

/-- The tree after the function has been looked at before the variable, and all scopes have been
opened. -/
def explored : Tree :=
  Question.allScopes.after ((Question.children 2).after ((Question.children Tree.root).after
    (Tree.ofDocument program)))

theorem reachable_walked : Reachable program walked :=
  .ask _ .refl (by decide +kernel)

theorem reachable_explored : Reachable program explored :=
  .ask _ (.ask _ (.ask _ .refl (by decide +kernel)) (by decide +kernel)) trivial

end Sample

end LexicalScope
