import LexicalScope.Proofs.Questions
import Mathlib.Data.Finset.Card
import Mathlib.Data.Finset.Range

set_option autoImplicit false

/-! # Numbers fit their words

A tree numbers its nodes and scopes by natural numbers, and reports write them as words of 32 bits,
with one word set aside for the missing parent of the root. Here the numbers are bounded: there
are no more nodes than objects in the document, no more scopes than nodes, and no node is as deep
as there are nodes. So in a document of fewer than 2^32 objects no number that is ever given out
wraps, and none meets the word that is set aside.

* `Mirrors.depth_le`, `Sound.scopeCount_le_size`: the bounds inside a tree.
* `Reachable.words_exact`: the bounds and what follows for words, in every reachable tree.
-/

namespace LexicalScope

namespace Tree

/-! ## Words -/

/-- The word that stands for no node. -/
def noneWord : UInt32 := 4294967295

/-- The parent of a node in one word; a root has the word that stands for no node. -/
def Node.parentWord (n : Node) : UInt32 := n.parent.elim noneWord Nat.toUInt32

/-- **Every number of the tree fits a word.** -/
structure FitsWords (t : Tree) : Prop where
  /-- The count of the nodes is exact as a word: now, and each time a node was added. -/
  size : ∀ count ≤ t.size, count.toUInt32.toNat = count
  /-- So is the count of the scopes. -/
  scopeCount : ∀ count ≤ t.scopeCount, count.toUInt32.toNat = count
  /-- The depth of a child of any node does not wrap. -/
  deeper : ∀ i n, t.node? i = some n → (n.depth.toUInt32 + 1).toNat = n.depth + 1
  /-- No node is given the word that stands for no node. -/
  index : ∀ i < t.size, i.toUInt32 ≠ noneWord
  /-- In words, too, the root alone has no parent. -/
  parent : ∀ i n, t.node? i = some n → (n.parentWord = noneWord ↔ i = root)
  /-- The words in the row of a node can be read back. -/
  row : ∀ i n, t.node? i = some n → (n.row i).index.toNat = i ∧
    (n.row i).parent.map UInt32.toNat = n.parent ∧ (n.row i).depth.toNat = n.depth

theorem toNat_toUInt32 {i : Nat} (h : i < 2 ^ 32) : i.toUInt32.toNat = i :=
  UInt32.toNat_ofNat_of_lt h

theorem toUInt32_ne_noneWord {i : Nat} (h : i < 2 ^ 32 - 1) : i.toUInt32 ≠ noneWord := by
  intro heq
  have hnat := congrArg UInt32.toNat heq
  have hnone : noneWord.toNat = 2 ^ 32 - 1 := rfl
  rw [toNat_toUInt32 (by omega), hnone] at hnat
  omega

/-! ## Bounds -/

variable {d : SyntaxNode} {t : Tree}

/-- A node is no deeper than its number: each ancestor has a smaller one. -/
theorem Mirrors.depth_le (h : t.Mirrors d) {i : NodeId} {n : Node} (hn : t.node? i = some n) :
    n.depth ≤ i := by
  induction i using Nat.strongRecOn generalizing n with
  | _ i ih =>
      by_cases hi : i = Tree.root
      · subst hi
        obtain ⟨m, hm, -, -, hdepth⟩ := h.root
        rw [hn] at hm
        cases hm
        exact Nat.le_of_eq hdepth
      · obtain ⟨p, m, -, -, hlt, hm, -, -, hdepth⟩ := h.parent hn hi
        rw [hdepth]
        exact Nat.lt_of_le_of_lt (ih p hlt hm) hlt

theorem Mirrors.depth_lt_size (h : t.Mirrors d) {i : NodeId} {n : Node}
    (hn : t.node? i = some n) : n.depth < t.size :=
  Nat.lt_of_le_of_lt (h.depth_le hn) (lt_size_of_node? hn)

/-- **There are no more scopes than nodes**: each is introduced by a node of its own. -/
theorem Sound.scopeCount_le_size (h : t.Sound d) : t.scopeCount ≤ t.size := by
  have hrecord : ∀ s < t.scopeCount, ∃ r, t.scope? s = some r ∧ r.node < t.size := by
    intro s hs
    obtain ⟨r, hr⟩ : ∃ r, t.scope? s = some r := ⟨_, Array.getElem?_eq_getElem hs⟩
    obtain ⟨-, n, hn, -⟩ := h.scopes.record hr
    exact ⟨r, hr, lt_size_of_node? hn⟩
  have hcard := Finset.card_le_card_of_injOn (s := Finset.range t.scopeCount)
    (t := Finset.range t.size) (fun s => (t.scope? s).elim 0 Scope.node) ?_ ?_
  · simpa using hcard
  · intro s hs
    obtain ⟨r, hr, hlt⟩ := hrecord s (by simpa using hs)
    simpa [hr] using hlt
  · intro s hs s' hs' heq
    obtain ⟨r, hr, -⟩ := hrecord s (by simpa using hs)
    obtain ⟨r', hr', -⟩ := hrecord s' (by simpa using hs')
    exact h.scopes.scope_inj hr hr' (by simpa [hr, hr'] using heq)

theorem Mirrors.size_le_objectCount (h : t.Mirrors d) (hd : d.isObject = true) :
    t.size ≤ d.objectCount := by
  have hpos : 1 ≤ d.objectCount := by
    cases d with
    | object members => exact Nat.le_add_left 1 _
    | _ => cases hd
  exact h.size_le.trans (Nat.max_le.mpr ⟨hpos, Nat.le_refl _⟩)

/-- **The numbers of a tree over fewer than 2^32 objects fit their words.** -/
theorem Sound.fitsWords (h : t.Sound d) (hd : d.objectCount < 2 ^ 32) : t.FitsWords := by
  have hsize : t.size ≤ 2 ^ 32 - 1 := by
    have hle := h.arena.size_le
    omega
  have hword : ∀ count ≤ t.size, count.toUInt32.toNat = count := fun count hle =>
    toNat_toUInt32 (by omega)
  have hnone : ∀ i < t.size, i.toUInt32 ≠ noneWord := fun i hlt =>
    toUInt32_ne_noneWord (Nat.lt_of_lt_of_le hlt hsize)
  refine ⟨hword, fun count hle => hword count (hle.trans h.scopeCount_le_size), ?_, hnone, ?_, ?_⟩
  · intro i n hn
    have hlt := h.arena.depth_lt_size hn
    have hone : (1 : UInt32).toNat = 1 := rfl
    rw [UInt32.toNat_add, hword n.depth (Nat.le_of_lt hlt), hone]
    exact Nat.mod_eq_of_lt (by omega)
  · intro i n hn
    cases hpar : n.parent with
    | none =>
        have hroot : i = root := by
          by_contra hi
          obtain ⟨p, -, -, hpar', -⟩ := h.arena.parent hn hi
          rw [hpar] at hpar'
          cases hpar'
        simp [Node.parentWord, hpar, hroot]
    | some p =>
        have hlt := h.arena.parent_lt hn hpar
        have hne : i ≠ root := Nat.ne_of_gt (Nat.zero_lt_of_lt hlt)
        have hp := hnone p (Nat.lt_trans hlt (lt_size_of_node? hn))
        simp [Node.parentWord, hpar, hne, hp]
  · intro i n hn
    have hlt := lt_size_of_node? hn
    refine ⟨hword i (Nat.le_of_lt hlt), ?_, hword _ (Nat.le_of_lt (h.arena.depth_lt_size hn))⟩
    cases hpar : n.parent with
    | none => simp [Node.row, hpar]
    | some p =>
        have hp := hword p (Nat.le_of_lt (Nat.lt_trans (h.arena.parent_lt hn hpar) hlt))
        simp only [Node.row, hpar, Option.map_some, hp]

end Tree

/-- **Numbers and depths cannot wrap.** Every reachable tree has at most as many nodes as the
document has objects, at most as many scopes as nodes, and every node is less deep than there are
nodes. If the document has fewer than 2^32 objects, all numbers fit their words. -/
theorem Reachable.words_exact {d : SyntaxNode} {t : Tree} (h : Reachable d t) :
    (d.isObject = true → t.size ≤ d.objectCount) ∧ t.scopeCount ≤ t.size ∧
      (∀ i n, t.node? i = some n → n.depth < t.size) ∧
      (d.objectCount ≤ 2 ^ 32 - 1 → t.FitsWords) := by
  refine ⟨h.sound.arena.size_le_objectCount, h.sound.scopeCount_le_size, ?_, ?_⟩
  · intro i n hn
    exact h.sound.arena.depth_lt_size hn
  · intro hd
    exact h.sound.fitsWords (by omega)

/-- The small document has ten objects, of which seven are nodes; two of these introduce scopes. -/
theorem Sample.words_exact_explored :
    Reachable Sample.program Sample.explored ∧ Sample.program.objectCount = 10 ∧
      Sample.explored.size = 7 ∧ Sample.explored.scopeCount = 2 ∧
      Sample.explored.size ≤ Sample.program.objectCount ∧ Sample.explored.FitsWords := by
  obtain ⟨hsize, -, -, hfits⟩ := Reachable.words_exact Sample.reachable_explored
  exact ⟨Sample.reachable_explored, by decide +kernel, by decide +kernel, by decide +kernel,
    hsize rfl, hfits (by decide +kernel)⟩

end LexicalScope
