import LexicalScope.Proofs.Moves

set_option autoImplicit false

/-! # Questions that answer as the document says

`Query.Answers` compares a question to a tree with a result that is read off the document alone.
The question succeeds when the result is there, with a related answer, and fails with the same
fault otherwise; in both cases it has changed the tree by moves only. The rules follow the way
questions are put together.
-/

namespace LexicalScope

/-! ## Results related item by item -/

section Related

variable {α β γ δ : Type} {R : α → β → Prop}

theorem exists_of_mem_left {l : List α} {l' : List β} (h : List.Forall₂ R l l') {a : α}
    (ha : a ∈ l) : ∃ b ∈ l', R a b := by
  induction h with
  | nil => cases ha
  | @cons x y l l' hxy _ ih =>
      rcases List.mem_cons.mp ha with rfl | ha
      · exact ⟨y, List.mem_cons_self, hxy⟩
      · obtain ⟨b, hb, hab⟩ := ih ha
        exact ⟨b, List.mem_cons_of_mem _ hb, hab⟩

theorem exists_of_mem_right {l : List α} {l' : List β} (h : List.Forall₂ R l l') {b : β}
    (hb : b ∈ l') : ∃ a ∈ l, R a b :=
  exists_of_mem_left h.flip hb

/-- Lists that are related item by item find related items. -/
theorem find?_of_forall₂ {f : α → Bool} {g : β → Bool} {l : List α} {l' : List β}
    (h : List.Forall₂ R l l') (hfg : ∀ a b, R a b → f a = g b) :
    (l.find? f = none ∧ l'.find? g = none) ∨
      ∃ a b, l.find? f = some a ∧ l'.find? g = some b ∧ R a b := by
  induction h with
  | nil => exact Or.inl ⟨rfl, rfl⟩
  | @cons a b l l' hab _ ih =>
      cases hf : f a with
      | true =>
          have hg : g b = true := (hfg a b hab).symm.trans hf
          exact Or.inr ⟨a, b, List.find?_cons_of_pos hf, List.find?_cons_of_pos hg, hab⟩
      | false =>
          have hg : g b = false := (hfg a b hab).symm.trans hf
          rw [List.find?_cons_of_neg (by simp [hf]), List.find?_cons_of_neg (by simp [hg])]
          exact ih

/-- A list that is related item by item is split where the other one is. -/
theorem append_of_forall₂ {as bs : List α} {l : List β} (h : List.Forall₂ R (as ++ bs) l) :
    ∃ as' bs', l = as' ++ bs' ∧ List.Forall₂ R as as' ∧ List.Forall₂ R bs bs' :=
  ⟨l.take as.length, l.drop as.length, (List.take_append_drop _ l).symm,
    (List.forall₂_take_append l as bs h.flip).flip, (List.forall₂_drop_append l as bs h.flip).flip⟩

theorem split_of_forall₂ {before after : List α} {a : α} {l' : List β}
    (h : List.Forall₂ R (before ++ a :: after) l') :
    ∃ before' b after', l' = before' ++ b :: after' ∧ List.Forall₂ R before before' ∧ R a b := by
  obtain ⟨before', rest, rfl, hbefore, hrest⟩ := append_of_forall₂ h
  cases hrest with
  | @cons _ b _ after' hab _ => exact ⟨before', b, after', rfl, hbefore, hab⟩

/-- Numbers that are related to what they stand for, read back one by one. -/
theorem read_of_forall₂ {valid : α → Prop} {read : α → β}
    (hread : ∀ a b, R a b → valid a ∧ read a = b) {l : List α} {l' : List β}
    (h : List.Forall₂ R l l') : (∀ a ∈ l, valid a) ∧ l.map read = l' := by
  induction h with
  | nil => exact ⟨by simp, rfl⟩
  | @cons a b l l' hab _ ih =>
      obtain ⟨hvalid, hb⟩ := hread a b hab
      exact ⟨List.forall_mem_cons.mpr ⟨hvalid, ih.1⟩, by rw [List.map_cons, hb, ih.2]⟩

theorem read_of_rel {valid : α → Prop} {read : α → β}
    (hread : ∀ a b, R a b → valid a ∧ read a = b) {x : Option α} {y : Option β}
    (h : Option.Rel R x y) : (∀ a ∈ x, valid a) ∧ x.map read = y := by
  cases h with
  | none => exact ⟨by simp, rfl⟩
  | @some a b hab =>
      obtain ⟨hvalid, hb⟩ := hread a b hab
      refine ⟨?_, by rw [Option.map_some, hb]⟩
      rintro c ⟨⟩
      exact hvalid

theorem rel_map {S : γ → δ → Prop} {f : α → γ} {g : β → δ} (hfg : ∀ a b, R a b → S (f a) (g b))
    {x : Option α} {y : Option β} (h : Option.Rel R x y) :
    Option.Rel S (x.map f) (y.map g) := by
  cases h with
  | none => exact .none
  | some hab => exact .some (hfg _ _ hab)

theorem rel_imp {S : α → β → Prop} (h : ∀ a b, R a b → S a b) {x : Option α} {y : Option β}
    (hxy : Option.Rel R x y) : Option.Rel S x y := by
  simpa using rel_map (f := id) (g := id) h hxy

/-- Filters that do not tell related values apart. -/
theorem rel_filter_of_eq {p : α → Bool} {q : β → Bool} (hpq : ∀ a b, R a b → p a = q b)
    {x : Option α} {y : Option β} (h : Option.Rel R x y) :
    Option.Rel R (x.filter p) (y.filter q) := by
  cases h with
  | none => exact .none
  | @some a b hab =>
      rw [Option.filter_some, Option.filter_some, hpq a b hab]
      split
      · exact .some hab
      · exact .none

theorem bind_eq_of_rel {f : α → Option γ} {g : β → Option γ} (hfg : ∀ a b, R a b → f a = g b)
    {x : Option α} {y : Option β} (h : Option.Rel R x y) : x.bind f = y.bind g := by
  cases h with
  | none => rfl
  | some hab => exact hfg _ _ hab

end Related

/-! ## Questions -/

namespace Query

variable {α β γ δ : Type} {d : SyntaxNode} {t : Tree}

/-- **Asked of the tree `t`, the question answers as the result `r` says.** The answer is related
to the result in the tree that the question leaves. -/
def Answers (x : Query α) (d : SyntaxNode) (t : Tree) (r : Except Fault β)
    (rel : Tree → α → β → Prop) : Prop :=
  match r with
  | .ok b => ∃ a t', x t = .ok a t' ∧ t.Moves d t' ∧ rel t' a b
  | .error f => ∃ t', x t = .error (.fault f) t' ∧ t.Moves d t'

theorem bind_of_ok {x : Query α} {f : α → Query β} {t' : Tree} {a : α} (h : x t = .ok a t') :
    (x >>= f) t = f a t' := by
  simp only [bind, EStateM.bind, h]

theorem bind_of_error {x : Query α} {f : α → Query β} {t' : Tree} {e : QueryError}
    (h : x t = .error e t') : (x >>= f) t = .error e t' := by
  simp only [bind, EStateM.bind, h]

/-- Questions in sequence that succeed have both succeeded. -/
theorem bind_eq_ok {x : Query α} {f : α → Query β} {t' : Tree} {b : β}
    (h : (x >>= f) t = .ok b t') : ∃ a u, x t = .ok a u ∧ f a u = .ok b t' := by
  cases hx : x t with
  | ok a u => exact ⟨a, u, rfl, (bind_of_ok hx).symm.trans h⟩
  | error e u =>
      rw [bind_of_error hx] at h
      cases h

/-- The answer to a question, where it has one. -/
def answer? (x : Query α) (t : Tree) : Option α :=
  match x t with
  | .ok a _ => some a
  | .error _ _ => none

theorem exists_of_answer? {x : Query α} {a : α} (h : x.answer? t = some a) :
    ∃ t', x t = .ok a t' := by
  rw [answer?] at h
  cases hx : x t with
  | ok b t' =>
      rw [hx] at h
      cases h
      exact ⟨t', rfl⟩
  | error e t' =>
      rw [hx] at h
      cases h

theorem get_bind (f : Tree → Query α) (t : Tree) : ((get : Query Tree) >>= f) t = f t t := rfl

namespace Answers

variable {rel : Tree → α → β → Prop} {rel' : Tree → γ → δ → Prop}

theorem exists_of_ok {x : Query α} {r : Except Fault β} (hx : x.Answers d t r rel) {b : β}
    (hr : r = .ok b) : ∃ a t', x t = .ok a t' ∧ t.Moves d t' ∧ rel t' a b := by
  subst hr
  exact hx

theorem exists_of_error {x : Query α} {r : Except Fault β} (hx : x.Answers d t r rel) {f : Fault}
    (hr : r = .error f) : ∃ t', x t = .error (.fault f) t' ∧ t.Moves d t' := by
  subst hr
  exact hx

/-- A question that fails has the fault that the result gives. -/
theorem fault_of_error {x : Query α} {r : Except Fault β} (hx : x.Answers d t r rel)
    {e : QueryError} {t' : Tree} (hrun : x t = .error e t') :
    ∃ f, e = .fault f ∧ r = .error f ∧ t.Moves d t' := by
  cases r with
  | ok b =>
      obtain ⟨a, u, hrun', -⟩ := hx
      rw [hrun] at hrun'
      cases hrun'
  | error f =>
      obtain ⟨u, hrun', hmoves⟩ := hx
      rw [hrun] at hrun'
      cases hrun'
      exact ⟨f, rfl, rfl, hmoves⟩

/-- A question that has begun with moves goes on as another one does in the tree they lead to. -/
theorem of_moves {x y : Query α} {t' : Tree} {r : Except Fault β} (hrun : x t = y t')
    (hmoves : t.Moves d t') (hy : y.Answers d t' r rel) : x.Answers d t r rel := by
  cases r with
  | ok b =>
      obtain ⟨a, t'', ha, hmoves', hrel⟩ := hy
      exact ⟨a, t'', hrun.trans ha, hmoves.trans hmoves', hrel⟩
  | error f =>
      obtain ⟨t'', hf, hmoves'⟩ := hy
      exact ⟨t'', hrun.trans hf, hmoves.trans hmoves'⟩

theorem pure {a : α} {b : β} (h : rel t a b) : Answers (Pure.pure a) d t (.ok b) rel :=
  ⟨a, t, rfl, .refl, h⟩

/-- A question whose first part has succeeded goes on with the second part. -/
theorem bind_ok {x : Query γ} {f : γ → Query α} {t' : Tree} {c : γ} {r : Except Fault β}
    (hx : x t = .ok c t') (hmoves : t.Moves d t') (hf : (f c).Answers d t' r rel) :
    (x >>= f).Answers d t r rel :=
  of_moves (bind_of_ok hx) hmoves hf

/-- **Questions in sequence answer as the results in sequence say.** -/
theorem bind {x : Query α} {f : α → Query γ} {r : Except Fault β} {g : β → Except Fault δ}
    (hx : x.Answers d t r rel)
    (hf : ∀ a b t', t.Moves d t' → rel t' a b → (f a).Answers d t' (g b) rel') :
    (x >>= f).Answers d t (r >>= g) rel' := by
  cases r with
  | ok b =>
      obtain ⟨a, t', ha, hmoves, hrel⟩ := hx
      exact bind_ok ha hmoves (hf a b t' hmoves hrel)
  | error e =>
      obtain ⟨t', he, hmoves⟩ := hx
      exact ⟨t', bind_of_error he, hmoves⟩

/-- The last step of a question, which only computes. -/
theorem map {x : Query α} {f : α → γ} {r : Except Fault β} {g : β → δ}
    (hx : x.Answers d t r rel) (hf : ∀ a b t', t.Moves d t' → rel t' a b → rel' t' (f a) (g b)) :
    (f <$> x).Answers d t (r.map g) rel' := by
  cases r with
  | ok b =>
      obtain ⟨a, t', ha, hmoves, hrel⟩ := hx
      refine ⟨f a, t', ?_, hmoves, hf a b t' hmoves hrel⟩
      simp only [Functor.map, EStateM.map, ha]
  | error e =>
      obtain ⟨t', he, hmoves⟩ := hx
      refine ⟨t', ?_, hmoves⟩
      simp only [Functor.map, EStateM.map, he]

theorem imp {x : Query α} {r : Except Fault β} {rel' : Tree → α → β → Prop}
    (hx : x.Answers d t r rel) (h : ∀ a b t', t.Moves d t' → rel t' a b → rel' t' a b) :
    x.Answers d t r rel' := by
  cases r with
  | ok b =>
      obtain ⟨a, t', ha, hmoves, hrel⟩ := hx
      exact ⟨a, t', ha, hmoves, h a b t' hmoves hrel⟩
  | error e => exact hx

end Answers

end Query

namespace Tree

variable {t : Tree}

theorem nodeAt_of_node? {i : NodeId} {n : Node} (h : t.node? i = some n) :
    nodeAt i t = .ok n t := by
  rw [nodeAt, Query.get_bind, h]
  rfl

theorem scopeAt_of_scope? {s : ScopeId} {r : Scope} (h : t.scope? s = some r) :
    scopeAt s t = .ok r t := by
  rw [scopeAt, Query.get_bind, h]
  rfl

end Tree

end LexicalScope
