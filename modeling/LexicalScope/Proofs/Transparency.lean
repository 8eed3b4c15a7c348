import LexicalScope.Proofs.Questions

set_option autoImplicit false

/-! # What a tree remembers does not show

Trees remember children, descendants, scopes and names, and number nodes and scopes in the order
in which they were asked for. None of this shows in an answer: two trees over one document, with
any two histories, answer the same question alike (`Question.ask_agrees`).
-/

namespace LexicalScope

/-- **Two histories, one answer.** Two trees over one document are asked questions about the same
positions. Both fail with the same fault, or both succeed with answers about the same positions,
namely with the fault or the answer that the document alone gives. -/
theorem Question.ask_agrees {d : SyntaxNode} (hd : d.objectCount < 2 ^ 32) {t₁ t₂ : Tree}
    (h₁ : Reachable d t₁) (h₂ : Reachable d t₂) {q₁ q₂ : Question NodeId ScopeId}
    (hv₁ : q₁.Valid t₁) (hv₂ : q₂.Valid t₂) (hq : q₁.locate t₁ = q₂.locate t₂) :
    (∃ f t₁' t₂', q₁.ask t₁ = .error (.fault f) t₁' ∧ q₂.ask t₂ = .error (.fault f) t₂' ∧
      d.answer (q₁.locate t₁) = .error f) ∨
    ∃ a₁ a₂ t₁' t₂', q₁.ask t₁ = .ok a₁ t₁' ∧ q₂.ask t₂ = .ok a₂ t₂' ∧
      a₁.Valid t₁' ∧ a₂.Valid t₂' ∧ a₁.locate t₁' = a₂.locate t₂' ∧
      d.answer (q₁.locate t₁) = .ok (a₁.locate t₁') := by
  have hanswers₁ := ask_answers h₁.sound hv₁
  have hanswers₂ := ask_answers h₂.sound hv₂
  rw [← hq] at hanswers₂
  cases hr : d.answer (q₁.locate t₁) with
  | error f =>
      obtain ⟨t₁', hrun₁, -⟩ := hanswers₁.exists_of_error hr
      obtain ⟨t₂', hrun₂, -⟩ := hanswers₂.exists_of_error hr
      exact Or.inl ⟨f, t₁', t₂', hrun₁, hrun₂, rfl⟩
  | ok b =>
      obtain ⟨a₁, t₁', hrun₁, -, hsays₁⟩ := hanswers₁.exists_of_ok hr
      obtain ⟨a₂, t₂', hrun₂, -, hsays₂⟩ := hanswers₂.exists_of_ok hr
      obtain ⟨hvalid₁, hb₁⟩ := hsays₁ hd
      obtain ⟨hvalid₂, hb₂⟩ := hsays₂ hd
      exact Or.inr ⟨a₁, a₂, t₁', t₂', hrun₁, hrun₂, hvalid₁, hvalid₂, hb₁.trans hb₂.symm,
        by rw [hb₁]⟩

/-- The body of the function has different numbers in two trees; both give its scope. -/
theorem Question.ask_agrees_scopeOf_body :
    (Question.scopeOf 4).locate Sample.walked = (Question.scopeOf 3).locate Sample.explored ∧
    ((∃ f t₁' t₂', (Question.scopeOf 4).ask Sample.walked = .error (.fault f) t₁' ∧
        (Question.scopeOf 3).ask Sample.explored = .error (.fault f) t₂' ∧
        Sample.program.answer ((Question.scopeOf 4).locate Sample.walked) = .error f) ∨
      ∃ a₁ a₂ t₁' t₂', (Question.scopeOf 4).ask Sample.walked = .ok a₁ t₁' ∧
        (Question.scopeOf 3).ask Sample.explored = .ok a₂ t₂' ∧
        a₁.Valid t₁' ∧ a₂.Valid t₂' ∧ a₁.locate t₁' = a₂.locate t₂' ∧
        Sample.program.answer ((Question.scopeOf 4).locate Sample.walked)
          = .ok (a₁.locate t₁')) := by
  have hq : (Question.scopeOf 4).locate Sample.walked
      = (Question.scopeOf 3).locate Sample.explored := by decide +kernel
  exact ⟨hq, Question.ask_agrees (by decide +kernel) Sample.reachable_walked
    Sample.reachable_explored (by decide +kernel) (by decide +kernel) hq⟩

end LexicalScope
