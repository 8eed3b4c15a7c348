import LexicalScope.Proofs.RoundTrip

set_option autoImplicit false

/-! # What may stand around a document

A text holds one object and nothing else. Blanks before and after the object make no difference,
and any other character after it makes the text unreadable, whatever else follows.

An object ends in a closing brace, which the lexer does not hold back, so after the text of an
object it stands between tokens. From there blanks leave it as it is. Any other character begins a
token, and whatever comes next the lexer either fails or ends with more tokens than before
(`Lexer.GoneOn`). But the reader takes no token after a complete value.

* `Lexer.step_cases`: what one character can do.
* `Lexer.GoneOn.step`, `Lexer.GoneOn.run`, `Lexer.GoneOn.flush`: a token that was begun is found, or
  the lexer fails.
* `Json.exists_run_of_parse?`: the lexer after the text of an object.
* `Document.ofText_sole`: what may stand around a document and what may not.
-/

namespace LexicalScope

/-! ## Tokens that were begun -/

namespace Lexer

variable {ts : List Token} {l l' : Lexer} {c : Char}

/-- **A lexer that has gone on after the given tokens**: it has found another one, or is inside
one. -/
structure GoneOn (ts : List Token) (l : Lexer) : Prop where
  before : ts <+: l.tokens.toList
  more : l.mode = .between → ts.length < l.tokens.size

theorem goneOn_emit (h : ts <+: l.tokens.toList) (t : Token) : (l.emit t).GoneOn ts := by
  have hlen : ts.length ≤ l.tokens.size := h.length_le
  refine ⟨?_, fun _ => ?_⟩
  · show ts <+: (l.tokens.push t).toList
    rw [Array.toList_push]
    exact h.trans (List.prefix_append _ _)
  · show ts.length < (l.tokens.push t).size
    rw [Array.size_push]
    omega

theorem goneOn_inside (h : ts <+: l.tokens.toList) {mode : Mode} (hmode : mode ≠ .between) :
    GoneOn ts { l with mode := mode } :=
  ⟨h, fun hbetween => absurd hbetween hmode⟩

/-- A character that is no blank begins a token. -/
theorem goneOn_start? (h : ts <+: l.tokens.toList) (hc : isBlank c = false)
    (hstart : l.start? c = some l') : l'.GoneOn ts := by
  unfold start? at hstart
  rw [if_neg (by simp [hc])] at hstart
  split_ifs at hstart
  · cases hstart
    exact goneOn_inside h nofun
  · cases hstart
    exact goneOn_inside h nofun
  · cases hstart
    exact goneOn_inside h nofun
  · obtain ⟨t, -, rfl⟩ := Option.map_eq_some_iff.mp hstart
    exact goneOn_emit h t

theorem start?_blank (l : Lexer) (hc : isBlank c = true) : l.start? c = some l := by
  unfold start?
  exact if_pos hc

/-- What a lexer holds back at the end of a text, if anything, is a word or a number. -/
theorem flush?_cases (h : l.flush? = some l') :
    (l.mode = .between ∧ l' = l) ∨ ∃ t, t.isHeld = true ∧ l' = l.emit t := by
  unfold flush? at h
  split at h
  · next hmode =>
    cases h
    exact Or.inl ⟨hmode, rfl⟩
  · obtain ⟨t, ht, rfl⟩ := Option.map_eq_some_iff.mp h
    refine Or.inr ⟨t, ?_, rfl⟩
    unfold wordToken? at ht
    split_ifs at ht <;> cases ht <;> rfl
  · obtain ⟨n, -, rfl⟩ := Option.map_eq_some_iff.mp h
    exact Or.inr ⟨.number n, rfl, rfl⟩
  · cases h

/-- **What one character does**: the lexer stays inside a token, or ends a quoted text, or starts
anew after what it has held back. -/
theorem step_cases (h : l.step c = some l') :
    (∃ mode, l' = { l with mode := mode } ∧ mode ≠ .between) ∨ (∃ t, l' = l.emit t) ∨
      ∃ l₁, l.flush? = some l₁ ∧ l₁.start? c = some l' := by
  unfold step at h
  cases hmode : l.mode with
  | between =>
      simp only [hmode] at h
      exact Or.inr (Or.inr ⟨l, by simp [flush?, hmode], h⟩)
  | word letters =>
      simp only [hmode] at h
      split_ifs at h
      · exact Or.inl ⟨_, (Option.some.inj h).symm, by simp⟩
      · exact Or.inr (Or.inr (Option.bind_eq_some_iff.mp h))
  | number chars =>
      simp only [hmode] at h
      split_ifs at h
      · exact Or.inl ⟨_, (Option.some.inj h).symm, by simp⟩
      · exact Or.inr (Or.inr (Option.bind_eq_some_iff.mp h))
  | quoted chars =>
      simp only [hmode] at h
      split_ifs at h
      · exact Or.inr (Or.inl ⟨_, (Option.some.inj h).symm⟩)
      · exact Or.inl ⟨_, (Option.some.inj h).symm, by simp⟩
      · exact Or.inl ⟨_, (Option.some.inj h).symm, by simp⟩
  | escape chars =>
      simp only [hmode] at h
      split_ifs at h
      · exact Or.inl ⟨_, (Option.some.inj h).symm, by simp⟩
      · obtain ⟨d, -, rfl⟩ := Option.map_eq_some_iff.mp h
        exact Or.inl ⟨_, rfl, by simp⟩
  | code chars high left value =>
      simp only [hmode] at h
      obtain ⟨digit, -, h⟩ := Option.bind_eq_some_iff.mp h
      cases left with
      | zero =>
          -- a complete code stands for a character, or for the first half of one
          obtain ⟨mode, hcode, rfl⟩ := Option.map_eq_some_iff.mp h
          refine Or.inl ⟨mode, rfl, ?_⟩
          rintro rfl
          unfold code? at hcode
          cases high <;> split_ifs at hcode <;> cases hcode
      | succ left => exact Or.inl ⟨_, (Option.some.inj h).symm, by simp⟩
  | pair chars high =>
      simp only [hmode] at h
      split_ifs at h
      exact Or.inl ⟨_, (Option.some.inj h).symm, by simp⟩
  | pairEscape chars high =>
      simp only [hmode] at h
      split_ifs at h
      exact Or.inl ⟨_, (Option.some.inj h).symm, by simp⟩

namespace GoneOn

/-- At the end of the text there is another token. -/
theorem flush (h : l.GoneOn ts) (hflush : l.flush? = some l') :
    ts <+: l'.tokens.toList ∧ ts.length < l'.tokens.size := by
  rcases flush?_cases hflush with ⟨hmode, rfl⟩ | ⟨t, -, rfl⟩
  · exact ⟨h.before, h.more hmode⟩
  · have hemit := goneOn_emit h.before t
    exact ⟨hemit.before, hemit.more rfl⟩

/-- From between tokens the lexer goes on from where it has got to. -/
theorem start? (h : ts <+: l.tokens.toList ∧ ts.length < l.tokens.size)
    (hstart : l.start? c = some l') : l'.GoneOn ts := by
  cases hc : isBlank c with
  | true =>
      rw [start?_blank l hc] at hstart
      cases hstart
      exact ⟨h.1, fun _ => h.2⟩
  | false => exact goneOn_start? h.1 hc hstart

/-- **One more character does not undo a token.** -/
theorem step (h : l.GoneOn ts) (hstep : l.step c = some l') : l'.GoneOn ts := by
  rcases step_cases hstep with ⟨mode, rfl, hmode⟩ | ⟨t, rfl⟩ | ⟨l₁, hflush, hstart⟩
  · exact goneOn_inside h.before hmode
  · exact goneOn_emit h.before t
  · exact start? (h.flush hflush) hstart

/-- **No characters undo a token.** -/
theorem run {cs : List Char} (h : l.GoneOn ts) (hrun : l.run cs = some l') : l'.GoneOn ts := by
  induction cs generalizing l with
  | nil =>
      cases hrun
      exact h
  | cons c cs ih =>
      rw [run_cons] at hrun
      obtain ⟨l₁, hstep, hrun⟩ := Option.bind_eq_some_iff.mp hrun
      exact ih (h.step hstep) hrun

end GoneOn

/-! ## Characters after a complete token -/

theorem run_blanks {cs : List Char} (h : ∀ c ∈ cs, isBlank c = true) (ts : Array Token) :
    run ⟨ts, .between⟩ cs = some ⟨ts, .between⟩ := by
  induction cs with
  | nil => rfl
  | cons c cs ih =>
      obtain ⟨hc, hcs⟩ := List.forall_mem_cons.mp h
      calc run ⟨ts, .between⟩ (c :: cs)
          = (start? ⟨ts, .between⟩ c).bind fun l => l.run cs := rfl
        _ = run ⟨ts, .between⟩ cs := by rw [start?_blank _ hc, Option.bind_some]
        _ = some ⟨ts, .between⟩ := ih hcs

/-- **Anything but blanks is another token**, or no text at all. -/
theorem goneOn_of_run {cs : List Char} (h : ∃ c ∈ cs, isBlank c = false) {ts : Array Token}
    (hrun : run ⟨ts, .between⟩ cs = some l) : l.GoneOn ts.toList := by
  induction cs with
  | nil =>
      obtain ⟨c, hc, -⟩ := h
      cases hc
  | cons c cs ih =>
      have hstep : run ⟨ts, .between⟩ (c :: cs)
          = (start? ⟨ts, .between⟩ c).bind fun l => l.run cs := rfl
      rw [hstep] at hrun
      cases hc : isBlank c with
      | true =>
          rw [start?_blank _ hc, Option.bind_some] at hrun
          refine ih ?_ hrun
          obtain ⟨x, hx, hxblank⟩ := h
          rcases List.mem_cons.mp hx with rfl | hx
          · rw [hc] at hxblank
            cases hxblank
          · exact ⟨x, hx, hxblank⟩
      | false =>
          obtain ⟨l₁, hstart, hrun⟩ := Option.bind_eq_some_iff.mp hrun
          exact (goneOn_start? List.prefix_rfl hc hstart).run hrun

end Lexer

/-! ## Tokens after a complete value -/

namespace Reader

theorem run_done {v : Json} {ts : List Token} (h : ts ≠ []) : (done v).run ts = none := by
  cases ts with
  | nil => exact absurd rfl h
  | cons t ts => rw [run_cons, step_done, Option.bind_none]

theorem eq_of_deliver_eq_done {w v : Json} {outer : List Frame} (h : deliver w outer = done v) :
    w = v := by
  cases outer with
  | nil => exact Reader.done.inj h
  | cons f outer => cases f <;> cases h

/-- An object is complete with its closing brace. -/
theorem step_eq_done {r : Reader} {t : Token} {v : Json} (h : r.step t = some (done v))
    (hv : v.isObject = true) : t = .closeObject := by
  have hbegin : ∀ outer, begin? outer t ≠ some (done v) := by
    intro outer hbegin
    cases t with
    | null | bool | number | text =>
        obtain rfl := eq_of_deliver_eq_done (Option.some.inj hbegin)
        cases hv
    | _ => cases hbegin
  unfold step at h
  split at h
  · exact absurd h (hbegin _)
  · obtain rfl := eq_of_deliver_eq_done (Option.some.inj h)
    cases hv
  · exact absurd h (hbegin _)
  · rfl
  · cases h
  · cases h
  · cases h
  · cases h
  · obtain rfl := eq_of_deliver_eq_done (Option.some.inj h)
    cases hv
  · cases h
  · rfl
  · cases h

end Reader

namespace Json

variable {ts us : List Token} {v : Json}

theorem ofTokens?_eq_some :
    ofTokens? ts = some v ↔ (Reader.expectValue []).run ts = some (.done v) := by
  rw [ofTokens?]
  constructor
  · intro h
    obtain ⟨r, hrun, hvalue⟩ := Option.bind_eq_some_iff.mp h
    cases r with
    | done w =>
        cases hvalue
        exact hrun
    | _ => cases hvalue
  · intro h
    rw [h]
    rfl

/-- No further token makes a value of a complete value. -/
theorem ofTokens?_append (h : ofTokens? ts = some v) (hus : us ≠ []) :
    ofTokens? (ts ++ us) = none := by
  rw [ofTokens?, Reader.run_append, ofTokens?_eq_some.mp h, Option.bind_some,
    Reader.run_done hus, Option.bind_none]

/-- The last token of an object is its closing brace. -/
theorem getLast?_of_ofTokens? (h : ofTokens? ts = some v) (hv : v.isObject = true) :
    ts.getLast? = some .closeObject := by
  rw [ofTokens?_eq_some] at h
  rcases List.eq_nil_or_concat ts with rfl | ⟨init, t, rfl⟩
  · cases h
  · rw [List.concat_eq_append, Reader.run_append] at h
    obtain ⟨r, -, hlast⟩ := Option.bind_eq_some_iff.mp h
    have hstep : r.step t = some (.done v) := by
      rw [Reader.run_cons] at hlast
      obtain ⟨r', hr', hnil⟩ := Option.bind_eq_some_iff.mp hlast
      cases hnil
      exact hr'
    rw [List.concat_eq_append, List.getLast?_append, Reader.step_eq_done hstep hv]
    rfl

theorem parse?_eq (text : String) :
    parse? text = (({} : Lexer).run text.toList).bind fun l =>
      l.flush?.bind fun l => ofTokens? l.tokens.toList := by
  rw [parse?, Token.ofChars?, Option.bind_assoc]
  congr 1
  funext l
  cases l.flush? <;> rfl

/-- **The lexer after the text of an object** stands between tokens. -/
theorem exists_run_of_parse? {text : String} (h : parse? text = some v)
    (hv : v.isObject = true) : ∃ ts : Array Token,
      ({} : Lexer).run text.toList = some ⟨ts, .between⟩ ∧ ofTokens? ts.toList = some v := by
  rw [parse?_eq] at h
  obtain ⟨l, hl, hflushed⟩ := Option.bind_eq_some_iff.mp h
  obtain ⟨l', hflush, hvalue⟩ := Option.bind_eq_some_iff.mp hflushed
  rcases Lexer.flush?_cases hflush with ⟨hmode, rfl⟩ | ⟨t, ht, rfl⟩
  · obtain ⟨ts, mode⟩ := l'
    cases hmode
    exact ⟨ts, hl, hvalue⟩
  · -- a token that was held back is no closing brace
    have hlast := getLast?_of_ofTokens? hvalue hv
    rw [show (l.emit t).tokens.toList = l.tokens.toList ++ [t] from Array.toList_push,
      List.getLast?_append] at hlast
    cases hlast
    cases ht

end Json

/-! ## Documents -/

namespace Document

variable {text before after : String} {v : Json}

/-- The characters that may stand around a document: space, tab, line feed and carriage return. -/
def blanks : List Char := [' ', '\t', '\n', '\r']

theorem mem_blanks {c : Char} : c ∈ blanks ↔ Lexer.isBlank c = true := by
  simp [blanks, Lexer.isBlank, or_assoc]

theorem ofText_eq_ok (h : ofText text = .ok v) :
    Json.parse? text = some v ∧ v.isObject = true := by
  unfold ofText at h
  split at h
  · cases h
  · next w hw =>
    split_ifs at h with hobject
    cases h
    exact ⟨hw, hobject⟩

theorem ofText_of_parse?_eq_none (h : Json.parse? text = none) :
    ofText text =
      .error ((Failure.ofCause .notJson).within "AST document is not valid JSON") := by
  rw [ofText, h]

theorem ofText_within_blanks (h : ofText text = .ok v) (hbefore : ∀ c ∈ before.toList, c ∈ blanks)
    (hafter : ∀ c ∈ after.toList, c ∈ blanks) : ofText (before ++ text ++ after) = .ok v := by
  obtain ⟨hparse, hobject⟩ := ofText_eq_ok h
  obtain ⟨ts, hrun, hvalue⟩ := Json.exists_run_of_parse? hparse hobject
  have hleading : ({} : Lexer).run before.toList = some {} :=
    Lexer.run_blanks (fun c hc => mem_blanks.mp (hbefore c hc)) #[]
  have htrailing : Lexer.run ⟨ts, .between⟩ after.toList = some ⟨ts, .between⟩ :=
    Lexer.run_blanks (fun c hc => mem_blanks.mp (hafter c hc)) ts
  refine ofText_of_parse? ?_ hobject
  rw [Json.parse?_eq, String.toList_append, String.toList_append, Lexer.run_append,
    Lexer.run_append, hleading, Option.bind_some, hrun, Option.bind_some, htrailing]
  exact hvalue

theorem ofText_before_content (h : ofText text = .ok v) (hafter : ∃ c ∈ after.toList, c ∉ blanks) :
    ofText (text ++ after) =
      .error ((Failure.ofCause .notJson).within "AST document is not valid JSON") := by
  obtain ⟨hparse, hobject⟩ := ofText_eq_ok h
  obtain ⟨ts, hrun, hvalue⟩ := Json.exists_run_of_parse? hparse hobject
  have hcontent : ∃ c ∈ after.toList, Lexer.isBlank c = false := by
    obtain ⟨c, hc, hblank⟩ := hafter
    exact ⟨c, hc, by simpa [mem_blanks] using hblank⟩
  apply ofText_of_parse?_eq_none
  rw [Json.parse?_eq, String.toList_append, Lexer.run_append, hrun, Option.bind_some]
  -- if the lexer gets to the end at all, there is a token too many
  cases hrest : Lexer.run ⟨ts, .between⟩ after.toList with
  | none => rfl
  | some l =>
      rw [Option.bind_some]
      cases hflush : l.flush? with
      | none => rfl
      | some l' =>
          obtain ⟨⟨us, hus⟩, hlen⟩ := (Lexer.goneOn_of_run hcontent hrest).flush hflush
          rw [Option.bind_some, ← hus]
          refine Json.ofTokens?_append hvalue ?_
          rintro rfl
          rw [← Array.length_toList, ← hus, List.append_nil] at hlen
          omega

/-- **A text holds one object and nothing else.** Blanks around the text of a document make no
difference, and any other character after it makes the text unreadable, wherever it stands in what
follows. -/
theorem ofText_sole (h : ofText text = .ok v) (before after : String) :
    ((∀ c ∈ before.toList, c ∈ blanks) → (∀ c ∈ after.toList, c ∈ blanks) →
      ofText (before ++ text ++ after) = .ok v) ∧
    ((∃ c ∈ after.toList, c ∉ blanks) →
      ofText (text ++ after) =
        .error ((Failure.ofCause .notJson).within "AST document is not valid JSON")) :=
  ⟨ofText_within_blanks h, ofText_before_content h⟩

end Document

namespace Sample

/-- A document with a brace inside quotes and a number at the end of an array. -/
def braced : String := "\x7b\"a\": [\"\x7d\", -10]\x7d"

/-- A second object after the first, or a comma after some blanks, is too much. -/
theorem ofText_sole_braced :
    ∃ v, Document.ofText braced = .ok v ∧ Document.ofText ("\n " ++ braced ++ "\t\r\n") = .ok v ∧
      ∀ after ∈ ["\x7b\x7d", " \n,", "0 "], Document.ofText (braced ++ after) =
        .error ((Failure.ofCause .notJson).within "AST document is not valid JSON") := by
  obtain ⟨v, hv⟩ : ∃ v, Document.ofText braced = .ok v := ⟨_, by rfl⟩
  have hsole := Document.ofText_sole hv
  refine ⟨v, hv, (hsole "\n " "\t\r\n").1 (by simp [Document.blanks])
    (by simp [Document.blanks]), ?_⟩
  have hcontent : ∀ after ∈ ["\x7b\x7d", " \n,", "0 "],
      ∃ c ∈ after.toList, c ∉ Document.blanks := by simp [Document.blanks]
  intro after hafter
  exact (hsole "" after).2 (hcontent after hafter)

end Sample

end LexicalScope
