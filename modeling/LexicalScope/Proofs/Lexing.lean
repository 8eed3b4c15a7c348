import LexicalScope.Json.Lexer
import Mathlib.Data.List.Basic
import Mathlib.Data.List.TakeWhile
import Mathlib.Tactic.SplitIfs

set_option autoImplicit false

/-! # Spelled tokens are read back

A text that spells tokens one after the other, with blanks wherever one likes, is cut into the
same tokens again. Two conditions are needed and are part of `Token.Spaced`: numbers are integers
of at most 64 bits, and no two tokens that the lexer holds back, words and numbers, stand next to
each other.

The lexer is followed token by token. After the spelling of a token it stands between tokens, or
it holds the token back, and then every character that cannot continue the token makes it go on as
if it stood between tokens (`Lexer.Settles`).

* `Number.ofChars?_spelling`: an integer is read back from its digits.
* `Lexer.run_escape`: so is every character from its escape.
* `Lexer.run_spelling`: the lexer after the spelling of one token.
* `Token.Spaced.ofChars?`: the lexer over a whole text.
-/

namespace LexicalScope

/-! ## Integers -/

namespace Number

/-- The digits of a positive number do not start with a zero. -/
theorem head?_toDigits_ne {n : Nat} (h : n ≠ 0) : (Nat.toDigits 10 n).head? ≠ some '0' := by
  induction n using Nat.strongRecOn with
  | _ n ih =>
      by_cases hlt : n < 10
      · rw [Nat.toDigits_of_lt_base hlt]
        have hdigit : ∀ m < 10, m ≠ 0 → [m.digitChar].head? ≠ some '0' := by decide
        exact hdigit n hlt h
      · rw [Nat.toDigits_of_base_le (by decide) (Nat.le_of_not_lt hlt),
          List.head?_append_of_ne_nil _ Nat.toDigits_ne_nil]
        exact ih (n / 10) (by omega) (by omega)

theorem takeWhile_toDigits (n : Nat) : (Nat.toDigits 10 n).takeWhile Char.isDigit
    = Nat.toDigits 10 n :=
  List.takeWhile_eq_self_iff.mpr fun _ hc => Nat.isDigit_of_mem_toDigits (by decide) (by decide) hc

theorem dropWhile_toDigits (n : Nat) : (Nat.toDigits 10 n).dropWhile Char.isDigit = [] :=
  List.dropWhile_eq_nil_iff.mpr fun _ hc => Nat.isDigit_of_mem_toDigits (by decide) (by decide) hc

theorem ofUnsigned?_toDigits (negative : Bool) (n : Nat) :
    ofUnsigned? negative (Nat.toDigits 10 n) = ofInteger? negative n := by
  have hvalue : ofDigits (Nat.toDigits 10 n) = n := Nat.ofDigitChars_ten_toDigits
  have hzero : ((Nat.toDigits 10 n).isEmpty ||
      ((Nat.toDigits 10 n).head? == some '0' && (Nat.toDigits 10 n).length != 1)) = false := by
    by_cases hn : n = 0
    · rw [hn, Nat.toDigits_zero]
      rfl
    · have hhead := head?_toDigits_ne hn
      simp [Nat.toDigits_ne_nil, hhead]
  rw [ofUnsigned?]
  simp only [takeWhile_toDigits, dropWhile_toDigits, hzero, hvalue]
  rfl

/-- A number that its spelling gives back: an integer of at most 64 bits, with or without sign. -/
def IsExact : Number → Prop
  | int n => Fits n
  | double _ => False

instance : DecidablePred IsExact
  | int n => inferInstanceAs (Decidable (Fits n))
  | double _ => inferInstanceAs (Decidable False)

/-- **An integer is read back from its digits.** -/
theorem ofChars?_spelling {n : Number} (h : n.IsExact) : ofChars? n.spelling.toList = some n := by
  cases n with
  | double d => cases h
  | int n =>
      cases n with
      | ofNat n =>
          have hdigits : (spelling (.int (.ofNat n))).toList = Nat.toDigits 10 n :=
            String.toList_ofList
          have hfirst : ∀ cs, Nat.toDigits 10 n ≠ '-' :: cs := by
            intro cs hcs
            have hdigit : '-'.isDigit = true :=
              Nat.isDigit_of_mem_toDigits (by decide) (by decide) (hcs ▸ List.mem_cons_self)
            exact absurd hdigit (by decide)
          have hplain : ofChars? (Nat.toDigits 10 n) = ofUnsigned? false (Nat.toDigits 10 n) := by
            unfold ofChars?
            split
            · next cs hcs => exact absurd hcs (hfirst cs)
            · rfl
          have hfits : Fits (n : Int) := h
          rw [hdigits, hplain, ofUnsigned?_toDigits, ofInteger?]
          simp [hfits]
      | negSucc n =>
          have hdigits : (spelling (.int (.negSucc n))).toList = '-' :: Nat.toDigits 10 (n + 1) :=
            String.toList_ofList
          have hvalue : -((n + 1 : Nat) : Int) = Int.negSucc n := rfl
          have hfits : Fits (Int.negSucc n) := h
          rw [hdigits, ofChars?, ofUnsigned?_toDigits, ofInteger?]
          simp only [if_true, hvalue]
          simp [hfits]

end Number

/-! ## Tokens -/

namespace Token

/-- A token that its spelling gives back. -/
def IsExact : Token → Prop
  | number n => n.IsExact
  | _ => True

/-- Whether the lexer holds the token back until it sees the next character. -/
def isHeld : Token → Bool
  | null | bool _ | number _ => true
  | _ => false

end Token

namespace Lexer

/-- A character that ends a word or a number. -/
def isStop (c : Char) : Bool := !c.isAlpha && !isNumberChar c

theorem isStop_of_isBlank {c : Char} (h : isBlank c = true) : isStop c = true := by
  simp only [isBlank, Bool.or_eq_true, beq_iff_eq] at h
  rcases h with ((rfl | rfl) | rfl) | rfl <;> rfl

theorem run_cons (l : Lexer) (c : Char) (cs : List Char) :
    l.run (c :: cs) = (l.step c).bind fun l => l.run cs := rfl

/-- A lexer that has all of the given tokens, though it may still hold the last one back. -/
structure Settles (l : Lexer) (ts : Array Token) : Prop where
  flush : l.flush? = some ⟨ts, .between⟩
  step : ∀ c, isStop c = true → l.step c = (⟨ts, .between⟩ : Lexer).step c

theorem Settles.between (ts : Array Token) : (⟨ts, .between⟩ : Lexer).Settles ts :=
  ⟨rfl, fun _ _ => rfl⟩

/-- Where no character can continue the last token, a settled lexer goes on as if it stood between
tokens. -/
theorem Settles.run {l : Lexer} {ts : Array Token} (h : l.Settles ts) {cs : List Char}
    (hcs : ∀ c ∈ cs.head?, isStop c = true) :
    (l.run cs).bind flush? = ((⟨ts, .between⟩ : Lexer).run cs).bind flush? := by
  cases cs with
  | nil => exact h.flush
  | cons c cs => rw [run_cons, run_cons, h.step c (hcs c rfl)]

/-! ### Words -/

theorem settles_word {ts : Array Token} {letters : List Char} {t : Token}
    (h : wordToken? letters.reverse = some t) :
    (⟨ts, .word letters⟩ : Lexer).Settles (ts.push t) := by
  have hflush : flush? ⟨ts, .word letters⟩ = some ⟨ts.push t, .between⟩ := by
    simp only [flush?, h]
    rfl
  refine ⟨hflush, fun c hc => ?_⟩
  have halpha : c.isAlpha = false := by
    simp only [isStop, Bool.and_eq_true, Bool.not_eq_true'] at hc
    exact hc.1
  simp only [step, halpha, hflush]
  rfl

/-! ### Numbers -/

theorem run_number {ts : Array Token} {acc cs : List Char}
    (h : ∀ c ∈ cs, isNumberChar c = true) :
    run ⟨ts, .number acc⟩ cs = some ⟨ts, .number (cs.reverse ++ acc)⟩ := by
  induction cs generalizing acc with
  | nil => rfl
  | cons c cs ih =>
      obtain ⟨hc, hcs⟩ := List.forall_mem_cons.mp h
      rw [run_cons]
      simp only [step, hc, if_true, Option.bind_some]
      rw [ih hcs, List.reverse_cons, List.append_assoc, List.singleton_append]

theorem settles_number {ts : Array Token} {chars : List Char} {n : Number}
    (h : Number.ofChars? chars.reverse = some n) :
    (⟨ts, .number chars⟩ : Lexer).Settles (ts.push (.number n)) := by
  have hflush : flush? ⟨ts, .number chars⟩ = some ⟨ts.push (.number n), .between⟩ := by
    simp only [flush?, h]
    rfl
  refine ⟨hflush, fun c hc => ?_⟩
  have hnumber : isNumberChar c = false := by
    simp only [isStop, Bool.and_eq_true, Bool.not_eq_true'] at hc
    exact hc.2
  simp only [step, hnumber, hflush]
  rfl

theorem step_numberStart (ts : Array Token) {c : Char} (h : c = '-' ∨ c.isDigit = true) :
    step ⟨ts, .between⟩ c = some ⟨ts, .number [c]⟩ := by
  rcases h with rfl | hdigit
  · rfl
  · have hnumber : isStop c = false := by simp [isStop, isNumberChar, hdigit]
    have hblank : isBlank c = false := by
      by_contra hblank
      rw [isStop_of_isBlank (by simpa using hblank)] at hnumber
      cases hnumber
    have hquote : c ≠ '"' := by
      rintro rfl
      cases hdigit
    simp [step, start?, hblank, hquote, hdigit]

/-- The spelling of an integer starts with a sign or a digit and goes on with digits. -/
theorem spelling_number {n : Number} (h : n.IsExact) :
    ∃ c cs, n.spelling.toList = c :: cs ∧ (c = '-' ∨ c.isDigit = true) ∧
      ∀ x ∈ cs, isNumberChar x = true := by
  have hnumber : ∀ m, ∀ x ∈ Nat.toDigits 10 m, x.isDigit = true ∧ isNumberChar x = true := by
    intro m x hx
    have hdigit : x.isDigit = true := Nat.isDigit_of_mem_toDigits (by decide) (by decide) hx
    exact ⟨hdigit, by simp [isNumberChar, hdigit]⟩
  cases n with
  | double d => cases h
  | int n =>
      cases n with
      | ofNat n =>
          have hdigits : (Number.spelling (.int (.ofNat n))).toList = Nat.toDigits 10 n :=
            String.toList_ofList
          obtain ⟨c, cs, hcs⟩ := List.exists_cons_of_ne_nil (Nat.toDigits_ne_nil (n := n) (b := 10))
          refine ⟨c, cs, hdigits.trans hcs, Or.inr (hnumber n c ?_).1,
            fun x hx => (hnumber n x ?_).2⟩
          · rw [hcs]
            exact List.mem_cons_self
          · rw [hcs]
            exact List.mem_cons_of_mem c hx
      | negSucc n =>
          exact ⟨'-', _, String.toList_ofList, Or.inl rfl, fun x hx => (hnumber _ x hx).2⟩

/-! ### Quoted text -/

theorem hexValue?_hexDigit (n : Nat) : hexValue? (Token.hexDigit n) = some (n % 16) := by
  have hall : ∀ m < 16, hexValue? (Nat.digitChar m) = some m := by decide
  exact hall (n % 16) (Nat.mod_lt n (by decide))

/-- **Every character is read back from its escape.** -/
theorem run_escape (ts : Array Token) (acc : List Char) (c : Char) :
    run ⟨ts, .quoted acc⟩ (Token.escape c) = some ⟨ts, .quoted (c :: acc)⟩ := by
  unfold Token.escape
  split_ifs with hquote hslash hb hf hn hr ht hlow
  · subst hquote; rfl
  · subst hslash; rfl
  · subst hb; rfl
  · subst hf; rfl
  · subst hn; rfl
  · subst hr; rfl
  · subst ht; rfl
  · -- a code of four digits, the first two of which are zero
    have hvalue : 16 * (16 * (16 * (16 * 0 + 0) + 0) + c.toNat / 16 % 16) + c.toNat % 16
        = c.toNat := by omega
    have hzero : hexValue? '0' = some 0 := rfl
    have hchar : code? acc none c.toNat = some (.quoted (c :: acc)) := by
      have hhigh : isHigh c.toNat = false := by simp [isHigh]; omega
      have hnolow : isLow c.toNat = false := by simp [isLow]; omega
      simp [code?, hhigh, hnolow]
    have hescape : run ⟨ts, .quoted acc⟩ ['\\', 'u'] = some ⟨ts, .code acc none 3 0⟩ := rfl
    rw [show ['\\', 'u', '0', '0', Token.hexDigit (c.toNat / 16), Token.hexDigit c.toNat]
        = ['\\', 'u'] ++ ['0', '0', Token.hexDigit (c.toNat / 16), Token.hexDigit c.toNat] from rfl,
      run_append, hescape, Option.bind_some]
    simp only [run_cons, step, hzero, hexValue?_hexDigit, Option.bind_some, hvalue, hchar]
    rfl
  · rw [run_cons]
    simp only [step, if_neg hquote, if_neg hslash, if_neg hlow]
    rfl

theorem run_flatMap_escape (ts : Array Token) (acc cs : List Char) :
    run ⟨ts, .quoted acc⟩ (cs.flatMap Token.escape) = some ⟨ts, .quoted (cs.reverse ++ acc)⟩ := by
  induction cs generalizing acc with
  | nil => rfl
  | cons c cs ih =>
      rw [List.flatMap_cons, run_append, run_escape, Option.bind_some, ih, List.reverse_cons,
        List.append_assoc, List.singleton_append]

/-- A text in quotes is one token. -/
theorem run_quote (ts : Array Token) (s : String) :
    run ⟨ts, .between⟩ (Token.quote s).toList = some ⟨ts.push (.text s), .between⟩ := by
  have hopen : step ⟨ts, .between⟩ '"' = some ⟨ts, .quoted []⟩ := rfl
  rw [Token.quote, String.toList_ofList, run_cons, hopen, Option.bind_some, run_append,
    run_flatMap_escape, Option.bind_some, List.append_nil]
  show some (emit _ (.text (String.ofList s.toList.reverse.reverse))) = _
  rw [List.reverse_reverse, String.ofList_toList]
  rfl

/-! ### One token -/

/-- **The lexer after the spelling of one token.** It has the token, and it holds back no token
that it need not hold back. -/
theorem run_spelling (ts : Array Token) {t : Token} (h : t.IsExact) :
    ∃ l, run ⟨ts, .between⟩ t.spelling.toList = some l ∧ l.Settles (ts.push t) ∧
      (t.isHeld = false → l = ⟨ts.push t, .between⟩) := by
  cases t with
  | openArray | closeArray | openObject | closeObject | comma | colon =>
      exact ⟨_, rfl, .between _, fun _ => rfl⟩
  | null => exact ⟨⟨ts, .word ['l', 'l', 'u', 'n']⟩, rfl, settles_word rfl, nofun⟩
  | bool b =>
      cases b with
      | true => exact ⟨⟨ts, .word ['e', 'u', 'r', 't']⟩, rfl, settles_word rfl, nofun⟩
      | false => exact ⟨⟨ts, .word ['e', 's', 'l', 'a', 'f']⟩, rfl, settles_word rfl, nofun⟩
  | number n =>
      obtain ⟨c, cs, hcs, hfirst, hrest⟩ := spelling_number h
      have hstart : step ⟨ts, .between⟩ c = some ⟨ts, .number [c]⟩ := step_numberStart ts hfirst
      refine ⟨⟨ts, .number (cs.reverse ++ [c])⟩, ?_, settles_number ?_, nofun⟩
      · rw [Token.spelling, hcs, run_cons, hstart, Option.bind_some, run_number hrest]
      · rw [List.reverse_append, List.reverse_reverse, List.reverse_singleton,
          List.singleton_append, ← hcs]
        exact Number.ofChars?_spelling h
  | text s => exact ⟨_, run_quote ts s, .between _, fun _ => rfl⟩

end Lexer

/-! ## Whole texts -/

namespace Token

open Lexer

/-- **A text that spells the given tokens**, with blanks before, between and after them. -/
inductive Spaced : List Token → List Char → Prop
  | nil : Spaced [] []
  | blank {c : Char} {ts : List Token} {cs : List Char} :
      isBlank c = true → Spaced ts cs → Spaced ts (c :: cs)
  | token {t : Token} {ts : List Token} {cs : List Char} :
      t.IsExact → (t.isHeld = true → ∀ u ∈ ts.head?, u.isHeld = false) → Spaced ts cs →
      Spaced (t :: ts) (t.spelling.toList ++ cs)

/-- The spelling of a token that is not held back starts with a mark or a quote. -/
theorem exists_cons_spelling {t : Token} (h : t.isHeld = false) :
    ∃ c cs, t.spelling.toList = c :: cs ∧ isStop c = true := by
  cases t with
  | null | bool | number => cases h
  | text s => exact ⟨'"', _, String.toList_ofList, rfl⟩
  | openArray | closeArray | openObject | closeObject | comma | colon => exact ⟨_, _, rfl, rfl⟩

namespace Spaced

variable {ts : List Token} {cs : List Char}

/-- A text does not start with what could continue a word or a number, unless it starts with a
token that is held back. -/
theorem isStop_head (h : Spaced ts cs) (hts : ∀ u ∈ ts.head?, u.isHeld = false) :
    ∀ c ∈ cs.head?, isStop c = true := by
  cases h with
  | nil => simp
  | blank hc _ => simpa using isStop_of_isBlank hc
  | token _ _ _ =>
      obtain ⟨c, rest, hspelling, hstop⟩ := exists_cons_spelling (hts _ rfl)
      rw [hspelling]
      simpa using hstop

theorem blanks {gap : List Char} (hgap : ∀ c ∈ gap, isBlank c = true) (h : Spaced ts cs) :
    Spaced ts (gap ++ cs) := by
  induction gap with
  | nil => exact h
  | cons c gap ih =>
      obtain ⟨hc, hgap⟩ := List.forall_mem_cons.mp hgap
      exact .blank hc (ih hgap)

theorem run (h : Spaced ts cs) (done : Array Token) :
    ((⟨done, .between⟩ : Lexer).run cs).bind flush? = some ⟨done ++ ts, .between⟩ := by
  induction h generalizing done with
  | nil => simp [Lexer.run, flush?]
  | blank hc _ ih =>
      rw [run_cons]
      simp only [step, start?, hc, if_true, Option.bind_some]
      exact ih done
  | @token t ts cs hexact hsep hcs ih =>
      obtain ⟨l, hl, hsettles, hfree⟩ := run_spelling done hexact
      rw [run_append, hl, Option.bind_some]
      have hgo : (l.run cs).bind flush?
          = ((⟨done.push t, .between⟩ : Lexer).run cs).bind flush? := by
        cases hheld : t.isHeld with
        | true => exact hsettles.run (hcs.isStop_head (hsep hheld))
        | false => rw [hfree hheld]
      rw [hgo, ih]
      simp

/-- **A spelled text is cut into its tokens again.** -/
theorem ofChars? (h : Spaced ts cs) : Token.ofChars? cs = some ts := by
  have hrun := congrArg (Option.map fun l => l.tokens.toList) (h.run #[])
  rw [Option.map_bind] at hrun
  rw [Token.ofChars?]
  refine hrun.trans ?_
  simp

end Spaced

end Token

end LexicalScope
