import LexicalScope.Command.Arguments
import Mathlib.Data.List.Induction
import Mathlib.Data.List.TakeWhile
import Mathlib.Tactic.SplitIfs

set_option autoImplicit false

/-! # The spellings of an argument

What one argument is written like to be the flag, the option, the value or the file that it is
read as. The spellings are given as texts, on their own; each reader of the command line is then
shown to accept exactly the spellings of what it answers.

The main statements:

* `CommandLine.offset?_eq_some_iff`: an offset is read from its numerals and from nothing else;
* `CommandLine.Word.shape`: the shapes that an argument can have;
* `CommandLine.Word.ofArgument_written`: a flag is its name, an option is its name with or without a
  value attached, and all else that can be accepted is a single dash or has no dash in front.
-/

namespace LexicalScope

namespace CommandLine

/-! ## Numerals -/

/-- A numeral: the decimal digits of the number after any number of zeros. -/
def Numeral (digits : List Char) (n : Nat) : Prop :=
  ∃ zeros, digits = List.replicate zeros '0' ++ Nat.toDigits 10 n

/-- The text of an offset is a numeral, which a plus sign may precede. -/
def OffsetText (value : String) (n : UInt64) : Prop :=
  ∃ digits, Numeral digits n.toNat ∧ (value.toList = digits ∨ value.toList = '+' :: digits)

theorem ofDigits_concat (digits : List Char) (c : Char) :
    Number.ofDigits (digits ++ [c]) = 10 * Number.ofDigits digits + (c.toNat - '0'.toNat) := by
  simp [Number.ofDigits]

theorem digitChar_of_isDigit {c : Char} (h : c.isDigit = true) :
    c.toNat - '0'.toNat < 10 ∧ Nat.digitChar (c.toNat - '0'.toNat) = c := by
  have hrange : '0'.toNat ≤ c.toNat ∧ c.toNat ≤ '9'.toNat := Char.isDigit_iff_toNat.mp h
  have hzero : '0'.toNat = 48 := rfl
  have hnine : '9'.toNat = 57 := rfl
  have hlt : c.toNat - '0'.toNat < 10 := by omega
  refine ⟨hlt, Char.toNat_inj.mp ?_⟩
  rw [Nat.toNat_digitChar_of_lt_ten hlt]
  omega

namespace Numeral

theorem ne_nil {digits : List Char} {n : Nat} (h : Numeral digits n) : digits ≠ [] := by
  obtain ⟨zeros, rfl⟩ := h
  simp [Nat.toDigits_ne_nil]

theorem isDigit {digits : List Char} {n : Nat} (h : Numeral digits n) {c : Char}
    (hc : c ∈ digits) : c.isDigit = true := by
  obtain ⟨zeros, rfl⟩ := h
  rcases List.mem_append.mp hc with hc | hc
  · rw [List.eq_of_mem_replicate hc]
    rfl
  · exact Nat.isDigit_of_mem_toDigits (by decide) (by decide) hc

theorem ofDigits_eq {digits : List Char} {n : Nat} (h : Numeral digits n) :
    Number.ofDigits digits = n := by
  obtain ⟨zeros, rfl⟩ := h
  calc Number.ofDigits (List.replicate zeros '0' ++ Nat.toDigits 10 n)
      = Nat.ofDigitChars 10 (List.replicate zeros '0' ++ Nat.toDigits 10 n) 0 := rfl
    _ = Nat.ofDigitChars 10 (Nat.toDigits 10 n) 0 := by
        rw [Nat.ofDigitChars_append, Nat.ofDigitChars_replicate_zero, Nat.mul_zero]
    _ = n := Nat.ofDigitChars_ten_toDigits

/-- One more digit makes a numeral of a numeral. Where the number was zero, its digit joins the
zeros in front. -/
theorem concat {digits : List Char} {n : Nat} (h : Numeral digits n) {k : Nat} (hk : k < 10) :
    Numeral (digits ++ [Nat.digitChar k]) (10 * n + k) := by
  obtain ⟨zeros, rfl⟩ := h
  have hlast : Nat.toDigits 10 k = [Nat.digitChar k] := Nat.toDigits_of_lt_base hk
  by_cases hn : n = 0
  · refine ⟨zeros + 1, ?_⟩
    rw [hn, Nat.toDigits_zero, Nat.mul_zero, Nat.zero_add, hlast, List.replicate_succ']
  · refine ⟨zeros, ?_⟩
    rw [← Nat.toDigits_append_toDigits (by decide) (Nat.pos_of_ne_zero hn) hk, hlast,
      List.append_assoc]

theorem of_isDigit {digits : List Char} (hne : digits ≠ []) (h : ∀ c ∈ digits, c.isDigit = true) :
    Numeral digits (Number.ofDigits digits) := by
  induction digits using List.reverseRecOn with
  | nil => exact absurd rfl hne
  | append_singleton digits c ih =>
      obtain ⟨hlt, hchar⟩ := digitChar_of_isDigit (h c (by simp))
      rw [ofDigits_concat]
      by_cases hempty : digits = []
      · subst hempty
        refine ⟨0, ?_⟩
        show [c] = Nat.toDigits 10 (0 + (c.toNat - '0'.toNat))
        rw [Nat.zero_add, Nat.toDigits_of_lt_base hlt, hchar]
      · have hnumeral := ih hempty fun c hc => h c (List.mem_append_left _ hc)
        simpa only [hchar] using hnumeral.concat hlt

/-- The numerals of a 64-bit word are the runs of digits whose value fits and is that word. -/
theorem iff_toUInt64_eq {digits : List Char} {n : UInt64} : Numeral digits n.toNat ↔
    (digits ≠ [] ∧ (∀ c ∈ digits, c.isDigit = true) ∧ Number.ofDigits digits < UInt64.size) ∧
      (Number.ofDigits digits).toUInt64 = n := by
  constructor
  · intro h
    refine ⟨⟨h.ne_nil, fun c hc => h.isDigit hc, h.ofDigits_eq ▸ n.toNat_lt⟩, ?_⟩
    rw [h.ofDigits_eq]
    exact UInt64.ofNat_toNat
  · rintro ⟨⟨hne, hdigits, hlt⟩, rfl⟩
    have hvalue : (Number.ofDigits digits).toUInt64.toNat = Number.ofDigits digits :=
      UInt64.toNat_ofNat_of_lt' hlt
    rw [hvalue]
    exact of_isDigit hne hdigits

end Numeral

/-- **An offset is read from its numerals** and from nothing else. -/
theorem offset?_eq_some_iff {value : String} {n : UInt64} :
    offset? value = some n ↔ OffsetText value n := by
  have hread : ∀ digits : List Char,
      (if !digits.isEmpty && digits.all Char.isDigit && Number.ofDigits digits < UInt64.size then
        some (Number.ofDigits digits).toUInt64 else none) = some n ↔ Numeral digits n.toNat := by
    intro digits
    rw [Numeral.iff_toUInt64_eq]
    simp [and_assoc]
  unfold offset? OffsetText
  split
  · rename_i cs hchars
    rw [hread, hchars]
    constructor
    · exact fun h => ⟨cs, h, Or.inr rfl⟩
    · rintro ⟨digits, h, hdigits | hdigits⟩
      · exact absurd (h.isDigit (hdigits ▸ List.mem_cons_self)) (by decide)
      · exact (List.cons.inj hdigits).2 ▸ h
  · rename_i hsign
    rw [hread]
    constructor
    · exact fun h => ⟨_, h, Or.inl rfl⟩
    · rintro ⟨digits, h, hdigits | hdigits⟩
      · exact hdigits ▸ h
      · exact absurd hdigits (hsign digits)

/-! ## Words -/

/-- The argument that is a flag. -/
def Flag.argument : Flag → String
  | .tree => "--tree"
  | .noColor => "--no-color"

/-- The argument that is an option whose value comes next. -/
def Valued.argument : Valued → String
  | .offset => "--at"
  | .format => "--format"

/-- The argument is no option: it is a single dash, or has no dash in front. -/
def Plain (argument : String) : Prop :=
  argument = "-" ∨ argument.toList.head? ≠ some '-'

namespace Word

/-- The shapes of an argument, with what each is read as. A name ends at the first equals sign. -/
inductive Shape : String → Word → Prop where
  | mark : Shape "--" .endOfOptions
  | long {name : String} (hne : name ≠ "") (h : '=' ∉ name.toList) :
      Shape ("--" ++ name) (long name none)
  | attached {name : String} (h : '=' ∉ name.toList) (value : String) :
      Shape ("--" ++ name ++ "=" ++ value) (Word.long name (some value))
  | short {argument : String} {letter : Char} {cs : List Char} (h : letter ≠ '-')
      (hchars : argument.toList = '-' :: letter :: cs) : Shape argument (Word.short letter)
  | plain {argument : String} (h : Plain argument) : Shape argument .plain

theorem ofArgument_of_dashes {argument : String} {cs : List Char} (hne : cs ≠ [])
    (hchars : argument.toList = '-' :: '-' :: cs) :
    ofArgument argument = match cs.dropWhile (· ≠ '=') with
      | [] => Word.long (String.ofList (cs.takeWhile (· ≠ '='))) none
      | _ :: value =>
        Word.long (String.ofList (cs.takeWhile (· ≠ '='))) (some (String.ofList value)) := by
  obtain ⟨c, cs, rfl⟩ := List.exists_cons_of_ne_nil hne
  unfold ofArgument
  rw [hchars]
  rfl

theorem ofArgument_of_short {argument : String} {letter : Char} {cs : List Char}
    (h : letter ≠ '-') (hchars : argument.toList = '-' :: letter :: cs) :
    ofArgument argument = Word.short letter := by
  unfold ofArgument
  rw [hchars]
  split
  · rename_i heq
    exact absurd (by simpa using heq : letter = '-' ∧ cs = []).1 h
  · rename_i heq
    exact absurd (List.cons.inj (List.cons.inj heq).2).1 h
  · rename_i heq
    rw [(List.cons.inj (List.cons.inj heq).2).1]
  · rename_i hnone
    exact absurd rfl (hnone letter cs)

theorem ofArgument_of_plain {argument : String} (h : Plain argument) :
    ofArgument argument = .plain := by
  rcases h with rfl | hhead
  · rfl
  · unfold ofArgument
    -- only the last branch is for a text that does not start with a dash
    split <;> simp_all

theorem ne_equals_of_mem {name : String} (h : '=' ∉ name.toList) :
    ∀ c ∈ name.toList, decide (c ≠ '=') = true :=
  fun _ hc => decide_eq_true fun heq => h (heq ▸ hc)

/-- The shape of an argument says what it is read as. -/
theorem Shape.ofArgument_eq {argument : String} {w : Word} (h : Shape argument w) :
    ofArgument argument = w := by
  cases h with
  | mark => rfl
  | @long name hne h =>
      have hchars : ("--" ++ name).toList = '-' :: '-' :: name.toList := by simp
      have hname := ne_equals_of_mem h
      rw [ofArgument_of_dashes (by simpa using hne) hchars, List.takeWhile_eq_self_iff.mpr hname,
        List.dropWhile_eq_nil_iff.mpr hname, String.ofList_toList]
  | @attached name h value =>
      have hchars : ("--" ++ name ++ "=" ++ value).toList =
          '-' :: '-' :: (name.toList ++ '=' :: value.toList) := by simp
      have hname := ne_equals_of_mem h
      rw [ofArgument_of_dashes (by simp) hchars, List.takeWhile_append_of_pos hname,
        List.dropWhile_append_of_pos hname]
      simp
  | short h hchars => exact ofArgument_of_short h hchars
  | plain h => exact ofArgument_of_plain h

theorem exists_shape_of_dashes {argument : String} {cs : List Char}
    (hchars : argument.toList = '-' :: '-' :: cs) : ∃ w, Shape argument w := by
  by_cases hempty : cs = []
  · have hargument : argument = "--" := String.toList_inj.mp (by simp [hchars, hempty])
    exact ⟨_, hargument ▸ Shape.mark⟩
  by_cases hmem : '=' ∈ cs
  · obtain ⟨name, value, rfl, hname⟩ := List.eq_append_cons_of_mem hmem
    have hargument : argument = "--" ++ String.ofList name ++ "=" ++ String.ofList value :=
      String.toList_inj.mp (by simp [hchars])
    exact ⟨_, hargument ▸ Shape.attached (by simpa using hname) _⟩
  · have hargument : argument = "--" ++ String.ofList cs :=
      String.toList_inj.mp (by simp [hchars])
    exact ⟨_, hargument ▸ Shape.long (by simpa using hempty) (by simpa using hmem)⟩

theorem exists_shape (argument : String) : ∃ w, Shape argument w := by
  by_cases hplain : Plain argument
  · exact ⟨_, .plain hplain⟩
  obtain ⟨hdash, hhead⟩ := not_or.mp hplain
  obtain ⟨cs, hchars⟩ := List.head?_eq_some_iff.mp (not_not.mp hhead)
  cases cs with
  | nil => exact absurd (String.toList_inj.mp (by simp [hchars])) hdash
  | cons letter cs =>
      by_cases hletter : letter = '-'
      · exact exists_shape_of_dashes (hletter ▸ hchars)
      · exact ⟨_, .short hletter hchars⟩

/-- Every argument has the shape of what it is read as. -/
theorem shape (argument : String) : Shape argument (ofArgument argument) := by
  obtain ⟨w, h⟩ := exists_shape argument
  exact h.ofArgument_eq ▸ h

/-! ### The words that are accepted -/

/-- How a word is written. Nothing is said of the words that lead to no options. -/
def Written : Word → String → Prop
  | .endOfOptions, argument => argument = "--"
  | .flag f, argument => argument = f.argument
  | .valued o none, argument => argument = o.argument
  | .valued o (some value), argument => argument = o.argument ++ "=" ++ value
  | .plain, argument => Plain argument
  | .help, _ | .version, _ | .needlessValue, _ | .unknown, _ => True

theorem written_long (name : String) : (Word.long name none).Written ("--" ++ name) := by
  unfold Word.long bare
  split_ifs <;> simp_all [Written, Flag.argument, Valued.argument]

theorem written_attached (name value : String) :
    (Word.long name (some value)).Written ("--" ++ name ++ "=" ++ value) := by
  unfold Word.long bare
  split_ifs <;> simp_all [Written, Valued.argument]

theorem written_short (letter : Char) (argument : String) :
    (Word.short letter).Written argument := by
  unfold Word.short
  split_ifs <;> trivial

/-- **An argument is written as the word that it is read as.** -/
theorem ofArgument_written (argument : String) : (ofArgument argument).Written argument := by
  have h := shape argument
  generalize ofArgument argument = w at h
  cases h with
  | mark => rfl
  | long _ _ => exact written_long _
  | attached _ value => exact written_attached _ value
  | short _ _ => exact written_short _ _
  | plain h => exact h

@[simp]
theorem ofArgument_flag (f : Flag) : ofArgument f.argument = .flag f := by
  cases f <;> rfl

@[simp]
theorem ofArgument_option (o : Valued) : ofArgument o.argument = .valued o none := by
  cases o <;> rfl

@[simp]
theorem ofArgument_attached (o : Valued) (value : String) :
    ofArgument (o.argument ++ "=" ++ value) = .valued o (some value) := by
  cases o with
  | offset => exact (Shape.attached (by decide : '=' ∉ "at".toList) value).ofArgument_eq
  | format => exact (Shape.attached (by decide : '=' ∉ "format".toList) value).ofArgument_eq

end Word

end CommandLine

end LexicalScope
