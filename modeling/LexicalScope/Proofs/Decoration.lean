import LexicalScope.Listing.Style
import Mathlib.Data.List.Basic
import Mathlib.Tactic.SplitIfs

set_option autoImplicit false

/-! # Colour only decorates

A listing with colour is the listing without colour, with codes strewn in. Deleting the codes gives
the plain listing back, whether all codes are deleted at once or one after the other, in whatever
order, as long as no text of the listing has an escape character of its own.

The two listings are put together from pieces in the same way, and only some of the pieces are
painted. `Decorated` says of two texts that one is the other with codes strewn in. It holds of the
pieces and is kept by `++`, so deletion need not be followed across the boundaries of pieces or of
lines. A deletion of some codes leaves the others strewn in.

* `Decorates.apply`, `Decorates.append`, `Decorates.join`: pieces, lines and listings.
* `Decorated.erase`: deleting some of the codes.
* `Style.color_decorates`: deleting all of them.
-/

namespace LexicalScope

namespace Paint

/-- The codes of a listing: cyan, bold and the end of both. -/
def codes : List (List Char) := ["\x1b[36m", "\x1b[1m", "\x1b[0m"].map String.toList

/-! ## Deleting codes -/

/-- Deletes the given codes from a text, from left to right. Of a code that was found, `left`
characters are still to be passed over. -/
def eraseFrom (deleted : List (List Char)) : Nat → List Char → List Char
  | _, [] => []
  | left + 1, _ :: cs => eraseFrom deleted left cs
  | 0, c :: cs =>
    match deleted.find? fun code => code.isPrefixOf (c :: cs) with
    | some code => eraseFrom deleted (code.length - 1) cs
    | none => c :: eraseFrom deleted 0 cs

/-- **Deletes every occurrence of the given codes.** -/
def erase (text : String) (deleted : List (List Char)) : String :=
  String.ofList (eraseFrom deleted 0 text.toList)

/-! ## Codes -/

/-- A code starts with the escape character, which it has only there. -/
theorem exists_body {code : List Char} (h : code ∈ codes) :
    ∃ body, code = esc :: body ∧ esc ∉ body := by
  have hall : ∀ code ∈ codes, code = esc :: code.tail ∧ esc ∉ code.tail := by decide +kernel
  exact ⟨code.tail, hall code h⟩

/-- No code is the beginning of another, whatever follows. -/
theorem eq_of_isPrefixOf {code other rest : List Char} (h : code ∈ codes) (h' : other ∈ codes)
    (hstarts : code.isPrefixOf (other ++ rest) = true) : code = other := by
  have hcodes : codes = [opening .kind, opening .name, reset] := by decide +kernel
  rw [hcodes] at h h'
  simp only [List.mem_cons, List.not_mem_nil, or_false] at h h'
  rcases h with rfl | rfl | rfl <;> rcases h' with rfl | rfl | rfl <;>
    first | rfl | simp [opening, reset] at hstarts

theorem opening_mem_codes (p : Paint) : p.opening ∈ codes := by
  cases p <;> decide +kernel

theorem reset_mem_codes : reset ∈ codes := by decide +kernel

/-! ## Texts with codes strewn in -/

/-- **A text with the given codes strewn in.** The plain text has no escape character. -/
inductive Decorated (used : List (List Char)) : List Char → List Char → Prop
  | nil : Decorated used [] []
  | char {c : Char} {plain painted : List Char} :
      c ≠ esc → Decorated used plain painted → Decorated used (c :: plain) (c :: painted)
  | code {code plain painted : List Char} :
      code ∈ used → Decorated used plain painted → Decorated used plain (code ++ painted)

namespace Decorated

variable {used deleted : List (List Char)} {plain painted plain' painted' : List Char}

theorem refl (h : esc ∉ plain) : Decorated used plain plain := by
  induction plain with
  | nil => exact .nil
  | cons c plain ih =>
      rw [List.mem_cons, not_or] at h
      exact .char (Ne.symm h.1) (ih h.2)

theorem append (h : Decorated used plain painted) (h' : Decorated used plain' painted') :
    Decorated used (plain ++ plain') (painted ++ painted') := by
  induction h with
  | nil => exact h'
  | char hc _ ih => exact .char hc ih
  | code hcode _ ih =>
      rw [List.append_assoc]
      exact .code hcode ih

/-- Where no codes are left, the text is plain. -/
theorem eq_of_nil (h : Decorated [] plain painted) : painted = plain := by
  induction h with
  | nil => rfl
  | char _ _ ih => rw [ih]
  | code hcode _ _ => cases hcode

end Decorated

/-! ## What deletion leaves -/

section Erase

variable {deleted : List (List Char)} {cs ds : List Char}

theorem eraseFrom_length (deleted : List (List Char)) (cs ds : List Char) :
    eraseFrom deleted cs.length (cs ++ ds) = eraseFrom deleted 0 ds := by
  induction cs with
  | nil => rfl
  | cons c cs ih => exact ih

/-- A code that is to be deleted goes. -/
theorem eraseFrom_code (hdeleted : deleted ⊆ codes) {code : List Char} (hcode : code ∈ deleted)
    (ds : List Char) : eraseFrom deleted 0 (code ++ ds) = eraseFrom deleted 0 ds := by
  obtain ⟨body, rfl, -⟩ := exists_body (hdeleted hcode)
  have hfind : deleted.find? (fun code => code.isPrefixOf (esc :: (body ++ ds)))
      = some (esc :: body) := by
    cases hfound : deleted.find? (fun code => code.isPrefixOf (esc :: (body ++ ds))) with
    | none =>
        have hnone := List.find?_eq_none.mp hfound _ hcode
        simp at hnone
    | some other =>
        have hother := hdeleted (List.mem_of_find?_eq_some hfound)
        have hstarts := List.find?_some hfound
        rw [eq_of_isPrefixOf hother (hdeleted hcode) hstarts]
  rw [List.cons_append, eraseFrom, hfind]
  exact eraseFrom_length deleted body ds

/-- A character other than the escape character starts no code, and stays. -/
theorem eraseFrom_cons (hdeleted : deleted ⊆ codes) {c : Char} (hc : c ≠ esc) (cs : List Char) :
    eraseFrom deleted 0 (c :: cs) = c :: eraseFrom deleted 0 cs := by
  have hnone : deleted.find? (fun code => code.isPrefixOf (c :: cs)) = none := by
    refine List.find?_eq_none.mpr fun code hcode hstarts => ?_
    obtain ⟨body, rfl, -⟩ := exists_body (hdeleted hcode)
    simp only [List.isPrefixOf_cons_cons, Bool.and_eq_true, beq_iff_eq] at hstarts
    exact hc hstarts.1.symm
  rw [eraseFrom, hnone]

theorem eraseFrom_append (hdeleted : deleted ⊆ codes) (hcs : esc ∉ cs) (ds : List Char) :
    eraseFrom deleted 0 (cs ++ ds) = cs ++ eraseFrom deleted 0 ds := by
  induction cs with
  | nil => rfl
  | cons c cs ih =>
      rw [List.mem_cons, not_or] at hcs
      rw [List.cons_append, eraseFrom_cons hdeleted (Ne.symm hcs.1), ih hcs.2, List.cons_append]

/-- A code that is not to be deleted stays. -/
theorem eraseFrom_other (hdeleted : deleted ⊆ codes) {code : List Char} (hcode : code ∈ codes)
    (hother : code ∉ deleted) (ds : List Char) :
    eraseFrom deleted 0 (code ++ ds) = code ++ eraseFrom deleted 0 ds := by
  have hnone : deleted.find? (fun found => found.isPrefixOf (code ++ ds)) = none := by
    refine List.find?_eq_none.mpr fun found hfound hstarts => ?_
    rw [eq_of_isPrefixOf (hdeleted hfound) hcode hstarts] at hfound
    exact hother hfound
  obtain ⟨body, rfl, hbody⟩ := exists_body hcode
  rw [List.cons_append] at hnone ⊢
  rw [eraseFrom, hnone, List.cons_append]
  simp only
  rw [eraseFrom_append hdeleted hbody]

end Erase

/-- **Deleting some of the codes leaves the others strewn in.** -/
theorem Decorated.erase {used deleted : List (List Char)} {plain painted : List Char}
    (h : Decorated used plain painted) (hused : used ⊆ codes) (hdeleted : deleted ⊆ codes) :
    Decorated (used.filter (· ∉ deleted)) plain (eraseFrom deleted 0 painted) := by
  induction h with
  | nil => exact .nil
  | char hc _ ih =>
      rw [eraseFrom_cons hdeleted hc]
      exact .char hc ih
  | @code code plain painted hcode _ ih =>
      by_cases hgone : code ∈ deleted
      · rw [eraseFrom_code hdeleted hgone]
        exact ih
      · rw [eraseFrom_other hdeleted (hused hcode) hgone]
        exact .code (List.mem_filter.mpr ⟨hcode, by simpa using hgone⟩) ih

/-- **Deleting codes in several rounds** leaves those that no round deletes. -/
theorem Decorated.rounds {used : List (List Char)} {plain : List Char} {text : String}
    (h : Decorated used plain text.toList) (hused : used ⊆ codes)
    {rounds : List (List (List Char))} (hrounds : ∀ deleted ∈ rounds, deleted ⊆ codes) :
    Decorated (used.filter (· ∉ rounds.flatten)) plain (rounds.foldl Paint.erase text).toList := by
  induction rounds generalizing used text with
  | nil =>
      have hall : used.filter (· ∉ ([] : List (List (List Char))).flatten) = used := by simp
      rw [hall]
      exact h
  | cons deleted rounds ih =>
      obtain ⟨hdeleted, hrounds⟩ := List.forall_mem_cons.mp hrounds
      have herase : Decorated (used.filter (· ∉ deleted)) plain
          (Paint.erase text deleted).toList := by
        rw [Paint.erase, String.toList_ofList]
        exact h.erase hused hdeleted
      have hleft := ih herase (fun code hcode => hused (List.mem_of_mem_filter hcode)) hrounds
      have hfilter : (used.filter (· ∉ deleted)).filter (· ∉ rounds.flatten)
          = used.filter (· ∉ (deleted :: rounds).flatten) := by
        rw [List.filter_filter, List.flatten_cons]
        refine List.filter_congr fun code _ => ?_
        simp only [List.mem_append, not_or, Bool.decide_and, Bool.and_comm]
      rw [hfilter] at hleft
      exact hleft

/-! ## Pieces of a listing -/

theorem reopen_of_notMem {text : List Char} (h : esc ∉ text) (code : List Char) :
    reopen code text = text := by
  fun_induction reopen code text with
  | case1 cs ih => exact absurd List.mem_cons_self h
  | case2 c cs _ ih =>
      rw [List.mem_cons, not_or] at h
      rw [ih h.2]
  | case3 => rfl

/-- A text that is another one with codes strewn in, if that has no escape character. -/
def Decorates (painted plain : String) : Prop :=
  esc ∉ plain.toList → Decorated codes plain.toList painted.toList

namespace Decorates

variable {painted plain painted' plain' : String}

theorem refl (text : String) : Decorates text text := fun h => .refl h

theorem append (h : Decorates painted plain) (h' : Decorates painted' plain') :
    Decorates (painted ++ painted') (plain ++ plain') := by
  intro hesc
  rw [String.toList_append, List.mem_append, not_or] at hesc
  rw [String.toList_append, String.toList_append]
  exact (h hesc.1).append (h' hesc.2)

/-- **A painted text is the text between two codes.** -/
theorem apply (p : Paint) (text : String) : Decorates (p.apply true text) (p.apply false text) := by
  intro hesc
  have hplain : p.apply false text = text := if_neg Bool.false_ne_true
  have hpainted : (p.apply true text).toList = p.opening ++ (text.toList ++ (reset ++ [])) := by
    rw [hplain] at hesc
    rw [Paint.apply, if_pos rfl, String.toList_ofList, reopen_of_notMem hesc, List.append_assoc,
      List.append_nil]
  have hreset : Decorated codes [] (reset ++ []) := .code reset_mem_codes .nil
  rw [hpainted]
  rw [hplain] at hesc ⊢
  have htext := (Decorated.refl hesc).append hreset
  rw [List.append_nil] at htext
  exact .code p.opening_mem_codes htext

/-- Lines are put together to a listing. -/
theorem join {α : Type} {line : α → Bool → String}
    (h : ∀ r, Decorates (line r true) (line r false)) (rows : List α) :
    Decorates (String.join (rows.map fun r => line r true))
      (String.join (rows.map fun r => line r false)) := by
  induction rows with
  | nil => exact refl _
  | cons r rows ih =>
      rw [List.map_cons, List.map_cons, String.join_cons, String.join_cons]
      exact (h r).append ih

end Decorates

/-- **Deleting all codes, in one round or in several, gives the plain text back.** -/
theorem Decorates.erase {painted plain : String} (h : Decorates painted plain)
    (hesc : esc ∉ plain.toList) {rounds : List (List (List Char))}
    (hrounds : ∀ code, code ∈ rounds.flatten ↔ code ∈ codes) :
    rounds.foldl Paint.erase painted = plain := by
  have hsub : ∀ deleted ∈ rounds, deleted ⊆ codes := by
    intro deleted hdeleted code hcode
    exact (hrounds code).mp (List.mem_flatten_of_mem hdeleted hcode)
  have hleft := (h hesc).rounds (List.Subset.refl _) hsub
  have hnone : codes.filter (· ∉ rounds.flatten) = [] := by
    refine List.filter_eq_nil_iff.mpr fun code hcode => ?_
    simpa using (hrounds code).mpr hcode
  rw [hnone] at hleft
  exact String.toList_inj.mp hleft.eq_of_nil

end Paint

/-! ## Lines -/

open Paint

theorem NodeRow.decorates_line (r : NodeRow) : Decorates (r.line true) (r.line false) :=
  (((Decorates.refl _).append (.apply .kind r.kind)).append (.refl _)).append (.refl _)

theorem ScopeRow.decorates_line (r : ScopeRow) : Decorates (r.line true) (r.line false) := by
  have hname : Decorates (r.name.elim "" fun name => " " ++ Paint.name.apply true name)
      (r.name.elim "" fun name => " " ++ Paint.name.apply false name) := by
    cases r.name with
    | none => exact .refl _
    | some name => exact (Decorates.refl _).append (.apply .name name)
  have hkind := (Decorates.refl (indentation r.depth.toNat)).append (.apply .kind r.kind)
  exact (((hkind.append hname).append (.refl _)).append (.refl _)).append (.refl _)

/-! ## Listings -/

/-- **Colour only decorates.** If the listing without colour has no escape character, deleting the
codes from the listing with colour gives it back, whatever the kinds, names and digests in it. The
codes may be deleted all at once or in several rounds, in any order. -/
theorem Style.color_decorates {rounds : List (List (List Char))}
    (hrounds : ∀ code, code ∈ rounds.flatten ↔ code ∈ Paint.codes) :
    (∀ rows : List NodeRow, Paint.esc ∉ (Style.nodes ⟨.text, false⟩ rows).toList →
      rounds.foldl Paint.erase (Style.nodes ⟨.text, true⟩ rows)
        = Style.nodes ⟨.text, false⟩ rows) ∧
    ∀ rows : List ScopeRow, Paint.esc ∉ (Style.scopes ⟨.text, false⟩ rows).toList →
      rounds.foldl Paint.erase (Style.scopes ⟨.text, true⟩ rows)
        = Style.scopes ⟨.text, false⟩ rows := by
  refine ⟨fun rows hesc => ?_, fun rows hesc => ?_⟩
  · exact (Decorates.join NodeRow.decorates_line rows).erase hesc hrounds
  · exact (Decorates.join ScopeRow.decorates_line rows).erase hesc hrounds

namespace Sample

/-- A kind that its digest does not start with, an empty kind and a digest that is only a kind. -/
def oddNodes : List NodeRow :=
  [⟨0, none, 0, "Program", "<unknown> ()"⟩, ⟨1, some 0, 1, "", "[36m"⟩,
    ⟨2, some 0, 1, "Literal", "Literal"⟩]

/-- An empty name. -/
def oddScopes : List ScopeRow :=
  [⟨0, "Program", none, 0, none, 0, ["f", "0m"]⟩,
    ⟨1, "FunctionDeclaration", some "", 1, some 0, 1, []⟩]

/-- The codes are deleted one after the other, the end of the paint before its beginning. -/
theorem color_decorates_odd :
    let rounds := [["\x1b[0m".toList], ["\x1b[1m".toList], ["\x1b[36m".toList]]
    (∀ code, code ∈ rounds.flatten ↔ code ∈ Paint.codes) ∧
      Paint.esc ∉ (Style.nodes ⟨.text, false⟩ oddNodes).toList ∧
      rounds.foldl Paint.erase (Style.nodes ⟨.text, true⟩ oddNodes)
        = "Program<unknown> ()\n  [36m\n  Literal\n" ∧
      Paint.esc ∉ (Style.scopes ⟨.text, false⟩ oddScopes).toList ∧
      rounds.foldl Paint.erase (Style.scopes ⟨.text, true⟩ oddScopes)
        = "Program: f, 0m\n  FunctionDeclaration :\n" := by
  intro rounds
  have hreverse : rounds.flatten = Paint.codes.reverse := by decide +kernel
  have hrounds : ∀ code, code ∈ rounds.flatten ↔ code ∈ Paint.codes := by
    intro code
    rw [hreverse, List.mem_reverse]
  have hnodes : Paint.esc ∉ (Style.nodes ⟨.text, false⟩ oddNodes).toList := by decide +kernel
  have hscopes : Paint.esc ∉ (Style.scopes ⟨.text, false⟩ oddScopes).toList := by decide +kernel
  have hdecorates := Style.color_decorates hrounds
  refine ⟨hrounds, hnodes, ?_, hscopes, ?_⟩
  · rw [hdecorates.1 oddNodes hnodes]
    decide +kernel
  · rw [hdecorates.2 oddScopes hscopes]
    decide +kernel

end Sample

end LexicalScope
