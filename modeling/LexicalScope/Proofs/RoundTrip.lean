import LexicalScope.Command.Document
import LexicalScope.Json.Writer
import LexicalScope.Proofs.Lexing
import Mathlib.Data.List.Nodup

set_option autoImplicit false

/-! # Written values are read back

A value whose numbers are integers of at most 64 bits and whose objects have distinct keys is read
back, whole and in order, from either of its texts. Reading undoes writing in two layers. The
reader undoes `Json.tokens`, by induction over the value with the containers around it and the
tokens after it left open, so that the depth of the nesting does not matter. The lexer undoes the
spelling of the tokens whatever blanks a writer puts between them (`Proofs/Lexing`).

* `Json.IsExact.ofTokens?`: a value is built again from its tokens.
* `Token.Legible.spaced_join`, `Token.Legible.spaced_indent`: both writers spell the tokens.
* `Json.IsExact.parse?_compact`, `Json.IsExact.parse?_pretty`: a value is read back.
* `Document.ofText_written`: so is a document.
-/

namespace LexicalScope

/-- **A value that its text gives back**: integers of at most 64 bits, distinct keys in every
object, and anything else at any depth. -/
inductive Json.IsExact : Json → Prop
  | null : IsExact .null
  | bool (b : Bool) : IsExact (.bool b)
  | number {n : Number} : n.IsExact → IsExact (.number n)
  | string (s : String) : IsExact (.string s)
  | array {items : List Json} : (∀ v ∈ items, IsExact v) → IsExact (.array items)
  | object {members : List (String × Json)} :
      (members.map Prod.fst).Nodup → (∀ m ∈ members, IsExact m.2) → IsExact (.object members)

/-! ## From tokens to values -/

/-- A new key goes to the end. -/
theorem Json.put_of_notMem {key : String} {members : List (String × Json)}
    (h : key ∉ members.map Prod.fst) (v : Json) :
    put key v members = members ++ [(key, v)] := by
  induction members with
  | nil => rfl
  | cons m members ih =>
      rw [List.map_cons, List.mem_cons, not_or] at h
      rw [put, if_neg (Ne.symm h.1), ih h.2, List.cons_append]

namespace Reader

theorem run_cons (r : Reader) (t : Token) (ts : List Token) :
    r.run (t :: ts) = (r.step t).bind fun r => r.run ts := rfl

/-- A value that the reader builds from its tokens, inside any containers and before any tokens. -/
def Builds (v : Json) : Prop :=
  ∀ outer rest, (expectValue outer).run (v.tokensThen rest) = (deliver v outer).run rest

/-- The first item of an array is read like any other. -/
theorem run_arrayStart (v : Json) (outer : List Frame) (rest : List Token) :
    (arrayStart outer).run (v.tokensThen rest)
      = (expectValue (.array [] :: outer)).run (v.tokensThen rest) := by
  cases v <;> rw [Json.tokensThen] <;> rfl

theorem run_itemTokens {items : List Json} (h : ∀ v ∈ items, Builds v) (hne : items ≠ [])
    (done : List Json) (outer : List Frame) (rest : List Token) :
    (expectValue (.array done :: outer)).run (Json.itemTokens items (.closeArray :: rest))
      = (deliver (.array (done.reverse ++ items)) outer).run rest := by
  induction items generalizing done with
  | nil => exact absurd rfl hne
  | cons v items ih =>
      obtain ⟨hv, hitems⟩ := List.forall_mem_cons.mp h
      cases items with
      | nil =>
          have hclose : (afterItem (v :: done) outer).step .closeArray
              = some (deliver (.array (v :: done).reverse) outer) := rfl
          rw [Json.itemTokens, hv, deliver, run_cons, hclose, Option.bind_some,
            List.reverse_cons]
      | cons w items =>
          have hcomma : (afterItem (v :: done) outer).step .comma
              = some (expectValue (.array (v :: done) :: outer)) := rfl
          rw [Json.itemTokens, hv, deliver, run_cons, hcomma, Option.bind_some,
            ih hitems (by simp), List.reverse_cons, List.append_assoc, List.singleton_append]

theorem run_memberTokens {members : List (String × Json)} (h : ∀ m ∈ members, Builds m.2)
    (hne : members ≠ []) (done : List (String × Json))
    (hkeys : ((done ++ members).map Prod.fst).Nodup) (outer : List Frame) (rest : List Token) :
    (expectKey done outer).run (Json.memberTokens members (.closeObject :: rest))
      = (deliver (.object (done ++ members)) outer).run rest := by
  induction members generalizing done with
  | nil => exact absurd rfl hne
  | cons m members ih =>
      obtain ⟨key, v⟩ := m
      obtain ⟨hv, hmembers⟩ := List.forall_mem_cons.mp h
      have hsplit : done ++ (key, v) :: members = done ++ [(key, v)] ++ members := by simp
      have hput : Json.put key v done = done ++ [(key, v)] := by
        refine Json.put_of_notMem (fun hmem => ?_) v
        rw [List.map_append, List.nodup_append] at hkeys
        exact hkeys.2.2 key hmem key List.mem_cons_self rfl
      have hmember : ∀ ts, (expectKey done outer).run (.text key :: .colon :: v.tokensThen ts)
          = (afterMember (done ++ [(key, v)]) outer).run ts := by
        intro ts
        have hvalue := hv (.object done key :: outer) ts
        rw [deliver, hput] at hvalue
        exact hvalue
      cases members with
      | nil =>
          rw [Json.memberTokens, hmember]
          rfl
      | cons m members =>
          have hcomma : (afterMember (done ++ [(key, v)]) outer).step .comma
              = some (expectKey (done ++ [(key, v)]) outer) := rfl
          rw [Json.memberTokens, hmember, run_cons, hcomma, Option.bind_some,
            ih hmembers (by simp) _ (hsplit ▸ hkeys), hsplit]

theorem builds {v : Json} (h : v.IsExact) : Builds v := by
  induction h with
  | null | bool | number | string =>
      intro outer rest
      rw [Json.tokensThen]
      rfl
  | @array items _ ih =>
      intro outer rest
      have hopen : (expectValue outer).step .openArray = some (arrayStart outer) := rfl
      rw [Json.tokensThen, run_cons, hopen, Option.bind_some]
      cases items with
      | nil => rfl
      | cons v items =>
          have hitems := run_itemTokens ih (by simp) [] outer rest
          rw [List.reverse_nil, List.nil_append] at hitems
          rw [← hitems]
          cases items with
          | nil => rw [Json.itemTokens, run_arrayStart]
          | cons w items => rw [Json.itemTokens, run_arrayStart]
  | @object members hkeys _ ih =>
      intro outer rest
      have hopen : (expectValue outer).step .openObject = some (objectStart outer) := rfl
      rw [Json.tokensThen, run_cons, hopen, Option.bind_some]
      cases members with
      | nil => rfl
      | cons m members =>
          have hmembers := run_memberTokens ih (by simp) [] hkeys outer rest
          rw [List.nil_append] at hmembers
          rw [← hmembers]
          cases members with
          | nil => rfl
          | cons m' members => rfl

end Reader

/-- **A value is built again from its tokens.** -/
theorem Json.IsExact.ofTokens? {v : Json} (h : v.IsExact) : Json.ofTokens? v.tokens = some v := by
  rw [Json.ofTokens?, Json.tokens, Reader.builds h]
  rfl

/-! ## From values to tokens -/

namespace Token

/-- Tokens that can be read back from a text without blanks: each from its spelling, and no two
that the lexer holds back next to each other. -/
def Legible : List Token → Prop
  | [] => True
  | t :: ts => t.IsExact ∧ (t.isHeld = true → ∀ u ∈ ts.head?, u.isHeld = false) ∧ Legible ts

theorem Legible.cons_mark {t : Token} {ts : List Token} (ht : t.isHeld = false) (h : Legible ts) :
    Legible (t :: ts) := by
  refine ⟨?_, fun hheld => ?_, h⟩
  · cases t <;> trivial
  · rw [ht] at hheld
    cases hheld

end Token

namespace Json

open Token

/-- The tokens of a value are legible before any legible tokens that start with a mark. -/
def Legible (v : Json) : Prop :=
  ∀ {rest}, Token.Legible rest → (∀ u ∈ rest.head?, u.isHeld = false) →
    Token.Legible (v.tokensThen rest)

theorem legible_itemTokens {items : List Json} (h : ∀ v ∈ items, v.Legible) {rest : List Token}
    (hrest : Token.Legible (.closeArray :: rest)) :
    Token.Legible (itemTokens items (.closeArray :: rest)) := by
  induction items with
  | nil => exact hrest
  | cons v items ih =>
      obtain ⟨hv, hitems⟩ := List.forall_mem_cons.mp h
      cases items with
      | nil => exact hv hrest (by simp [isHeld])
      | cons w items => exact hv ((ih hitems).cons_mark rfl) (by simp [isHeld])

theorem legible_memberTokens {members : List (String × Json)} (h : ∀ m ∈ members, m.2.Legible)
    {rest : List Token} (hrest : Token.Legible (.closeObject :: rest)) :
    Token.Legible (memberTokens members (.closeObject :: rest)) := by
  induction members with
  | nil => exact hrest
  | cons m members ih =>
      obtain ⟨hv, hmembers⟩ := List.forall_mem_cons.mp h
      cases members with
      | nil => exact ((hv hrest (by simp [isHeld])).cons_mark rfl).cons_mark rfl
      | cons m' members =>
          exact ((hv ((ih hmembers).cons_mark rfl) (by simp [isHeld])).cons_mark rfl).cons_mark rfl

theorem IsExact.legible {v : Json} (h : v.IsExact) : v.Legible := by
  induction h with
  | null => exact fun hrest hfree => ⟨trivial, fun _ => hfree, hrest⟩
  | bool b => exact fun hrest hfree => ⟨trivial, fun _ => hfree, hrest⟩
  | number hn => exact fun hrest hfree => ⟨hn, fun _ => hfree, hrest⟩
  | string s => exact fun hrest _ => hrest.cons_mark rfl
  | array _ ih => exact fun hrest _ => (legible_itemTokens ih (hrest.cons_mark rfl)).cons_mark rfl
  | object _ _ ih =>
      exact fun hrest _ => (legible_memberTokens ih (hrest.cons_mark rfl)).cons_mark rfl

theorem IsExact.legible_tokens {v : Json} (h : v.IsExact) : Token.Legible v.tokens :=
  h.legible trivial (by simp)

end Json

/-! ## From tokens to texts -/

namespace Token

theorem isBlank_newLine (depth : Nat) : ∀ c ∈ (newLine depth).toList, Lexer.isBlank c = true := by
  intro c hc
  rw [newLine, String.toList_ofList, List.mem_cons, List.mem_replicate] at hc
  rcases hc with rfl | ⟨_, rfl⟩ <;> rfl

/-- What stands between two tokens of an indented text is blank. -/
theorem isBlank_gap (depth : Nat) (previous next : Token) :
    ∀ c ∈ (gap depth previous next).toList, Lexer.isBlank c = true := by
  unfold gap
  split_ifs
  · simp
  · exact isBlank_newLine _
  · exact isBlank_newLine _
  · simp [Lexer.isBlank]
  · simp

namespace Legible

variable {ts : List Token}

/-- Spellings without blanks spell the tokens. -/
theorem spaced_join (h : Legible ts) : Spaced ts (String.join (ts.map spelling)).toList := by
  induction ts with
  | nil => exact .nil
  | cons t ts ih =>
      obtain ⟨hexact, hsep, hts⟩ := h
      have htext := Spaced.token hexact hsep (ih hts)
      simpa [String.toList_join] using htext

theorem exists_indentOnto (h : Legible ts) (text : String) (depth : Nat) (previous : Token) :
    ∃ cs, (indentOnto text depth previous ts).toList = text.toList ++ cs ∧ Spaced ts cs := by
  induction ts generalizing text depth previous with
  | nil => exact ⟨[], by simp [indentOnto], .nil⟩
  | cons t ts ih =>
      obtain ⟨hexact, hsep, hts⟩ := h
      obtain ⟨cs, htext, hcs⟩ :=
        ih hts (text ++ gap depth previous t ++ t.spelling) (depthAfter depth t) t
      refine ⟨(gap depth previous t).toList ++ (t.spelling.toList ++ cs), ?_,
        (Spaced.token hexact hsep hcs).blanks (isBlank_gap depth previous t)⟩
      rw [indentOnto, htext]
      simp only [String.toList_append, List.append_assoc]

/-- An indented text spells its tokens. -/
theorem spaced_indent (h : Legible ts) : Spaced ts (indent ts).toList := by
  cases ts with
  | nil => exact .nil
  | cons t ts =>
      obtain ⟨hexact, hsep, hts⟩ := h
      obtain ⟨cs, htext, hcs⟩ := exists_indentOnto hts t.spelling (depthAfter 0 t) t
      rw [indent, htext]
      exact .token hexact hsep hcs

end Legible

end Token

/-! ## There and back -/

namespace Json

theorem IsExact.parse?_of_spaced {v : Json} (h : v.IsExact) {text : String}
    (htext : Token.Spaced v.tokens text.toList) : parse? text = some v := by
  rw [parse?, htext.ofChars?, Option.bind_some, h.ofTokens?]

/-- **A value is read back from its compact text.** -/
theorem IsExact.parse?_compact {v : Json} (h : v.IsExact) : parse? v.compact = some v :=
  h.parse?_of_spaced h.legible_tokens.spaced_join

/-- **A value is read back from its indented text.** -/
theorem IsExact.parse?_pretty {v : Json} (h : v.IsExact) : parse? v.pretty = some v :=
  h.parse?_of_spaced h.legible_tokens.spaced_indent

end Json

namespace Document

theorem ofText_of_parse? {text : String} {v : Json} (h : Json.parse? text = some v)
    (hobject : v.isObject = true) : ofText text = .ok v := by
  rw [ofText, h]
  exact if_pos hobject

/-- **A document is read back from both of its texts**: an object at any depth of nesting, with
all strings, with integers of up to 64 bits and with its members in their order. -/
theorem ofText_written {v : Json} (hobject : v.isObject = true) (hexact : v.IsExact) :
    ofText v.compact = .ok v ∧ ofText v.pretty = .ok v :=
  ⟨ofText_of_parse? hexact.parse?_compact hobject, ofText_of_parse? hexact.parse?_pretty hobject⟩

end Document

/-- A document with all kinds of values: escaped and plain characters, the least and the greatest
integer, empty containers and members that are not in the order of their keys. -/
def Sample.everyKind : Json :=
  .object [
    ("type", .string "quote \" and \\, line\n, bell\x07, π and 😀"),
    ("", .array [.number (.int (-9223372036854775808)), .number (.int 18446744073709551615),
      .array [], .object [], .null, .bool true, .bool false]),
    ("body", .object [("b", .number (.int 0)), ("a", .object [("b", .array [.array [.null]])])])]

theorem Sample.ofText_everyKind :
    (Sample.everyKind.isObject = true ∧ Sample.everyKind.IsExact) ∧
      Document.ofText Sample.everyKind.compact = .ok Sample.everyKind ∧
      Document.ofText Sample.everyKind.pretty = .ok Sample.everyKind := by
  have hexact : Sample.everyKind.IsExact := by
    refine .object (by decide) ?_
    simp only [List.forall_mem_cons]
    refine ⟨.string _, .array ?_, .object (by decide) ?_, nofun⟩
    · simp only [List.forall_mem_cons]
      exact ⟨.number (by decide), .number (by decide), .array nofun, .object .nil nofun, .null,
        .bool _, .bool _, nofun⟩
    · simp only [List.forall_mem_cons]
      refine ⟨.number (by decide), .object (by decide) ?_, nofun⟩
      simp only [List.forall_mem_cons]
      refine ⟨.array ?_, nofun⟩
      simp only [List.forall_mem_cons]
      refine ⟨.array ?_, nofun⟩
      simp only [List.forall_mem_cons]
      exact ⟨.null, nofun⟩
  exact ⟨⟨rfl, hexact⟩, Document.ofText_written rfl hexact⟩

end LexicalScope
