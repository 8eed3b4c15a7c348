import LexicalScope.Json.Lexer

set_option autoImplicit false

/-! # Building a value from its tokens

The reader takes the tokens one by one. The containers that are open are frames of a stack, so
values nested to any depth are read by one fold. After the last token of a value the reader is
`done` and takes no further token: a text holds exactly one value.
-/

namespace LexicalScope

/-- A container that is open while a value inside it is read. -/
inductive Reader.Frame where
  /-- An array, with its items so far, last first. -/
  | array (items : List Json)
  /-- An object, with its members so far and the key of the value that is read. -/
  | object (members : List (String × Json)) (key : String)

/-- A reader in the middle of a value: what it has and what may come next. -/
inductive Reader where
  /-- A value has to come. -/
  | expectValue (outer : List Reader.Frame)
  /-- After the opening of an array. -/
  | arrayStart (outer : List Reader.Frame)
  /-- After the opening of an object. -/
  | objectStart (outer : List Reader.Frame)
  /-- A key has to come. -/
  | expectKey (members : List (String × Json)) (outer : List Reader.Frame)
  /-- A colon has to come. -/
  | expectColon (members : List (String × Json)) (key : String) (outer : List Reader.Frame)
  /-- After an item of an array. -/
  | afterItem (items : List Json) (outer : List Reader.Frame)
  /-- After a member of an object. -/
  | afterMember (members : List (String × Json)) (outer : List Reader.Frame)
  /-- The value is complete. -/
  | done (value : Json)

namespace Reader

/-- Hands a complete value to the container around it. A member that is given twice keeps its
first place and its last value. -/
def deliver (v : Json) : List Frame → Reader
  | [] => done v
  | .array items :: outer => afterItem (v :: items) outer
  | .object members key :: outer => afterMember (Json.put key v members) outer

/-- A token that a value starts with. -/
def begin? (outer : List Frame) : Token → Option Reader
  | .null => some (deliver .null outer)
  | .bool b => some (deliver (.bool b) outer)
  | .number n => some (deliver (.number n) outer)
  | .text s => some (deliver (.string s) outer)
  | .openArray => some (arrayStart outer)
  | .openObject => some (objectStart outer)
  | _ => none

/-- One token. -/
def step : Reader → Token → Option Reader
  | expectValue outer, t => begin? outer t
  | arrayStart outer, .closeArray => some (deliver (.array []) outer)
  | arrayStart outer, t => begin? (.array [] :: outer) t
  | objectStart outer, .closeObject => some (deliver (.object []) outer)
  | objectStart outer, .text k => some (expectColon [] k outer)
  | expectKey members outer, .text k => some (expectColon members k outer)
  | expectColon members k outer, .colon => some (expectValue (.object members k :: outer))
  | afterItem items outer, .comma => some (expectValue (.array items :: outer))
  | afterItem items outer, .closeArray => some (deliver (.array items.reverse) outer)
  | afterMember members outer, .comma => some (expectKey members outer)
  | afterMember members outer, .closeObject => some (deliver (.object members) outer)
  | _, _ => none

/-- The reader after a run of tokens. -/
def run (r : Reader) (ts : List Token) : Option Reader := ts.foldlM step r

theorem run_append (r : Reader) (ts us : List Token) :
    r.run (ts ++ us) = (r.run ts).bind fun r => r.run us :=
  List.foldlM_append

/-- Nothing follows a complete value. -/
theorem step_done (v : Json) (t : Token) : (done v).step t = none := by
  cases t <;> rfl

/-- The value that was read, if it is complete. -/
def value? : Reader → Option Json
  | done v => some v
  | _ => none

end Reader

namespace Json

/-- The value with the given tokens. -/
def ofTokens? (ts : List Token) : Option Json :=
  ((Reader.expectValue []).run ts).bind Reader.value?

/-- The value that a text holds, or nothing when the text is not JSON. -/
def parse? (text : String) : Option Json := (Token.ofChars? text.toList).bind ofTokens?

end Json

end LexicalScope
