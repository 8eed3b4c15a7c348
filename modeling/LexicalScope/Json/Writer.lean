import LexicalScope.Json.Token

set_option autoImplicit false

/-! # Writing JSON texts

`Json.compact` writes a value without blanks. `Json.pretty` puts every item and member on a line
of its own, indented by two spaces for each container around it; empty containers stay together.
-/

namespace LexicalScope

namespace Token

/-- A new line inside `depth` containers. -/
def newLine (depth : Nat) : String := String.ofList ('\n' :: List.replicate (2 * depth) ' ')

/-- The blanks between two neighbouring tokens of an indented text, with `depth` containers open
between them. -/
def gap (depth : Nat) (previous next : Token) : String :=
  if next.isClose then if previous.isOpen then "" else newLine (depth - 1)
  else if previous.isOpen || previous == .comma then newLine depth
  else if previous == .colon then " "
  else ""

/-- The number of open containers after a token. -/
def depthAfter (depth : Nat) (t : Token) : Nat :=
  if t.isOpen then depth + 1 else if t.isClose then depth - 1 else depth

/-- Adds tokens to an indented text that ends in the token `previous`. -/
def indentOnto (text : String) (depth : Nat) (previous : Token) : List Token → String
  | [] => text
  | t :: ts => indentOnto (text ++ gap depth previous t ++ t.spelling) (depthAfter depth t) t ts

/-- The indented text of a list of tokens. -/
def indent : List Token → String
  | [] => ""
  | t :: ts => indentOnto t.spelling (depthAfter 0 t) t ts

end Token

namespace Json

/-- The text of a value without blanks. -/
def compact (v : Json) : String := String.join (v.tokens.map Token.spelling)

/-- The indented text of a value. -/
def pretty (v : Json) : String := Token.indent v.tokens

end Json

end LexicalScope
