import LexicalScope.Json.Value

set_option autoImplicit false

/-! # Tokens of a JSON text

A JSON text is a list of tokens with blanks between them. `Json.tokens` lists the tokens of a
value in the order of the text and `Token.spelling` spells each of them; the compact and the
indented writing (`Json/Writer.lean`) differ only in the blanks. Reading goes the other way:
`Json/Lexer.lean` finds the tokens and `Json/Reader.lean` builds the value from them.
-/

namespace LexicalScope

/-- A token of a JSON text. -/
inductive Token where
  | openArray
  | closeArray
  | openObject
  | closeObject
  | comma
  | colon
  | null
  | bool (value : Bool)
  | number (value : Number)
  | text (value : String)
deriving DecidableEq, Repr

namespace Token

/-- Whether the token opens an array or an object. -/
def isOpen : Token → Bool
  | openArray | openObject => true
  | _ => false

/-- Whether the token closes an array or an object. -/
def isClose : Token → Bool
  | closeArray | closeObject => true
  | _ => false

/-! ## Spelling -/

/-- A hexadecimal digit, in lower case. -/
def hexDigit (n : Nat) : Char := Nat.digitChar (n % 16)

/-- A character inside quotes. The quote, the backslash and the characters below the blank are
escaped, those with a letter of their own by that letter; all others stand for themselves. -/
def escape (c : Char) : List Char :=
  if c = '"' then ['\\', '"']
  else if c = '\\' then ['\\', '\\']
  else if c = '\x08' then ['\\', 'b']
  else if c = '\x0c' then ['\\', 'f']
  else if c = '\n' then ['\\', 'n']
  else if c = '\r' then ['\\', 'r']
  else if c = '\t' then ['\\', 't']
  else if c.toNat < 0x20 then ['\\', 'u', '0', '0', hexDigit (c.toNat / 16), hexDigit c.toNat]
  else [c]

/-- A text in quotes. -/
def quote (s : String) : String :=
  String.ofList ('"' :: (s.toList.flatMap escape ++ ['"']))

/-- The spelling of a token. -/
def spelling : Token → String
  | openArray => "["
  | closeArray => "]"
  | openObject => "\x7b"
  | closeObject => "\x7d"
  | comma => ","
  | colon => ":"
  | null => "null"
  | bool true => "true"
  | bool false => "false"
  | number n => n.spelling
  | text s => quote s

end Token

/-! ## The tokens of a value -/

namespace Json

mutual

/-- The tokens of a value, followed by `rest`. -/
def tokensThen : Json → List Token → List Token
  | null, rest => .null :: rest
  | bool b, rest => .bool b :: rest
  | number n, rest => .number n :: rest
  | string s, rest => .text s :: rest
  | array items, rest => .openArray :: itemTokens items (.closeArray :: rest)
  | object members, rest => .openObject :: memberTokens members (.closeObject :: rest)

/-- The tokens of the items of an array, divided by commas, followed by `rest`. -/
def itemTokens : List Json → List Token → List Token
  | [], rest => rest
  | [v], rest => v.tokensThen rest
  | v :: w :: vs, rest => v.tokensThen (.comma :: itemTokens (w :: vs) rest)

/-- The tokens of the members of an object, divided by commas, followed by `rest`. -/
def memberTokens : List (String × Json) → List Token → List Token
  | [], rest => rest
  | [(k, v)], rest => .text k :: .colon :: v.tokensThen rest
  | (k, v) :: m :: ms, rest =>
    .text k :: .colon :: v.tokensThen (.comma :: memberTokens (m :: ms) rest)

end

/-- The tokens of a value. -/
def tokens (v : Json) : List Token := v.tokensThen []

end Json

end LexicalScope
