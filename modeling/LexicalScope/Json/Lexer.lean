import LexicalScope.Json.Token

set_option autoImplicit false

/-! # Finding the tokens of a text

The lexer takes the text character by character: `Lexer.step` is one character, a fold over the
characters is the whole text, so texts of any length are read without recursion on the stack
and a text in two parts is read part by part. A number or a word is held back until a character
comes that cannot continue it.
-/

namespace LexicalScope

/-- What the lexer is in the middle of. Characters collected so far are held last first. -/
inductive Lexer.Mode where
  /-- Between tokens. -/
  | between
  /-- In a word of letters. -/
  | word (letters : List Char)
  /-- In a number. -/
  | number (chars : List Char)
  /-- Inside quotes. -/
  | quoted (chars : List Char)
  /-- After a backslash inside quotes. -/
  | escape (chars : List Char)
  /-- In the hexadecimal digits of an escape, `left` of them still to come. A first half of a
  surrogate pair that stands before it is `high`. -/
  | code (chars : List Char) (high : Option Nat) (left : Nat) (value : Nat)
  /-- After the first half of a surrogate pair; a backslash has to follow. -/
  | pair (chars : List Char) (high : Nat)
  /-- After that backslash; a `u` has to follow. -/
  | pairEscape (chars : List Char) (high : Nat)
deriving DecidableEq, Repr

/-- A lexer in the middle of a text: the tokens found so far and what it is in. -/
structure Lexer where
  tokens : Array Token := #[]
  mode : Lexer.Mode := .between
deriving DecidableEq, Repr

namespace Lexer

/-! ## Characters -/

/-- The blanks that may stand between tokens: space, tab, line feed and carriage return. -/
def isBlank (c : Char) : Bool := c == ' ' || c == '\t' || c == '\n' || c == '\r'

/-- The characters that a number is made of. -/
def isNumberChar (c : Char) : Bool :=
  c.isDigit || c == '-' || c == '+' || c == '.' || c == 'e' || c == 'E'

/-- The value of a hexadecimal digit in either case. -/
def hexValue? (c : Char) : Option Nat :=
  if c.isDigit then some (c.toNat - '0'.toNat)
  else if 'a' ≤ c ∧ c ≤ 'f' then some (c.toNat - 'a'.toNat + 10)
  else if 'A' ≤ c ∧ c ≤ 'F' then some (c.toNat - 'A'.toNat + 10)
  else none

/-- The character that a one-letter escape stands for. -/
def unescape? (c : Char) : Option Char :=
  if c = '"' ∨ c = '\\' ∨ c = '/' then some c
  else if c = 'b' then some '\x08'
  else if c = 'f' then some '\x0c'
  else if c = 'n' then some '\n'
  else if c = 'r' then some '\r'
  else if c = 't' then some '\t'
  else none

/-- Whether a code is a first half of a surrogate pair. -/
def isHigh (n : Nat) : Bool := 0xD800 ≤ n && n < 0xDC00

/-- Whether a code is a second half of a surrogate pair. -/
def isLow (n : Nat) : Bool := 0xDC00 ≤ n && n < 0xE000

/-! ## Tokens -/

/-- The token that a word is. -/
def wordToken? (letters : List Char) : Option Token :=
  if letters = ['n', 'u', 'l', 'l'] then some .null
  else if letters = ['t', 'r', 'u', 'e'] then some (.bool true)
  else if letters = ['f', 'a', 'l', 's', 'e'] then some (.bool false)
  else none

/-- The token that a mark is. -/
def markToken? (c : Char) : Option Token :=
  if c = '[' then some .openArray
  else if c = ']' then some .closeArray
  else if c = '\x7b' then some .openObject
  else if c = '\x7d' then some .closeObject
  else if c = ',' then some .comma
  else if c = ':' then some .colon
  else none

/-- Adds a token and stands after it. -/
def emit (l : Lexer) (t : Token) : Lexer := { tokens := l.tokens.push t, mode := .between }

/-- Ends a word or number that is held back. Inside quotes the text cannot end. -/
def flush? (l : Lexer) : Option Lexer :=
  match l.mode with
  | .between => some l
  | .word letters => (wordToken? letters.reverse).map l.emit
  | .number chars => (Number.ofChars? chars.reverse).map fun n => l.emit (.number n)
  | _ => none

/-! ## Steps -/

/-- A character between tokens. -/
def start? (l : Lexer) (c : Char) : Option Lexer :=
  if isBlank c then some l
  else if c = '"' then some { l with mode := .quoted [] }
  else if c = '-' || c.isDigit then some { l with mode := .number [c] }
  else if c.isAlpha then some { l with mode := .word [c] }
  else (markToken? c).map l.emit

/-- A code that is complete: a character of its own, or a half of a surrogate pair. The halves
stand in order, and neither stands alone. -/
def code? (chars : List Char) (high : Option Nat) (value : Nat) : Option Mode :=
  match high with
  | some h =>
    if isLow value then
      some (.quoted (Char.ofNat (0x10000 + (h - 0xD800) * 0x400 + (value - 0xDC00)) :: chars))
    else none
  | none =>
    if isHigh value then some (.pair chars value)
    else if isLow value then none
    else some (.quoted (Char.ofNat value :: chars))

/-- One character of the text. -/
def step (l : Lexer) (c : Char) : Option Lexer :=
  match l.mode with
  | .between => l.start? c
  | .word letters =>
    if c.isAlpha then some { l with mode := .word (c :: letters) }
    else l.flush?.bind fun l => l.start? c
  | .number chars =>
    if isNumberChar c then some { l with mode := .number (c :: chars) }
    else l.flush?.bind fun l => l.start? c
  | .quoted chars =>
    if c = '"' then some (l.emit (.text (String.ofList chars.reverse)))
    else if c = '\\' then some { l with mode := .escape chars }
    else if c.toNat < 0x20 then none
    else some { l with mode := .quoted (c :: chars) }
  | .escape chars =>
    if c = 'u' then some { l with mode := .code chars none 3 0 }
    else (unescape? c).map fun d => { l with mode := .quoted (d :: chars) }
  | .code chars high left value =>
    (hexValue? c).bind fun digit =>
      let value := 16 * value + digit
      match left with
      | 0 => (code? chars high value).map fun mode => { l with mode := mode }
      | left + 1 => some { l with mode := .code chars high left value }
  | .pair chars high =>
    if c = '\\' then some { l with mode := .pairEscape chars high } else none
  | .pairEscape chars high =>
    if c = 'u' then some { l with mode := .code chars (some high) 3 0 } else none

/-- The lexer after a run of characters. -/
def run (l : Lexer) (cs : List Char) : Option Lexer := cs.foldlM step l

/-- A text in two parts is read part by part. -/
theorem run_append (l : Lexer) (cs ds : List Char) :
    l.run (cs ++ ds) = (l.run cs).bind fun l => l.run ds :=
  List.foldlM_append

end Lexer

/-- The tokens of a text, or nothing when the text is not made of tokens and blanks. -/
def Token.ofChars? (cs : List Char) : Option (List Token) :=
  (({} : Lexer).run cs).bind fun l => l.flush?.map fun l => l.tokens.toList

end LexicalScope
