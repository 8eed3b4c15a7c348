set_option autoImplicit false

/-! # Painted text

Terminal colours for listings. A painted text is its opening code, the text, and the reset code.
A reset inside the text would end the paint early, so the opening code follows it again.
-/

namespace LexicalScope

/-- How a part of a line is painted. -/
inductive Paint where
  /-- Kinds of nodes, in cyan. -/
  | kind
  /-- Names of functions, in bold. -/
  | name
deriving DecidableEq, Repr

namespace Paint

/-- The escape character that starts a code. -/
def esc : Char := '\x1b'

/-- The code that ends all paint. -/
def reset : List Char := [esc, '[', '0', 'm']

/-- The code that starts a paint. -/
def opening : Paint → List Char
  | kind => [esc, '[', '3', '6', 'm']
  | name => [esc, '[', '1', 'm']

/-- Repeats the opening code after every reset in a text. -/
def reopen (code : List Char) : List Char → List Char
  | '\x1b' :: '[' :: '0' :: 'm' :: cs => reset ++ code ++ reopen code cs
  | c :: cs => c :: reopen code cs
  | [] => []

/-- The painted text, or the text itself when colour is off. -/
def apply (p : Paint) (color : Bool) (text : String) : String :=
  if color then String.ofList (p.opening ++ reopen p.opening text.toList ++ reset) else text

end Paint

end LexicalScope
