set_option autoImplicit false

/-! # Layouts of log lines

The setting that chooses how log lines are written. Blanks around it and the case of its letters
do not matter, and anything unknown means plain text.
-/

namespace LexicalScope

/-- How log lines are written. -/
inductive LogLayout where
  | text
  | tree
  | json
deriving DecidableEq, Repr

namespace LogLayout

/-- The characters with the Unicode property `White_Space`. -/
def isSpace (c : Char) : Bool :=
  let n := c.toNat
  (0x9 ≤ n && n ≤ 0xD) || n == 0x20 || n == 0x85 || n == 0xA0 || n == 0x1680 ||
    (0x2000 ≤ n && n ≤ 0x200A) || n == 0x2028 || n == 0x2029 || n == 0x202F || n == 0x205F ||
    n == 0x3000

/-- A setting without the blanks around it, in small letters. Only ASCII letters are changed: no
other character has a letter of a layout's name as its small form. -/
def normalize (setting : String) : List Char :=
  let trimmed := ((setting.toList.dropWhile isSpace).reverse.dropWhile isSpace).reverse
  trimmed.map Char.toLower

/-- The layout that a setting names. -/
def ofSetting (setting : String) : LogLayout :=
  let name := normalize setting
  if name = ['t', 'r', 'e', 'e'] then tree
  else if name = ['j', 's', 'o', 'n'] then json
  else text

end LogLayout

end LexicalScope
