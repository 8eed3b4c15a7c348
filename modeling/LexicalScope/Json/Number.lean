import LexicalScope.Json.Double

set_option autoImplicit false

/-! # Numbers of a JSON text

A number written without point and exponent is an integer as long as it fits 64 bits, signed or
unsigned; every other number is a double. `Number.ofChars?` reads the spelling of a number and
`Number.spelling` writes one that reads back as the same number.
-/

namespace LexicalScope

/-- A number of a JSON text. -/
inductive Number where
  | int (value : Int)
  | double (value : Double)
deriving DecidableEq, Repr

namespace Number

/-- The integers that are kept exactly: those of a signed or an unsigned 64-bit word. -/
def Fits (n : Int) : Prop := -9223372036854775808 ≤ n ∧ n < 18446744073709551616

instance (n : Int) : Decidable (Fits n) := inferInstanceAs (Decidable (_ ∧ _))

/-- The number as an unsigned 64-bit integer. A double is none, whatever its value. -/
def toUInt64? : Number → Option UInt64
  | int n => if 0 ≤ n ∧ n < 18446744073709551616 then some n.toNat.toUInt64 else none
  | double _ => none

/-! ## Reading -/

/-- The value of a run of decimal digits. -/
def ofDigits (digits : List Char) : Nat :=
  digits.foldl (fun n c => 10 * n + (c.toNat - '0'.toNat)) 0

/-- An integer spelling. The spelling `-0` is the negative zero, which only a double has. -/
def ofInteger? (negative : Bool) (n : Nat) : Option Number :=
  let value : Int := if negative then -n else n
  if negative ∧ n = 0 ∨ ¬ Fits value then (Double.ofDecimal? negative n 0).map double
  else some (int value)

/-- Splits off the digits after the point; a point needs at least one. -/
def takeFraction? : List Char → Option (List Char × List Char)
  | '.' :: cs =>
    let digits := cs.takeWhile Char.isDigit
    if digits.isEmpty then none else some (digits, cs.dropWhile Char.isDigit)
  | cs => some ([], cs)

/-- The digits of an exponent, which are all that is left and at least one. -/
def exponentDigits? (cs : List Char) : Option Nat :=
  if !cs.isEmpty && cs.all Char.isDigit then some (ofDigits cs) else none

/-- The exponent that ends a number; none is written as nothing. -/
def exponent? : List Char → Option Int
  | [] => some 0
  | mark :: cs =>
    if mark = 'e' ∨ mark = 'E' then
      match cs with
      | '-' :: digits => (exponentDigits? digits).map fun n => -(n : Int)
      | '+' :: digits => (exponentDigits? digits).map fun n => (n : Int)
      | digits => (exponentDigits? digits).map fun n => (n : Int)
    else none

/-- Reads the absolute value of a number. Its whole part has a digit, and no leading zero but
the one of `0` itself. -/
def ofUnsigned? (negative : Bool) (cs : List Char) : Option Number :=
  let whole := cs.takeWhile Char.isDigit
  let rest := cs.dropWhile Char.isDigit
  if whole.isEmpty || (whole.head? == some '0' && whole.length != 1) then none
  else if rest.isEmpty then ofInteger? negative (ofDigits whole)
  else do
    let (fraction, rest) ← takeFraction? rest
    let exponent ← exponent? rest
    let value ← Double.ofDecimal? negative (ofDigits (whole ++ fraction))
      (exponent - fraction.length)
    return double value

/-- Reads the spelling of a number, all of it. -/
def ofChars? : List Char → Option Number
  | '-' :: cs => ofUnsigned? true cs
  | cs => ofUnsigned? false cs

/-! ## Writing -/

/-- How doubles are written. -/
structure DoubleLayout where
  /-- Least decimal exponent written without an exponent part. -/
  plainFrom : Int
  /-- Greatest decimal exponent written without an exponent part. -/
  plainTo : Int
  /-- Opens a positive exponent part. -/
  positiveMark : String
  /-- Opens a negative exponent part. -/
  negativeMark : String

/-- Doubles from `0.00001` up to sixteen places before the point are written plainly, with a
digit after the point; beyond, the exponent always carries its sign. -/
def doubleLayout : DoubleLayout := ⟨-5, 15, "e+", "e-"⟩

/-- A run of zeros. -/
def zeros (n : Nat) : String := String.ofList (List.replicate n '0')

/-- The decimal `digits · 10 ^ exponent`, where `exponent` is that of the first digit. -/
def DoubleLayout.decimal (layout : DoubleLayout) (digits : List Char) (exponent : Int) : String :=
  if layout.plainFrom ≤ exponent ∧ exponent ≤ layout.plainTo then
    if exponent < 0 then
      "0." ++ zeros (-exponent - 1).toNat ++ String.ofList digits
    else
      let places := exponent.toNat + 1
      let fraction := digits.drop places
      String.ofList (digits.take places) ++ zeros (places - digits.length) ++ "." ++
        (if fraction.isEmpty then "0" else String.ofList fraction)
  else
    let mantissa := match digits with
      | [d] => String.ofList [d]
      | d :: ds => String.ofList (d :: '.' :: ds)
      | [] => "0"
    mantissa ++ (if exponent < 0 then layout.negativeMark else layout.positiveMark) ++
      toString exponent.natAbs

/-- The spelling of a double: sign, then the shortest digits that read back. -/
def doubleSpelling (d : Double) : String :=
  let sign := if d.negative then "-" else ""
  if d.significand = 0 then sign ++ "0.0"
  else
    let (n, p) := d.shortest
    let digits := Nat.toDigits 10 n
    sign ++ doubleLayout.decimal digits (p + digits.length - 1)

/-- The spelling of a number. -/
def spelling : Number → String
  | int (.ofNat n) => String.ofList (Nat.toDigits 10 n)
  | int (.negSucc n) => String.ofList ('-' :: Nat.toDigits 10 (n + 1))
  | double d => doubleSpelling d

end Number

end LexicalScope
