set_option autoImplicit false

/-! # Finite double-precision numbers

A finite double is `± m · 2 ^ q` with `m < 2 ^ 53` and `-1074 ≤ q ≤ 971`, held here as the pair
of integers, so everything below is exact arithmetic on `Nat`. Two directions are needed:

* `Double.ofDecimal?` rounds a decimal `n · 10 ^ e` to the nearest double, ties to even;
* `Double.shortest` gives the decimal of fewest digits that rounds back to the double, and of
  those the nearest to it.
-/

namespace LexicalScope

/-- A finite double: `significand · 2 ^ exponent`, negated when `negative` is set. -/
structure Double where
  negative : Bool
  significand : Nat
  exponent : Int
deriving DecidableEq, Repr

namespace Double

/-- The least exponent; subnormal numbers and zero have it. -/
def minExponent : Int := -1074

/-- The greatest exponent of a finite double. -/
def maxExponent : Int := 971

/-- The leading bit of a significand of full precision. -/
def leadingBit : Nat := 4503599627370496

/-- Zero, with its sign. -/
def zero (negative : Bool) : Double := ⟨negative, 0, minExponent⟩

/-! ## Rounding a decimal -/

/-- The integer nearest to `n / d`; a tie goes to the even one. -/
def roundDiv (n d : Nat) : Nat :=
  let q := n / d
  let r := n % d
  if 2 * r < d then q else if d < 2 * r then q + 1 else q + q % 2

/-- `b ^ e` as a fraction, for an exponent of either sign. -/
def powFraction (b : Nat) (e : Int) : Nat × Nat := (Nat.pow b e.toNat, Nat.pow b (-e).toNat)

/-- The greatest `k` with `2 ^ k ≤ n / d`, for positive `n` and `d`. -/
def floorLog2 (n d : Nat) : Int :=
  let k : Int := (n.log2 : Int) - d.log2
  let (up, down) := powFraction 2 k
  if d * up ≤ n * down then k else k - 1

/-- The double nearest to the positive fraction `n / d`, or nothing when it is too large. -/
def ofFraction? (negative : Bool) (n d : Nat) : Option Double :=
  let k := floorLog2 n d - 52
  let q := if k < minExponent then minExponent else k
  let (up, down) := powFraction 2 q
  let m := roundDiv (n * down) (d * up)
  -- Rounding up can reach the next power of two.
  let (m, q) := if m = 2 * leadingBit then (leadingBit, q + 1) else (m, q)
  if q ≤ maxExponent then some ⟨negative, m, q⟩ else none

/-- The double nearest to `n · 10 ^ e`. A value of 310 or more places before the point is too
large, and one that starts 330 or more places after it rounds to zero; the power of ten is
only written out between these bounds. -/
def ofDecimal? (negative : Bool) (n : Nat) (e : Int) : Option Double :=
  if n = 0 then some (zero negative)
  else
    let places := ((Nat.toDigits 10 n).length : Int) + e
    if 310 < places then none
    else if places < -330 then some (zero negative)
    else
      let (up, down) := powFraction 10 e
      ofFraction? negative (n * up) down

/-! ## The shortest decimal -/

/-- The reals that round to a double, in quarters of its last place: the open interval from
`lower` to `upper` around `4 * significand`, with its ends when `closed` is set. Below a power of
two the neighbouring doubles are twice as dense. -/
structure Neighbourhood where
  lower : Nat
  upper : Nat
  closed : Bool

/-- The reals that round to `d`. -/
def neighbourhood (d : Double) : Neighbourhood :=
  let m := d.significand
  let step := if m = leadingBit ∧ minExponent < d.exponent then 1 else 2
  ⟨4 * m - step, 4 * m + 2, m % 2 == 0⟩

/-- The multiple of `10 ^ p` nearest to `d` among the two around it that round to `d`, given by
its factor; a tie goes to the even one. -/
def onGrid? (d : Double) (p : Int) : Option Nat :=
  let (twos, halves) := powFraction 2 (d.exponent - 2)
  let (tens, tenths) := powFraction 10 p
  -- `x` quarters against `c` steps of the grid compare as `x * quarter` against `c * step`.
  let quarter := twos * tenths
  let step := halves * tens
  let around := d.neighbourhood
  let inside (c : Nat) : Bool :=
    let low := around.lower * quarter
    let high := around.upper * quarter
    let x := c * step
    if around.closed then low ≤ x && x ≤ high else low < x && x < high
  let value := 4 * d.significand * quarter
  let below := value / step
  let nearest := roundDiv value step
  if inside below && inside (below + 1) then some nearest
  else if inside below then some below
  else if inside (below + 1) then some (below + 1)
  else none

/-- The shortest decimal `n · 10 ^ p` that rounds to the absolute value of a positive double,
as `(n, p)`. The grids of powers of ten are tried from the coarsest that can hold a hit; one of
seventeen digits always holds one. -/
def shortest (d : Double) : Nat × Int :=
  let bits : Int := d.exponent + d.significand.log2 + 1
  let coarsest : Int := Int.fdiv (bits * 30103) 100000 + 1
  let hit := (List.range 21).findSome? fun k =>
    let p := coarsest - (k : Nat)
    (d.onGrid? p).map fun n => (n, p)
  hit.getD (0, 0)

end Double

end LexicalScope
