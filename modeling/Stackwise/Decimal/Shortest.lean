import Stackwise.Decimal.FloatFormat

/-!
# The fewest digits that read back

A finite float stands for every real number that rounds to it: an interval around
`mantissa * 2 ^ exponent`, whose two ends belong to it exactly when the mantissa is even.  The
shortest text of the float is the decimal with the fewest digits in that interval.

`shortestDigits` walks the decimal grids from coarse to fine.  If a grid has any point in the
interval, then one of the two neighbours of the number itself on that grid is in it, so only these
two are tried; of two hits the nearer wins, and an exact tie goes to the larger.
-/

namespace Stackwise.Decimal

/-- A positive decimal number: digits `d₀ d₁ d₂ …`, the first and the last not zero, standing for
`d₀.d₁d₂… * 10 ^ exponent`. -/
structure DecimalDigits where
  digits : List Char
  exponent : Int
deriving DecidableEq, Repr

/-- How many decimal digits a number has. -/
def digitCount (n : Nat) : Nat :=
  (Nat.toDigits 10 n).length

/-- The exponent of the leading decimal digit of the positive quotient `num / den`. -/
def leadingExponent (num den : Nat) : Int :=
  if den ≤ num then (digitCount (num / den) : Int) - 1
  else -(digitCount ((den + num - 1) / num - 1) : Int)

/-- The decimal `count * 10 ^ scale` without trailing zeros. -/
def DecimalDigits.ofCount (count : Nat) (scale : Int) : DecimalDigits :=
  let written := Nat.toDigits 10 count
  { digits := (written.reverse.dropWhile (· == '0')).reverse
    exponent := scale + written.length - 1 }

/-- The grid point next to the number that lies in its interval, on the grid of multiples of
`10 ^ scale`.  All four numbers `low ≤ value ≤ high` and the grid are given over the common
denominator `step`: a grid point `n` is the number `n * step`. -/
def nearestOnGrid (low value high step : Nat) (closed : Bool) : Option Nat :=
  let inside (n : Nat) : Bool :=
    if closed then low ≤ n * step && n * step ≤ high else low < n * step && n * step < high
  let below := value / step
  let above := below + 1
  match inside below, inside above with
  | true, true => if value - below * step < above * step - value then some below else some above
  | true, false => some below
  | false, true => some above
  | false, false => none

/-- The fewest digits that read back as `mantissa * 2 ^ exponent`, trying at most `most` digits,
which is enough when the format has no more significant digits than that. -/
def shortestDigits (most mantissa : Nat) (exponent : Int) (narrowBelow : Bool) : DecimalDigits :=
  -- in quarters of the last place, so that the ends of the interval are whole numbers
  let up := Nat.pow 2 (exponent - 2).toNat
  let down := Nat.pow 2 (2 - exponent).toNat
  let value := 4 * mantissa
  let low := value - (if narrowBelow then 1 else 2)
  let high := value + 2
  let lead := leadingExponent (value * up) down
  let attempt (count : Nat) : Option DecimalDigits :=
    let scale := lead - count
    let widen := up * Nat.pow 10 (-scale).toNat
    let step := down * Nat.pow 10 scale.toNat
    (nearestOnGrid (low * widen) (value * widen) (high * widen) step (mantissa % 2 == 0)).map
      (DecimalDigits.ofCount · scale)
  ((List.range most).findSome? attempt).getD ⟨['0'], 0⟩

end Stackwise.Decimal
