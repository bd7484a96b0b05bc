import Stackwise.Decimal.Shortest

/-!
# Float text

The written form of a float: the fewest digits that read back, in positional notation with at
least one decimal place between `10 ^ -4` and `10 ^ 16`, and with an exponent mark outside.
-/

namespace Stackwise.Decimal

/-- Where positional notation is used and how the special values are spelled. -/
structure Notation where
  leastPositional : Int
  leastScientific : Int
  exponentMark : String
  nan : String
  infinity : String

/-- Positional from `0.0001` up to below `1e16`; `NaN` and `inf` in words. -/
def Notation.standard : Notation := ⟨-4, 16, "e", "NaN", "inf"⟩

namespace Notation

/-- Positional notation with at least one decimal place. -/
def positional (number : DecimalDigits) : String :=
  let ds := number.digits
  let whole := (number.exponent + 1).toNat
  if number.exponent < 0 then
    "0." ++ String.ofList (List.replicate (-number.exponent - 1).toNat '0' ++ ds)
  else if ds.length ≤ whole then
    String.ofList (ds ++ List.replicate (whole - ds.length) '0') ++ ".0"
  else
    String.ofList (ds.take whole) ++ "." ++ String.ofList (ds.drop whole)

/-- Scientific notation: one digit, the others after a point, then the exponent. -/
def scientific (style : Notation) (number : DecimalDigits) : String :=
  let fraction := number.digits.drop 1
  String.ofList (number.digits.take 1)
    ++ (if fraction.isEmpty then "" else "." ++ String.ofList fraction)
    ++ style.exponentMark ++ toString number.exponent

/-- The text of a bit pattern read in `format`, tried with at most `most` digits. -/
def render (style : Notation) (format : FloatFormat) (most bits : Nat) : String :=
  match format.read bits with
  | .nan => style.nan
  | .infinite negative => (if negative then "-" else "") ++ style.infinity
  | .finite negative mantissa exponent narrowBelow =>
    let magnitude :=
      if mantissa == 0 then "0.0"
      else
        let number := shortestDigits most mantissa exponent narrowBelow
        if style.leastPositional ≤ number.exponent && number.exponent < style.leastScientific then
          positional number
        else style.scientific number
    (if negative then "-" else "") ++ magnitude

end Notation

/-- The text of a double-precision pattern. -/
def doubleText (bits : UInt64) : String :=
  Notation.standard.render .double 17 bits.toNat

/-- The text of a single-precision pattern. -/
def singleText (bits : UInt32) : String :=
  Notation.standard.render .single 9 bits.toNat

end Stackwise.Decimal
