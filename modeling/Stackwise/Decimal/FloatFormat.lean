import Stackwise.Word

/-!
# Binary floating-point formats

A float is handled here as its bit pattern together with the format that reads it, never as a
machine number: constants travel through the whole library as bits, and only text output and
narrowing ask what number they stand for.

* `FloatFormat` fixes how many fraction and exponent bits a pattern has;
* `FloatFormat.read` splits a pattern into not-a-number, an infinity, or `mantissa * 2 ^ exponent`;
* `narrow` takes a double-precision pattern to the nearest single-precision one.
-/

namespace Stackwise.Decimal

/-- A binary interchange format: one sign bit, then `exponentBits` bits of biased exponent, then
`fractionBits` bits of fraction. -/
structure FloatFormat where
  fractionBits : Nat
  exponentBits : Nat
deriving DecidableEq, Repr

/-- Double precision: 64 bits. -/
def FloatFormat.double : FloatFormat := ⟨52, 11⟩

/-- Single precision: 32 bits. -/
def FloatFormat.single : FloatFormat := ⟨23, 8⟩

/-- What a bit pattern stands for.  A finite number is `mantissa * 2 ^ exponent`, and `narrowBelow`
says that the next number towards zero is only half as far away as the next one outwards, which
happens where the exponent field changes. -/
inductive FloatValue where
  | nan
  | infinite (negative : Bool)
  | finite (negative : Bool) (mantissa : Nat) (exponent : Int) (narrowBelow : Bool)
deriving DecidableEq, Repr

namespace FloatFormat

/-- The exponent of the least significant bit of the smallest numbers of the format. -/
def leastExponent (format : FloatFormat) : Int :=
  2 - Word.count (format.exponentBits - 1) - format.fractionBits

/-- Reads a bit pattern in the given format. -/
def read (format : FloatFormat) (bits : Nat) : FloatValue :=
  let fraction := bits % Word.count format.fractionBits
  let field := bits / Word.count format.fractionBits % Word.count format.exponentBits
  let negative := bits / Word.count (format.fractionBits + format.exponentBits) % 2 == 1
  if field == Word.count format.exponentBits - 1 then
    if fraction == 0 then .infinite negative else .nan
  else if field == 0 then
    .finite negative fraction format.leastExponent false
  else
    .finite negative (Word.count format.fractionBits + fraction)
      (format.leastExponent + field - 1) (fraction == 0 && field != 1)

end FloatFormat

/-- The quotient `num / den` rounded to the nearest integer, a half going to the even neighbour. -/
def roundHalfEven (num den : Nat) : Nat :=
  let below := num / den
  let twice := 2 * (num % den)
  if twice < den then below
  else if twice > den then below + 1
  else if below % 2 == 0 then below
  else below + 1

/-- The single-precision pattern of the positive number `mantissa * 2 ^ exponent`, without a sign.
The unit in the last place is chosen from the number's magnitude, so the rounded count of units,
added to the exponent field, carries into that field by itself; what reaches the top of the range
is infinite. -/
def narrowMagnitude (mantissa : Nat) (exponent : Int) : Nat :=
  let unit : Int := max (Nat.log2 mantissa + exponent - 23) FloatFormat.single.leastExponent
  let shift := exponent - unit
  let units :=
    if 0 ≤ shift then mantissa * Nat.pow 2 shift.toNat
    else roundHalfEven mantissa (Nat.pow 2 (-shift).toNat)
  let pattern := (unit - FloatFormat.single.leastExponent).toNat * Word.count 23 + units
  min pattern 0x7f800000

/-- The single-precision pattern nearest to a double-precision one, a half going to the even
neighbour.  Not-a-number keeps its sign and the leading bits of its payload and becomes quiet. -/
def narrow (bits : UInt64) : UInt32 :=
  let sign := bits.toNat / Word.count 63 * Word.count 31
  match FloatFormat.double.read bits.toNat with
  | .nan =>
    let payload := bits.toNat % Word.count 52 / Word.count 29
    UInt32.ofNat (sign + (0x7fc00000 ||| payload))
  | .infinite _ => UInt32.ofNat (sign + 0x7f800000)
  | .finite _ mantissa exponent _ =>
    if mantissa == 0 then UInt32.ofNat sign
    else UInt32.ofNat (sign + narrowMagnitude mantissa exponent)

end Stackwise.Decimal
