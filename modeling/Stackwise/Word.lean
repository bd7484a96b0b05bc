/-!
# Words

Numbers are unbounded throughout the library.  Where a width matters, what fits into a word of that
width is asked for here: how many values it has, and which integers are among them.
-/

namespace Stackwise.Word

/-- How many values a word of `bits` bits has. -/
def count (bits : Nat) : Nat := Nat.pow 2 bits

/-- Whether a number is the value of an unsigned word. -/
def isUnsigned (bits : Nat) (n : Int) : Bool := 0 ≤ n && n < count bits

/-- Whether a number is the value of a signed word in two's complement. -/
def isSigned (bits : Nat) (n : Int) : Bool :=
  -(count (bits - 1) : Int) ≤ n && n < count (bits - 1)

/-- The signed word that has the low bits of a number. -/
def signed (bits : Nat) (n : Int) : Int := n.bmod (count bits)

end Stackwise.Word
