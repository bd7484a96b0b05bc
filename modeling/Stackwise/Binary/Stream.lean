import Stackwise.Binary.Utf8
import Stackwise.Word

/-!
# Byte streams

The small vocabulary of the binary form: little-endian numbers of fixed width, one-byte flags and
option tags, variant numbers of four bytes, and texts and lists behind their eight-byte length.
Each kind of datum has a writer that appends bytes and a reader that takes them off the front of
the input, and the two are inverse to one another.
-/

namespace Stackwise.Binary

/-- Why a byte string is no written form. -/
inductive Fault where
  /-- The input ends inside a number, a tag or a flag. -/
  | unexpectedEnd
  /-- A text is longer than the input. -/
  | shortText
  /-- There is no such variant; there are `count`. -/
  | variant (number count : Nat)
  | optionTag (byte : Nat)
  | flag (byte : Nat)
  | text (fault : Utf8.Fault)
deriving DecidableEq, Repr

/-- The words for a fault. -/
def Fault.render : Fault → String
  | unexpectedEnd => "io error: unexpected end of file"
  | shortText => "io error: "
  | variant number count =>
    s!"invalid value: integer `{number}`, expected variant index 0 <= i < {count}"
  | optionTag byte => s!"tag for enum is not valid, found {byte}"
  | flag byte => s!"invalid u8 while decoding bool, expected 0 or 1, found {byte}"
  | text fault => "string is not valid utf8: " ++ fault.render

/-- The full message of a fault. -/
def Fault.message (fault : Fault) : String :=
  "failed to deserialize lowered module: " ++ fault.render

/-- Takes a datum off the front of the input. -/
abbrev Reader := StateT (List UInt8) (Except Fault)

/-! ## Numbers -/

/-- The low `width` bytes of a number, least significant first. -/
def writeNat : (width : Nat) → Nat → List UInt8
  | 0, _ => []
  | width + 1, n => UInt8.ofNat (n % 256) :: writeNat width (n / 256)

/-- Reads one byte. -/
def readByte : Reader UInt8
  | [] => .error .unexpectedEnd
  | b :: rest => .ok (b, rest)

/-- Reads a number of `width` bytes. -/
def readNat : (width : Nat) → Reader Nat
  | 0 => pure 0
  | width + 1 => do
    let low ← readByte
    let high ← readNat width
    return low.toNat + 256 * high

/-- A signed number in two's complement. -/
def writeInt (width : Nat) (n : Int) : List UInt8 :=
  writeNat width (n % Word.count (8 * width)).toNat

/-- Reads a signed number of `width` bytes. -/
def readInt (width : Nat) : Reader Int := do
  let n ← readNat width
  return Word.signed (8 * width) n

/-- A number of four bytes. -/
def write32 : Nat → List UInt8 := writeNat 4

/-- Reads a number of four bytes. -/
def read32 : Reader Nat := readNat 4

/-- A number of eight bytes. -/
def write64 : Nat → List UInt8 := writeNat 8

/-- Reads a number of eight bytes. -/
def read64 : Reader Nat := readNat 8

/-! ## Flags, options, variants -/

/-- A truth value as a byte. -/
def writeBool (b : Bool) : List UInt8 := [if b then 1 else 0]

/-- Reads a truth value. -/
def readBool : Reader Bool := do
  match (← readByte).toNat with
  | 0 => return false
  | 1 => return true
  | byte => throw (.flag byte)

/-- A tag byte, then the value if there is one. -/
def writeOption {α : Type} (write : α → List UInt8) : Option α → List UInt8
  | none => [0]
  | some a => 1 :: write a

/-- Reads an optional value. -/
def readOption {α : Type} (read : Reader α) : Reader (Option α) := do
  match (← readByte).toNat with
  | 0 => return none
  | 1 => return some (← read)
  | byte => throw (.optionTag byte)

/-- Refuses the number of a variant that does not exist. -/
def noVariant {α : Type} (number count : Nat) : Reader α :=
  throw (.variant number count)

/-! ## Texts and lists -/

/-- The number of bytes of a text, then its bytes. -/
def writeText (s : String) : List UInt8 :=
  write64 (Utf8.encode s).length ++ Utf8.encode s

/-- Reads a text. -/
def readText : Reader String := do
  let length ← read64
  let rest ← get
  if rest.length < length then throw .shortText
  set (rest.drop length)
  match Utf8.decode (rest.take length) with
  | .ok s => return s
  | .error fault => throw (.text fault)

/-- The number of elements of a list, then the elements. -/
def writeList {α : Type} (write : α → List UInt8) (l : List α) : List UInt8 :=
  write64 l.length ++ l.flatMap write

/-- Reads a given number of elements. -/
def readMany {α : Type} (read : Reader α) : Nat → Reader (List α)
  | 0 => pure []
  | n + 1 => do
    let first ← read
    let rest ← readMany read n
    return first :: rest

/-- Reads a list. -/
def readList {α : Type} (read : Reader α) : Reader (List α) := do
  readMany read (← read64)

end Stackwise.Binary
