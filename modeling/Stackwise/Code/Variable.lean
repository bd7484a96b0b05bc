import Stackwise.Code.Ty
import Stackwise.Decimal.Notation

/-!
# Variables

Instructions address storage through numbered variables.  A variable says where it lives
(`Place`), what type it holds, how it may be accessed (`Access`), and which source value it was
made for.  `Storage` is the table of all variables of one body; a variable's number is its
position in the table.
-/

namespace Stackwise.Code

/-- A constant loaded through a variable.  Floats are kept as bit patterns. -/
inductive Constant where
  | i4 (value : Int)
  | i8 (value : Int)
  | r4 (bits : UInt32)
  | r8 (bits : UInt64)
  | null
  /-- The all-zero value of the variable's type. -/
  | allZero
deriving DecidableEq, Repr

/-- The text of a constant; wide integers and single-precision floats carry a suffix. -/
def Constant.render : Constant → String
  | i4 value => toString value
  | i8 value => toString value ++ "L"
  | r4 bits => Decimal.singleText bits ++ "f"
  | r8 bits => Decimal.doubleText bits
  | null => "null"
  | allZero => "default"

/-- Where a variable lives. -/
inductive Place where
  /-- A slot of the method itself. -/
  | slot
  /-- A field of the body's heap-allocated frame, which survives unwinding. -/
  | frameField (index : Nat)
  | parameter (index : Nat)
  /-- The static storage of a global of the module. -/
  | global (id : Nat)
  /-- Produces the address of a function. -/
  | functionPointer (id : Nat)
  | constant (value : Constant)
  /-- The exception in flight on the calling thread. -/
  | exceptionSlot
deriving DecidableEq, Repr

/-- How a variable may be used: pushed, popped into, pushed by address, and whether it is a
candidate for the peephole rules.  The four remaining bits of the stored byte have no meaning and
are kept as they are. -/
structure Access where
  load : Bool
  store : Bool
  address : Bool
  temporary : Bool
  reserved : Fin 16 := 0
deriving DecidableEq, Repr

namespace Access

/-- The byte in which the four capabilities are the low bits. -/
def toByte (a : Access) : Nat :=
  a.load.toNat + 2 * a.store.toNat + 4 * a.address.toNat + 8 * a.temporary.toNat
    + 16 * a.reserved.val

/-- Reads the byte back. -/
def ofByte (byte : UInt8) : Access where
  load := byte.toNat % 2 == 1
  store := byte.toNat / 2 % 2 == 1
  address := byte.toNat / 4 % 2 == 1
  temporary := byte.toNat / 8 % 2 == 1
  reserved := ⟨byte.toNat / 16, by have := byte.toNat_lt; omega⟩

/-- Everything but taking part in the peephole rules. -/
def pinned : Access := ⟨true, true, true, false, 0⟩

/-- Every capability. -/
def free : Access := ⟨true, true, true, true, 0⟩

/-- Only to be pushed. -/
def loadOnly : Access := ⟨true, false, false, false, 0⟩

/-- Pushed and popped into, but without an address. -/
def noAddress : Access := ⟨true, true, false, false, 0⟩

end Access

/-- What a variable may be used for unless it is said otherwise: only method slots take part in the
peephole rules, constants are only pushed, and the exception slot has no address. -/
def Place.access : Place → Access
  | slot => .free
  | frameField _ | parameter _ | global _ => .pinned
  | functionPointer _ | constant _ => .loadOnly
  | exceptionSlot => .noAddress

/-- A storage location. -/
structure Variable where
  place : Place
  ty : Ty
  access : Access
  /-- The source value it was made for. -/
  origin : Option Nat
deriving DecidableEq, Repr

/-- Whether the variable's contents survive unwinding. -/
def Variable.isDurable (v : Variable) : Bool :=
  match v.place with
  | .frameField _ => true
  | _ => false

/-- All variables of one body, and how many frame fields have been given out. -/
structure Storage where
  entries : Array Variable := #[]
  frameSlots : Nat := 0
deriving DecidableEq, Repr

namespace Storage

/-- A table without variables. -/
def empty : Storage := {}

/-- The number of variables. -/
def size (s : Storage) : Nat := s.entries.size

/-- The variable with the given number. -/
def get? (s : Storage) (id : Nat) : Option Variable := s.entries[id]?

/-- Appends a variable; its number is the old size. -/
def push (s : Storage) (v : Variable) : Nat × Storage :=
  (s.size, { s with entries := s.entries.push v })

/-- Appends a variable that may be used as its place allows. -/
def add (s : Storage) (place : Place) (ty : Ty) (origin : Option Nat) : Nat × Storage :=
  s.push ⟨place, ty, place.access, origin⟩

/-- Appends a method slot. -/
def addSlot (s : Storage) (ty : Ty) (origin : Option Nat) : Nat × Storage :=
  s.add .slot ty origin

/-- Appends a method slot whose address escapes, so that the peephole rules leave it alone. -/
def addPinned (s : Storage) (ty : Ty) (origin : Option Nat) : Nat × Storage :=
  s.push ⟨.slot, ty, .pinned, origin⟩

/-- Appends a frame field with the next free index. -/
def addFrameField (s : Storage) (ty : Ty) (origin : Option Nat) : Nat × Storage :=
  { s with frameSlots := s.frameSlots + 1 }.add (.frameField s.frameSlots) ty origin

/-- The first variable made for a source value. -/
def forOrigin? (s : Storage) (value : Nat) : Option Nat :=
  s.entries.findIdx? (·.origin == some value)

/-- Variables stay where they are when one is appended. -/
theorem get?_push {s : Storage} {v w : Variable} {id : Nat} (found : s.get? id = some w) :
    (s.push v).2.get? id = some w := by
  obtain ⟨inside, -⟩ := Array.getElem?_eq_some_iff.1 found
  rw [get?, Array.getElem?_eq_getElem inside] at found
  rw [get?, push, Array.getElem?_push_lt inside]
  exact found

/-- The new variable stands behind the others. -/
theorem get?_push_self (s : Storage) (v : Variable) : (s.push v).2.get? (s.push v).1 = some v :=
  Array.getElem?_push_size

end Storage

end Stackwise.Code
