import Stackwise.Decimal.FloatFormat
import Stackwise.Lowering.Operation

/-!
# Pushing values

Any source value can be pushed: constants and arguments are loaded, globals and allocations give
their address, results of instructions are loaded from their variable.  A constant aggregate is
built member by member in a zeroed variable, a constant expression is computed into a new one; both
lead to constants with smaller numbers, so the walk ends.
-/

namespace Stackwise.Lowering

open Source (Value)

/-- Pushes an integer constant of a source type. -/
def pushInt (n : Int) (ty origin : Nat) : Emit Unit := do
  let bits ← Emit.supported ((← Emit.module).types.intBits? ty) "constant" .integerType origin
  if bits = 1 then
    Emit.constant (.i4 (if n = 0 then 0 else 1)) .bool
  else if 2 ≤ bits ∧ bits ≤ 32 then
    let target ← Emit.lowerType ty origin "constant"
    Emit.constant (.i4 (Word.signed 32 n)) target
  else if 33 ≤ bits ∧ bits ≤ 64 then
    let target ← Emit.lowerType ty origin "constant"
    Emit.constant (.i8 (Word.signed 64 n)) target
  else if bits = 128 then
    if Word.isSigned 64 n then
      Emit.constant (.i8 n) .int64
      Emit.instr (.convert .int128 false)
    else Emit.unsupported "constant" .constantWidth origin
  else Emit.unsupported "constant" .integerWidth origin

/-- Pushes a float constant of a source type. -/
def pushFloat (bits : UInt64) (ty origin : Nat) : Emit Unit := do
  match (← Emit.module).types.get? ty with
  | some .float => Emit.constant (.r4 (Decimal.narrow bits)) .float32
  | some .double => Emit.constant (.r8 bits) .float64
  | _ => Emit.unsupported "constant" .floatType origin

/-- The variable for a global. -/
def globalVariable (id : Nat) : Emit Nat := do
  let g ← Emit.required ((← Emit.module).global? id)
  let ty ← Emit.lowerType g.valueType g.value "global"
  Emit.shared (.global id) ty

/-- Writes the members of an aggregate, from position `index` on, into the variable `target`.
Members that are zero or unspecified are skipped. -/
def storeMembers (push : Nat → Emit Unit) (target ty origin : Nat) :
    (index : Nat) → List Nat → Emit Unit
  | _, [] => return
  | index, element :: rest => do
    if (← Emit.sourceValue element).isBlank then
      storeMembers push target ty origin (index + 1) rest
    else
      Emit.instr (.addressOf target)
      let member ← memberAddress push ty index origin
      push element
      let memberTy ← Emit.lowerType member element "constant"
      Emit.instr (.storeIndirect memberTy)
      storeMembers push target ty origin (index + 1) rest

/-- Pushes a constant aggregate. -/
def pushAggregate (push : Nat → Emit Unit) (ty : Nat) (elements : List Nat) (origin : Nat) :
    Emit Unit := do
  let target ← Emit.freshSlot (← Emit.lowerType ty origin "constant") (some origin)
  Emit.instr (.clear target)
  storeMembers push target ty origin 0 elements
  Emit.instr (.load target)

/-- Pushes the result of an instruction, or the address of what it allocates. -/
def pushResult (id : Nat) : Emit Unit := do
  match (← Emit.context).homes.allocations.find? id with
  | some storage => Emit.instr (.addressOf storage)
  | none => Emit.instr (.load (← Emit.resultOf id))

/-- Pushes an argument of the function whose body it is. -/
def pushArgument (v : Value) (function index id : Nat) : Emit Unit := do
  if (← Emit.context).function = some function then
    let ty ← Emit.lowerType v.ty id "argument"
    Emit.instr (.load (← Emit.shared (.parameter index) ty))
  else Emit.breach .foreignArgument id

/-- Pushes a value whose constants are nested less than `depth` deep. -/
def pushWithin : (depth id : Nat) → Emit Unit
  | 0, _ => Emit.fail .cyclic
  | depth + 1, id => do
    let v ← Emit.sourceValue id
    match v.kind with
    | .int n => pushInt n v.ty id
    | .float bits => pushFloat bits v.ty id
    | .null => Emit.constant .null .pointer
    | .zero | .unspecified | .poison =>
      let ty ← Emit.lowerType v.ty id "constant"
      Emit.constant (if ty.isPointer then .null else .allZero) ty
    | .aggregate elements => pushAggregate (pushWithin depth) v.ty elements id
    | .expr opcode operands =>
      let result ← Emit.freshSlot (← Emit.lowerType v.ty id opcode.name) (some id)
      operation (pushWithin depth) opcode operands v.ty result id
      Emit.instr (.load result)
    | .global g => Emit.instr (.addressOf (← globalVariable g))
    | .function f => Emit.instr (.load (← Emit.shared (.functionPointer f) .pointer))
    | .argument function index => pushArgument v function index id
    | .instruction _ => pushResult id
    | .metadata => Emit.constant .allZero .object

/-- Pushes a value. -/
def push (id : Nat) : Emit Unit := pushWithin (id + 1) id

end Stackwise.Lowering
