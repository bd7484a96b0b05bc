import Stackwise.Lowering.Address

/-!
# Operations

Arithmetic, comparisons, conversions and accesses to aggregates and vectors.  Each pushes its
operands, computes, and stores the outcome in a result variable; instructions and constant
expressions share them.
-/

namespace Stackwise.Lowering

open Code (Comparison Instr)
open Source (BinaryOp CastOp FloatPredicate IntPredicate Opcode)

/-- The stack operation for source arithmetic. -/
def binaryOp : BinaryOp → Code.BinaryOp
  | .add | .fadd => .add
  | .sub | .fsub => .sub
  | .mul | .fmul => .mul
  | .sdiv | .fdiv => .div
  | .udiv => .divUn
  | .srem | .frem => .rem
  | .urem => .remUn
  | .shl => .shl
  | .lshr => .shrUn
  | .ashr => .shr
  | .and => .and
  | .or => .or
  | .xor => .xor

/-- A comparison of the stack machine and whether its outcome is inverted afterwards. -/
structure Test where
  comparison : Comparison
  inverted : Bool
deriving DecidableEq, Repr

/-- The test for a comparison of integers. -/
def intTest : IntPredicate → Test
  | .eq => ⟨.eq, false⟩
  | .ne => ⟨.eq, true⟩
  | .ugt => ⟨.gtUn, false⟩
  | .uge => ⟨.ltUn, true⟩
  | .ult => ⟨.ltUn, false⟩
  | .ule => ⟨.gtUn, true⟩
  | .sgt => ⟨.gt, false⟩
  | .sge => ⟨.lt, true⟩
  | .slt => ⟨.lt, false⟩
  | .sle => ⟨.gt, true⟩

/-- How a comparison of floats is decided. -/
inductive FloatTest where
  | test (test : Test)
  /-- The outcome does not depend on the operands. -/
  | fixed (outcome : Bool)
  | none
deriving DecidableEq, Repr

/-- The decision for a comparison of floats. -/
def floatTest : FloatPredicate → FloatTest
  | .oeq | .ueq => .test ⟨.eq, false⟩
  | .ogt => .test ⟨.gt, false⟩
  | .oge => .test ⟨.ltUn, true⟩
  | .olt => .test ⟨.lt, false⟩
  | .ole => .test ⟨.gtUn, true⟩
  | .one | .une => .test ⟨.eq, true⟩
  | .ugt => .test ⟨.gtUn, false⟩
  | .uge => .test ⟨.lt, true⟩
  | .ult => .test ⟨.ltUn, false⟩
  | .ule => .test ⟨.gt, true⟩
  | .never => .fixed false
  | .always => .fixed true
  | .ord | .uno => .none

/-- Compares the two topmost values; an inverted outcome is compared with zero. -/
def runTest (test : Test) : Emit Unit := do
  Emit.instr (.compare test.comparison)
  if test.inverted then
    Emit.constant (.i4 0) .int32
    Emit.instr (.compare .eq)

/-- How a conversion is done. -/
inductive Conversion where
  | reinterpret
  | convert (unsigned : Bool)
  /-- To an address, through the native integer. -/
  | address
deriving DecidableEq, Repr

/-- The conversion for a source conversion. -/
def conversion : CastOp → Conversion
  | .bitcast | .addrspacecast => .reinterpret
  | .trunc | .sext | .fptosi | .sitofp | .fptrunc | .fpext | .ptrtoint => .convert false
  | .zext | .fptoui | .uitofp => .convert true
  | .inttoptr => .address

/-- Pushes a value converted to a source type. -/
def pushCast (push : Nat → Emit Unit) (op : CastOp) (value ty origin : Nat) : Emit Unit := do
  let source ← Emit.lowerType (← Emit.typeOf value) origin op.name
  let target ← Emit.lowerType ty origin op.name
  push value
  match conversion op with
  | .reinterpret =>
    if source.compatible target then return else Emit.helper (.bitCast source target)
  | .convert unsigned => Emit.instr (.convert target unsigned)
  | .address => Emit.instr (.convert .nativeInt true)

/-- The element type of a stack type that stands for a vector. -/
def vectorElement (vector : Code.Ty) (origin : Nat) (site : String) : Emit Code.Ty :=
  match vector with
  | .inlineArray element _ => return element
  | _ => Emit.unsupported site .nonVectorOperand origin

/-- Pushes the index of a vector element as a 32-bit integer. -/
def pushElementIndex (push : Nat → Emit Unit) (index origin : Nat) (site : String) :
    Emit Unit := do
  let bits ← Emit.supported ((← Emit.module).types.intBits? (← Emit.typeOf index))
    site .nonIntegerIndex origin
  push index
  if 32 < bits then Emit.instr (.convert .int32 false)

/-- Copies an aggregate into a new variable, walks to a member and reads it into the result. -/
def extractMember (push : Nat → Emit Unit) (aggregate : Nat) (indices : List Nat)
    (result origin : Nat) : Emit Unit := do
  let ty ← Emit.typeOf aggregate
  let copy ← Emit.freshSlot (← Emit.lowerType ty origin "extractvalue") none
  push aggregate
  Emit.code [.store copy, .addressOf copy]
  let member ← memberAddressAlong push origin ty indices
  let memberTy ← Emit.lowerType member origin "extractvalue"
  Emit.code [.loadIndirect memberTy, .store result]

/-- Copies an aggregate into the result and overwrites one member in place. -/
def insertMember (push : Nat → Emit Unit) (aggregate value : Nat) (indices : List Nat)
    (result origin : Nat) : Emit Unit := do
  let ty ← Emit.typeOf aggregate
  push aggregate
  Emit.code [.store result, .addressOf result]
  let member ← memberAddressAlong push origin ty indices
  push value
  let memberTy ← Emit.lowerType member origin "insertvalue"
  Emit.instr (.storeIndirect memberTy)

/-- Performs an operation on source values and stores its outcome, of source type `ty`, in the
variable `result`.  A missing operand is noticed when it is needed and reported where the operation
began. -/
def operation (push : Nat → Emit Unit) (opcode : Opcode) (operands : List Nat)
    (ty result origin : Nat) : Emit Unit := do
  let site := opcode.name
  let start ← Emit.spot
  let m ← Emit.module
  let operand (i : Nat) : Emit Nat :=
    match operands[i]? with
    | some value => return value
    | none => Emit.breachAt start (.missingOperand i (m.valueText origin))
  let pushOperand (i : Nat) : Emit Unit := do push (← operand i)
  match opcode with
  | .binary op =>
    pushOperand 0
    pushOperand 1
    Emit.code [.binary (binaryOp op), .store result]
  | .fneg =>
    pushOperand 0
    Emit.code [.negate, .store result]
  | .icmp predicate =>
    pushOperand 0
    pushOperand 1
    runTest (intTest predicate)
    Emit.instr (.store result)
  | .fcmp predicate =>
    pushOperand 0
    pushOperand 1
    match floatTest predicate with
    | .test test => runTest test
    | .fixed outcome =>
      Emit.code [.pop, .pop]
      Emit.constant (.i4 (if outcome then 1 else 0)) .bool
    | .none => Emit.unsupported site .predicate origin
    Emit.instr (.store result)
  | .cast op =>
    pushCast push op (← operand 0) ty origin
    Emit.instr (.store result)
  | .getElementPtr element =>
    elementAddress push operands element origin
    Emit.instr (.store result)
  | .select =>
    let cond ← operand 0
    if m.types.intBits? (← Emit.typeOf cond) = some 1 then
      let target ← Emit.lowerType ty origin site
      push cond
      pushOperand 1
      pushOperand 2
      Emit.helper (.select target)
      Emit.instr (.store result)
    else Emit.unsupported site .nonBooleanCondition origin
  | .freeze =>
    pushOperand 0
    Emit.instr (.store result)
  | .extractValue indices => extractMember push (← operand 0) indices result origin
  | .insertValue indices =>
    insertMember push (← operand 0) (← operand 1) indices result origin
  | .vaArg =>
    let target ← Emit.lowerType ty origin site
    pushOperand 0
    Emit.helper .vaArg
    -- a slot of a variadic pack holds the address of its argument
    Emit.code [.loadIndirect .pointer, .loadIndirect target, .store result]
  | .extractElement =>
    let value ← operand 0
    let vector ← Emit.lowerType (← Emit.typeOf value) origin site
    let element ← vectorElement vector origin site
    push value
    pushElementIndex push (← operand 1) origin site
    Emit.helper (.extractElement vector element)
    Emit.instr (.store result)
  | .insertElement =>
    let value ← operand 0
    let vector ← Emit.lowerType (← Emit.typeOf value) origin site
    let element ← vectorElement vector origin site
    push value
    pushOperand 1
    pushElementIndex push (← operand 2) origin site
    Emit.helper (.insertElement vector element)
    Emit.instr (.store result)
  | .shuffleVector =>
    let first ← operand 0
    let second ← operand 1
    let mask ← operand 2
    let vector ← Emit.lowerType (← Emit.typeOf first) origin site
    let _ ← vectorElement vector origin site
    let maskTy ← Emit.lowerType (← Emit.typeOf mask) origin site
    let resultTy ← Emit.lowerType ty origin site
    push first
    push second
    push mask
    Emit.helper (.shuffleVector vector maskTy resultTy)
    Emit.instr (.store result)
  | _ => Emit.unsupported site .operation origin

end Stackwise.Lowering
