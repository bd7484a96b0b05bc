import Stackwise.Lowering.Emit

/-!
# Address arithmetic

Steps that change the address on top of the stack: to another element of an array, to a member of
an aggregate, or along a whole list of indices.  Steps that need the value of a runtime index are
given `push`, which pushes a source value.
-/

namespace Stackwise.Lowering

open Code (Instr)

/-- An element index, known if the source operand is a constant. -/
inductive Index where
  | known (n : Int)
  | runtime (value : Nat)
deriving DecidableEq, Repr

/-- The index that a source value gives. -/
def Index.ofValue (m : Source.Module) (value : Nat) : Index :=
  match (m.value? value).bind Source.Value.int? with
  | some n => .known n
  | none => .runtime value

/-- Advances the address on top of the stack by a number of elements.  An element whose size is not
known is measured at run time; the zeroth element needs no code at all. -/
def advance (push : Nat → Emit Unit) (index : Index) (element origin : Nat) : Emit Unit := do
  let toNative := Instr.convert .nativeInt false
  match ← Emit.sizeOf element, index with
  | _, .known 0 => return
  | some size, .known n =>
    let offset := n * size
    if Word.isSigned 64 offset then
      Emit.constant (.i8 offset) .int64
      Emit.code [toNative, .binary .add]
    else Emit.unsupported "getelementptr" .offset origin
  | some 1, .runtime value =>
    push value
    Emit.code [toNative, .binary .add]
  | some size, .runtime value =>
    if Word.isSigned 64 size then
      push value
      Emit.instr toNative
      Emit.constant (.i8 size) .nativeInt
      Emit.code [.binary .mul, .binary .add]
    else Emit.unsupported "getelementptr" .elementSize origin
  | none, .known 1 =>
    let ty ← Emit.lowerType element origin "getelementptr"
    Emit.code [.sizeOf ty, .binary .add]
  | none, .known n =>
    let ty ← Emit.lowerType element origin "getelementptr"
    if Word.isSigned 64 n then
      Emit.constant (.i8 n) .int64
      Emit.code [toNative, .sizeOf ty, .binary .mul, .binary .add]
    else Emit.unsupported "getelementptr" .index origin
  | none, .runtime value =>
    let ty ← Emit.lowerType element origin "getelementptr"
    push value
    Emit.code [toNative, .sizeOf ty, .binary .mul, .binary .add]

/-- Replaces the address of an aggregate by the address of a member; gives the member's source
type. -/
def memberAddress (push : Nat → Emit Unit) (aggregate index origin : Nat) : Emit Nat := do
  let c ← Emit.context
  match c.module.types.get? aggregate with
  | some (.struct _ _) =>
    let member ← Emit.supported (c.conventions.fieldType c.module aggregate index)
      "getelementptr" .fieldIndex origin
    let owner ← Emit.lowerType aggregate origin "getelementptr"
    let ty ← Emit.lowerType member origin "getelementptr"
    Emit.instr (.fieldAddress { owner, index, ty })
    return member
  | some (.array element _) | some (.vector element _) =>
    advance push (.known index) element origin
    return element
  | _ => Emit.unsupported "getelementptr" .aggregateType origin

/-- Replaces the address of an aggregate by the address of the member at a path; gives the member's
source type. -/
def memberAddressAlong (push : Nat → Emit Unit) (origin : Nat) :
    (aggregate : Nat) → List Nat → Emit Nat
  | aggregate, [] => return aggregate
  | aggregate, index :: rest => do
    let member ← memberAddress push aggregate index origin
    memberAddressAlong push origin member rest

/-- Follows indices from the address of a value of type `ty`: elements of arrays and vectors by any
index, fields of structures by a constant. -/
def followIndices (push : Nat → Emit Unit) (origin : Nat) : (ty : Nat) → List Nat → Emit Unit
  | _, [] => return
  | ty, index :: rest => do
    let m ← Emit.module
    match m.types.get? ty, Index.ofValue m index with
    | some (.array element _), index | some (.vector element _), index =>
      advance push index element origin
      followIndices push origin element rest
    | some (.struct _ _), .known n =>
      if Word.isUnsigned 32 n then
        let member ← memberAddress push ty n.toNat origin
        followIndices push origin member rest
      else Emit.unsupported "getelementptr" .fieldIndex origin
    | _, _ => Emit.unsupported "getelementptr" .index origin

/-- Pushes the address that a list of indices leads to: the first one counts whole elements from the
base address, each further one steps into the element. -/
def elementAddress (push : Nat → Emit Unit) (operands : List Nat) (element origin : Nat) :
    Emit Unit := do
  match operands with
  | [] => Emit.breach .malformed origin
  | [base] => push base
  | base :: first :: rest =>
    push base
    advance push (Index.ofValue (← Emit.module) first) element origin
    followIndices push origin element rest

end Stackwise.Lowering
