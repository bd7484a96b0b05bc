import Stackwise.Binary.Stream
import Stackwise.Code.Assembly

/-!
# The binary form of stack code

Every datum of an assembly in the order of its fields, a variant by its number and its own fields
behind it.  `encode` and `decode` are the two directions for a whole assembly; bytes behind the
written form are left alone.
-/

namespace Stackwise.Binary

open Code

/-! ## Types and signatures -/

/-- The bytes of a type. -/
def writeTy : Ty → List UInt8
  | .void => write32 0
  | .bool => write32 1
  | .int8 => write32 2
  | .int16 => write32 3
  | .int32 => write32 4
  | .int64 => write32 5
  | .int128 => write32 6
  | .nativeInt => write32 7
  | .float32 => write32 8
  | .float64 => write32 9
  | .pointer => write32 10
  | .struct id => write32 11 ++ write32 id
  | .inlineArray element length => write32 12 ++ writeTy element ++ write64 length
  | .exceptionInfo => write32 13
  | .span => write32 14
  | .readOnlySpan => write32 15
  | .object => write32 16

/-- Reads a type: the four bytes of its number, then its fields.  The element of an inline array
lies behind those four bytes, so the recursion follows the input. -/
def readTy : (bytes : List UInt8) → Except Fault (Ty × List UInt8)
  | b0 :: b1 :: b2 :: b3 :: rest =>
    match b0.toNat + 256 * (b1.toNat + 256 * (b2.toNat + 256 * b3.toNat)) with
    | 0 => .ok (.void, rest)
    | 1 => .ok (.bool, rest)
    | 2 => .ok (.int8, rest)
    | 3 => .ok (.int16, rest)
    | 4 => .ok (.int32, rest)
    | 5 => .ok (.int64, rest)
    | 6 => .ok (.int128, rest)
    | 7 => .ok (.nativeInt, rest)
    | 8 => .ok (.float32, rest)
    | 9 => .ok (.float64, rest)
    | 10 => .ok (.pointer, rest)
    | 11 => (read32 rest).map fun (id, rest) => (.struct id, rest)
    | 12 =>
      match readTy rest with
      | .error fault => .error fault
      | .ok (element, rest) =>
        (read64 rest).map fun (length, rest) => (.inlineArray element length, rest)
    | 13 => .ok (.exceptionInfo, rest)
    | 14 => .ok (.span, rest)
    | 15 => .ok (.readOnlySpan, rest)
    | 16 => .ok (.object, rest)
    | number => .error (.variant number 17)
  | _ => .error .unexpectedEnd

/-- The bytes of a signature. -/
def writeSignature (s : Signature) : List UInt8 :=
  writeList writeTy s.params ++ writeTy s.result

/-- Reads a signature. -/
def readSignature : Reader Signature :=
  return ⟨← readList readTy, ← readTy⟩

/-! ## Variables -/

/-- The bytes of a constant. -/
def writeConstant : Constant → List UInt8
  | .i4 value => write32 0 ++ writeInt 4 value
  | .i8 value => write32 1 ++ writeInt 8 value
  | .r4 bits => write32 2 ++ write32 bits.toNat
  | .r8 bits => write32 3 ++ write64 bits.toNat
  | .null => write32 4
  | .allZero => write32 5

/-- Reads a constant. -/
def readConstant : Reader Constant := do
  match ← read32 with
  | 0 => return .i4 (← readInt 4)
  | 1 => return .i8 (← readInt 8)
  | 2 => return .r4 (UInt32.ofNat (← read32))
  | 3 => return .r8 (UInt64.ofNat (← read64))
  | 4 => return .null
  | 5 => return .allZero
  | number => noVariant number 6

/-- The bytes of a place. -/
def writePlace : Place → List UInt8
  | .slot => write32 0
  | .frameField index => write32 1 ++ write32 index
  | .parameter index => write32 2 ++ write32 index
  | .global id => write32 3 ++ write32 id
  | .functionPointer id => write32 4 ++ write32 id
  | .constant value => write32 5 ++ writeConstant value
  | .exceptionSlot => write32 6

/-- Reads a place. -/
def readPlace : Reader Place := do
  match ← read32 with
  | 0 => return .slot
  | 1 => return .frameField (← read32)
  | 2 => return .parameter (← read32)
  | 3 => return .global (← read32)
  | 4 => return .functionPointer (← read32)
  | 5 => return .constant (← readConstant)
  | 6 => return .exceptionSlot
  | number => noVariant number 7

/-- The bytes of a variable. -/
def writeVariable (v : Variable) : List UInt8 :=
  writePlace v.place ++ writeTy v.ty ++ writeNat 1 v.access.toByte ++ writeOption write32 v.origin

/-- Reads a variable. -/
def readVariable : Reader Variable := do
  let place ← readPlace
  let ty ← readTy
  let access := Access.ofByte (← readByte)
  let origin ← readOption read32
  return { place, ty, access, origin }

/-- The bytes of a table of variables. -/
def writeStorage (s : Storage) : List UInt8 :=
  writeList writeVariable s.entries.toList ++ write32 s.frameSlots

/-- Reads a table of variables. -/
def readStorage : Reader Storage := do
  let entries ← readList readVariable
  let frameSlots ← read32
  return { entries := entries.toArray, frameSlots }

/-! ## Instructions -/

/-- The operations in the order of their numbers. -/
def binaryOps : List BinaryOp :=
  [.add, .sub, .mul, .div, .divUn, .rem, .remUn, .and, .or, .xor, .shl, .shr, .shrUn]

/-- The comparisons in the order of their numbers. -/
def comparisons : List Comparison := [.eq, .gt, .gtUn, .lt, .ltUn]

/-- A member of a list by its position. -/
def writeChoice {α : Type} [DecidableEq α] (choices : List α) (a : α) : List UInt8 :=
  write32 (choices.idxOf a)

/-- Reads a member of a list by its position. -/
def readChoice {α : Type} (choices : List α) : Reader α := do
  let number ← read32
  match choices[number]? with
  | some a => return a
  | none => noVariant number choices.length

/-- The bytes of a support routine. -/
def writeHelper : Helper → List UInt8
  | .inlineArrayAsSpan length => write32 0 ++ write32 length
  | .spanGetItem => write32 1
  | .spanAsReadOnly => write32 2
  | .exceptionDispose => write32 3
  | .select ty => write32 4 ++ writeTy ty
  | .bitCast source target => write32 5 ++ writeTy source ++ writeTy target
  | .vaStart => write32 6
  | .vaArg => write32 7
  | .extractElement vector element => write32 8 ++ writeTy vector ++ writeTy element
  | .insertElement vector element => write32 9 ++ writeTy vector ++ writeTy element
  | .shuffleVector vector mask result =>
    write32 10 ++ writeTy vector ++ writeTy mask ++ writeTy result

/-- Reads a support routine. -/
def readHelper : Reader Helper := do
  match ← read32 with
  | 0 => return .inlineArrayAsSpan (← read32)
  | 1 => return .spanGetItem
  | 2 => return .spanAsReadOnly
  | 3 => return .exceptionDispose
  | 4 => return .select (← readTy)
  | 5 => return .bitCast (← readTy) (← readTy)
  | 6 => return .vaStart
  | 7 => return .vaArg
  | 8 => return .extractElement (← readTy) (← readTy)
  | 9 => return .insertElement (← readTy) (← readTy)
  | 10 => return .shuffleVector (← readTy) (← readTy) (← readTy)
  | number => noVariant number 11

/-- The bytes of a callee. -/
def writeCallee : Callee → List UInt8
  | .function id => write32 0 ++ write32 id
  | .helper routine => write32 1 ++ writeHelper routine

/-- Reads a callee. -/
def readCallee : Reader Callee := do
  match ← read32 with
  | 0 => return .function (← read32)
  | 1 => return .helper (← readHelper)
  | number => noVariant number 2

/-- The bytes of a field. -/
def writeField (f : Field) : List UInt8 :=
  writeTy f.owner ++ write32 f.index ++ writeTy f.ty

/-- Reads a field. -/
def readField : Reader Field :=
  return ⟨← readTy, ← read32, ← readTy⟩

/-- The bytes of an instruction. -/
def writeInstr : Instr → List UInt8
  | .load var => write32 0 ++ write32 var
  | .store var => write32 1 ++ write32 var
  | .addressOf var => write32 2 ++ write32 var
  | .clear var => write32 3 ++ write32 var
  | .loadIndirect ty => write32 4 ++ writeTy ty
  | .storeIndirect ty => write32 5 ++ writeTy ty
  | .fieldAddress field => write32 6 ++ writeField field
  | .loadField field => write32 7 ++ writeField field
  | .storeField field => write32 8 ++ writeField field
  | .binary op => write32 9 ++ writeChoice binaryOps op
  | .compare op => write32 10 ++ writeChoice comparisons op
  | .negate => write32 11
  | .convert target unsigned => write32 12 ++ writeTy target ++ writeBool unsigned
  | .sizeOf ty => write32 13 ++ writeTy ty
  | .call callee sig => write32 14 ++ writeCallee callee ++ writeSignature sig
  | .callIndirect sig => write32 15 ++ writeSignature sig
  | .pop => write32 16
  | .nop => write32 17
  | .branch label => write32 18 ++ write32 label
  | .branchIfTrue label => write32 19 ++ write32 label
  | .branchIfFalse label => write32 20 ++ write32 label
  | .branchIfEqual label => write32 21 ++ write32 label
  | .switch labels => write32 22 ++ writeList write32 labels
  | .phiEnqueue ty => write32 23 ++ writeTy ty
  | .phiDequeue ty => write32 24 ++ writeTy ty
  | .ret hasValue => write32 25 ++ writeBool hasValue
  | .retDefault ty => write32 26 ++ writeTy ty
  | .retIfPending ty leaves => write32 27 ++ writeTy ty ++ writeBool leaves
  | .enterFrame => write32 28
  | .leaveFrame => write32 29
  | .unreachable => write32 30

/-- Reads an instruction. -/
def readInstr : Reader Instr := do
  match ← read32 with
  | 0 => return .load (← read32)
  | 1 => return .store (← read32)
  | 2 => return .addressOf (← read32)
  | 3 => return .clear (← read32)
  | 4 => return .loadIndirect (← readTy)
  | 5 => return .storeIndirect (← readTy)
  | 6 => return .fieldAddress (← readField)
  | 7 => return .loadField (← readField)
  | 8 => return .storeField (← readField)
  | 9 => return .binary (← readChoice binaryOps)
  | 10 => return .compare (← readChoice comparisons)
  | 11 => return .negate
  | 12 => return .convert (← readTy) (← readBool)
  | 13 => return .sizeOf (← readTy)
  | 14 => return .call (← readCallee) (← readSignature)
  | 15 => return .callIndirect (← readSignature)
  | 16 => return .pop
  | 17 => return .nop
  | 18 => return .branch (← read32)
  | 19 => return .branchIfTrue (← read32)
  | 20 => return .branchIfFalse (← read32)
  | 21 => return .branchIfEqual (← read32)
  | 22 => return .switch (← readList read32)
  | 23 => return .phiEnqueue (← readTy)
  | 24 => return .phiDequeue (← readTy)
  | 25 => return .ret (← readBool)
  | 26 => return .retDefault (← readTy)
  | 27 => return .retIfPending (← readTy) (← readBool)
  | 28 => return .enterFrame
  | 29 => return .leaveFrame
  | 30 => return .unreachable
  | number => noVariant number 31

/-! ## Assemblies -/

/-- The bytes of a block. -/
def writeBlock (b : Block) : List UInt8 :=
  write32 b.label ++ writeOption write32 b.origin ++ writeList writeInstr b.code

/-- Reads a block. -/
def readBlock : Reader Block := do
  let label ← read32
  let origin ← readOption read32
  let code ← readList readInstr
  return { label, origin, code }

/-- The bytes of a body. -/
def writeBody (b : Body) : List UInt8 :=
  write32 b.function ++ writeText b.name ++ writeSignature b.signature ++ writeStorage b.storage
    ++ writeList writeBlock b.blocks ++ writeBool b.needsFrame

/-- Reads a body. -/
def readBody : Reader Body := do
  let function ← read32
  let name ← readText
  let signature ← readSignature
  let storage ← readStorage
  let blocks ← readList readBlock
  let needsFrame ← readBool
  return { function, name, signature, storage, blocks, needsFrame }

/-- The bytes of an initializer. -/
def writeInitializer (i : Initializer) : List UInt8 :=
  write32 i.global ++ writeText i.name ++ writeStorage i.storage ++ writeBlock i.block

/-- Reads an initializer. -/
def readInitializer : Reader Initializer := do
  let global ← read32
  let name ← readText
  let storage ← readStorage
  let block ← readBlock
  return { global, name, storage, block }

/-- The binary form of an assembly. -/
def encode (a : Assembly) : List UInt8 :=
  writeText a.name ++ writeList writeBody a.bodies ++ writeList writeInitializer a.initializers

/-- Reads an assembly off the front of the input. -/
def readAssembly : Reader Assembly := do
  let name ← readText
  let bodies ← readList readBody
  let initializers ← readList readInitializer
  return { name, bodies, initializers }

/-- The assembly that a byte string begins with. -/
def decode (bytes : List UInt8) : Except Fault Assembly :=
  (readAssembly.run bytes).map (·.1)

end Stackwise.Binary
