import Stackwise.Code.Assembly
import Stackwise.Lowering.Unwind

/-!
# Function bodies and initializers

`lowerFunction` turns a function definition into a body: a block for each source block, in the same
order and under the same number, then the blocks made for detours and tests.  `lowerInitializer`
turns the initial value of a global into one block.
-/

namespace Stackwise.Lowering

open Code (Body Initializer Instr)
open Source (Function Global Instruction Module Opcode Operand)

/-! ## Memory -/

/-- The variable in a heap frame that an address allocates, if it holds just the given type: such a
variable is accessed directly. -/
def direct? (homes : Homes) (storage : Code.Storage) (ptr : Nat) (ty : Code.Ty) : Option Nat := do
  let id ← homes.allocations.find? ptr
  let v ← storage.get? id
  if v.isDurable && v.ty == ty then some id else none

/-- Zeroes the storage of an allocation where it executes. -/
def lowerAlloca (id : Nat) : Emit Unit := do
  match (← Emit.context).homes.allocations.find? id with
  | some storage => Emit.instr (.clear storage)
  | none => Emit.breach .noStorage id

/-- A read through an address. -/
def lowerLoad (id : Nat) (i : Instruction) : Emit Unit := do
  match i.valueAt? 0 with
  | none => Emit.breachAt (← Emit.spot) .loadWithoutAddress
  | some ptr =>
    let ty ← Emit.lowerType (← Emit.typeOf id) id "load"
    let result ← Emit.resultOf id
    match direct? (← Emit.context).homes (← Emit.ledger) ptr ty with
    | some storage => Emit.instr (.load storage)
    | none =>
      push ptr
      Emit.instr (.loadIndirect ty)
    Emit.instr (.store result)

/-- A write through an address. -/
def lowerStore (id : Nat) (i : Instruction) : Emit Unit := do
  match i.valueAt? 0, i.valueAt? 1 with
  | some value, some ptr =>
    let ty ← Emit.lowerType (← Emit.typeOf value) value "store"
    match direct? (← Emit.context).homes (← Emit.ledger) ptr ty with
    | some storage =>
      push value
      Emit.instr (.store storage)
    | none =>
      push ptr
      push value
      Emit.instr (.storeIndirect ty)
  | _, _ => Emit.breach .malformed id

/-- An operation on values. -/
def lowerOperation (id : Nat) (i : Instruction) : Emit Unit := do
  match i.operands.mapM Operand.value? with
  | none => Emit.unsupported i.opcode.name .blockOperand id
  | some operands =>
    let result ← Emit.resultOf id
    operation push i.opcode operands (← Emit.typeOf id) result id

/-! ## Instructions -/

/-- Lowers an instruction at the end of the current block. -/
def lowerInstruction (source : SourceBlock) (id : Nat) (i : Instruction) : Lower Unit := do
  match i.opcode with
  | .alloca _ => Lower.emit (lowerAlloca id)
  | .load => Lower.emit (lowerLoad id i)
  | .store => Lower.emit (lowerStore id i)
  | .br => lowerBr source id i
  | .switch => lowerSwitch source id i
  | .ret => Lower.emit (lowerRet i)
  | .unreachable => Lower.instr .unreachable
  | .call functionType => Lower.emit (lowerCall id i functionType)
  | .invoke functionType => lowerInvoke source id i functionType
  | .catchSwitch hasUnwind => lowerCatchSwitch source id i hasUnwind
  | .catchPad | .cleanupPad => Lower.emit (lowerPad id)
  | .catchRet => Lower.emit (lowerCatchRet source id i)
  | .cleanupRet => Lower.emit (lowerCleanupRet source id i)
  | .fence => Lower.note (.fenceDropped (← read).name)
  | .atomicRmw | .cmpXchg =>
    Lower.note (.atomicZeroed (← read).name i.opcode.name)
    Lower.emit do Emit.instr (.clear (← Emit.resultOf id))
  | .phi => Lower.emit (Emit.unsupported "phi" .latePhi id)
  | .indirectBr | .callBr | .resume | .landingPad =>
    Lower.emit (Emit.unsupported i.opcode.name .instruction id)
  | .binary _ | .fneg | .cast _ | .icmp _ | .fcmp _ | .getElementPtr _ | .select | .freeze
  | .extractValue _ | .insertValue _ | .vaArg | .extractElement | .insertElement
  | .shuffleVector => Lower.emit (lowerOperation id i)

/-! ## Variables of a body -/

/-- The type that an allocation holds: one element, or an inline array of several. -/
def allocatedType (id allocated : Nat) (i : Instruction) : Emit Code.Ty := do
  let base ← Emit.lowerType allocated id "alloca"
  let count ← match i.valueAt? 0 with
    | none => pure 1
    | some value =>
      Emit.supported (← Emit.sourceValue value).int? "alloca" .dynamicAllocationCount id
  if count = 1 then return base
  else if Word.isUnsigned 64 count then return .inlineArray base count.toNat
  else Emit.unsupported "alloca" .allocationCount id

/-- Makes the variable for an instruction and enters it: storage for an allocation, a place for the
exception of a pad, a slot for any other result. -/
def allocate (homes : Homes) (id : Nat) (i : Instruction) : Emit Homes := do
  match i.opcode with
  | .alloca allocated =>
    let ty ← allocatedType id allocated i
    let needsFrame := (← Emit.context).needsFrame
    let storage ← Emit.fresh fun s =>
      if needsFrame then s.addFrameField ty (some id) else s.addSlot ty (some id)
    return homes.addAllocation id storage
  | .catchSwitch _ => return homes
  | .catchPad | .cleanupPad =>
    return homes.addResult id (← Emit.freshPinned .exceptionInfo (some id))
  | opcode =>
    let ty ← Emit.typeOf id
    if (← Emit.module).types.isVoid ty then return homes
    else
      let lowered ← Emit.lowerType ty id opcode.name
      return homes.addResult id (← Emit.freshSlot lowered (some id))

/-- Makes the variables for instructions, in order. -/
def allocateAll (homes : Homes) : List (Nat × Instruction) → Emit Homes
  | [] => return homes
  | (id, i) :: rest => do allocateAll (← allocate homes id i) rest

/-! ## Bodies -/

/-- Lowers instructions in order. -/
def lowerInstructions (source : SourceBlock) : List (Nat × Instruction) → Lower Unit
  | [] => return
  | (id, i) :: rest => do
    lowerInstruction source id i
    lowerInstructions source rest

/-- Lowers a source block into the block of the same number. -/
def lowerBlock (source : SourceBlock) : Lower Unit := do
  Lower.positionAt source.block
  if source.block == 0 && (← read).needsFrame then Lower.instr .enterFrame
  let m ← Lower.module
  let phis ← Lower.required (m.leadingPhis? source.function source.block)
  Lower.emit (takeOver phis.reverse)
  let code ← Lower.required (m.blockInstructions? source.function source.block)
  lowerInstructions source (code.drop phis.length)

/-- Lowers the blocks of a function from a number on. -/
def lowerBlocks (function : Nat) : List Source.Block → Lower Unit
  | [] => return
  | b :: rest => do
    lowerBlock ⟨function, b.id⟩
    lowerBlocks function rest

/-- Makes the variables for the instructions of a function, then lowers its blocks. -/
def lowerBody (function : Nat) (f : Function) : Lower Unit := do
  let homes ← Lower.emit (allocateAll {} ((← Lower.module).bodyOf f))
  Lower.housed homes (lowerBlocks function f.blocks.toList)

/-- Runs a step on a body that starts with the given blocks. -/
def runLower {α : Type} (step : Lower α) (context : Context) (blocks : Array DraftBlock) :
    Except Fault (α × Draft) × List Event :=
  match step context { blocks } with
  | .ok a draft => (.ok (a, draft), draft.events)
  | .error fault draft => (.error fault, draft.events)

/-- The stack type that a function returns, and its call-site signature. -/
def functionTypes (c : Conventions) (m : Module) (f : Function) :
    Except Fault (Code.Ty × Code.Signature) := do
  let unsupported {α : Type} (construct : Construct) : Except Fault α :=
    .error (.unsupported "define" construct (m.valueText f.value))
  if f.isDeclaration then unsupported .noBody
  else
    match c.lowerType m (m.returnType f) with
    | none => unsupported .ty
    | some returns =>
      match c.signature m f.ty with
      | none => unsupported .functionSignature
      | some signature => .ok (returns, signature)

/-- Lowers a function definition.  The answer comes with the events of the run, also of one that has
failed. -/
def lowerFunction (c : Conventions) (m : Module) (throwing : Throwing) (function : Nat) :
    Except Fault Body × List Event :=
  match m.function? function with
  | none => (.error .dangling, [])
  | some f =>
    match functionTypes c m f with
    | .error fault => (.error fault, [])
    | .ok (returns, signature) =>
      let context : Context :=
        { module := m, conventions := c, throwing, function := some function, name := f.name,
          returns }
      let blocks : Array DraftBlock := f.blocks.map fun b => { origin := some b.id }
      match runLower (lowerBody function f) context blocks with
      | (.error fault, events) => (.error fault, events)
      | (.ok (_, draft), events) =>
        let body : Body :=
          { function, name := f.name, signature, storage := draft.storage.toStorage,
            blocks := draft.finish, needsFrame := context.needsFrame }
        let synthesized := body.blocks.countP Code.Block.isSynthesized
        (.ok body, events ++ [.loweredFunction f.name body.blocks.length synthesized
          body.storage.size body.needsFrame])

/-- Stores the initial value of a global and returns. -/
def storeInitial (g : Global) (target : Code.Ty) (initial : Nat) : Emit Unit := do
  let storage ← Emit.shared (.global g.id) target
  push initial
  Emit.code [.store storage, .ret false]

/-- Lowers the initializer of a global. -/
def lowerInitializer (c : Conventions) (m : Module) (global : Nat) :
    Except Fault Initializer × List Event :=
  match m.global? global with
  | none => (.error .dangling, [])
  | some g =>
    let unsupported (construct : Construct) : Except Fault Initializer × List Event :=
      (.error (.unsupported "global" construct (m.valueText g.value)), [])
    match g.initializer, c.lowerType m g.valueType with
    | none, _ => unsupported .noInitializer
    | some _, none => unsupported .ty
    | some initial, some target =>
      let context : Context :=
        { module := m, conventions := c, throwing := {}, function := none, name := g.name }
      match storeInitial g target initial context ⟨0, 0⟩ .empty with
      | .error fault => (.error fault, [])
      | .ok ⟨_, storage, code⟩ =>
        let block : Code.Block := { label := 0, origin := none, code }
        (.ok { global, name := g.name, storage := storage.toStorage, block },
          [.loweredInitializer g.name code.length])

end Stackwise.Lowering
