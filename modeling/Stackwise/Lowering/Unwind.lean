import Stackwise.Lowering.Call

/-!
# Handlers and cleanups

A choice between handlers becomes a chain of tests, a new block for each: the personality routine
is given the arguments of the handler's pad and returns zero to accept.  A pad moves the exception
in flight out of its slot into a variable and clears the slot; the end of a cleanup puts it back.
-/

namespace Stackwise.Lowering

open Code (Instr Signature)
open Source (Instruction Operand)

/-- The signature that a personality routine must have. -/
def personalitySignature : Signature := ⟨[.readOnlySpan], .int32⟩

/-- The personality routine of a function, and its signature. -/
def personality (source : SourceBlock) (id : Nat) : Emit (Nat × Signature) := do
  let c ← Emit.context
  let f ← Emit.required (c.module.function? source.function)
  let routine ← Emit.supported f.personality "catchswitch" .noPersonality id
  let declared ← Emit.required (c.module.function? routine)
  let sig ← Emit.supported
    ((c.conventions.signature c.module declared.ty).filter (· = personalitySignature))
    "catchswitch" .personalitySignature id
  return (routine, sig)

/-- The arguments of the first pad in a handler's block. -/
def padArguments (source : SourceBlock) (handler id : Nat) : Emit (List Nat) := do
  let code ← Emit.required ((← Emit.module).blockInstructions? source.function handler)
  let (_, pad) ← Emit.supported (code.find? fun (_, i) => i.opcode == .catchPad)
    "catchswitch" .handlerWithoutPad id
  return pad.operands.dropLast.filterMap Operand.value?

/-- Asks the personality routine about each handler in turn; the first that accepts is branched to.
Afterwards the current block is the one reached when none has accepted. -/
def testHandlers (source : SourceBlock) (id routine : Nat) (sig : Signature) :
    List Nat → Lower Unit
  | [] => return
  | handler :: rest => do
    Lower.emit do
      let pack ← packArguments (← padArguments source handler id) id
      Emit.code [.load pack, .call (.function routine) sig]
    let next ← Lower.newBlock
    Lower.instr (.branchIfTrue next)
    Lower.emit (edge source handler)
    Lower.positionAt next
    testHandlers source id routine sig rest

/-- The handlers of a choice: the operands behind the first, without the unwind destination. -/
def handlers? (operands : List Operand) (hasUnwind : Bool) : Option (List Nat) :=
  let listed := if hasUnwind then operands.dropLast else operands
  match listed with
  | [] => none
  | _ :: rest => rest.mapM Operand.block?

/-- A choice between handlers. -/
def lowerCatchSwitch (source : SourceBlock) (id : Nat) (i : Instruction) (hasUnwind : Bool) :
    Lower Unit := do
  let (routine, sig) ← Lower.emit (personality source id)
  match handlers? i.operands hasUnwind with
  | none => Lower.emit (Emit.breach .malformed id)
  | some handlers =>
    testHandlers source id routine sig handlers
    if hasUnwind then
      match i.operands.getLast? with
      | some (.block unwind) => Lower.emit (edge source unwind)
      | _ => Lower.emit (Emit.breach .malformed id)
    else Lower.emit returnDefault

/-- A pad takes the exception in flight. -/
def lowerPad (id : Nat) : Emit Unit := do
  let slot ← Emit.exceptionSlot
  let result ← Emit.resultOf id
  Emit.code [.load slot, .store result]
  Emit.constant .null .exceptionInfo
  Emit.instr (.store slot)

/-- The end of a handler: the exception is released. -/
def lowerCatchRet (source : SourceBlock) (id : Nat) (i : Instruction) : Emit Unit := do
  match i.valueAt? 0, i.blockAt? 1 with
  | some pad, some target =>
    push pad
    Emit.helper .exceptionDispose
    edge source target
  | _, _ => Emit.breach .malformed id

/-- The end of a cleanup: the exception is put back, and unwinding goes on to another block or out
of the function. -/
def lowerCleanupRet (source : SourceBlock) (id : Nat) (i : Instruction) : Emit Unit := do
  match i.valueAt? 0 with
  | some pad =>
    let slot ← Emit.exceptionSlot
    push pad
    Emit.instr (.store slot)
    match i.blockAt? 1 with
    | some target => edge source target
    | none => returnDefault
  | none => Emit.breach .malformed id

end Stackwise.Lowering
