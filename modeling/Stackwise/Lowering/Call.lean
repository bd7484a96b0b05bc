import Stackwise.Lowering.Branch

/-!
# Calls

A call pushes its fixed arguments in order.  Trailing arguments of a variadic call are packed first:
each is stored in a variable of its own, and a read-only view holds the addresses of these
variables.  A call that may leave an exception in flight is followed by a check: a plain call
returns at once, a call with an unwind destination branches.
-/

namespace Stackwise.Lowering

open Code (Instr)
open Source (Instruction Operand)

/-! ## Variadic packs -/

/-- Stores arguments into new variables, one each, and gives these. -/
def storeArguments (origin : Nat) : List Nat → Emit (List Nat)
  | [] => return []
  | arg :: rest => do
    let slot ← Emit.freshPinned (← Emit.lowerType (← Emit.typeOf arg) origin "call") none
    push arg
    Emit.instr (.store slot)
    return slot :: (← storeArguments origin rest)

/-- Writes the addresses of variables into the view `span`, from slot `index` on. -/
def storeAddresses (span : Nat) : (index : Nat) → List Nat → Emit Unit
  | _, [] => return
  | index, slot :: rest => do
    Emit.instr (.addressOf span)
    Emit.constant (.i4 index) .int32
    Emit.helper .spanGetItem
    Emit.code [.addressOf slot, .storeIndirect .nativeInt]
    storeAddresses span (index + 1) rest

/-- Packs arguments into a read-only view and gives the variable that holds it. -/
def packArguments (args : List Nat) (origin : Nat) : Emit Nat := do
  match args with
  | [] =>
    let pack ← Emit.freshSlot .readOnlySpan none
    Emit.instr (.clear pack)
    return pack
  | args =>
    let buffer ← Emit.freshPinned (.inlineArray .nativeInt args.length) none
    let span ← Emit.freshSlot .span none
    let pack ← Emit.freshSlot .readOnlySpan none
    Emit.instr (.clear buffer)
    let slots ← storeArguments origin args
    Emit.instr (.addressOf buffer)
    Emit.helper (.inlineArrayAsSpan args.length)
    Emit.instr (.store span)
    storeAddresses span 0 slots
    Emit.instr (.load span)
    Emit.helper .spanAsReadOnly
    Emit.instr (.store pack)
    return pack

/-! ## Calls -/

/-- Pushes values in order. -/
def pushAll : List Nat → Emit Unit
  | [] => return
  | value :: rest => do
    push value
    pushAll rest

/-- Pushes the arguments, calls, and stores the result if there is a variable for it. -/
def emitCall (id callee : Nat) (args : List Nat) (functionType : Nat) : Emit Unit := do
  let c ← Emit.context
  let parts ← Emit.supported (c.module.types.functionParts? functionType) "call" .calleeType id
  let fixed := parts.params.length
  if args.length < fixed ∨ (!parts.variadic ∧ args.length ≠ fixed) then
    Emit.breach (.argumentCount · args.length fixed) id
  else
    let sig ← Emit.supported (c.conventions.signature c.module functionType) "call" .signature id
    if parts.variadic then
      let pack ← packArguments (args.drop fixed) id
      pushAll (args.take fixed)
      Emit.instr (.load pack)
    else pushAll (args.take fixed)
    match c.module.calleeFunction? callee with
    | some function => Emit.instr (.call (.function function) sig)
    | none =>
      push callee
      Emit.instr (.callIndirect sig)
    match c.homes.results.find? id with
    | some result => Emit.instr (.store result)
    | none => return

/-- Whether a call can leave an exception in flight.  An unknown callee is assumed to throw. -/
def calleeMayThrow (c : Context) (callee : Nat) : Bool :=
  match c.module.calleeFunction? callee with
  | some function => c.throwing.mayThrow function
  | none => true

/-- Routines on argument lists that are not called but lowered in place. -/
inductive ListRoutine where
  /-- Points a list at the arguments of the function. -/
  | start
  /-- Releases a list, which takes nothing. -/
  | finish
deriving DecidableEq, Repr

/-- Whether a name is `base`, perhaps with a suffix behind a point that names a type. -/
def isOverload (base name : String) : Bool :=
  name == base || name.startsWith (base ++ ".")

/-- The list routine that a callee names. -/
def listRoutine? (m : Source.Module) (callee : Nat) : Option ListRoutine := do
  let f ← m.function? (← m.calleeFunction? callee)
  if !f.isDeclaration then none
  else if isOverload "llvm.va_start" f.name then some .start
  else if isOverload "llvm.va_end" f.name then some .finish
  else none

/-- The parameter in which a variadic function receives its pack. -/
def packParameter (origin : Nat) : Emit Nat := do
  let c ← Emit.context
  let parts? := (c.function.bind c.module.function?).bind (c.module.types.functionParts? ·.ty)
  match parts? with
  | some ⟨_, params, true⟩ => Emit.shared (.parameter params.length) .readOnlySpan
  | _ => Emit.unsupported "call" .vaStartOutsideVariadic origin

/-- Points an argument list at the pack of the function. -/
def startList (id : Nat) (args : List Nat) : Emit Unit := do
  match args with
  | [list] =>
    let pack ← packParameter id
    push list
    Emit.instr (.load pack)
    Emit.helper .vaStart
  | _ => Emit.breach .vaStartArity id

/-- A call, whose callee is its last operand. -/
def lowerCall (id : Nat) (i : Instruction) (functionType : Nat) : Emit Unit := do
  match i.operands.mapM Operand.value? with
  | none => Emit.breach .malformed id
  | some operands =>
    match operands.getLast? with
    | none => Emit.breach .callWithoutCallee id
    | some callee =>
      let c ← Emit.context
      match listRoutine? c.module callee with
      | some .start => startList id operands.dropLast
      | some .finish => return
      | none =>
        emitCall id callee operands.dropLast functionType
        if c.mayThrow && calleeMayThrow c callee then
          Emit.instr (.retIfPending c.returns c.needsFrame)

/-- Reads the operands of a call with an unwind destination: the arguments, the block for a normal
return, the block for an exception, the callee. -/
def readInvoke? (operands : List Operand) : Option (List Nat × Nat × Nat × Nat) :=
  match operands.reverse with
  | .value callee :: .block unwind :: .block normal :: args =>
    (args.reverse.mapM Operand.value?).map (·, normal, unwind, callee)
  | _ => none

/-- A call with an unwind destination. -/
def lowerInvoke (source : SourceBlock) (id : Nat) (i : Instruction) (functionType : Nat) :
    Lower Unit := do
  match readInvoke? i.operands with
  | none => Lower.emit (Emit.breach .malformed id)
  | some (args, normal, unwind, callee) =>
    Lower.emit do
      emitCall id callee args functionType
      Emit.instr (.load (← Emit.exceptionSlot))
    branchOn source unwind normal

end Stackwise.Lowering
