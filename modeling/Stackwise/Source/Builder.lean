import Stackwise.Source.Module

/-!
# Building modules

A module is built step by step: types, constants, globals and functions at any time, instructions
at the end of the block that was chosen last.  A step that is refused keeps what it had already
done, and says why it was refused.
-/

namespace Stackwise.Source

/-- Why a building step was refused. -/
inductive Refusal where
  /-- An instruction was built before a block was chosen. -/
  | noPosition
  /-- An aggregate has no such member. -/
  | noMember (index : Nat)
  | extractFromNonVector
  | shuffleOfNonVector
  | incomingOfNonPhi
  /-- A number stands for nothing in the module. -/
  | dangling
deriving DecidableEq, Repr

/-- The message of a refusal; a dangling number has none. -/
def Refusal.message? : Refusal → Option String
  | noPosition => some "ModuleBuilder::build called before position_at"
  | noMember index => some s!"extractvalue index {index} out of range"
  | extractFromNonVector => some "extractelement on a non-vector value"
  | shuffleOfNonVector => some "shufflevector on a non-vector value"
  | incomingOfNonPhi => some "add_incoming on a non-phi value"
  | dangling => none

/-- A module under construction and the block, of a function, that takes instructions. -/
structure Builder where
  module : Module
  position : Option (Nat × Nat) := none
deriving DecidableEq, Repr

/-- A building step.  The builder it leaves behind is kept when it is refused. -/
abbrev Build := EStateM Refusal Builder

namespace Build

/-- The module as built so far. -/
def module : Build Module := return (← get).module

/-- Changes the module. -/
def modifyModule (f : Module → Module) : Build Unit :=
  modify fun b => { b with module := f b.module }

/-- The number of a type, entered if need be. -/
def intern (ty : Ty) : Build Nat := do
  let (id, types) := (← module).types.intern ty
  modifyModule fun m => { m with types }
  return id

/-- What a number must stand for. -/
def required {α : Type} : Option α → Build α
  | some a => pure a
  | none => throw .dangling

/-- The type of a value. -/
def typeOf (value : Nat) : Build Nat := do required ((← module).typeOf? value)

/-- Enters a value into the arena; its number is the old size of the arena. -/
def pushEntry (value : Value) : Build Nat := do
  let id := (← module).values.size
  modifyModule fun m => { m with values := m.values.push value }
  return id

/-- Enters a value without a name. -/
def pushValue (ty : Nat) (kind : ValueKind) : Build Nat := pushEntry { ty, kind }

/-- Names a value. -/
def setName (value : Nat) (name : String) : Build Unit := do
  let _ ← required ((← module).value? value)
  modifyModule fun m =>
    { m with values := m.values.modify value fun v => { v with name := some name } }

/-! ## Constants -/

/-- An integer constant. -/
def constInt (ty : Nat) (n : Int) : Build Nat := pushValue ty (.int n)

/-- A float constant, by its double-precision bits. -/
def constFloat (ty : Nat) (bits : UInt64) : Build Nat := pushValue ty (.float bits)

/-- The null pointer. -/
def null : Build Nat := do pushValue (← intern .ptr) .null

/-- The all-zero value of a type. -/
def zero (ty : Nat) : Build Nat := pushValue ty .zero

/-- An unspecified value of a type. -/
def unspecified (ty : Nat) : Build Nat := pushValue ty .unspecified

/-- A value that must not be used. -/
def poison (ty : Nat) : Build Nat := pushValue ty .poison

/-- A value that only carries annotations. -/
def metadata : Build Nat := do pushValue (← intern .metadata) .metadata

/-- The token that stands for no pad. -/
def noneToken : Build Nat := do pushValue (← intern .token) .zero

/-- A constant aggregate of the given members. -/
def constAggregate (ty : Nat) (elements : List Nat) : Build Nat :=
  pushValue ty (.aggregate elements)

/-- An operation on constants. -/
def constExpr (ty : Nat) (opcode : Opcode) (operands : List Nat) : Build Nat :=
  pushValue ty (.expr opcode operands)

/-! ## Globals, functions, blocks -/

/-- Adds a global and the value that stands for its address. -/
def addGlobal (name : String) (valueType : Nat) (initializer : Option Nat) : Build Nat := do
  let id := (← module).globals.size
  let ptr ← intern .ptr
  let value ← pushEntry { ty := ptr, kind := .global id, name := some name }
  modifyModule fun m =>
    { m with globals := m.globals.push { id, name, valueType, initializer, value } }
  return id

/-- The value that stands for the address of a global. -/
def globalValue (id : Nat) : Build Nat := do
  return (← required ((← module).global? id)).value

/-- Enters the arguments of a function, one for each parameter type. -/
def pushArguments (function : Nat) : (index : Nat) → List Nat → Build (List Nat)
  | _, [] => pure []
  | index, ty :: rest => do
    let value ← pushValue ty (.argument function index)
    let values ← pushArguments function (index + 1) rest
    return value :: values

/-- Adds a function without a body, the value that stands for it, and its arguments. -/
def addFunction (name : String) (ty : Nat) : Build Nat := do
  let id := (← module).functions.size
  let ptr ← intern .ptr
  let value ← pushEntry { ty := ptr, kind := .function id, name := some name }
  let types := ((← module).types.functionParts? ty).elim [] (·.params)
  let params ← pushArguments id 0 types
  modifyModule fun m => { m with functions := m.functions.push { id, name, ty, params, value } }
  return id

/-- The value that stands for a function. -/
def functionValue (id : Nat) : Build Nat := do
  return (← required ((← module).function? id)).value

/-- A parameter of a function. -/
def param (function index : Nat) : Build Nat := do
  required (← required ((← module).function? function)).params[index]?

/-- Changes a function. -/
def modifyFunction (function : Nat) (f : Function → Function) : Build Unit := do
  let _ ← required ((← module).function? function)
  modifyModule fun m => { m with functions := m.functions.modify function f }

/-- Chooses the routine that tests the handlers of a function. -/
def setPersonality (function personality : Nat) : Build Unit :=
  modifyFunction function fun f => { f with personality := some personality }

/-- Adds a block to a function. -/
def appendBlock (function : Nat) (name : String) : Build Nat := do
  let id := (← required ((← module).function? function)).blocks.size
  modifyFunction function fun f => { f with blocks := f.blocks.push { id, name } }
  return id

/-- Chooses the block that takes the next instructions. -/
def positionAt (function block : Nat) : Build Unit :=
  modify fun b => { b with position := some (function, block) }

/-! ## Instructions -/

/-- Enters an instruction and appends it to the chosen block. -/
def instruction (opcode : Opcode) (ty : Nat) (operands : List Operand) : Build Nat := do
  match (← get).position with
  | none => throw .noPosition
  | some (function, block) =>
    let id ← pushValue ty (.instruction { opcode, operands, function, block })
    let f ← required ((← module).function? function)
    let _ ← required f.blocks[block]?
    modifyFunction function fun f =>
      { f with
        blocks := f.blocks.modify block fun b => { b with instructions := b.instructions ++ [id] } }
    return id

/-- An instruction without a result. -/
def effect (opcode : Opcode) (operands : List Operand) : Build Nat := do
  instruction opcode (← intern .void) operands

/-- Values as operands. -/
def values (ids : List Nat) : List Operand := ids.map .value

/-- Allocates storage; without a count, for one element. -/
def alloca (allocated : Nat) (count : Option Nat) : Build Nat := do
  let count ← match count with
    | some c => pure c
    | none => do constInt (← intern (.int 32)) 1
  instruction (.alloca allocated) (← intern .ptr) [.value count]

/-- Reads a value of a type from an address. -/
def load (ty ptr : Nat) : Build Nat := instruction .load ty [.value ptr]

/-- Writes a value to an address. -/
def store (value ptr : Nat) : Build Nat := effect .store [.value value, .value ptr]

/-- The address that a list of indices leads to from an address of elements. -/
def gep (element ptr : Nat) (indices : List Nat) : Build Nat := do
  instruction (.getElementPtr element) (← intern .ptr) (values (ptr :: indices))

/-- Orders memory accesses. -/
def fence : Build Nat := effect .fence []

/-- Reads, changes and writes in one step. -/
def atomicRmw (ptr value : Nat) : Build Nat := do
  instruction .atomicRmw (← typeOf value) [.value ptr, .value value]

/-- Two-operand arithmetic, of the type of the left operand. -/
def binary (op : BinaryOp) (lhs rhs : Nat) : Build Nat := do
  instruction (.binary op) (← typeOf lhs) [.value lhs, .value rhs]

/-- The negative of a float. -/
def fneg (value : Nat) : Build Nat := do
  instruction .fneg (← typeOf value) [.value value]

/-- Compares integers. -/
def icmp (predicate : IntPredicate) (lhs rhs : Nat) : Build Nat := do
  instruction (.icmp predicate) (← intern (.int 1)) [.value lhs, .value rhs]

/-- Compares floats. -/
def fcmp (predicate : FloatPredicate) (lhs rhs : Nat) : Build Nat := do
  instruction (.fcmp predicate) (← intern (.int 1)) [.value lhs, .value rhs]

/-- Converts a value to a type. -/
def cast (op : CastOp) (value ty : Nat) : Build Nat := instruction (.cast op) ty [.value value]

/-- One of two values, by a condition. -/
def select (cond ifTrue ifFalse : Nat) : Build Nat := do
  instruction .select (← typeOf ifTrue) (values [cond, ifTrue, ifFalse])

/-- Fixes an unspecified value. -/
def freeze (value : Nat) : Build Nat := do
  instruction .freeze (← typeOf value) [.value value]

/-- The type that a path of member indices leads to. -/
def memberAlong : (ty : Nat) → List Nat → Build Nat
  | ty, [] => pure ty
  | ty, index :: rest => do
    match (← module).types.member? ty index with
    | some member => memberAlong member rest
    | none => throw (.noMember index)

/-- The member of an aggregate at a path. -/
def extractValue (aggregate : Nat) (indices : List Nat) : Build Nat := do
  let ty ← memberAlong (← typeOf aggregate) indices
  instruction (.extractValue indices) ty [.value aggregate]

/-- An aggregate with the member at a path replaced. -/
def insertValue (aggregate value : Nat) (indices : List Nat) : Build Nat := do
  instruction (.insertValue indices) (← typeOf aggregate) [.value aggregate, .value value]

/-- The next variadic argument of a list. -/
def vaArg (ty list : Nat) : Build Nat := instruction .vaArg ty [.value list]

/-- The element type and the length of the vector type of a value. -/
def vectorParts? (m : Module) (value : Nat) : Option (Nat × Nat) :=
  match (m.typeOf? value).bind m.types.get? with
  | some (.vector element length) => some (element, length)
  | _ => none

/-- The element of a vector at an index. -/
def extractElement (vector index : Nat) : Build Nat := do
  match vectorParts? (← module) vector with
  | some (element, _) => instruction .extractElement element [.value vector, .value index]
  | none => throw .extractFromNonVector

/-- A vector with the element at an index replaced. -/
def insertElement (vector value index : Nat) : Build Nat := do
  instruction .insertElement (← typeOf vector) (values [vector, value, index])

/-- A vector of elements of two others, chosen by a mask. -/
def shuffleVector (a b mask : Nat) : Build Nat := do
  match vectorParts? (← module) a, vectorParts? (← module) mask with
  | some (element, _), some (_, length) =>
    instruction .shuffleVector (← intern (.vector element length)) (values [a, b, mask])
  | _, _ => throw .shuffleOfNonVector

/-- Values with the blocks they belong to, as operands. -/
def pairs (incoming : List (Nat × Nat)) : List Operand :=
  incoming.flatMap fun (v, b) => [.value v, .block b]

/-- A value that depends on the block control came from. -/
def phi (ty : Nat) (incoming : List (Nat × Nat)) : Build Nat :=
  instruction .phi ty (pairs incoming)

/-- Gives a phi one more operand. -/
def addIncoming (phi value origin : Nat) : Build Unit := do
  match (← required ((← module).value? phi)).kind with
  | .instruction i =>
    if i.opcode = .phi then
      let i := { i with operands := i.operands ++ pairs [(value, origin)] }
      modifyModule fun m =>
        { m with values := m.values.modify phi fun v => { v with kind := .instruction i } }
    else throw .incomingOfNonPhi
  | _ => throw .incomingOfNonPhi

/-- The result type of a call; calling something that is no function gives nothing. -/
def callResult (functionType : Nat) : Build Nat := do
  match (← module).types.functionParts? functionType with
  | some parts => return parts.ret
  | none => intern .void

/-- A call; the callee is the last operand. -/
def call (functionType callee : Nat) (args : List Nat) : Build Nat := do
  let ty ← callResult functionType
  instruction (.call functionType) ty (values (args ++ [callee]))

/-- A call with a block for its return and one for an exception. -/
def invoke (functionType callee : Nat) (args : List Nat) (normal unwind : Nat) : Build Nat := do
  let ty ← callResult functionType
  instruction (.invoke functionType) ty
    (values args ++ [.block normal, .block unwind, .value callee])

/-- Returns. -/
def ret (value : Option Nat) : Build Nat := effect .ret (values value.toList)

/-- Goes to a block. -/
def br (target : Nat) : Build Nat := effect .br [.block target]

/-- A conditional branch; its operands are the condition, then the block for false. -/
def condBr (cond ifTrue ifFalse : Nat) : Build Nat :=
  effect .br [.value cond, .block ifFalse, .block ifTrue]

/-- Goes to a block by the value of an index. -/
def switch (index default : Nat) (cases : List (Nat × Nat)) : Build Nat :=
  effect .switch (.value index :: .block default :: pairs cases)

/-- Is never reached. -/
def unreachable : Build Nat := effect .unreachable []

/-- Goes to the first handler that accepts the exception in flight. -/
def catchSwitch (parent : Nat) (handlers : List Nat) (unwind : Option Nat) : Build Nat := do
  instruction (.catchSwitch unwind.isSome) (← intern .token)
    (.value parent :: (handlers ++ unwind.toList).map .block)

/-- Starts a handler. -/
def catchPad (parent : Nat) (args : List Nat) : Build Nat := do
  instruction .catchPad (← intern .token) (values (args ++ [parent]))

/-- Starts a cleanup. -/
def cleanupPad (parent : Nat) (args : List Nat) : Build Nat := do
  instruction .cleanupPad (← intern .token) (values (args ++ [parent]))

/-- Ends a handler. -/
def catchRet (pad target : Nat) : Build Nat := effect .catchRet [.value pad, .block target]

/-- Ends a cleanup and keeps unwinding. -/
def cleanupRet (pad : Nat) (unwind : Option Nat) : Build Nat :=
  effect .cleanupRet (.value pad :: unwind.toList.map .block)

end Build

end Stackwise.Source
