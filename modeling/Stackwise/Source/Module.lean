import Stackwise.Source.Opcode
import Stackwise.Source.Ty

/-!
# Source modules

A module owns its types, an arena of values, its functions with their blocks, and its globals.
Everything refers to everything else by number.  Instructions are values; a block lists the numbers
of its instructions.
-/

namespace Stackwise.Source

/-- An operand of an instruction. -/
inductive Operand where
  | value (id : Nat)
  | block (id : Nat)
deriving DecidableEq, Repr

namespace Operand

/-- The value, if the operand is one. -/
def value? : Operand → Option Nat
  | value id => some id
  | block _ => none

/-- The block, if the operand is one. -/
def block? : Operand → Option Nat
  | block id => some id
  | value _ => none

end Operand

/-- An instruction and the block of the function in which it stands. -/
structure Instruction where
  opcode : Opcode
  operands : List Operand
  function : Nat
  block : Nat
deriving DecidableEq, Repr

namespace Instruction

/-- The operand at a position, if it is a value. -/
def valueAt? (i : Instruction) (index : Nat) : Option Nat :=
  i.operands[index]?.bind Operand.value?

/-- The operand at a position, if it is a block. -/
def blockAt? (i : Instruction) (index : Nat) : Option Nat :=
  i.operands[index]?.bind Operand.block?

end Instruction

/-- What a value is. -/
inductive ValueKind where
  | int (n : Int)
  | float (bits : UInt64)
  | null
  | zero
  | unspecified
  | poison
  | aggregate (elements : List Nat)
  | expr (opcode : Opcode) (operands : List Nat)
  | global (id : Nat)
  | function (id : Nat)
  | argument (function index : Nat)
  | instruction (i : Instruction)
  | metadata
deriving DecidableEq, Repr

/-- An entry of the arena. -/
structure Value where
  ty : Nat
  kind : ValueKind
  name : Option String := none
deriving DecidableEq, Repr

namespace Value

/-- The instruction, if the value is one. -/
def instruction? (v : Value) : Option Instruction :=
  match v.kind with
  | .instruction i => some i
  | _ => none

/-- The number, if the value is an integer constant. -/
def int? (v : Value) : Option Int :=
  match v.kind with
  | .int n => some n
  | _ => none

/-- Whether the value is a constant. -/
def isConstant (v : Value) : Bool :=
  match v.kind with
  | .int _ | .float _ | .null | .zero | .unspecified | .poison | .aggregate _ | .expr _ _ => true
  | _ => false

/-- Whether the value is all zero or unspecified. -/
def isBlank (v : Value) : Bool :=
  match v.kind with
  | .zero | .unspecified | .poison => true
  | _ => false

end Value

/-- A block: a name and the numbers of its instructions. -/
structure Block where
  id : Nat
  name : String
  instructions : List Nat := []
deriving DecidableEq, Repr

/-- A function; without blocks it is only declared. -/
structure Function where
  id : Nat
  name : String
  ty : Nat
  params : List Nat
  blocks : Array Block := #[]
  personality : Option Nat := none
  /-- The value that stands for the function. -/
  value : Nat
deriving DecidableEq, Repr

/-- Whether the function has no body. -/
def Function.isDeclaration (f : Function) : Bool := f.blocks.isEmpty

/-- A global variable. -/
structure Global where
  id : Nat
  name : String
  valueType : Nat
  initializer : Option Nat
  /-- The value that stands for the address of the global. -/
  value : Nat
deriving DecidableEq, Repr

/-- A source module. -/
structure Module where
  name : String
  types : TypePool := {}
  values : Array Value := #[]
  functions : Array Function := #[]
  globals : Array Global := #[]
deriving DecidableEq, Repr

namespace Module

/-- The value with the given number. -/
def value? (m : Module) (id : Nat) : Option Value := m.values[id]?

/-- The type of a value. -/
def typeOf? (m : Module) (id : Nat) : Option Nat := (m.value? id).map (·.ty)

/-- The value with the given number, if it is an instruction. -/
def instruction? (m : Module) (id : Nat) : Option Instruction :=
  (m.value? id).bind Value.instruction?

/-- The function with the given number. -/
def function? (m : Module) (id : Nat) : Option Function := m.functions[id]?

/-- The global with the given number. -/
def global? (m : Module) (id : Nat) : Option Global := m.globals[id]?

/-- The first function of a name. -/
def functionNamed? (m : Module) (name : String) : Option Nat :=
  (m.functions.find? (·.name == name)).map (·.id)

/-- The instructions of a block, with their numbers. -/
def instructionsOf (m : Module) (b : Block) : List (Nat × Instruction) :=
  b.instructions.filterMap fun id => (m.instruction? id).map (id, ·)

/-- All instructions of a function, with their numbers, block by block. -/
def bodyOf (m : Module) (f : Function) : List (Nat × Instruction) :=
  f.blocks.toList.flatMap m.instructionsOf

/-- The instructions of a block of a function, if there is such a block. -/
def blockInstructions? (m : Module) (function block : Nat) : Option (List (Nat × Instruction)) :=
  (m.function? function).bind fun f => f.blocks[block]?.map m.instructionsOf

/-- The phis at the start of a block. -/
def leadingPhis? (m : Module) (function block : Nat) : Option (List Nat) :=
  (m.blockInstructions? function block).map fun code =>
    (code.takeWhile fun (_, i) => i.opcode == .phi).map (·.1)

/-- Whether a block begins with a phi. -/
def startsWithPhi? (m : Module) (function block : Nat) : Option Bool :=
  (m.leadingPhis? function block).map fun phis => !phis.isEmpty

/-- The first value that a list of value and block pairs gives for a block. -/
def incomingFrom? (origin : Nat) : List Operand → Option Nat
  | .value v :: .block b :: rest => if b = origin then some v else incomingFrom? origin rest
  | _ :: _ :: rest => incomingFrom? origin rest
  | _ => none

/-- The value that a phi takes on the edge from a block. -/
def phiIncoming? (m : Module) (phi origin : Nat) : Option Nat :=
  (m.instruction? phi).bind fun i => incomingFrom? origin i.operands

/-- The function that a callee names directly. -/
def calleeFunction? (m : Module) (callee : Nat) : Option Nat :=
  match m.value? callee with
  | some ⟨_, .function id, _⟩ => some id
  | _ => none

/-- The result type of a function; a function whose type is no function type returns that type
itself. -/
def returnType (m : Module) (f : Function) : Nat :=
  match m.types.functionParts? f.ty with
  | some parts => parts.ret
  | none => f.ty

end Module

end Stackwise.Source
