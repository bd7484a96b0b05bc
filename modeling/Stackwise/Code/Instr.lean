import Stackwise.Code.Ty

/-!
# Instructions of the stack machine

The closed set of instructions, and for each one the numbers of values it takes from the evaluation
stack and leaves on it (`Instr.pops`, `Instr.pushes`), as a function of the instruction alone.

Instructions that anchor control flow, branches, returns and the markers that hand phi operands
from one block to the next, are *anchors*: reasoning about stack positions stops at them.  All
anchors but the two phi markers are *branch points*, where the stack must be empty.
-/

namespace Stackwise.Code

/-- Arithmetic and bitwise operations on the two topmost values. -/
inductive BinaryOp where
  | add | sub | mul | div | divUn | rem | remUn | and | or | xor | shl | shr | shrUn
deriving DecidableEq, Repr

/-- The text of an operation; `.un` marks unsigned operands. -/
def BinaryOp.render : BinaryOp → String
  | add => "add"
  | sub => "sub"
  | mul => "mul"
  | div => "div"
  | divUn => "div.un"
  | rem => "rem"
  | remUn => "rem.un"
  | and => "and"
  | or => "or"
  | xor => "xor"
  | shl => "shl"
  | shr => "shr"
  | shrUn => "shr.un"

/-- Comparisons of the two topmost values, giving 0 or 1.  On floats, `gtUn` and `ltUn` also hold
of unordered operands. -/
inductive Comparison where
  | eq | gt | gtUn | lt | ltUn
deriving DecidableEq, Repr

/-- The text of a comparison. -/
def Comparison.render : Comparison → String
  | eq => "ceq"
  | gt => "cgt"
  | gtUn => "cgt.un"
  | lt => "clt"
  | ltUn => "clt.un"

/-- Support routines that lowered code calls directly. -/
inductive Helper where
  /-- Views the inline array of native ints at an address. -/
  | inlineArrayAsSpan (length : Nat)
  /-- The address of one element of the view at an address. -/
  | spanGetItem
  | spanAsReadOnly
  /-- Releases a caught exception object. -/
  | exceptionDispose
  /-- One of two values of a type, by a condition. -/
  | select (ty : Ty)
  /-- Reinterprets the bits of a value. -/
  | bitCast (source target : Ty)
  /-- Points an argument list at the first slot of a pack. -/
  | vaStart
  /-- The address of the current slot of an argument list, which advances. -/
  | vaArg
  | extractElement (vector element : Ty)
  | insertElement (vector element : Ty)
  | shuffleVector (vector mask result : Ty)
deriving DecidableEq, Repr

namespace Helper

/-- The parameters and the result of a support routine. -/
def signature : Helper → Signature
  | inlineArrayAsSpan _ => ⟨[.pointer], .span⟩
  | spanGetItem => ⟨[.pointer, .int32], .pointer⟩
  | spanAsReadOnly => ⟨[.span], .readOnlySpan⟩
  | exceptionDispose => ⟨[.exceptionInfo], .void⟩
  | select ty => ⟨[.bool, ty, ty], ty⟩
  | bitCast source target => ⟨[source], target⟩
  | vaStart => ⟨[.pointer, .readOnlySpan], .void⟩
  | vaArg => ⟨[.pointer], .pointer⟩
  | extractElement vector element => ⟨[vector, .int32], element⟩
  | insertElement vector element => ⟨[vector, element, .int32], vector⟩
  | shuffleVector vector mask result => ⟨[vector, vector, mask], result⟩

/-- The text of a support routine. -/
def render : Helper → String
  | inlineArrayAsSpan length => s!"InlineArray{length}.AsSpan"
  | spanGetItem => "Span.get_Item"
  | spanAsReadOnly => "Span.AsReadOnly"
  | exceptionDispose => "ExceptionInfo.Dispose"
  | select ty => "Select<" ++ ty.render ++ ">"
  | bitCast source target => "BitCast<" ++ source.render ++ ", " ++ target.render ++ ">"
  | vaStart => "VAStart"
  | vaArg => "VAArg"
  | extractElement vector element =>
    "ExtractElement<" ++ vector.render ++ ", " ++ element.render ++ ">"
  | insertElement vector element =>
    "InsertElement<" ++ vector.render ++ ", " ++ element.render ++ ">"
  | shuffleVector vector _ result =>
    "ShuffleVector<" ++ vector.render ++ ", " ++ result.render ++ ">"

end Helper

/-- What a direct call names. -/
inductive Callee where
  | function (id : Nat)
  | helper (routine : Helper)
deriving DecidableEq, Repr

/-- A field of an aggregate, with the field's own type. -/
structure Field where
  owner : Ty
  index : Nat
  ty : Ty
deriving DecidableEq, Repr

/-- The text of a field: `owner::f0 (type)`. -/
def Field.render (field : Field) : String :=
  field.owner.render ++ "::f" ++ toString field.index ++ " (" ++ field.ty.render ++ ")"

/-- One instruction of the stack machine.  Variables, functions and labels are given by number. -/
inductive Instr where
  /-- Pushes the value of a variable. -/
  | load (var : Nat)
  /-- Pops into a variable. -/
  | store (var : Nat)
  /-- Pushes the address of a variable. -/
  | addressOf (var : Nat)
  /-- Zeroes a variable in place. -/
  | clear (var : Nat)
  /-- Replaces an address by the value there. -/
  | loadIndirect (ty : Ty)
  /-- Pops a value, then the address to write it to. -/
  | storeIndirect (ty : Ty)
  /-- Replaces the address of an aggregate by the address of a field. -/
  | fieldAddress (field : Field)
  /-- Replaces the address of an aggregate by the value of a field. -/
  | loadField (field : Field)
  /-- Pops a value, then the address of the aggregate whose field is written. -/
  | storeField (field : Field)
  | binary (op : BinaryOp)
  | compare (op : Comparison)
  | negate
  | convert (target : Ty) (unsigned : Bool)
  | sizeOf (ty : Ty)
  /-- Pops the arguments, the last one first. -/
  | call (callee : Callee) (sig : Signature)
  /-- Pops the function pointer, then the arguments. -/
  | callIndirect (sig : Signature)
  | pop
  | nop
  | branch (label : Nat)
  | branchIfTrue (label : Nat)
  | branchIfFalse (label : Nat)
  | branchIfEqual (label : Nat)
  /-- Jumps by the popped index, and falls through when it is past the end of the table. -/
  | switch (labels : List Nat)
  /-- Leaves a phi operand on the stack for the next block.  It counts as popped, so that every
  block balances by itself. -/
  | phiEnqueue (ty : Ty)
  /-- Takes over a phi operand that the block before has left. -/
  | phiDequeue (ty : Ty)
  | ret (hasValue : Bool)
  /-- Returns the zero value of a type. -/
  | retDefault (ty : Ty)
  /-- Returns a zero value if an exception is in flight, which stays in its slot for the caller. -/
  | retIfPending (ty : Ty) (leaves : Bool)
  | enterFrame
  | leaveFrame
  | unreachable
deriving DecidableEq, Repr

namespace Instr

/-- How many values the instruction takes from the stack. -/
def pops : Instr → Nat
  | load _ | addressOf _ | clear _ | sizeOf _ | nop | branch _ | phiDequeue _ | retDefault _
  | retIfPending _ _ | enterFrame | leaveFrame | unreachable => 0
  | store _ | loadIndirect _ | fieldAddress _ | loadField _ | negate | convert _ _ | pop
  | branchIfTrue _ | branchIfFalse _ | switch _ | phiEnqueue _ => 1
  | storeIndirect _ | storeField _ | binary _ | compare _ | branchIfEqual _ => 2
  | ret hasValue => hasValue.toNat
  | call _ sig => sig.params.length
  | callIndirect sig => sig.params.length + 1

/-- How many values the instruction leaves on the stack. -/
def pushes : Instr → Nat
  | load _ | addressOf _ | loadIndirect _ | fieldAddress _ | loadField _ | binary _ | compare _
  | negate | convert _ _ | sizeOf _ | phiDequeue _ => 1
  | call _ sig | callIndirect sig => (!sig.result.isVoid).toNat
  | store _ | clear _ | storeIndirect _ | storeField _ | pop | nop | branch _ | branchIfTrue _
  | branchIfFalse _ | branchIfEqual _ | switch _ | phiEnqueue _ | ret _ | retDefault _
  | retIfPending _ _ | enterFrame | leaveFrame | unreachable => 0

/-- Values left less values taken. -/
def effect (i : Instr) : Int :=
  (i.pushes : Int) - i.pops

/-- Whether reasoning about stack positions must stop at the instruction. -/
def isAnchor : Instr → Bool
  | branch _ | branchIfTrue _ | branchIfFalse _ | branchIfEqual _ | switch _ | phiEnqueue _
  | phiDequeue _ | ret _ | retDefault _ | retIfPending _ _ | unreachable => true
  | _ => false

/-- Whether control never reaches the next instruction. -/
def isTerminator : Instr → Bool
  | branch _ | ret _ | retDefault _ | unreachable => true
  | _ => false

/-- Whether the stack must be empty once the instruction has run. -/
def isBranchPoint : Instr → Bool
  | phiEnqueue _ | phiDequeue _ => false
  | i => i.isAnchor

/-- The labels that control may pass to. -/
def targets : Instr → List Nat
  | branch label | branchIfTrue label | branchIfFalse label | branchIfEqual label => [label]
  | switch labels => labels
  | _ => []

/-- The variable that the instruction names. -/
def var? : Instr → Option Nat
  | load var | store var | addressOf var | clear var => some var
  | _ => none

/-- Whether the instruction reads or writes through an address on the stack. -/
def isIndirect : Instr → Bool
  | loadIndirect _ | storeIndirect _ => true
  | _ => false

/-- The text of an instruction, with labels spelled by `label`. -/
def renderWith (label : Nat → String) : Instr → String
  | load var => s!"load v{var}"
  | store var => s!"store v{var}"
  | addressOf var => s!"addr v{var}"
  | clear var => s!"init v{var}"
  | loadIndirect ty => "ldind " ++ ty.render
  | storeIndirect ty => "stind " ++ ty.render
  | fieldAddress field => "ldflda " ++ field.render
  | loadField field => "ldfld " ++ field.render
  | storeField field => "stfld " ++ field.render
  | binary op => op.render
  | compare op => op.render
  | negate => "neg"
  | convert target unsigned => (if unsigned then "conv.un " else "conv ") ++ target.render
  | sizeOf ty => "sizeof " ++ ty.render
  | call (.function id) sig => s!"call fn#{id} " ++ sig.render
  | call (.helper routine) sig => "call " ++ routine.render ++ " " ++ sig.render
  | callIndirect sig => "calli " ++ sig.render
  | pop => "pop"
  | nop => "nop"
  | branch target => "br " ++ label target
  | branchIfTrue target => "brtrue " ++ label target
  | branchIfFalse target => "brfalse " ++ label target
  | branchIfEqual target => "beq " ++ label target
  | switch labels => "switch (" ++ String.intercalate ", " (labels.map label) ++ ")"
  | phiEnqueue ty => "phi.enqueue " ++ ty.render
  | phiDequeue ty => "phi.dequeue " ++ ty.render
  | ret _ => "ret"
  | retDefault ty => "ret.default " ++ ty.render
  | retIfPending ty leaves =>
    "ret.ifpending " ++ ty.render ++ (if leaves then " leave" else "")
  | enterFrame => "frame.enter"
  | leaveFrame => "frame.leave"
  | unreachable => "unreachable"

end Instr

/-- The name of a block: `L3`. -/
def labelName (label : Nat) : String := s!"L{label}"

/-- The text of an instruction, with labels by name. -/
def Instr.render (i : Instr) : String := i.renderWith labelName

end Stackwise.Code
