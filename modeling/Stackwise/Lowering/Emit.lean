import Stackwise.Fault
import Stackwise.Lowering.Ledger
import Stackwise.Source.Text
import Stackwise.Throwing
import Stackwise.Word

/-!
# Straight-line code

Most of lowering only writes instructions one after another and takes new variables.  `Emit` is the
type of such steps: given what is known about the body (`Context`), the place where the code will
stand (`Spot`) and the variables so far (`Ledger`), a step gives a result, the variables after it
and the instructions it has written, or a fault.  A step sees neither the code before it nor other
blocks.
-/

namespace Stackwise.Lowering

open Code (Constant Instr Place Storage Helper)
open Source (Module Value)

/-- What is fixed while one body is lowered. -/
structure Context where
  module : Module
  conventions : Conventions
  throwing : Throwing
  /-- The function whose body it is; none for the initializer of a global. -/
  function : Option Nat
  /-- The name that faults and events give. -/
  name : String
  /-- What the body returns. -/
  returns : Code.Ty := .void
  /-- The variables of its instructions, once they are made. -/
  homes : Homes := {}

namespace Context

/-- Whether the body can return with an exception in flight. -/
def mayThrow (c : Context) : Bool := c.function.any c.throwing.mayThrow

/-- Whether the allocations of the body live in a heap frame. -/
def needsFrame (c : Context) : Bool := c.function.any c.throwing.needsFrame

end Context

/-- Where the next instruction will stand: in which block, behind how many others. -/
structure Spot where
  label : Nat
  position : Nat
deriving DecidableEq, Repr

/-- What a step leaves behind. -/
structure Emitted (α : Type) where
  value : α
  storage : Ledger
  code : List Instr

/-- A step that writes straight-line code. -/
def Emit (α : Type) : Type := Context → Spot → Ledger → Except Fault (Emitted α)

namespace Emit

/-- Writes nothing. -/
@[always_inline, inline]
protected def pure {α : Type} (a : α) : Emit α := fun _ _ storage => .ok ⟨a, storage, []⟩

/-- Writes the code of the second step behind the code of the first. -/
@[always_inline, inline]
protected def bind {α β : Type} (x : Emit α) (f : α → Emit β) : Emit β :=
  fun context spot storage =>
    match x context spot storage with
    | .error fault => .error fault
    | .ok ⟨a, between, code⟩ =>
      match f a context { spot with position := spot.position + code.length } between with
      | .error fault => .error fault
      | .ok ⟨b, after, rest⟩ => .ok ⟨b, after, code ++ rest⟩

instance : Monad Emit where
  pure := Emit.pure
  bind := Emit.bind

/-- Stops with a fault. -/
def fail {α : Type} (fault : Fault) : Emit α := fun _ _ _ => .error fault

/-- What is known about the body. -/
def context : Emit Context := fun context _ storage => .ok ⟨context, storage, []⟩

/-- The place of the next instruction. -/
def spot : Emit Spot := fun _ spot storage => .ok ⟨spot, storage, []⟩

/-- The variables so far. -/
def ledger : Emit Ledger := fun _ _ storage => .ok ⟨storage, storage, []⟩

/-- Writes instructions. -/
def code (instrs : List Instr) : Emit Unit := fun _ _ storage => .ok ⟨(), storage, instrs⟩

/-- Writes one instruction. -/
def instr (i : Instr) : Emit Unit := code [i]

/-- Takes a new variable. -/
def fresh (add : Ledger → Nat × Ledger) : Emit Nat := fun _ _ storage =>
  let (id, storage) := add storage
  .ok ⟨id, storage, []⟩

/-- What the source must have. -/
def required {α : Type} : Option α → Emit α
  | some a => pure a
  | none => fail .dangling

/-- The source module. -/
def module : Emit Module := return (← context).module

/-- A value of the source. -/
def sourceValue (id : Nat) : Emit Value := do required ((← module).value? id)

/-- The source type of a value. -/
def typeOf (id : Nat) : Emit Nat := return (← sourceValue id).ty

/-! ## Faults -/

/-- Stops at a construct that has no lowering, standing in the source value `value`. -/
def unsupported {α : Type} (site : String) (construct : Construct) (value : Nat) : Emit α := do
  fail (.unsupported site construct ((← module).valueText value))

/-- Reports a broken rule at a place. -/
def breachAt {α : Type} (spot : Spot) (breach : Breach) : Emit α := do
  fail (.invariant (← context).name spot.label spot.position breach)

/-- Reports a broken rule at the next instruction; `breach` is given the text of a source value. -/
def breach {α : Type} (breach : String → Breach) (value : Nat) : Emit α := do
  breachAt (← spot) (breach ((← module).valueText value))

/-- An optional answer, or a construct that has no lowering. -/
def supported {α : Type} (answer : Option α) (site : String) (construct : Construct)
    (value : Nat) : Emit α :=
  match answer with
  | some a => pure a
  | none => unsupported site construct value

/-- The stack type of a source type. -/
def lowerType (ty value : Nat) (site : String) : Emit Code.Ty := do
  let c ← context
  supported (c.conventions.lowerType c.module ty) site .ty value

/-- The size of a source type, unless it is only known at run time. -/
def sizeOf (ty : Nat) : Emit (Option Nat) := do
  let c ← context
  match c.conventions.sizeOf c.module ty with
  | .ok size => pure size
  | .error .offset => fail .overflow

/-! ## Variables -/

/-- A new method slot. -/
def freshSlot (ty : Code.Ty) (origin : Option Nat) : Emit Nat := fresh (·.addSlot ty origin)

/-- A new method slot whose address escapes. -/
def freshPinned (ty : Code.Ty) (origin : Option Nat) : Emit Nat := fresh (·.addPinned ty origin)

/-- The variable for a place that is shared by all its mentions, made at the first one. -/
def shared (place : Place) (ty : Code.Ty) : Emit Nat := do
  match (← ledger).shared.find? (.of place ty) with
  | some id => return id
  | none => fresh (·.addShared place ty)

/-- The variable for the exception in flight. -/
def exceptionSlot : Emit Nat := shared .exceptionSlot .exceptionInfo

/-- Pushes a constant. -/
def constant (value : Constant) (ty : Code.Ty) : Emit Unit := do
  instr (.load (← shared (.constant value) ty))

/-- The variable made for the result of an instruction. -/
def resultOf (value : Nat) : Emit Nat := do
  match (← context).homes.results.find? value with
  | some id => return id
  | none => breach .noResult value

/-- Calls a support routine. -/
def helper (routine : Helper) : Emit Unit := instr (.call (.helper routine) routine.signature)

end Emit

end Stackwise.Lowering
