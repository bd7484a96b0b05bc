import Stackwise.Proofs.Code.Paths
import Stackwise.Proofs.Lowering.Variables
import Stackwise.Proofs.Throwing

/-!
# The exception in flight

What a machine does with the exception in flight, and what lowered code leaves of it.

A `Host` is a machine that knows which exception is in flight.  `Host.Unwinds` collects what is
expected of one that runs a body: the slot is a cell without an address, so only a store to it and a
call can change it; a call sets it only if its callee may throw, support routines and personality
routines never do; branches and checks on it see whether it is set.

An exception is in one of two kinds of places: in flight, or in the variable of a pad that has taken
it.  Quiet code changes neither (`Host.Unwinds.quiet_same`).
-/

namespace Stackwise.Lowering

open Code (Instr Machine Storage)
open Source (Function Instruction Module Opcode)

/-! ## Calls -/

/-- Whether an instruction calls a function, by its name or through a pointer. -/
def callsFunction : Instr → Bool
  | .call (.function _) _ | .callIndirect _ => true
  | _ => false

/-- Code that only computes calls no function. -/
theorem Quiet.not_calls {m : Module} {s : Storage} {i : Instr} (h : Quiet m s i) :
    callsFunction i = false := by
  cases i with
  | call target =>
    cases target with
    | helper => rfl
    | function => cases h
  | callIndirect => cases h
  | _ => rfl

theorem not_calls_of_anchor {i : Instr} (anchor : i.isAnchor = true) : callsFunction i = false := by
  cases i with
  | call | callIndirect => cases anchor
  | _ => rfl

/-- The block asks about handlers: it ends in a choice between them, or no source block stands
behind it. -/
def AsksHandlers (m : Module) (f : Function) (label : Nat) : Prop :=
  f.blocks.size ≤ label ∨ ∃ b p hasUnwind, f.blocks[label]? = some b ∧
    (m.instructionsOf b).getLast? = some p ∧ p.2.opcode = .catchSwitch hasUnwind

/-- The instruction asks the personality routine about a handler, and a branch on the answer
follows. -/
def IsTest (m : Module) (f : Function) (label : Nat) (i : Instr) (rest : List Instr) : Prop :=
  AsksHandlers m f label ∧
    (∃ routine, f.personality = some routine ∧ i = .call (.function routine) personalitySignature) ∧
    ∃ next, rest.head? = some (.branchIfTrue next)

/-! ## Machines with exceptions -/

/-- A slot of the method that only instructions which name it can reach, since its address is never
taken. -/
def Private (body : Code.Body) (var : Nat) : Prop :=
  HasPlace body.storage .slot var ∧ ∀ b ∈ body.blocks, .addressOf var ∉ b.code

/-- A machine, with the exception in flight. -/
structure Host (V S : Type) extends Machine V S where
  /-- The exception in flight; `zero .exceptionInfo` if there is none. -/
  slot : S → V
  /-- The value that a slot of a type holds at first. -/
  zero : Code.Ty → V

namespace Host

variable {V S : Type} (H : Host V S)

/-- The exception that is none. -/
def null : V := H.zero .exceptionInfo

/-- How a machine treats exceptions while it runs the body of a function. -/
structure Unwinds (conventions : Conventions) (m : Module) (f : Function) (body : Code.Body) :
    Prop where
  read_slot : ∀ {var : Nat} (store : S), HasPlace body.storage .exceptionSlot var →
    H.read store var = H.slot store
  slot_write : ∀ {var : Nat} (store : S) (x : V), HasPlace body.storage .exceptionSlot var →
    H.slot (H.write store var x) = x
  read_null : ∀ {var : Nat} (store : S), IsNull body.storage var → H.read store var = H.null
  read_write : ∀ {var : Nat} (store : S) (x : V), Private body var →
    H.read (H.write store var x) var = x
  /-- What an instruction does not name, it does not change. -/
  read_run : ∀ {i : Instr} {stack stack' : List V} {store store' : S} {var : Nat},
    H.Runs i stack store stack' store' → Private body var → i.var? ≠ some var →
      H.read store' var = H.read store var
  /-- This includes support routines. -/
  slot_run : ∀ {i : Instr} {stack stack' : List V} {store store' : S},
    H.Runs i stack store stack' store' → callsFunction i = false →
      (∀ var, i.var? = some var → ¬ HasPlace body.storage .exceptionSlot var) →
      H.slot store' = H.slot store
  call : ∀ {target : Nat} {sig : Code.Signature} {stack stack' : List V} {store store' : S},
    H.Runs (.call (.function target) sig) stack store stack' store' → H.slot store = H.null →
      H.slot store' ≠ H.null → (Throwing.analyze conventions m).1.mayThrow target = true
  callIndirect : ∀ {sig : Code.Signature} {stack stack' : List V} {store store' : S},
    H.Runs (.callIndirect sig) stack store stack' store' → H.slot store = H.null →
      H.slot store' ≠ H.null → ¬ Throwing.Quiescent conventions m
  personality : ∀ {routine : Nat} {sig : Code.Signature} {stack stack' : List V} {store store' : S},
    f.personality = some routine →
      H.Runs (.call (.function routine) sig) stack store stack' store' →
      H.slot store' = H.slot store
  read_control : ∀ {i : Instr} (stack : List V) (store : S) {var : Nat}, i.isAnchor = true →
    Private body var → H.read (H.control i stack store).store var = H.read store var
  slot_control : ∀ {i : Instr} (stack : List V) (store : S), i.isAnchor = true →
    H.slot (H.control i stack store).store = H.slot store
  targets : ∀ {i : Instr} {label : Nat} {stack stack' : List V} {store store' : S},
    i.isAnchor = true → H.control i stack store = .jump label stack' store' → label ∈ i.targets
  terminator : ∀ {i : Instr} {stack stack' : List V} {store store' : S}, i.isTerminator = true →
    H.control i stack store ≠ .next stack' store'
  branchIfTrue : ∀ {label : Nat} {stack stack' : List V} {store store' : S},
    H.control (.branchIfTrue label) (H.slot store :: stack) store = .next stack' store' →
      H.slot store = H.null
  branchIfFalse : ∀ {label target : Nat} {stack stack' : List V} {store store' : S},
    H.control (.branchIfFalse label) (H.slot store :: stack) store = .jump target stack' store' →
      H.slot store = H.null
  retIfPending : ∀ {ty : Code.Ty} {framed : Bool} {stack stack' : List V} {store store' : S},
    H.control (.retIfPending ty framed) stack store = .next stack' store' → H.slot store = H.null

/-! ## Where exceptions are -/

end Host

/-- The variable belongs to a pad. -/
def PadVariable (m : Module) (s : Storage) (var : Nat) : Prop :=
  ∃ v id i, s.get? var = some v ∧ v.origin = some id ∧ m.instruction? id = some i ∧
    isPad i.opcode = true

section

variable {m : Module} {s : Storage} {var : Nat}

/-- The variable of a pad is the one that the map of results has for it. -/
theorem Housed.padVariable {homes : Homes} (h : Housed m homes s) {id : Nat} {i : Instruction}
    (isInstruction : m.instruction? id = some i) (pad : isPad i.opcode = true)
    (found : homes.results.find? id = some var) : PadVariable m s var := by
  obtain ⟨v, there, origin, -⟩ := h.result found
  exact ⟨v, id, i, there, origin, isInstruction, pad⟩

/-- It is a slot for an exception. -/
theorem PadVariable.slot (h : PadVariable m s var) (homed : Homed m s) :
    ∃ v, s.get? var = some v ∧ v.place = .slot ∧ v.ty = .exceptionInfo := by
  obtain ⟨v, id, i, there, origin, isInstruction, pad⟩ := h
  exact ⟨v, there, (homed v (Array.mem_of_getElem? there) id i origin isInstruction).2 pad⟩

/-- Quiet code does not write to it. -/
theorem PadVariable.not_writable (h : PadVariable m s var) : ¬ Writable m s var := by
  obtain ⟨v, id, i, there, origin, isInstruction, pad⟩ := h
  rintro ⟨v', there', -, notPad⟩
  cases there.symm.trans there'
  rw [notPad id i origin isInstruction] at pad
  cases pad

theorem Writable.not_exceptionSlot (h : Writable m s var) : ¬ HasPlace s .exceptionSlot var := by
  obtain ⟨v, there, home, -⟩ := h
  rintro ⟨v', there', place⟩
  cases there.symm.trans there'
  rcases home with slot | durable
  · cases slot.symm.trans place
  · rw [Code.Variable.isDurable, place] at durable
    cases durable

/-- Nothing but the code of its pads reaches the variable of a pad. -/
theorem PadVariable.isPrivate {body : Code.Body} (h : PadVariable m body.storage var)
    (homed : Homed m body.storage)
    (tabled : ∀ b ∈ body.blocks, AllTabled m body.storage b.code) : Private body var := by
  obtain ⟨v, there, place, -⟩ := h.slot homed
  refine ⟨⟨v, there, place⟩, fun b mem here => ?_⟩
  rcases (tabled b mem _ here).addressed var rfl with writable | ⟨v', global, there', place'⟩
  · exact h.not_writable writable
  · cases there.symm.trans there'
    cases place.symm.trans place'

end

namespace Host

variable {V S : Type} (H : Host V S)

/-- No exception has moved, between two stores. -/
def Same (m : Module) (s : Storage) (store store' : S) : Prop :=
  H.slot store' = H.slot store ∧
    ∀ var, PadVariable m s var → H.read store' var = H.read store var

/-- In a function that may not throw, there is no exception anywhere. -/
def Harmless (c : Context) (s : Storage) (store : S) : Prop :=
  c.mayThrow = false → H.slot store = H.null ∧
    ∀ var, PadVariable c.module s var → H.read store var = H.null

/-- No exception is in flight. -/
def Clear (c : Context) (s : Storage) (store : S) : Prop :=
  H.slot store = H.null ∧ H.Harmless c s store

/-- The property only depends on where exceptions are. -/
def Stable (m : Module) (s : Storage) (P : S → Prop) : Prop :=
  ∀ ⦃store store' : S⦄, H.Same m s store store' → P store → P store'

variable {H}

theorem Same.refl (m : Module) (s : Storage) (store : S) : H.Same m s store store :=
  ⟨rfl, fun _ _ => rfl⟩

/-- That the store is harmless is stable. -/
theorem harmless_stable (c : Context) (s : Storage) : H.Stable c.module s (H.Harmless c s) := by
  intro store store' same harmless safe
  obtain ⟨clear, pads⟩ := harmless safe
  exact ⟨same.1.trans clear, fun var pad => (same.2 var pad).trans (pads var pad)⟩

theorem clear_stable (c : Context) (s : Storage) : H.Stable c.module s (H.Clear c s) :=
  fun _ _ same clear => ⟨same.1.trans clear.1, harmless_stable c s same clear.2⟩

namespace Unwinds

variable {conventions : Conventions} {m : Module} {f : Function} {body : Code.Body}
  (unwinds : H.Unwinds conventions m f body) (homed : Homed m body.storage)
  (tabled : ∀ b ∈ body.blocks, AllTabled m body.storage b.code)
  {i : Instr} {stack stack' : List V} {store store' : S}

include unwinds homed tabled

/-- An instruction that calls no function leaves the exceptions where they are, unless it names one
of their places. -/
theorem run_same (runs : H.Runs i stack store stack' store') (plain : callsFunction i = false)
    (others : ∀ var, i.var? = some var →
      ¬ HasPlace body.storage .exceptionSlot var ∧ ¬ PadVariable m body.storage var) :
    H.Same m body.storage store store' := by
  refine ⟨unwinds.slot_run runs plain fun var named => (others var named).1, fun var pad => ?_⟩
  refine unwinds.read_run runs (pad.isPrivate homed tabled) fun named => ?_
  exact (others var named).2 pad

/-- Code that only computes changes neither the exception in flight nor the variables of pads. -/
theorem quiet_same (quiet : Quiet m body.storage i) (runs : H.Runs i stack store stack' store') :
    H.Same m body.storage store store' := by
  have named (var : Nat) (writable : Writable m body.storage var) :
      ¬ HasPlace body.storage .exceptionSlot var ∧ ¬ PadVariable m body.storage var :=
    ⟨writable.not_exceptionSlot, fun pad => pad.not_writable writable⟩
  cases i with
  | load var | addressOf var =>
    -- These only read, whichever variable it is.
    cases runs.step
    exact Same.refl _ _ _
  | store var | clear var =>
    refine unwinds.run_same homed tabled runs rfl fun var' isVar => ?_
    cases isVar
    exact named var quiet
  | _ => exact unwinds.run_same homed tabled runs quiet.not_calls nofun

omit homed tabled in
/-- Writing a variable does not change another one. -/
theorem read_write_of_ne {var other : Nat} (isPrivate : Private body other) (ne : other ≠ var)
    (x : V) : H.read (H.write store var x) other = H.read store other := by
  have runs : H.Runs (.store var) [x] store [] (H.write store var x) := ⟨rfl, Nat.le_refl 1, rfl⟩
  exact unwinds.read_run runs isPrivate fun named => ne (Option.some.inj named).symm

theorem control_same (anchor : i.isAnchor = true) :
    H.Same m body.storage store (H.control i stack store).store :=
  ⟨unwinds.slot_control stack store anchor, fun _ pad =>
    unwinds.read_control stack store anchor (pad.isPrivate homed tabled)⟩

end Unwinds

end Host

end Stackwise.Lowering
