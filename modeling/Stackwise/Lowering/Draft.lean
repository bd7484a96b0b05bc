import Stackwise.Code.Block
import Stackwise.Lowering.Push

/-!
# Bodies in the making

Control flow needs more than straight-line code: new blocks, and a choice of the block that takes
the next instructions.  A `Draft` holds the blocks written so far, the variables, and the events to
report; `Lower` is the type of steps on it.  A block's label is its position, and the events of a
step that fails are kept.
-/

namespace Stackwise.Lowering

open Code (Instr)

/-- A block in the making. -/
structure DraftBlock where
  origin : Option Nat
  code : List Instr := []
deriving DecidableEq, Repr

/-- A body in the making. -/
structure Draft where
  blocks : Array DraftBlock
  storage : Ledger := .empty
  /-- The block that takes the next instructions. -/
  current : Nat := 0
  events : List Event := []

/-- The finished blocks. -/
def Draft.finish (d : Draft) : List Code.Block :=
  d.blocks.toList.zipIdx.map fun (b, label) => { label, origin := b.origin, code := b.code }

/-- A step on a body in the making. -/
abbrev Lower := ReaderT Context (EStateM Fault Draft)

namespace Lower

/-- Writes straight-line code at the end of the current block. -/
def emit {α : Type} (step : Emit α) : Lower α := fun context draft =>
  match draft.blocks[draft.current]? with
  | none => .error .dangling draft
  | some b =>
    match step context ⟨draft.current, b.code.length⟩ draft.storage with
    | .error fault => .error fault draft
    | .ok ⟨a, storage, code⟩ =>
      .ok a { draft with
        storage
        blocks := draft.blocks.setIfInBounds draft.current { b with code := b.code ++ code } }

/-- Writes one instruction. -/
def instr (i : Instr) : Lower Unit := emit (Emit.instr i)

/-- Adds an empty block that no block of the source stands behind. -/
def newBlock : Lower Nat := do
  let label := (← get).blocks.size
  modify fun d => { d with blocks := d.blocks.push { origin := none } }
  return label

/-- Chooses the block that takes the next instructions. -/
def positionAt (label : Nat) : Lower Unit := modify fun d => { d with current := label }

/-- Reports an event. -/
def note (event : Event) : Lower Unit := modify fun d => { d with events := d.events ++ [event] }

/-- Runs a step that knows the variables of instructions. -/
def housed {α : Type} (homes : Homes) (step : Lower α) : Lower α := fun context =>
  step { context with homes }

/-- The source module. -/
def module : Lower Source.Module := return (← read).module

/-- What the source must have. -/
def required {α : Type} : Option α → Lower α
  | some a => pure a
  | none => throw .dangling

end Lower

/-- A block of the source. -/
structure SourceBlock where
  function : Nat
  block : Nat
deriving DecidableEq, Repr

end Stackwise.Lowering
