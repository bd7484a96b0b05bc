import Stackwise.Code.Block
import Stackwise.Fault

/-!
# Balanced bodies

The contract every body meets before it is laid out: no instruction pops more than its block has
pushed, the stack is empty at every branch point and at the end of every block, every block ends in
a terminator, and every jump names a block of the body.  Phi markers count like any other
instruction, so a block that hands operands to its successor still balances by itself.

`verify` looks for the first violation, block by block and instruction by instruction; of several
faults of one instruction underflow comes first, then values left over, then an unknown target.
-/

namespace Stackwise.Code

/-- The height of the stack after an instruction, or the rule that the instruction breaks in a body
of `count` blocks. -/
def Instr.step (count : Nat) (height : Nat) (i : Instr) : Except Breach Nat :=
  if height < i.pops then .error (.underflow i height)
  else
    let after := height - i.pops + i.pushes
    if i.isBranchPoint && after != 0 then .error (.leftAfter after i)
    else
      match i.targets.find? (count ≤ ·) with
      | some target => .error (.unknownTarget target)
      | none => .ok after

/-- The height of the stack after a list of instructions, or the first broken rule with the
position of its instruction, counted from `position`. -/
def walk (count : Nat) : (height position : Nat) → List Instr → Except (Nat × Breach) Nat
  | height, _, [] => .ok height
  | height, position, i :: rest =>
    match i.step count height with
    | .error breach => .error (position, breach)
    | .ok after => walk count after (position + 1) rest

/-- The first broken rule of a block in a body of `count` blocks. -/
def Block.verify (count : Nat) (b : Block) : Except (Nat × Breach) Unit :=
  match walk count 0 0 b.code with
  | .error e => .error e
  | .ok height =>
    if height != 0 then .error (b.code.length, .leftAtExit height)
    else if b.code.getLast?.any Instr.isTerminator then .ok ()
    else .error (b.code.length, .noTerminator)

/-- Reports a broken rule of a block of the body called `name`. -/
def Block.fault (name : String) (b : Block) (found : Nat × Breach) : Fault :=
  .invariant name b.label found.1 found.2

/-- Accepts a body that keeps the contract, and otherwise reports its first violation. -/
def verify (name : String) (blocks : List Block) : Except Fault Unit :=
  blocks.forM fun b => (b.verify blocks.length).mapError (b.fault name)

end Stackwise.Code
