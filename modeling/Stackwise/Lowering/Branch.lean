import Stackwise.Lowering.Draft

/-!
# Edges, branches, switches, returns

A block hands the operands of its successor's phis over on the stack: it pushes them in the order
of the phis and marks each with `phiEnqueue`, and the successor takes them over in reverse order,
since the last one pushed is on top.

A conditional jump cannot carry operands.  It goes to the side without phis while the other side
follows inline; if both sides have phis, the one jumped to is reached through a block made for the
purpose.
-/

namespace Stackwise.Lowering

open Code (Instr)
open Source (Instruction)

/-- Takes over the operands for the phis of a block, given last phi first. -/
def takeOver : List Nat → Emit Unit
  | [] => return
  | phi :: rest => do
    let ty ← Emit.lowerType (← Emit.typeOf phi) phi "phi"
    let result ← Emit.resultOf phi
    Emit.code [.phiDequeue ty, .store result]
    takeOver rest

/-- Hands over the operands for phis on the edge from a block. -/
def handOver (origin : Nat) : List Nat → Emit Unit
  | [] => return
  | phi :: rest => do
    let m ← Emit.module
    match m.phiIncoming? phi origin with
    | some value =>
      push value
      let ty ← Emit.lowerType (← Emit.typeOf phi) phi "phi"
      Emit.instr (.phiEnqueue ty)
      handOver origin rest
    | none => Emit.breach (.noIncoming · origin) phi

/-- An edge from a source block to a block: the operands for its phis, then the jump. -/
def edge (source : SourceBlock) (target : Nat) : Emit Unit := do
  let phis ← Emit.required ((← Emit.module).leadingPhis? source.function target)
  handOver source.block phis
  Emit.instr (.branch target)

/-- Whether a block begins with a phi. -/
def hasPhis (source : SourceBlock) (target : Nat) : Lower Bool := do
  Lower.required ((← Lower.module).startsWithPhi? source.function target)

/-- Branches on the truth value on top of the stack. -/
def branchOn (source : SourceBlock) (ifTrue ifFalse : Nat) : Lower Unit := do
  if !(← hasPhis source ifTrue) then
    Lower.instr (.branchIfTrue ifTrue)
    Lower.emit (edge source ifFalse)
  else if !(← hasPhis source ifFalse) then
    Lower.instr (.branchIfFalse ifFalse)
    Lower.emit (edge source ifTrue)
  else
    let detour ← Lower.newBlock
    Lower.instr (.branchIfTrue detour)
    Lower.emit (edge source ifFalse)
    Lower.positionAt detour
    Lower.emit (edge source ifTrue)

/-- Pushes a condition, which must be one bit wide. -/
def pushCondition (cond id : Nat) : Emit Unit := do
  if (← Emit.module).types.intBits? (← Emit.typeOf cond) = some 1 then push cond
  else Emit.unsupported "br" .nonBooleanCondition id

/-- A branch: to its one operand, or on a condition, whose operands are the condition, the block
for false and the block for true. -/
def lowerBr (source : SourceBlock) (id : Nat) (i : Instruction) : Lower Unit := do
  match i.operands with
  | [.block target] => Lower.emit (edge source target)
  | [_] => Lower.emit (Emit.breach .malformed id)
  | [.value cond, .block ifFalse, .block ifTrue] =>
    Lower.emit (pushCondition cond id)
    branchOn source ifTrue ifFalse
  | [_, _, _] => Lower.emit (Emit.breach .malformed id)
  | operands => Lower.emit do Emit.breachAt (← Emit.spot) (.branchArity operands.length)

/-! ## Switches -/

/-- A case of a switch: its value, the label to jump to, and, if that is a block made to hand over
operands, the block it leads to. -/
structure Case where
  value : Int
  label : Nat
  detour : Option Nat
deriving DecidableEq, Repr

/-- Reads the cases of a switch; every target with phis gets a block of its own. -/
def readCases (source : SourceBlock) (id : Nat) : List Source.Operand → Lower (List Case)
  | [] => return []
  | .value value :: .block target :: rest => do
    let value ← Lower.emit do
      Emit.supported (← Emit.sourceValue value).int? "switch" .nonConstantCase id
    if ← hasPhis source target then
      let label ← Lower.newBlock
      return ⟨value, label, some target⟩ :: (← readCases source id rest)
    else
      return ⟨value, target, none⟩ :: (← readCases source id rest)
  | _ => Lower.emit (Emit.breach .malformed id)

/-- Whether the cases are `0, 1, 2, …` in this order, from `next` on. -/
def isDense : (next : Int) → List Case → Bool
  | _, [] => true
  | next, c :: rest => c.value == next && isDense (next + 1) rest

/-- Jumps to the first case that equals the variable `index`, of source type `ty`. -/
def compareCases (index ty id : Nat) : List Case → Emit Unit
  | [] => return
  | c :: rest => do
    Emit.instr (.load index)
    pushInt c.value ty id
    Emit.instr (.branchIfEqual c.label)
    compareCases index ty id rest

/-- Dispatches on an index: by a jump table if the cases are dense and the index is narrow, else by
a chain of comparisons. -/
def dispatch (index ty bits id : Nat) (cases : List Case) : Emit Unit := do
  if bits < 64 && !cases.isEmpty && isDense 0 cases then
    push index
    Emit.instr (.switch (cases.map (·.label)))
  else
    let copy ← Emit.freshSlot (← Emit.lowerType ty id "switch") none
    push index
    Emit.instr (.store copy)
    compareCases copy ty id cases

/-- Fills the blocks that were made to hand over operands. -/
def fillDetours (source : SourceBlock) : List Case → Lower Unit
  | [] => return
  | ⟨_, label, some target⟩ :: rest => do
    Lower.positionAt label
    Lower.emit (edge source target)
    fillDetours source rest
  | ⟨_, _, none⟩ :: rest => fillDetours source rest

/-- A switch. -/
def lowerSwitch (source : SourceBlock) (id : Nat) (i : Instruction) : Lower Unit := do
  match i.operands with
  | .value index :: .block default :: rest =>
    let (ty, bits) ← Lower.emit do
      let ty ← Emit.typeOf index
      let bits? := ((← Emit.module).types.intBits? ty).filter (· ≤ 64)
      return (ty, ← Emit.supported bits? "switch" .indexType id)
    let cases ← readCases source id rest
    Lower.emit (dispatch index ty bits id cases)
    Lower.emit (edge source default)
    fillDetours source cases
  | _ => Lower.emit (Emit.breach .malformed id)

/-! ## Returns -/

/-- Leaves the heap frame, if there is one. -/
def leaveFrame : Emit Unit := do
  if (← Emit.context).needsFrame then Emit.instr .leaveFrame

/-- Returns the zero value of what the body returns. -/
def returnDefault : Emit Unit := do
  leaveFrame
  Emit.instr (.retDefault (← Emit.context).returns)

/-- A return. -/
def lowerRet (i : Instruction) : Emit Unit := do
  let value := i.valueAt? 0
  match value with
  | some value => push value
  | none => pure ()
  leaveFrame
  Emit.instr (.ret value.isSome)

end Stackwise.Lowering
