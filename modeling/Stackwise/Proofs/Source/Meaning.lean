import Stackwise.Source.Module

/-!
# What functions mean

The meaning of functions that compute with integers and pass control from block to block: integer
arithmetic, comparisons, `select`, `freeze`, phis, branches and returns.  What the operations give
is left to a `Meaning`, which may also refuse (a division by zero); what is fixed here is how values
and control flow.

* Every instruction names the value it has computed last (`Env`).
* On an edge all phis of the target take their values at once, from the state before the edge
  (`Meaning.enter`), so two phis may exchange their values.
* `Meaning.execute` runs a function from its first block to a return, and gives the blocks that it
  has been through.

A run that reads a value that was never computed, or meets any other instruction, has no result.
-/

namespace Stackwise.Source

/-- Whether an operation is one on integers. -/
def BinaryOp.isInteger : BinaryOp → Bool
  | .fadd | .fsub | .fmul | .fdiv | .frem => false
  | _ => true

/-- Whether an instruction is one of those whose meaning is given here. -/
def Opcode.isCore : Opcode → Bool
  | .binary op => op.isInteger
  | .icmp _ | .select | .freeze | .phi | .br | .ret => true
  | _ => false

/-- Whether an operand is a block, an integer constant, an argument or an instruction. -/
def Operand.isCore (m : Module) : Operand → Bool
  | .block _ => true
  | .value id =>
    match m.value? id with
    | some ⟨_, .int _, _⟩ | some ⟨_, .argument _ _, _⟩ | some ⟨_, .instruction _, _⟩ => true
    | _ => false

/-- Whether all instructions of a function are among those whose meaning is given here. -/
def Module.isCore (m : Module) (f : Function) : Bool :=
  (m.bodyOf f).all fun (_, i) => i.opcode.isCore && i.operands.all (Operand.isCore m)

theorem Module.isCore_iff {m : Module} {f : Function} :
    m.isCore f = true ↔ ∀ {id i}, (id, i) ∈ m.bodyOf f → i.opcode.isCore = true ∧
      ∀ o ∈ i.operands, o.isCore m = true := by
  simp [Module.isCore, List.all_eq_true]

/-- What integer operations give, for some kind of values. -/
structure Meaning (V : Type) where
  /-- A constant of some width. -/
  int : (bits : Nat) → Int → V
  binary : BinaryOp → V → V → Option V
  compare : IntPredicate → V → V → Option V
  /-- What a value says as a condition. -/
  truth : V → Option Bool

/-- The values that the instructions have computed so far, by number. -/
def Env (V : Type) : Type := Nat → Option V

namespace Env

variable {V : Type}

/-- The values before the first instruction. -/
def empty : Env V := fun _ => none

/-- The values after an instruction has computed another one. -/
def set (env : Env V) (id : Nat) (x : V) : Env V := fun other =>
  if other = id then some x else env other

/-- Gives new values to some instructions, all at once. -/
def assign (env : Env V) (news : List (Nat × V)) : Env V := fun id =>
  (news.lookup id).or (env id)

/-- What comes first in the list decides, as if it were done last. -/
theorem assign_cons (env : Env V) (id : Nat) (x : V) (news : List (Nat × V)) :
    env.assign ((id, x) :: news) = (env.assign news).set id x := by
  funext other
  rw [assign, List.lookup_cons, set, assign]
  by_cases same : other = id
  · rw [if_pos same, beq_iff_eq.2 same]
    rfl
  · rw [if_neg same, beq_eq_false_iff_ne.2 same]

/-- Giving the values one after another, from the last to the first, comes to the same. -/
theorem assign_eq_foldl (env : Env V) (news : List (Nat × V)) :
    env.assign news = news.reverse.foldl (fun env p => env.set p.1 p.2) env := by
  induction news with
  | nil => rfl
  | cons p news ih =>
    rw [assign_cons, ih, List.reverse_cons, List.foldl_append]
    rfl

end Env

/-- Where control goes at the end of a block. -/
inductive Flow (V : Type) where
  | goto (target : Nat) (env : Env V)
  | return (value : Option V)

namespace Meaning

variable {V : Type} (M : Meaning V) (m : Module) (function : Nat) (args : Nat → V)

/-- The value of an operand: a constant, an argument of the function, or what an instruction has
computed. -/
def eval (env : Env V) (id : Nat) : Option V :=
  (m.value? id).bind fun v =>
    match v.kind with
    | .int n => (m.types.intBits? v.ty).map (M.int · n)
    | .argument owner index => if owner = function then some (args index) else none
    | .instruction _ => env id
    | _ => none

/-- The value of the operand of an instruction at a position. -/
def operand (env : Env V) (i : Instruction) (index : Nat) : Option V :=
  (i.valueAt? index).bind (M.eval m function args env)

/-- What an instruction computes that neither is a phi nor passes control on. -/
def compute (env : Env V) (i : Instruction) : Option V := do
  match i.opcode with
  | .binary op =>
    M.binary op (← M.operand m function args env i 0) (← M.operand m function args env i 1)
  | .icmp predicate =>
    M.compare predicate (← M.operand m function args env i 0) (← M.operand m function args env i 1)
  | .select =>
    let cond ← M.truth (← M.operand m function args env i 0)
    let x ← M.operand m function args env i 1
    let y ← M.operand m function args env i 2
    return if cond then x else y
  | .freeze => M.operand m function args env i 0
  | _ => none

/-- A branch, to its one operand, or on a condition, whose operands are the condition, the block for
false and the block for true. -/
def branch (env : Env V) (i : Instruction) : Option (Flow V) :=
  match i.operands with
  | [.block target] => some (.goto target env)
  | [.value cond, .block ifFalse, .block ifTrue] =>
    ((M.eval m function args env cond).bind M.truth).map fun outcome =>
      .goto (if outcome then ifTrue else ifFalse) env
  | _ => none

/-- A return, with or without a value. -/
def leave (env : Env V) (i : Instruction) : Option (Flow V) :=
  match i.valueAt? 0 with
  | some value => (M.eval m function args env value).map fun x => .return (some x)
  | none => some (.return none)

/-- Runs instructions up to the first branch or return. -/
def flow : Env V → List (Nat × Instruction) → Option (Flow V)
  | _, [] => none
  | env, (id, i) :: rest =>
    match i.opcode with
    | .br => M.branch m function args env i
    | .ret => M.leave m function args env i
    | _ => (M.compute m function args env i).bind fun x => flow (env.set id x) rest

/-- The value that a phi takes on the edge from a block. -/
def incoming (env : Env V) (origin phi : Nat) : Option V :=
  (m.phiIncoming? phi origin).bind (M.eval m function args env)

/-- Takes an edge: the phis at the start of the target get their values, all at once. -/
def enter (env : Env V) (origin target : Nat) : Option (Env V) := do
  let phis ← m.leadingPhis? function target
  let values ← phis.mapM (M.incoming m function args env origin)
  return env.assign (phis.zip values)

/-- The instructions of a block behind its leading phis. -/
def afterPhis (code : List (Nat × Instruction)) : List (Nat × Instruction) :=
  code.dropWhile fun (_, i) => i.opcode == .phi

/-- Runs a function from the start of a block, whose phis have their values, through at most `fuel`
blocks to a return.  Gives the blocks that were entered and the value returned. -/
def run : (fuel block : Nat) → Env V → Option (List Nat × Option V)
  | 0, _, _ => none
  | fuel + 1, block, env => do
    let code ← m.blockInstructions? function block
    match ← M.flow m function args env (afterPhis code) with
    | .return value => return ([block], value)
    | .goto target env =>
      let env ← M.enter m function args env block target
      let (later, value) ← run fuel target env
      return (block :: later, value)

/-- Runs a function from its first block, which nothing gives values to phis of. -/
def execute (fuel : Nat) : Option (List Nat × Option V) :=
  if m.leadingPhis? function 0 = some [] then M.run m function args fuel 0 .empty else none

end Meaning

end Stackwise.Source
