import Stackwise.Proofs.Code.Machine
import Stackwise.Proofs.Lowering.Allocation
import Stackwise.Proofs.Source.Meaning

/-!
# What straight-line code computes

On a machine whose instructions compute the source operations they are written for (`Faithful`), the
code of a source instruction computes what the instruction means.  The link between the two is
`Matches`: the cell of every instruction holds what it has computed last, the cells of parameters
and constants hold what they stand for.

Code is judged within the finished table of variables (`Emit.Writes`), since a cell is known only by
its number in that table.
-/

namespace Stackwise.Lowering

open Code (Constant Instr Machine Storage)
open Source (Env Function Instruction Meaning Module)

variable {V S : Type}

/-! ## Interpretations -/

/-- What the operations of the source and the instructions of the machine do, for the same values,
and the arguments with which a function is called. -/
structure Interpretation (V S : Type) extends Machine V S where
  meaning : Meaning V
  /-- The value of a constant at a type. -/
  literal : Constant → Code.Ty → V
  args : Nat → V

/-- The code of a test, given a variable that holds zero. -/
def testCode (test : Test) (z : Nat) : List Instr :=
  .compare test.comparison :: if test.inverted then [.load z, .compare .eq] else []

/-- Each instruction written for a source operation computes that operation. -/
structure Faithful (I : Interpretation V S) (c : Conventions) (m : Module) (f : Function) :
    Prop where
  /-- Variables are cells. -/
  read_write : ∀ store var x other,
    I.read (I.write store var x) other = if other = var then x else I.read store other
  /-- A truth value is 0 or 1. -/
  bit : ∀ n, I.literal (.i4 (if n = 0 then 0 else 1)) .bool = I.meaning.int 1 n
  narrow : ∀ {ty bits target} n, m.types.intBits? ty = some bits → 2 ≤ bits ∧ bits ≤ 32 →
    c.lowerType m ty = some target →
      I.literal (.i4 (Word.signed 32 n)) target = I.meaning.int bits n
  wide : ∀ {ty bits target} n, m.types.intBits? ty = some bits → 33 ≤ bits ∧ bits ≤ 64 →
    c.lowerType m ty = some target →
      I.literal (.i8 (Word.signed 64 n)) target = I.meaning.int bits n
  widest : ∀ n store, Word.isSigned 64 n = true →
    I.plain (.convert .int128 false) [I.literal (.i8 n) .int64] store =
      some ([I.meaning.int 128 n], store)
  binary : ∀ {op x y r} store, op.isInteger = true → I.meaning.binary op x y = some r →
    I.plain (.binary (binaryOp op)) [y, x] store = some ([r], store)
  compare : ∀ {predicate x y r z} store, I.meaning.compare predicate x y = some r →
    ((intTest predicate).inverted = true → I.read store z = I.literal (.i4 0) .int32) →
      I.steps (testCode (intTest predicate) z) [y, x] store = some ([r], store)
  /-- The routine for each `select` of the function. -/
  select : ∀ {id i ty target cond outcome} x y store, (id, i) ∈ m.bodyOf f → i.opcode = .select →
    m.typeOf? id = some ty → c.lowerType m ty = some target → I.meaning.truth cond = some outcome →
      I.plain (.call (.helper (.select target)) (Code.Helper.select target).signature) [y, x, cond]
        store = some ([if outcome then x else y], store)
  /-- Operands of phis stay on the stack. -/
  phiEnqueue : ∀ ty stack store, I.control (.phiEnqueue ty) stack store = .next stack store
  phiDequeue : ∀ ty stack store, I.control (.phiDequeue ty) stack store = .next stack store
  branch : ∀ label stack store, I.control (.branch label) stack store = .jump label stack store
  branchIfTrue : ∀ {x outcome} label stack store, I.meaning.truth x = some outcome →
    I.control (.branchIfTrue label) (x :: stack) store =
      if outcome then .jump label stack store else .next stack store
  branchIfFalse : ∀ {x outcome} label stack store, I.meaning.truth x = some outcome →
    I.control (.branchIfFalse label) (x :: stack) store =
      if outcome then .next stack store else .jump label stack store
  ret : ∀ x stack store, I.control (.ret true) (x :: stack) store = .leave (some x) store
  retVoid : ∀ stack store, I.control (.ret false) stack store = .leave none store
  /-- A heap frame comes and goes without touching other cells. -/
  frame : ∀ i store, i = .enterFrame ∨ i = .leaveFrame → ∃ store',
    I.plain i [] store = some ([], store') ∧ ∀ var, I.read store' var = I.read store var

/-! ## Matching states -/

/-- The cells of parameters and constants hold what they stand for. -/
structure Holds (I : Interpretation V S) (storage : Storage) (store : S) : Prop where
  parameter : ∀ {var v index}, storage.get? var = some v → v.place = .parameter index →
    I.read store var = I.args index
  constant : ∀ {var v value}, storage.get? var = some v → v.place = .constant value →
    I.read store var = I.literal value v.ty

/-- The cells of instructions hold the values that the instructions have computed. -/
structure Matches (I : Interpretation V S) (c : Context) (storage : Storage) (env : Env V)
    (store : S) : Prop extends Holds I storage store where
  result : ∀ {id x}, env id = some x →
    ∃ var, c.homes.results.find? id = some var ∧ I.read store var = x
  /-- An allocation computes nothing. -/
  computed : ∀ {id x}, env id = some x → c.homes.allocations.find? id = none

section

variable {I : Interpretation V S} {c : Context} {f : Function} {storage : Storage} {env : Env V}
  {store : S}

/-- An instruction of the core is no local variable, so it has no variable for an allocation. -/
theorem Housed.not_allocation {m : Module} {homes : Homes} {s : Storage} (h : Housed m homes s)
    {id : Nat} {i : Instruction} (isInstruction : m.instruction? id = some i)
    (core : i.opcode.isCore = true) : homes.allocations.find? id = none := by
  cases found : homes.allocations.find? id with
  | none => rfl
  | some var =>
    obtain ⟨-, i', allocated, isInstruction', isAlloca⟩ := h.allocation found
    cases isInstruction.symm.trans isInstruction'
    rw [isAlloca] at core
    cases core

/-- An instruction computes a value into its variable. -/
theorem Matches.set (h : Matches I c storage env store)
    (faithful : Faithful I c.conventions c.module f) (housed : Housed c.module c.homes storage)
    {id var : Nat} {i : Instruction} (isInstruction : c.module.instruction? id = some i)
    (core : i.opcode.isCore = true) (found : c.homes.results.find? id = some var) (x : V) :
    Matches I c storage (env.set id x) (I.write store var x) := by
  obtain ⟨v, there, -, slot⟩ := housed.result found
  -- A variable at any other place is another one.
  have elsewhere {other : Nat} {w : Code.Variable} (there' : storage.get? other = some w)
      (place : w.place ≠ .slot) : I.read (I.write store var x) other = I.read store other := by
    rw [faithful.read_write, if_neg]
    rintro rfl
    rw [there] at there'
    cases there'
    exact place slot
  constructor
  · constructor
    · intro other w index there' place
      rw [elsewhere there' (by simp [place])]
      exact h.parameter there' place
    · intro other w value there' place
      rw [elsewhere there' (by simp [place])]
      exact h.constant there' place
  · intro id' y found'
    rw [Env.set] at found'
    split at found'
    · rename_i same
      cases found'
      exact ⟨var, same ▸ found, by rw [faithful.read_write, if_pos rfl]⟩
    · rename_i other
      obtain ⟨var', there', holds⟩ := h.result found'
      refine ⟨var', there', ?_⟩
      rw [faithful.read_write, if_neg, holds]
      rintro rfl
      exact other (housed.result_injective there' found)
  · intro id' y found'
    rw [Env.set] at found'
    split at found'
    · rename_i same
      exact same ▸ housed.not_allocation isInstruction core
    · exact h.computed found'

/-- Stores that hold the same in every cell match the same. -/
theorem Matches.congr (h : Matches I c storage env store) {store' : S}
    (same : ∀ var, I.read store' var = I.read store var) :
    Matches I c storage env store' := by
  constructor
  · constructor
    · intro var v index there place
      rw [same, h.parameter there place]
    · intro var v value there place
      rw [same, h.constant there place]
  · intro id x found
    obtain ⟨var, there, holds⟩ := h.result found
    exact ⟨var, there, by rw [same, holds]⟩
  · exact h.computed

end

/-! ## Pushing -/

section

variable {I : Interpretation V S} {c : Context} {function : Nat} {f : Function}

open Emit (Writes)

/-- The code pushes what `value` makes of the state of the source. -/
def Pushes (I : Interpretation V S) (c : Context) (value : Env V → Option V) (final : Storage)
    (code : List Instr) : Prop :=
  ∀ ⦃env : Env V⦄ ⦃store : S⦄ ⦃x : V⦄, Matches I c final env store →
    value env = some x → ∀ stack, I.Leads code stack store (x :: stack) store

/-- Loading a variable pushes a value if the variable holds it in every state that matches. -/
theorem pushes_load {value : Env V → Option V} {final : Storage} {var : Nat}
    (h : ∀ {env store x}, Matches I c final env store → value env = some x →
      I.read store var = x) : Pushes I c value final [.load var] := by
  intro env store x holds gives stack
  have led := Machine.leads_load (μ := I.toMachine) var stack store
  rwa [h holds gives] at led

/-- The variable stands for a constant. -/
def IsConstant (final : Storage) (value : Constant) (ty : Code.Ty) (var : Nat) : Prop :=
  ∃ v, final.get? var = some v ∧ v.place = .constant value ∧ v.ty = ty

/-- The variable of a constant holds it. -/
theorem Holds.read_constant {final : Storage} {store : S} {value : Constant} {ty : Code.Ty}
    {var : Nat} (h : Holds I final store) (isConstant : IsConstant final value ty var) :
    I.read store var = I.literal value ty := by
  obtain ⟨v, there, place, rfl⟩ := isConstant
  exact h.constant there place

theorem shared_loads (s : Ledger) (place : Code.Place) (unframed : place.isFrameField = false)
    (ty : Code.Ty) :
    Writes c s (do Emit.instr (.load (← Emit.shared place ty))) fun final code =>
      ∃ var v, code = [.load var] ∧ final.get? var = some v ∧ isShared place ty v = true := by
  refine Emit.Ensures.bind (Emit.shared_ensures unframed ty) ?_
  intro e ⟨nothing, grown, v, there, hit⟩ spot e' run
  rw [nothing]
  cases run
  exact ⟨grown, fun final later => ⟨e.value, v, rfl, later.get?_eq_some there, hit⟩⟩

/-- A constant is pushed by loading a variable that stands for it. -/
theorem constant_loads (s : Ledger) (value : Constant) (ty : Code.Ty) :
    Writes c s (Emit.constant value ty) fun final code =>
      ∃ var, code = [.load var] ∧ IsConstant final value ty var := by
  refine (shared_loads s (.constant value) rfl ty).imp ?_
  intro final code _ ⟨var, v, same, there, hit⟩
  simp only [isShared, Bool.and_eq_true, beq_iff_eq] at hit
  exact ⟨var, same, v, there, hit⟩

/-- So its value is pushed. -/
theorem constant_writes (s : Ledger) (value : Constant) (ty : Code.Ty) :
    Writes c s (Emit.constant value ty)
      (Pushes I c fun _ => some (I.literal value ty)) := by
  refine (constant_loads s value ty).imp fun final code _ ⟨var, same, isConstant⟩ => ?_
  rw [same]
  refine pushes_load fun holds gives => ?_
  cases gives
  exact holds.read_constant isConstant

/-- A number of an integer type is pushed, as the source means it. -/
theorem pushInt_writes (faithful : Faithful I c.conventions c.module f) (s : Ledger)
    (n : Int) (ty origin : Nat) :
    Writes c s (pushInt n ty origin) (Pushes I c fun _ =>
      (c.module.types.intBits? ty).map (I.meaning.int · n)) := by
  refine .read Emit.module_reads fun _ same => ?_
  rw [same]
  refine .read (Emit.supported_reads _ _ _ _) fun bits wide => ?_
  simp only [wide, Option.map_some]
  -- In each case a constant stands for the number, at the type that it is lowered to.
  split
  · rename_i bit
    rw [bit, ← faithful.bit]
    exact constant_writes s _ _
  split
  · rename_i narrow
    refine .read (Emit.lowerType_reads _ _ _) fun target lowered => ?_
    rw [← faithful.narrow n wide narrow lowered]
    exact constant_writes s _ _
  split
  · rename_i medium
    refine .read (Emit.lowerType_reads _ _ _) fun target lowered => ?_
    rw [← faithful.wide n wide medium lowered]
    exact constant_writes s _ _
  split
  · rename_i widest
    split
    · rename_i fits
      rw [widest]
      have converts (s : Ledger) : Writes c s (Emit.instr (.convert .int128 false))
          fun _ code => ∀ stack store, I.Leads code (I.literal (.i8 n) .int64 :: stack) store
            (I.meaning.int 128 n :: stack) store :=
        Emit.instr_writes fun _ _ stack store =>
          Machine.leads_plain (.convert .int128 false) [_] [_] rfl rfl
            (faithful.widest n store fits) stack
      refine Writes.bind (constant_writes (I := I) s (.i8 n) .int64)
        (fun _ s' _ => converts s') ?_
      intro final code code' _ pushed converted env store x holds gives stack
      cases gives
      exact (pushed holds rfl stack).append (converted stack store)
    · exact Emit.unsupported_ensures _ _ _
  · exact Emit.unsupported_ensures _ _ _

/-- The result of an instruction is pushed from the variable that keeps it. -/
theorem pushResult_writes (s : Ledger) (id : Nat) :
    Writes c s (pushResult id) (Pushes I c fun env => env id) := by
  refine .read Emit.context_reads fun _ same => ?_
  rw [same]
  split
  · -- An allocation never computes a value.
    rename_i found
    refine Emit.instr_writes fun final grown env store x holds gives => ?_
    rw [holds.computed gives] at found
    cases found
  · refine .read (Emit.resultOf_reads _) fun var found => ?_
    refine Emit.instr_writes fun final grown => pushes_load fun holds gives => ?_
    obtain ⟨var', found', read⟩ := holds.result gives
    cases found.symm.trans found'
    exact read

/-- An argument of the function is pushed from its parameter. -/
theorem pushArgument_writes (s : Ledger) (v : Source.Value) (owner index id : Nat)
    (here : c.function = some function) :
    Writes c s (pushArgument v owner index id) (Pushes I c fun _ =>
      if owner = function then some (I.args index) else none) := by
  refine .read Emit.context_reads fun _ same => ?_
  rw [same, here]
  split
  · refine .read (Emit.lowerType_reads _ _ _) fun ty _ => ?_
    refine (shared_loads s (.parameter index) rfl ty).imp ?_
    intro final code _ ⟨var, v, same, there, hit⟩
    rw [same]
    refine pushes_load fun holds gives => ?_
    split at gives
    · cases gives
      apply holds.parameter there
      simpa [isShared] using hit
    · cases gives
  · exact Emit.breach_ensures _ _

/-- Pushing an operand pushes its value. -/
theorem push_writes (faithful : Faithful I c.conventions c.module f)
    (here : c.function = some function) (s : Ledger) {id : Nat}
    (core : (Source.Operand.value id).isCore c.module = true) :
    Writes c s (push id) (Pushes I c fun env =>
      I.meaning.eval c.module function I.args env id) := by
  unfold push pushWithin
  refine .read (Emit.sourceValue_reads id) fun v found => ?_
  simp only [Source.Operand.isCore, found] at core
  simp only [Meaning.eval, found, Option.bind_some]
  cases kind : v.kind with
  | int n => exact pushInt_writes faithful s n v.ty id
  | argument owner index => exact pushArgument_writes s v owner index id here
  | instruction i => exact pushResult_writes s id
  | _ =>
    obtain ⟨ty, _, name⟩ := v
    cases kind
    simp at core

/-! ## Computing -/

/-- What code does to a stack, given the state of the source. -/
def Effect (V : Type) : Type := Env V → List V → Option (List V)

namespace Effect

/-- Pushes a value. -/
def push (value : Env V → Option V) : Effect V := fun env stack =>
  (value env).map (· :: stack)

/-- Replaces the two topmost values. -/
def apply (op : V → V → Option V) : Effect V
  | _, y :: x :: stack => (op x y).map (· :: stack)
  | _, _ => none

/-- Chooses between the two topmost values by the third. -/
def choose (truth : V → Option Bool) : Effect V
  | _, y :: x :: cond :: stack =>
    (truth cond).map fun outcome => (if outcome then x else y) :: stack
  | _, _ => none

/-- Leaves the stack as it is. -/
def keep : Effect V := fun _ stack => some stack

def andThen (first second : Effect V) : Effect V := fun env stack =>
  (first env stack).bind (second env)

/-- An operation is applied to two values that are pushed for it. -/
theorem push_push_apply {first second : Env V → Option V} {op : V → V → Option V} {env : Env V}
    {r : V} (h : ((first env).bind fun x => (second env).bind (op x)) = some r) (stack : List V) :
    (push first).andThen ((push second).andThen (apply op)) env stack = some (r :: stack) := by
  obtain ⟨x, isFirst, h⟩ := Option.bind_eq_some_iff.1 h
  obtain ⟨y, isSecond, applied⟩ := Option.bind_eq_some_iff.1 h
  simp [andThen, push, apply, isFirst, isSecond, applied]

end Effect

/-- The code has an effect on the stack, and then stores the topmost value in a variable. -/
def Stores (I : Interpretation V S) (c : Context) (effect : Effect V) (var : Nat)
    (final : Storage) (code : List Instr) : Prop :=
  ∀ ⦃env : Env V⦄ ⦃store : S⦄ ⦃x : V⦄ ⦃stack stack' : List V⦄,
    Matches I c final env store → effect env stack = some (x :: stack') →
      I.Leads code stack store stack' (I.write store var x)

/-- A value that is pushed first is there for the effect of the rest. -/
theorem push_stores {α β : Type} {s : Ledger} {first : Emit α} {rest : α → Emit β} {var : Nat}
    {value : Env V → Option V} {effect : Effect V}
    (pushes : Writes c s first (Pushes I c value))
    (stores : ∀ a (s' : Ledger), s.Grows c.module s' →
      Writes c s' (rest a) (Stores I c effect var)) :
    Writes c s (first >>= rest)
      (Stores I c ((Effect.push value).andThen effect) var) := by
  refine Writes.bind pushes stores ?_
  intro final code code' _ pushed stored env store x stack stack' holds gives
  rw [Effect.andThen, Effect.push, Option.bind_map, Option.bind_eq_some_iff] at gives
  obtain ⟨y, value, gives⟩ := gives
  exact (pushed holds value stack).append (stored holds gives)

/-- A test is written as its comparison, which is compared with zero if it is inverted. -/
theorem runTest_writes (s : Ledger) (test : Test) :
    Writes c s (runTest test) fun final code => ∃ z, code = testCode test z ∧
      (test.inverted = true → IsConstant final (.i4 0) .int32 z) := by
  obtain ⟨comparison, inverted⟩ := test
  cases inverted with
  | false =>
    exact Writes.bind (P := fun _ code => code = [.compare comparison])
      (Q := fun _ code => code = [])
      (Emit.instr_writes fun _ _ => rfl) (fun _ _ _ => .pure fun _ _ => rfl)
      fun _ _ _ _ first second => ⟨0, by rw [first, second]; rfl, nofun⟩
  | true =>
    refine Writes.bind (P := fun _ code => code = [.compare comparison])
      (Emit.instr_writes fun _ _ => rfl)
      (fun _ s _ => Writes.bind (Q := fun _ code => code = [.compare .eq])
        (R := fun final code => ∃ z, code = [.load z, .compare .eq] ∧
          IsConstant final (.i4 0) .int32 z)
        (constant_loads s _ _) (fun _ _ _ => Emit.instr_writes fun _ _ => rfl) ?_) ?_
    · rintro final _ _ - ⟨z, rfl, isConstant⟩ rfl
      exact ⟨z, rfl, isConstant⟩
    · rintro final _ _ - rfl ⟨z, rfl, isConstant⟩
      exact ⟨z, rfl, fun _ => isConstant⟩

/-- A test replaces two values by one. -/
theorem climb_testCode (test : Test) (z : Nat) : Code.climb 2 (testCode test z) = some 1 := by
  obtain ⟨comparison, inverted⟩ := test
  cases inverted <;> rfl

theorem keep_stores (s : Ledger) (var : Nat) :
    Writes c s (Emit.instr (.store var)) (Stores I c .keep var) := by
  refine Emit.instr_writes fun final _ env store x stack stack' _ gives => ?_
  cases gives
  exact Machine.leads_store var x stack' store

/-- An operation on integers applies what the source means by it to the two topmost values. -/
theorem binary_stores (faithful : Faithful I c.conventions c.module f) (s : Ledger)
    {op : Source.BinaryOp} (integer : op.isInteger = true) (var : Nat) :
    Writes c s (Emit.code [.binary (binaryOp op), .store var])
      (Stores I c (.apply (I.meaning.binary op)) var) := by
  refine Emit.code_writes fun final _ env store r stack stack' _ gives => ?_
  match stack with
  | [] | [_] => cases gives
  | y :: x :: stack =>
    obtain ⟨r', computed, same⟩ := Option.map_eq_some_iff.1 gives
    cases same
    exact (Machine.leads_plain (.binary (binaryOp op)) [y, x] [r] rfl rfl
      (faithful.binary store integer computed) _).append (Machine.leads_store var r _ store)

/-- A comparison of integers applies what the source means by it. -/
theorem compare_stores (faithful : Faithful I c.conventions c.module f) (s : Ledger)
    (predicate : Source.IntPredicate) (var : Nat) :
    Writes c s (do runTest (intTest predicate); Emit.instr (.store var))
      (Stores I c (.apply (I.meaning.compare predicate)) var) := by
  refine Writes.bind (runTest_writes s _) (fun _ s _ => keep_stores (I := I) s var) ?_
  rintro final _ code' - ⟨z, rfl, isConstant⟩ stored env store r stack stack' holds gives
  match stack with
  | [] | [_] => cases gives
  | y :: x :: stack =>
    obtain ⟨r', computed, same⟩ := Option.map_eq_some_iff.1 gives
    cases same
    have tested := faithful.compare store computed fun inverted =>
      holds.read_constant (isConstant inverted)
    have led := Machine.leads_steps [y, x] (climb_testCode (intTest predicate) z) tested stack'
    exact led.append (stored holds rfl)

/-- The support routine chooses between two values as the source does. -/
theorem select_stores (faithful : Faithful I c.conventions c.module f) (s : Ledger)
    {id ty : Nat} {i : Instruction} {target : Code.Ty} (mem : (id, i) ∈ c.module.bodyOf f)
    (opcode : i.opcode = .select) (typed : c.module.typeOf? id = some ty)
    (lowered : c.conventions.lowerType c.module ty = some target) (var : Nat) :
    Writes c s (do Emit.helper (.select target); Emit.instr (.store var))
      (Stores I c (.choose I.meaning.truth) var) := by
  refine Writes.bind (P := fun _ code => code = [Instr.call (.helper (.select target)) _])
    (Emit.instr_writes fun _ _ => rfl) (fun _ s _ => keep_stores (I := I) s var) ?_
  rintro final _ code' - rfl stored env store r stack stack' holds gives
  match stack with
  | [] | [_] | [_, _] => cases gives
  | y :: x :: cond :: stack =>
    obtain ⟨outcome, decided, same⟩ := Option.map_eq_some_iff.1 gives
    cases same
    have selected := faithful.select x y store mem opcode typed lowered decided
    exact (Machine.leads_plain (.call (.helper (.select target)) _) [y, x, cond] [_] rfl rfl
      selected _).append (stored holds rfl)

/-- The code computes an instruction and stores the outcome in a variable. -/
def Computes (I : Interpretation V S) (c : Context) (function : Nat) (i : Instruction) (var : Nat)
    (final : Storage) (code : List Instr) : Prop :=
  ∀ ⦃env : Env V⦄ ⦃store : S⦄ ⦃x : V⦄, Matches I c final env store →
    I.meaning.compute c.module function I.args env i = some x →
      ∀ stack, I.Leads code stack store stack (I.write store var x)

/-- Code with the effect of an instruction computes it. -/
theorem Stores.computes {i : Instruction} {effect : Effect V} {var : Nat} {final : Storage}
    {code : List Instr} (h : Stores I c effect var final code)
    (gives : ∀ env x stack, I.meaning.compute c.module function I.args env i = some x →
      effect env stack = some (x :: stack)) :
    Computes I c function i var final code :=
  fun env _ x holds computed stack => h holds (gives env x stack computed)

/-- An operation on values computes what the instruction means. -/
theorem operation_writes (faithful : Faithful I c.conventions c.module f)
    (here : c.function = some function) (s : Ledger) {id ty : Nat} {i : Instruction}
    {operands : List Nat} (mem : (id, i) ∈ c.module.bodyOf f) (core : i.opcode.isCore = true)
    (same : ∀ k, i.valueAt? k = operands[k]?)
    (values : ∀ v ∈ operands, (Source.Operand.value v).isCore c.module = true)
    (typed : c.module.typeOf? id = some ty) (var : Nat) :
    Writes c s (operation push i.opcode operands ty var id)
      (Computes I c function i var) := by
  unfold operation
  dsimp only
  refine .read Emit.spot_reads fun start _ => ?_
  refine .read Emit.module_reads fun m isModule => ?_
  have operand (s : Ledger) (k : Nat) (broken : Breach) :=
    Emit.operandAt_reads (c := c) (s := s) start operands k broken
  have pushed (s : Ledger) (k : Nat) (broken : Breach) :
      Writes c s (Emit.operandAt start operands k broken >>= push)
        (Pushes I c fun env => I.meaning.operand c.module function I.args env i k) := by
    refine .read (operand s k broken) fun value found => ?_
    simp only [Meaning.operand, same, found, Option.bind_some]
    exact push_writes faithful here s (values value (List.mem_of_getElem? found))
  cases opcode : i.opcode with
  | binary op =>
    rw [opcode] at core
    refine (push_stores (pushed s 0 _) fun _ s _ => push_stores (pushed s 1 _) fun _ s _ =>
      binary_stores faithful s core var).imp fun final code _ stores => ?_
    refine stores.computes fun env r stack computed => Effect.push_push_apply ?_ stack
    rwa [Meaning.compute, opcode] at computed
  | icmp predicate =>
    refine (push_stores (pushed s 0 _) fun _ s _ => push_stores (pushed s 1 _) fun _ s _ =>
      compare_stores faithful s predicate var).imp fun final code _ stores => ?_
    refine stores.computes fun env r stack computed => Effect.push_push_apply ?_ stack
    rwa [Meaning.compute, opcode] at computed
  | select =>
    refine .read (operand s 0 _) fun cond found => ?_
    refine .read (Emit.typeOf_reads _) fun _ _ => ?_
    split
    · refine .read (Emit.lowerType_reads _ _ _) fun target lowered => ?_
      have condition : Writes c s (push cond) (Pushes I c fun env =>
          I.meaning.eval c.module function I.args env cond) :=
        push_writes faithful here s (values cond (List.mem_of_getElem? found))
      refine (push_stores condition fun _ s _ => push_stores (pushed s 1 _) fun _ s _ =>
        push_stores (pushed s 2 _) fun _ s _ =>
          select_stores faithful s mem opcode typed lowered var).imp fun final code _ stores => ?_
      refine stores.computes fun env r stack computed => ?_
      simp only [Meaning.compute, opcode, Option.bind_eq_bind, Option.bind_eq_some_iff,
        Option.pure_def, Option.some.injEq] at computed
      obtain ⟨x, first, outcome, decided, y, second, z, third, rfl⟩ := computed
      rw [Meaning.operand, same, found, Option.bind_some] at first
      simp [Effect.andThen, Effect.push, Effect.choose, first, second, third, decided]
    · exact Emit.unsupported_ensures _ _ _
  | freeze =>
    refine (push_stores (pushed s 0 _) fun _ s _ => keep_stores (I := I) s var).imp
      fun final code _ stores => ?_
    refine stores.computes fun env r stack computed => ?_
    simp only [Meaning.compute, opcode] at computed
    simp [Effect.andThen, Effect.push, Effect.keep, computed]
  | phi | br | ret => exact Emit.unsupported_ensures _ _ _
  | _ =>
    rw [opcode] at core
    cases core

/-- If all operands are values, then they are read by position. -/
theorem valueAt?_eq {i : Instruction} {operands : List Nat}
    (h : i.operands.mapM Source.Operand.value? = some operands) (k : Nat) :
    i.valueAt? k = operands[k]? := by
  have same := congrArg (·[k]?) (mapM_eq_some_iff.1 h)
  simp only [List.getElem?_map] at same
  rw [Instruction.valueAt?]
  cases found : i.operands[k]? <;> cases found' : operands[k]? <;> simp [found, found'] at same ⊢
  exact same

theorem isCore_of_valueAt? {m : Module} {i : Instruction} {k v : Nat}
    (core : ∀ o ∈ i.operands, o.isCore m = true) (found : i.valueAt? k = some v) :
    (Source.Operand.value v).isCore m = true := by
  obtain ⟨o, there, isValue⟩ := Option.bind_eq_some_iff.1 found
  have isCore := core o (List.mem_of_getElem? there)
  cases o with
  | value id =>
    cases isValue
    exact isCore
  | block id => cases isValue

/-- An operation of the core is lowered to code that computes it and stores the outcome in the
variable of its result. -/
theorem lowerOperation_writes (faithful : Faithful I c.conventions c.module f)
    (here : c.function = some function) (core : c.module.isCore f = true) (s : Ledger) {id : Nat}
    {i : Instruction} (mem : (id, i) ∈ c.module.bodyOf f) :
    Writes c s (lowerOperation id i) fun final code => ∃ var,
      c.homes.results.find? id = some var ∧ Computes I c function i var final code := by
  obtain ⟨coreOpcode, coreOperands⟩ := Module.isCore_iff.1 core mem
  unfold lowerOperation
  split
  · exact Emit.unsupported_ensures _ _ _
  · rename_i operands listed
    have values : ∀ v ∈ operands, (Source.Operand.value v).isCore c.module = true := by
      intro v isOperand
      obtain ⟨k, there⟩ := List.mem_iff_getElem?.1 isOperand
      rw [← valueAt?_eq listed] at there
      exact isCore_of_valueAt? coreOperands there
    refine .read (Emit.resultOf_reads _) fun var found => ?_
    refine .read (Emit.typeOf_reads _) fun ty typed => ?_
    refine (operation_writes faithful here s mem coreOpcode (valueAt?_eq listed) values typed
      var).imp fun final code _ computes => ?_
    exact ⟨var, found, computes⟩

/-! ## Handing over -/

/-- The code hands over the values that phis take on the edge from a block. -/
def Hands (I : Interpretation V S) (c : Context) (function origin : Nat) (phis : List Nat)
    (final : Storage) (code : List Instr) : Prop :=
  ∀ ⦃env : Env V⦄ ⦃store : S⦄ ⦃xs : List V⦄, Matches I c final env store →
    phis.map (I.meaning.incoming c.module function I.args env origin) = xs.map some →
      ∀ stack, I.Leads code stack store (xs.reverse ++ stack) store

/-- The values that phis take on an edge are pushed, each as the source means it. -/
theorem handOver_writes (faithful : Faithful I c.conventions c.module f)
    (here : c.function = some function) (s : Ledger) {origin : Nat} {phis : List Nat}
    (core : ∀ phi ∈ phis, ∀ v, c.module.phiIncoming? phi origin = some v →
      (Source.Operand.value v).isCore c.module = true) :
    Writes c s (handOver origin phis)
      (Hands I c function origin phis) := by
  induction phis generalizing s with
  | nil =>
    refine .pure fun final _ env store xs _ same stack => ?_
    rw [List.map_nil, eq_comm, List.map_eq_nil_iff] at same
    rw [same]
    exact .refl _ _
  | cons phi phis ih =>
    refine .read Emit.module_reads fun _ isModule => ?_
    rw [isModule]
    split
    · rename_i v incoming
      have pushed : Writes c s (push v) (Pushes I c fun env =>
          I.meaning.eval c.module function I.args env v) :=
        push_writes faithful here s (core phi (by simp) v incoming)
      have rest (s : Ledger) := ih s fun phi mem => core phi (List.mem_cons_of_mem _ mem)
      have marked (s : Ledger) : Writes c s (do
          let ty ← Emit.lowerType (← Emit.typeOf phi) phi "phi"
          Emit.instr (.phiEnqueue ty)
          handOver origin phis) fun final code => ∃ ty rest, code = .phiEnqueue ty :: rest ∧
            Hands I c function origin phis final rest := by
        refine .read (Emit.typeOf_reads _) fun _ _ => ?_
        refine .read (Emit.lowerType_reads _ _ _) fun ty _ => ?_
        refine Writes.bind (P := fun _ code => code = [.phiEnqueue ty])
          (Emit.instr_writes fun _ _ => rfl) (fun _ s _ => rest s) ?_
        rintro final _ code - rfl hands
        exact ⟨ty, code, rfl, hands⟩
      refine Writes.bind pushed (fun _ s _ => marked s) ?_
      rintro final code _ - pushes ⟨ty, rest, rfl, hands⟩ env store xs holds same stack
      -- The first value is pushed, and the others on top of it.
      obtain ⟨x, xs, rfl⟩ : ∃ x xs', xs = x :: xs' := by
        cases xs with
        | nil => cases same
        | cons x xs => exact ⟨x, xs, rfl⟩
      rw [List.map_cons, List.map_cons, List.cons.injEq] at same
      have value : I.meaning.eval c.module function I.args env v = some x := by
        simpa [Meaning.incoming, incoming] using same.1
      have enqueued := Machine.leads_next (i := .phiEnqueue ty) rfl (Nat.le_add_left 1 _)
        (faithful.phiEnqueue ty (x :: stack) store)
      have led := (pushes holds value stack).append (enqueued.append (hands holds same.2 _))
      simpa using led
    · exact Emit.breach_ensures _ _

/-- Taking over the values on the stack gives them to phis, one after another. -/
theorem takeOver_writes (faithful : Faithful I c.conventions c.module f) (s : Ledger)
    {phis : List Nat}
    (core : ∀ phi ∈ phis, ∃ i, c.module.instruction? phi = some i ∧ i.opcode.isCore = true) :
    Writes c s (takeOver phis) fun final code => Housed c.module c.homes final →
      ∀ ⦃env : Env V⦄ ⦃store : S⦄ ⦃xs : List V⦄, Matches I c final env store →
        xs.length = phis.length → ∃ store', I.Leads code xs store [] store' ∧
          Matches I c final ((phis.zip xs).foldl (fun env p => env.set p.1 p.2) env)
            store' := by
  induction phis generalizing s with
  | nil =>
    refine .pure fun _ _ _ env store xs holds same => ?_
    rw [List.length_eq_zero_iff.1 same]
    exact ⟨store, .refl _ _, holds⟩
  | cons phi phis ih =>
    obtain ⟨i, isInstruction, isCore⟩ := core phi List.mem_cons_self
    refine .read (Emit.typeOf_reads _) fun _ _ => ?_
    refine .read (Emit.lowerType_reads _ _ _) fun ty _ => ?_
    refine .read (Emit.resultOf_reads _) fun var found => ?_
    refine Writes.bind (P := fun _ code => code = [.phiDequeue ty, .store var])
      (Emit.code_writes fun _ _ => rfl)
      (fun _ s _ => ih s fun phi mem => core phi (List.mem_cons_of_mem _ mem)) ?_
    rintro final _ code _ rfl later housed env store xs holds same
    cases xs with
    | nil => cases same
    | cons x xs =>
      obtain ⟨store', led, holds'⟩ := later housed
        (holds.set faithful housed isInstruction isCore found x) (Nat.succ.inj same)
      have dequeued := Machine.leads_next (i := .phiDequeue ty) rfl (Nat.zero_le _)
        (faithful.phiDequeue ty (x :: xs) store)
      exact ⟨store', (dequeued.append (Machine.leads_store var x _ store)).append led, holds'⟩

/-- An edge ends at its target, with the values for the phis there on the stack. -/
theorem edge_writes (faithful : Faithful I c.conventions c.module f)
    (here : c.function = some function) (s : Ledger) {block target : Nat}
    (core : ∀ phis, c.module.leadingPhis? function target = some phis → ∀ phi ∈ phis, ∀ v,
      c.module.phiIncoming? phi block = some v →
        (Source.Operand.value v).isCore c.module = true) :
    Writes c s (edge ⟨function, block⟩ target) fun final code =>
      ∀ ⦃env : Env V⦄ ⦃store : S⦄ ⦃phis : List Nat⦄ ⦃xs : List V⦄,
        Matches I c final env store →
        c.module.leadingPhis? function target = some phis →
        phis.map (I.meaning.incoming c.module function I.args env block) = xs.map some →
          I.Ends code [] store (.jumped target xs.reverse store) := by
  refine .read Emit.module_reads fun _ isModule => ?_
  rw [isModule]
  refine .read (Emit.required_reads _) fun phis leading => ?_
  refine Writes.bind (handOver_writes faithful here s (core phis leading)) (fun _ _ _ =>
    Emit.instr_writes (Q := fun _ code => code = [.branch target]) fun _ _ => rfl) ?_
  rintro final code _ - hands rfl env store phis' xs holds leading' same
  rw [leading] at leading'
  cases leading'
  have led := hands holds same []
  rw [List.append_nil] at led
  exact led.ends (Machine.ends_jump rfl (Nat.zero_le _) (faithful.branch target _ store))

/-- The condition of a branch is pushed as the source means it. -/
theorem pushCondition_writes (faithful : Faithful I c.conventions c.module f)
    (here : c.function = some function) (s : Ledger) {cond : Nat} (id : Nat)
    (core : (Source.Operand.value cond).isCore c.module = true) :
    Writes c s (pushCondition cond id) (Pushes I c fun env =>
      I.meaning.eval c.module function I.args env cond) := by
  refine .read Emit.module_reads fun _ _ => ?_
  refine .read (Emit.typeOf_reads _) fun _ _ => ?_
  split
  · exact push_writes faithful here s core
  · exact Emit.unsupported_ensures _ _ _

section Conditions

variable {x : V} (faithful : Faithful I c.conventions c.module f) (label : Nat) (stack : List V)
  (store : S)

include faithful

/-- A branch on truth is taken if the source takes its condition to be true. -/
theorem ends_branchIfTrue (decided : I.meaning.truth x = some true) :
    I.Ends [.branchIfTrue label] (x :: stack) store (.jumped label stack store) :=
  Machine.ends_jump rfl (Nat.le_add_left 1 _) (faithful.branchIfTrue label stack store decided)

theorem leads_branchIfTrue (decided : I.meaning.truth x = some false) :
    I.Leads [.branchIfTrue label] (x :: stack) store stack store :=
  Machine.leads_next rfl (Nat.le_add_left 1 _) (faithful.branchIfTrue label stack store decided)

theorem ends_branchIfFalse (decided : I.meaning.truth x = some false) :
    I.Ends [.branchIfFalse label] (x :: stack) store (.jumped label stack store) :=
  Machine.ends_jump rfl (Nat.le_add_left 1 _) (faithful.branchIfFalse label stack store decided)

theorem leads_branchIfFalse (decided : I.meaning.truth x = some true) :
    I.Leads [.branchIfFalse label] (x :: stack) store stack store :=
  Machine.leads_next rfl (Nat.le_add_left 1 _) (faithful.branchIfFalse label stack store decided)

end Conditions

/-- Starting and leaving the frame changes no stack and no cell. -/
theorem leads_frame (faithful : Faithful I c.conventions c.module f) {i : Instr}
    (frame : i = .enterFrame ∨ i = .leaveFrame) (stack : List V) (store : S) :
    ∃ store', I.Leads [i] stack store stack store' ∧
      ∀ var, I.read store' var = I.read store var := by
  obtain ⟨store', acted, same⟩ := faithful.frame i store frame
  refine ⟨store', ?_, same⟩
  rcases frame with rfl | rfl
  · exact Machine.leads_plain .enterFrame [] [] rfl rfl acted stack
  · exact Machine.leads_plain .leaveFrame [] [] rfl rfl acted stack

/-- Leaving the frame writes code that keeps the stack, if it writes any. -/
theorem leaveFrame_writes (faithful : Faithful I c.conventions c.module f)
    (s : Ledger) :
    Writes c s leaveFrame fun _ code => ∀ stack store, ∃ store',
      I.Leads code stack store stack store' := by
  refine .read Emit.context_reads fun _ _ => ?_
  split
  · refine Emit.instr_writes fun _ _ stack store => ?_
    obtain ⟨store', led, -⟩ := leads_frame faithful (.inr rfl) stack store
    exact ⟨store', led⟩
  · exact .pure fun _ _ stack store => ⟨store, .refl _ _⟩

/-- A return leaves the body with the value that it returns. -/
theorem lowerRet_writes (faithful : Faithful I c.conventions c.module f)
    (here : c.function = some function) (s : Ledger) {i : Instruction}
    (core : ∀ o ∈ i.operands, o.isCore c.module = true) :
    Writes c s (lowerRet i) fun final code =>
      ∀ ⦃env : Env V⦄ ⦃store : S⦄ ⦃value : Option V⦄,
        Matches I c final env store →
        I.meaning.leave c.module function I.args env i = some (.return value) →
          ∃ store', I.Ends code [] store (.left value store') := by
  have leaves (hasValue : Bool) (s : Ledger) : Writes c s (do
      leaveFrame
      Emit.instr (.ret hasValue)) fun _ code => ∃ front, code = front ++ [.ret hasValue] ∧
        ∀ stack store, ∃ store', I.Leads front stack store stack store' := by
    refine Writes.bind (leaveFrame_writes faithful s) (fun _ _ _ => Emit.instr_writes
      (Q := fun _ code => code = [.ret hasValue]) fun _ _ => rfl) ?_
    rintro final front _ - led rfl
    exact ⟨front, rfl, led⟩
  unfold lowerRet
  cases found : i.valueAt? 0 with
  | none =>
    refine (leaves false s).imp ?_
    rintro final _ - ⟨front, rfl, led⟩ env store value - returned
    simp only [Meaning.leave, found, Option.some.injEq, Source.Flow.return.injEq] at returned
    obtain ⟨store', led⟩ := led [] store
    exact ⟨store', returned ▸ led.ends
      (Machine.ends_leave rfl (Nat.zero_le _) (faithful.retVoid [] store'))⟩
  | some v =>
    have pushed : Writes c s (push v) (Pushes I c fun env =>
        I.meaning.eval c.module function I.args env v) :=
      push_writes faithful here s (isCore_of_valueAt? core found)
    refine Writes.bind pushed (fun _ s _ => leaves true s) ?_
    rintro final code _ - pushes ⟨front, rfl, led⟩ env store value holds returned
    simp only [Meaning.leave, found, Option.map_eq_some_iff] at returned
    obtain ⟨x, value', same⟩ := returned
    cases same
    obtain ⟨store', led⟩ := led [x] store
    exact ⟨store', (pushes holds value' []).ends (led.ends
      (Machine.ends_leave rfl (Nat.le_refl 1) (faithful.ret x [] store')))⟩

end

end Stackwise.Lowering
