import Stackwise.Conventions
import Stackwise.Event

/-!
# Functions that may throw

A function may throw if it can return with an exception in flight.  The sources are the raising
intrinsics; from there the property spreads to every function that calls one that may throw, or
calls anything through a pointer.  A module without a raising intrinsic and without an `invoke`
cannot observe exceptions, so in it nothing throws.

The spread goes in rounds: each adds all functions that call a member of the set as it stood
before the round, until a round adds none.
-/

namespace Stackwise

open Source

/-- What is known about exceptions in a module. -/
structure Throwing where
  /-- The functions that may throw. -/
  throwers : List Nat := []
  /-- The functions that allocate storage. -/
  allocating : List Nat := []
deriving DecidableEq, Repr

namespace Throwing

/-- Whether a function can return with an exception in flight. -/
def mayThrow (t : Throwing) (function : Nat) : Bool := t.throwers.contains function

/-- Whether a function keeps its allocations in a heap frame, where handlers still reach them. -/
def needsFrame (t : Throwing) (function : Nat) : Bool :=
  t.mayThrow function && t.allocating.contains function

/-- Whether an instruction calls a member of the set or an unknown callee. -/
def isThrowingCall (m : Module) (throwers : List Nat) (i : Instruction) : Bool :=
  match i.opcode, i.operands.getLast? with
  | .call _, some (.value callee) | .invoke _, some (.value callee) =>
    match m.calleeFunction? callee with
    | some target => throwers.contains target
    | none => true
  | _, _ => false

/-- Whether some call in a function may throw. -/
def callsThrower (m : Module) (throwers : List Nat) (f : Function) : Bool :=
  (m.bodyOf f).any fun (_, i) => isThrowingCall m throwers i

/-- The functions that a round adds to the set. -/
def newThrowers (m : Module) (throwers : List Nat) : List Nat :=
  (m.functions.toList.filter fun f =>
    !f.isDeclaration && !throwers.contains f.id && callsThrower m throwers f).map (·.id)

/-- How many functions are not in the set. -/
def outside (m : Module) (throwers : List Nat) : Nat :=
  m.functions.toList.countP fun f => !throwers.contains f.id

/-- A stricter condition counts fewer elements if it fails for one that is counted. -/
theorem countP_lt_countP {α : Type} {p q : α → Bool} {l : List α} {a : α}
    (imp : ∀ x ∈ l, p x = true → q x = true) (mem : a ∈ l) (notP : p a = false)
    (isQ : q a = true) : l.countP p < l.countP q := by
  induction l with
  | nil => simp at mem
  | cons x l ih =>
    have tail : l.countP p ≤ l.countP q :=
      List.countP_mono_left fun y hy => imp y (List.mem_cons_of_mem x hy)
    rcases List.mem_cons.1 mem with rfl | later
    · simp [notP, isQ]
      omega
    · have strict := ih (fun y hy => imp y (List.mem_cons_of_mem x hy)) later
      have head := imp x List.mem_cons_self
      cases hp : p x <;> cases hq : q x <;> simp [hp, hq] at head ⊢ <;> omega

/-- A round that finds new throwers leaves fewer functions outside. -/
theorem outside_lt {m : Module} {throwers : List Nat} (h : newThrowers m throwers ≠ []) :
    outside m (throwers ++ newThrowers m throwers) < outside m throwers := by
  obtain ⟨id, mem⟩ := List.exists_mem_of_ne_nil _ h
  obtain ⟨f, found, rfl⟩ := List.mem_map.1 mem
  have facts := List.mem_filter.1 found
  refine countP_lt_countP ?_ facts.1 ?_ ?_
  · intro g _ fresh
    simp at fresh ⊢
    exact fresh.1
  · simp
    exact fun _ => List.mem_map_of_mem found
  · have := facts.2
    simp at this ⊢
    exact this.1.2

/-- Spreads the set until a round adds nothing; counts the rounds, the last one included. -/
def spread (m : Module) (throwers : List Nat) : List Nat × Nat :=
  if newThrowers m throwers = [] then (throwers, 1)
  else
    let (done, rounds) := spread m (throwers ++ newThrowers m throwers)
    (done, rounds + 1)
termination_by outside m throwers
decreasing_by
  rename_i fresh
  exact outside_lt fresh

/-- The raising intrinsics of a module. -/
def sources (c : Conventions) (m : Module) : List Nat :=
  (m.functions.toList.filter fun f => c.isIntrinsic m f.id && c.mayRaise m f.id).map (·.id)

/-- The functions that hold an operation which satisfies a test. -/
def functionsWith (m : Module) (test : Opcode → Bool) : List Nat :=
  (m.functions.toList.filter fun f => (m.bodyOf f).any fun (_, i) => test i.opcode).map (·.id)

/-- Whether an operation allocates storage. -/
def isAlloca : Opcode → Bool
  | .alloca _ => true
  | _ => false

/-- Whether an operation is a call with an unwind destination. -/
def isInvoke : Opcode → Bool
  | .invoke _ => true
  | _ => false

/-- Finds the functions of a module that may throw, and reports how it went. -/
def analyze (c : Conventions) (m : Module) : Throwing × Event :=
  let allocating := functionsWith m isAlloca
  if sources c m = [] ∧ functionsWith m isInvoke = [] then
    ({ allocating }, .noExceptionSources m.name)
  else
    let (throwers, rounds) := spread m (sources c m)
    ({ throwers, allocating }, .mightThrow m.name throwers.length rounds)

end Throwing

end Stackwise
