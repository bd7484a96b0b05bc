import Stackwise.Proofs.Source.Script
import Stackwise.Throwing

/-!
# What is not in the set of throwing functions

The spread of the set stops at a round that adds nothing, so the set it ends with is closed: whoever
is outside calls nobody inside (`newThrowers_spread`).  For a function that is found not to throw
this leaves no call that could (`mayThrow_callee`), and no call of an unknown callee unless nothing
in the module can raise (`quiescent_of_unknown`).
-/

namespace Stackwise.Throwing

open Source (Function Instruction Module)

/-- Nothing in the module raises an exception or waits for one. -/
def Quiescent (c : Conventions) (m : Module) : Prop :=
  sources c m = [] ∧ functionsWith m isInvoke = []

/-- The instruction calls the value. -/
def Calls (i : Instruction) (callee : Nat) : Prop :=
  (∃ functionType, i.opcode = .call functionType ∨ i.opcode = .invoke functionType) ∧
    i.operands.getLast? = some (.value callee)

/-- Whether a call counts as throwing is up to its callee. -/
theorem isThrowingCall_of_calls {m : Module} {throwers : List Nat} {i : Instruction} {callee : Nat}
    (calls : Calls i callee) :
    isThrowingCall m throwers i = ((m.calleeFunction? callee).elim true throwers.contains) := by
  obtain ⟨⟨functionType, call | invoke⟩, last⟩ := calls
  · simp only [isThrowingCall, call, last]
    cases m.calleeFunction? callee <;> rfl
  · simp only [isThrowingCall, invoke, last]
    cases m.calleeFunction? callee <;> rfl

/-- A further round adds nothing. -/
theorem newThrowers_spread (m : Module) (throwers : List Nat) :
    newThrowers m (spread m throwers).1 = [] := by
  fun_induction spread m throwers with
  | case1 throwers closed => exact closed
  | case2 throwers more done rounds rest ih => rwa [rest] at ih

section

variable {c : Conventions} {m : Module}

theorem throwers_of_quiescent (h : Quiescent c m) : (analyze c m).1.throwers = [] := by
  rw [Quiescent] at h
  rw [analyze, if_pos h]

/-- Unless the module is quiescent, the throwers are found by the rounds. -/
theorem throwers_of_not_quiescent (h : ¬ Quiescent c m) :
    (analyze c m).1.throwers = (spread m (sources c m)).1 := by
  rw [Quiescent] at h
  rw [analyze, if_neg h]

variable (built : m.Built) {function : Nat} {f : Function}
  (found : m.function? function = some f) (outside : (analyze c m).1.mayThrow function = false)
  {id : Nat} {i : Instruction} (mem : (id, i) ∈ m.bodyOf f)

include built found outside mem

theorem isThrowingCall_eq_false (raises : ¬ Quiescent c m) :
    isThrowingCall m (analyze c m).1.throwers i = false := by
  have defined : f.isDeclaration = false := by
    cases declared : f.isDeclaration with
    | false => rfl
    | true =>
      have none : f.blocks = #[] := Array.isEmpty_iff.1 declared
      simp [Module.bodyOf, none] at mem
  rw [mayThrow, throwers_of_not_quiescent raises] at outside
  rw [throwers_of_not_quiescent raises]
  -- Another round would add the function if one of its calls could throw.
  have closed := newThrowers_spread m (sources c m)
  rw [newThrowers, List.map_eq_nil_iff, List.filter_eq_nil_iff] at closed
  have stays := closed f (Array.mem_toList_iff.2 (Array.mem_of_getElem? found))
  rw [defined, Source.id_of_built built found, outside, Bool.not_false, Bool.and_self,
    Bool.true_and, Bool.not_eq_true, callsThrower, List.any_eq_false] at stays
  simpa using stays (id, i) mem

/-- A function that does not throw calls no function that does. -/
theorem mayThrow_callee {callee target : Nat} (calls : Calls i callee)
    (named : m.calleeFunction? callee = some target) :
    (analyze c m).1.mayThrow target = false := by
  by_cases quiescent : Quiescent c m
  · rw [mayThrow, throwers_of_quiescent quiescent]
    rfl
  · have safe := isThrowingCall_eq_false built found outside mem quiescent
    rwa [isThrowingCall_of_calls calls, named] at safe

/-- A function that does not throw calls no unknown callee, unless nothing can be raised. -/
theorem quiescent_of_unknown {callee : Nat} (calls : Calls i callee)
    (unknown : m.calleeFunction? callee = none) : Quiescent c m := by
  by_cases quiescent : Quiescent c m
  · exact quiescent
  · have safe := isThrowingCall_eq_false built found outside mem quiescent
    rw [isThrowingCall_of_calls calls, unknown] at safe
    cases safe

end

end Stackwise.Throwing
