import Stackwise.Peephole.Stats

/-!
# Events

What a lowering run reports on the way, in order.
-/

namespace Stackwise

/-- Something worth noting happened. -/
inductive Event where
  /-- The module can raise no exception. -/
  | noExceptionSources (module : String)
  /-- The analysis found `throwing` functions that may throw, after a number of rounds. -/
  | mightThrow (module : String) (throwing rounds : Nat)
  | loweredFunction (function : String) (blocks synthesized vars : Nat) (needsFrame : Bool)
  | loweredInitializer (global : String) (instructions : Nat)
  | optimized (function : String) (stats : Peephole.Stats)
  | loweredModule (module : String) (functions initializers throwing : Nat) (parallel : Bool)
  /-- A fence was left out. -/
  | fenceDropped (function : String)
  /-- An atomic operation gives zero. -/
  | atomicZeroed (function opcode : String)
deriving DecidableEq, Repr

namespace Event

/-- The words for an event. -/
def message : Event → String
  | noExceptionSources _ => "no exception sources; skipping might-throw analysis"
  | mightThrow _ _ _ => "might-throw analysis"
  | loweredFunction _ _ _ _ _ => "lifted function"
  | loweredInitializer _ _ => "lifted initializer"
  | optimized _ _ => "peephole"
  | loweredModule _ _ _ _ _ => "lifted module"
  | fenceDropped _ => "fence lowered to nothing"
  | atomicZeroed _ _ => "atomic operation lowered to a zero result"

/-- Whether the event says that meaning was lost. -/
def isWarning : Event → Bool
  | fenceDropped _ | atomicZeroed _ _ => true
  | _ => false

end Event

end Stackwise
