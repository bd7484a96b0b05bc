import Stackwise.Code.Block
import Stackwise.Code.Variable

/-!
# Lowered modules

What lowering produces: a body for every function definition and for every global with an
initializer, in the order of their declaration.  An assembly no longer depends on its source.
-/

namespace Stackwise.Code

/-- The lowered body of a function. -/
structure Body where
  function : Nat
  name : String
  signature : Signature
  storage : Storage
  blocks : List Block
  /-- Whether the allocations of the function live in a heap frame. -/
  needsFrame : Bool
deriving DecidableEq, Repr

/-- The lowered initializer of a global: one block that computes the value, stores it and
returns. -/
structure Initializer where
  global : Nat
  name : String
  storage : Storage
  block : Block
deriving DecidableEq, Repr

/-- Every lowered body of one module. -/
structure Assembly where
  name : String
  bodies : List Body
  initializers : List Initializer
deriving DecidableEq, Repr

namespace Assembly

/-- The body of a function. -/
def body? (a : Assembly) (function : Nat) : Option Body :=
  a.bodies.find? (·.function == function)

/-- The first body of a given name. -/
def bodyNamed? (a : Assembly) (name : String) : Option Body :=
  a.bodies.find? (·.name == name)

/-- The initializer of a global. -/
def initializer? (a : Assembly) (global : Nat) : Option Initializer :=
  a.initializers.find? (·.global == global)

end Assembly

end Stackwise.Code
