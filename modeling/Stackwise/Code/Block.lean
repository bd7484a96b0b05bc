import Stackwise.Code.Instr

/-!
# Basic blocks

A body is a list of labelled blocks.  A block that stands for a block of the source remembers it;
blocks made along the way, detours that carry phi operands and chains of tests, have no origin and
are otherwise treated alike.
-/

namespace Stackwise.Code

/-- A label and the instructions under it. -/
structure Block where
  label : Nat
  origin : Option Nat
  code : List Instr
deriving DecidableEq, Repr

/-- Values that instructions leave on the stack together, less those they take. -/
def netEffect : List Instr → Int
  | [] => 0
  | i :: rest => i.effect + netEffect rest

namespace Block

/-- Whether no block of the source stands behind the block. -/
def isSynthesized (b : Block) : Bool := b.origin.isNone

/-- Values that the whole block leaves on the stack, less those it takes. -/
def effect (b : Block) : Int := netEffect b.code

/-- The text of a block: its name, then its instructions, one a line. -/
def render (b : Block) : String :=
  labelName b.label ++ ":\n" ++ String.join (b.code.map fun i => "    " ++ i.render ++ "\n")

end Block

/-- How many instructions the blocks hold together. -/
def instructionCount : List Block → Nat
  | [] => 0
  | b :: rest => b.code.length + instructionCount rest

end Stackwise.Code
