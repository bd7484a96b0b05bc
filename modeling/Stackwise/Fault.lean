import Stackwise.Code.Instr

/-!
# Faults

Everything that can stop lowering or checking, by cause.  A construct that has no lowering is
*unsupported*; code or source that breaks a rule the library relies on is a *breach*, reported with
the place where it was noticed.  The wording of every cause stands here and nowhere else.
-/

namespace Stackwise

open Code

/-- A source construct that has no lowering. -/
inductive Construct where
  | ty
  | aggregateType
  | allocationCount
  | blockOperand
  | calleeType
  | constantWidth
  | dynamicAllocationCount
  | elementSize
  | fieldIndex
  | floatType
  | functionSignature
  | handlerWithoutPad
  | index
  | indexType
  | instruction
  | integerType
  | integerWidth
  | latePhi
  | noBody
  | noInitializer
  | noPersonality
  | nonBooleanCondition
  | nonConstantCase
  | nonIntegerIndex
  | nonVectorOperand
  | offset
  | operation
  | personalitySignature
  | predicate
  | signature
  | vaStartOutsideVariadic
deriving DecidableEq, Repr

/-- The words for a construct. -/
def Construct.render : Construct → String
  | ty => "type"
  | aggregateType => "aggregate type"
  | allocationCount => "allocation count"
  | blockOperand => "block operand"
  | calleeType => "callee type"
  | constantWidth => "128-bit constant"
  | dynamicAllocationCount => "dynamic allocation count"
  | elementSize => "element size"
  | fieldIndex => "field index"
  | floatType => "floating-point type"
  | functionSignature => "function signature"
  | handlerWithoutPad => "handler without catchpad"
  | index => "index"
  | indexType => "index type"
  | instruction => "instruction"
  | integerType => "integer type"
  | integerWidth => "integer width"
  | latePhi => "phi after the start of a block"
  | noBody => "function without a body"
  | noInitializer => "global without initializer"
  | noPersonality => "function without personality"
  | nonBooleanCondition => "non-boolean condition"
  | nonConstantCase => "non-constant case"
  | nonIntegerIndex => "non-integer index"
  | nonVectorOperand => "non-vector operand"
  | offset => "offset"
  | operation => "operation"
  | personalitySignature => "personality signature"
  | predicate => "predicate"
  | signature => "signature"
  | vaStartOutsideVariadic => "va_start outside a variadic function"

/-- A broken rule.  Source values are given by their text. -/
inductive Breach where
  /-- An instruction pops more than the stack holds. -/
  | underflow (instr : Instr) (height : Nat)
  /-- A branch point leaves values on the stack. -/
  | leftAfter (height : Nat) (instr : Instr)
  /-- A jump names a block that does not exist. -/
  | unknownTarget (label : Nat)
  | leftAtExit (height : Nat)
  | noTerminator
  | noResult (value : String)
  | noStorage (value : String)
  | malformed (value : String)
  | missingOperand (index : Nat) (value : String)
  | loadWithoutAddress
  | foreignArgument (value : String)
  | callWithoutCallee (value : String)
  | vaStartArity (value : String)
  | argumentCount (value : String) (passed expected : Nat)
  | noIncoming (phi : String) (block : Nat)
  | branchArity (operands : Nat)
deriving DecidableEq, Repr

/-- The words for a broken rule. -/
def Breach.render : Breach → String
  | underflow instr height =>
    "stack underflow: `" ++ instr.render ++ s!"` pops {instr.pops} with {height} on the stack"
  | leftAfter height instr => s!"{height} values left on the stack after `" ++ instr.render ++ "`"
  | unknownTarget label => "jump to unknown block " ++ labelName label
  | leftAtExit height => s!"{height} values left on the stack at block exit"
  | noTerminator => "block does not end in a terminator"
  | noResult value => "no result variable for " ++ value
  | noStorage value => "no storage for " ++ value
  | malformed value => "malformed " ++ value
  | missingOperand index value => s!"missing operand {index} of " ++ value
  | loadWithoutAddress => "load without address"
  | foreignArgument value => "argument " ++ value ++ " of another function"
  | callWithoutCallee value => "call without callee: " ++ value
  | vaStartArity value => "va_start takes one argument: " ++ value
  | argumentCount value passed expected =>
    value ++ s!" passes {passed} arguments to {expected} parameters"
  | noIncoming phi block => phi ++ s!" has no incoming value for block {block}"
  | branchArity operands => s!"br with {operands} operands"

/-- Why a body could not be made or was not accepted. -/
inductive Fault where
  /-- `site` names the operation or kind of definition in which the construct stands, `value` is
  the text of the source value. -/
  | unsupported (site : String) (construct : Construct) (value : String)
  /-- A rule was broken in `function`, at the given instruction of the given block. -/
  | invariant (function : String) (block instruction : Nat) (breach : Breach)
  /-- A number stands for no block, function, value or variable. -/
  | dangling
  /-- The source refers back to itself where it must be well founded. -/
  | cyclic
  /-- A type is too large to count its bytes. -/
  | overflow
deriving DecidableEq, Repr

/-- The full message of a fault; a dangling or cyclic reference and an overflow have none. -/
def Fault.message? : Fault → Option String
  | unsupported site construct value =>
    some ("unsupported " ++ construct.render ++ " in `" ++ site ++ "`: " ++ value)
  | invariant function block instruction breach =>
    some ("invariant violated in `" ++ function
      ++ s!"` at L{block}[{instruction}]: " ++ breach.render)
  | dangling | cyclic | overflow => none

/-- Whether a fault shows that the source is beyond what can be worked with: a module with such a
fault is given up where it is noticed, whatever was found wrong before. -/
def Fault.isFatal : Fault → Bool
  | dangling | cyclic | overflow => true
  | _ => false

end Stackwise
