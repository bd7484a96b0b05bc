/-!
# Source operations

What an instruction or a constant expression does.  Attributes that are no operands, types, member
indices and predicates, are part of the operation.
-/

namespace Stackwise.Source

/-- Two-operand arithmetic. -/
inductive BinaryOp where
  | add | fadd | sub | fsub | mul | fmul | udiv | sdiv | fdiv | urem | srem | frem
  | shl | lshr | ashr | and | or | xor
deriving DecidableEq, Repr

/-- The word for an operation. -/
def BinaryOp.name : BinaryOp → String
  | add => "add"
  | fadd => "fadd"
  | sub => "sub"
  | fsub => "fsub"
  | mul => "mul"
  | fmul => "fmul"
  | udiv => "udiv"
  | sdiv => "sdiv"
  | fdiv => "fdiv"
  | urem => "urem"
  | srem => "srem"
  | frem => "frem"
  | shl => "shl"
  | lshr => "lshr"
  | ashr => "ashr"
  | and => "and"
  | or => "or"
  | xor => "xor"

/-- Conversions. -/
inductive CastOp where
  | trunc | zext | sext | fptoui | fptosi | uitofp | sitofp | fptrunc | fpext | ptrtoint
  | inttoptr | bitcast | addrspacecast
deriving DecidableEq, Repr

/-- The word for a conversion. -/
def CastOp.name : CastOp → String
  | trunc => "trunc"
  | zext => "zext"
  | sext => "sext"
  | fptoui => "fptoui"
  | fptosi => "fptosi"
  | uitofp => "uitofp"
  | sitofp => "sitofp"
  | fptrunc => "fptrunc"
  | fpext => "fpext"
  | ptrtoint => "ptrtoint"
  | inttoptr => "inttoptr"
  | bitcast => "bitcast"
  | addrspacecast => "addrspacecast"

/-- Comparisons of integers, unsigned or signed. -/
inductive IntPredicate where
  | eq | ne | ugt | uge | ult | ule | sgt | sge | slt | sle
deriving DecidableEq, Repr

/-- The word for a comparison of integers. -/
def IntPredicate.name : IntPredicate → String
  | eq => "eq"
  | ne => "ne"
  | ugt => "ugt"
  | uge => "uge"
  | ult => "ult"
  | ule => "ule"
  | sgt => "sgt"
  | sge => "sge"
  | slt => "slt"
  | sle => "sle"

/-- Comparisons of floats.  An ordered one is false, an unordered one true, when an operand is not
a number. -/
inductive FloatPredicate where
  | never | oeq | ogt | oge | olt | ole | one | ord | uno | ueq | ugt | uge | ult | ule | une
  | always
deriving DecidableEq, Repr

/-- The word for a comparison of floats. -/
def FloatPredicate.name : FloatPredicate → String
  | never => "false"
  | oeq => "oeq"
  | ogt => "ogt"
  | oge => "oge"
  | olt => "olt"
  | ole => "ole"
  | one => "one"
  | ord => "ord"
  | uno => "uno"
  | ueq => "ueq"
  | ugt => "ugt"
  | uge => "uge"
  | ult => "ult"
  | ule => "ule"
  | une => "une"
  | always => "true"

/-- An operation of the source; types are given by number. -/
inductive Opcode where
  | ret
  | br
  | switch
  | indirectBr
  | invoke (functionType : Nat)
  | resume
  | unreachable
  | cleanupRet
  | catchRet
  | catchSwitch (hasUnwind : Bool)
  | callBr
  | fneg
  | binary (op : BinaryOp)
  | alloca (allocated : Nat)
  | load
  | store
  | fence
  | cmpXchg
  | atomicRmw
  | getElementPtr (element : Nat)
  | cast (op : CastOp)
  | icmp (predicate : IntPredicate)
  | fcmp (predicate : FloatPredicate)
  | phi
  | call (functionType : Nat)
  | select
  | vaArg
  | extractElement
  | insertElement
  | shuffleVector
  | extractValue (indices : List Nat)
  | insertValue (indices : List Nat)
  | landingPad
  | cleanupPad
  | catchPad
  | freeze
deriving DecidableEq, Repr

namespace Opcode

/-- The word for an operation. -/
def name : Opcode → String
  | ret => "ret"
  | br => "br"
  | switch => "switch"
  | indirectBr => "indirectbr"
  | invoke _ => "invoke"
  | resume => "resume"
  | unreachable => "unreachable"
  | cleanupRet => "cleanupret"
  | catchRet => "catchret"
  | catchSwitch _ => "catchswitch"
  | callBr => "callbr"
  | fneg => "fneg"
  | binary op => op.name
  | alloca _ => "alloca"
  | load => "load"
  | store => "store"
  | fence => "fence"
  | cmpXchg => "cmpxchg"
  | atomicRmw => "atomicrmw"
  | getElementPtr _ => "getelementptr"
  | cast op => op.name
  | icmp _ => "icmp"
  | fcmp _ => "fcmp"
  | phi => "phi"
  | call _ => "call"
  | select => "select"
  | vaArg => "va_arg"
  | extractElement => "extractelement"
  | insertElement => "insertelement"
  | shuffleVector => "shufflevector"
  | extractValue _ => "extractvalue"
  | insertValue _ => "insertvalue"
  | landingPad => "landingpad"
  | cleanupPad => "cleanuppad"
  | catchPad => "catchpad"
  | freeze => "freeze"

/-- Whether the operation ends its block. -/
def isTerminator : Opcode → Bool
  | ret | br | switch | indirectBr | invoke _ | resume | unreachable | cleanupRet | catchRet
  | catchSwitch _ | callBr => true
  | _ => false

end Opcode

end Stackwise.Source
