import Stackwise.Code.Ty
import Stackwise.Layout
import Stackwise.Source.Module

/-!
# Target conventions

Lowering never decides by itself how a source type looks on the stack machine, how large an
aggregate is, or which functions the run-time system provides.  It asks a `Conventions` record.
`Conventions.natural` answers with natural layout and pointers sized at run time; the `with…`
functions replace single answers of another record.  Members of aggregates and signatures of
function types have usual answers, which a record may replace as well.
-/

namespace Stackwise

open Source

/-- The usual call-site signature of a function type, given the stack types.  The variadic arguments
arrive as one read-only view behind the others. -/
def usualSignature (lowerType : Module → (ty : Nat) → Option Code.Ty) (m : Module)
    (functionType : Nat) : Option Code.Signature := do
  let parts ← m.types.functionParts? functionType
  let params ← parts.params.mapM (lowerType m)
  let result ← lowerType m parts.ret
  return ⟨params ++ (if parts.variadic then [.readOnlySpan] else []), result⟩

/-- The answers that lowering depends on.  Types and functions are given by number. -/
structure Conventions where
  /-- The stack type of a source type, unless it has no values. -/
  lowerType : Module → (ty : Nat) → Option Code.Ty
  /-- The size of a type in bytes, unless it is only known at run time; there is no answer for a
  type that is too large to count its bytes. -/
  sizeOf : Module → (ty : Nat) → Except Layout.Overflow (Option Nat)
  /-- Whether the run-time system provides a function. -/
  isIntrinsic : Module → (function : Nat) → Bool
  /-- Whether a function that the run-time system provides can raise an exception. -/
  mayRaise : Module → (function : Nat) → Bool
  /-- The type of a member of an aggregate. -/
  fieldType : Module → (aggregate index : Nat) → Option Nat :=
    fun m aggregate index => m.types.member? aggregate index
  /-- The call-site signature of a function type. -/
  signature : Module → (functionType : Nat) → Option Code.Signature := usualSignature lowerType

/-- The natural stack type of a source type that is nested less than `depth` deep. -/
def naturalTypeWithin (p : TypePool) : (depth id : Nat) → Option Code.Ty
  | 0, _ => none
  | depth + 1, id =>
    match p.get? id with
    | some .void => some .void
    | some (.int 1) => some .bool
    | some (.int 8) => some .int8
    | some (.int 16) => some .int16
    | some (.int 32) => some .int32
    | some (.int 64) => some .int64
    | some (.int 128) => some .int128
    | some .float => some .float32
    | some .double => some .float64
    | some .ptr => some .pointer
    | some (.array element length) | some (.vector element length) =>
      (naturalTypeWithin p depth element).map (.inlineArray · length)
    | some (.struct _ _) => some (.struct id)
    | some .token => some .exceptionInfo
    | some .metadata => some .object
    | some (.int _) | some (.function _ _ _) | some .label | none => none

/-- The natural stack type of a source type: a one-bit integer is a truth value, arrays and vectors
are inline arrays, a structure keeps its number. -/
def naturalType (p : TypePool) (id : Nat) : Option Code.Ty := naturalTypeWithin p (id + 1) id

/-- The functions of the run-time system, besides those whose name begins with `llvm.`. -/
def runtimeRoutines : List String :=
  ["__CxxFrameHandler3", "__gxx_personality_v0", "_CxxThrowException", "__cxa_throw",
    "__cxa_rethrow", "__std_terminate"]

/-- The functions of the run-time system that raise an exception. -/
def raisingRoutines : List String := ["_CxxThrowException", "__cxa_throw", "__cxa_rethrow"]

namespace Conventions

/-- Natural layout, pointers sized at run time, and the usual run-time routines. -/
def natural : Conventions where
  lowerType m ty := naturalType m.types ty
  sizeOf m ty := do return (← Layout.extent? m.types ty).map (·.size)
  isIntrinsic m function := (m.function? function).any fun f =>
    f.isDeclaration && (f.name.startsWith "llvm." || runtimeRoutines.contains f.name)
  mayRaise m function := (m.function? function).any fun f => raisingRoutines.contains f.name

/-- Another answer for the stack type of one type.  Signatures are made anew, from the stack types
as they are now. -/
def withType (c : Conventions) (id : Nat) (answer : Option Code.Ty) : Conventions :=
  let lowerType (m : Module) (ty : Nat) := if ty = id then answer else c.lowerType m ty
  { c with lowerType, signature := usualSignature lowerType }

/-- Another answer for the size of one type. -/
def withSize (c : Conventions) (id : Nat) (answer : Option Nat) : Conventions :=
  { c with sizeOf := fun m ty => if ty = id then .ok answer else c.sizeOf m ty }

/-- Another answer for the type of one member of one aggregate. -/
def withField (c : Conventions) (id member : Nat) (answer : Option Nat) : Conventions :=
  { c with fieldType := fun m aggregate index =>
      if aggregate = id ∧ index = member then answer else c.fieldType m aggregate index }

/-- Makes the functions of a name intrinsic, with or without a body. -/
def withIntrinsic (c : Conventions) (name : String) (raises : Bool) : Conventions :=
  let named (m : Module) (function : Nat) : Bool := (m.function? function).any (·.name == name)
  { c with
    isIntrinsic := fun m function => named m function || c.isIntrinsic m function
    mayRaise := fun m function => if named m function then raises else c.mayRaise m function }

end Conventions

end Stackwise
