/-!
# Types of the stack machine

The types that variables, fields and call sites of stack code carry, their text, and the relation
that decides when a place of one type may be read or written as another.
-/

namespace Stackwise.Code

/-- A type as the stack machine sees it.  A structure keeps only the number of its source type; an
inline array stores its elements in place. -/
inductive Ty where
  | void
  | bool
  | int8
  | int16
  | int32
  | int64
  | int128
  /-- Integer as wide as a pointer. -/
  | nativeInt
  | float32
  | float64
  | pointer
  | struct (id : Nat)
  | inlineArray (element : Ty) (length : Nat)
  /-- The exception object in flight. -/
  | exceptionInfo
  /-- Writable view of native-int slots. -/
  | span
  /-- Read-only view of native-int slots: a pack of variadic arguments. -/
  | readOnlySpan
  | object
deriving DecidableEq, Repr, Inhabited

namespace Ty

/-- Whether values of the type do not exist. -/
def isVoid : Ty → Bool
  | void => true
  | _ => false

/-- Whether the type is the one type of addresses. -/
def isPointer : Ty → Bool
  | pointer => true
  | _ => false

/-- Whether a place of the first type may be accessed as the second without a conversion.  There is
one pointer type, so this is equality; stating it as a relation of its own keeps the two roles of a
type apart at the places that ask. -/
def compatible (a b : Ty) : Bool :=
  (a.isPointer && b.isPointer) || a == b

/-- Types are compatible if they are the same. -/
theorem compatible_iff_eq {a b : Ty} : a.compatible b = true ↔ a = b := by
  cases a <;> cases b <;> simp [compatible, isPointer]

/-- The text of a type. -/
def render : Ty → String
  | void => "void"
  | bool => "bool"
  | int8 => "int8"
  | int16 => "int16"
  | int32 => "int32"
  | int64 => "int64"
  | int128 => "int128"
  | nativeInt => "nint"
  | float32 => "float32"
  | float64 => "float64"
  | pointer => "void*"
  | struct id => s!"struct#{id}"
  | inlineArray element length => "InlineArray<" ++ element.render ++ s!", {length}>"
  | exceptionInfo => "ExceptionInfo"
  | span => "Span<nint>"
  | readOnlySpan => "ReadOnlySpan<nint>"
  | object => "object"

end Ty

/-- Parameter and result types of a call site. -/
structure Signature where
  params : List Ty
  result : Ty
deriving DecidableEq, Repr, Inhabited

/-- The text of a signature: `(a, b) -> r`. -/
def Signature.render (sig : Signature) : String :=
  "(" ++ String.intercalate ", " (sig.params.map Ty.render) ++ ") -> " ++ sig.result.render

end Stackwise.Code
