import Stackwise.Lookup

/-!
# Source types

Types are kept once each in a `TypePool` and referred to by their number there, so two types are
equal exactly when their numbers are.  A type only refers to types with smaller numbers, which is
why every walk over a type ends.  The name of a structure is part of the type.

The pool is a table with a lookup beside it.  Interning asks the lookup whether the type is there
already, and enters a new type into both.
-/

namespace Stackwise.Source

/-- A source type; component types are given by number. -/
inductive Ty where
  | void
  | int (bits : Nat)
  | float
  | double
  | ptr
  | array (element length : Nat)
  | vector (element length : Nat)
  | struct (name : Option String) (fields : List Nat)
  | function (ret : Nat) (params : List Nat) (variadic : Bool)
  | label
  | token
  | metadata
deriving DecidableEq, Repr, Inhabited

/-- The numbers of the types that a type is made of. -/
def Ty.components : Ty → List Nat
  | array element _ | vector element _ => [element]
  | struct _ fields => fields
  | function ret params _ => ret :: params
  | void | int _ | float | double | ptr | label | token | metadata => []

/-- All types of a module, each once. -/
structure TypePool where
  types : Array Ty := #[]
  /-- The numbers of the types. -/
  lookup : Lookup Ty := {}
deriving DecidableEq, Repr

namespace TypePool

/-- How many types the pool holds. -/
def size (p : TypePool) : Nat := p.types.size

/-- The type with the given number. -/
def get? (p : TypePool) (id : Nat) : Option Ty := p.types[id]?

/-- Enters a type into the table and into the lookup; its number is the old size. -/
def enter (p : TypePool) (ty : Ty) : TypePool :=
  { types := p.types.push ty, lookup := p.lookup.insert ty p.size }

/-- The number of a type, which is entered if the lookup does not know it. -/
def intern (p : TypePool) (ty : Ty) : Nat × TypePool :=
  match p.lookup.find? ty with
  | some id => (id, p)
  | none => (p.size, p.enter ty)

/-- Whether the number stands for `void`. -/
def isVoid (p : TypePool) (id : Nat) : Bool := p.get? id == some .void

/-- Whether the number stands for the pointer type. -/
def isPointer (p : TypePool) (id : Nat) : Bool := p.get? id == some .ptr

/-- The width of an integer type. -/
def intBits? (p : TypePool) (id : Nat) : Option Nat :=
  match p.get? id with
  | some (.int bits) => some bits
  | _ => none

/-- The parts of a function type. -/
structure FunctionParts where
  ret : Nat
  params : List Nat
  variadic : Bool
deriving DecidableEq, Repr

/-- The result, the parameters and whether more arguments may follow, of a function type. -/
def functionParts? (p : TypePool) (id : Nat) : Option FunctionParts :=
  match p.get? id with
  | some (.function ret params variadic) => some ⟨ret, params, variadic⟩
  | _ => none

/-- The type of a member of an aggregate, if the aggregate has that many. -/
def member? (p : TypePool) (aggregate index : Nat) : Option Nat :=
  match p.get? aggregate with
  | some (.struct _ fields) => fields[index]?
  | some (.array element length) | some (.vector element length) =>
    if index < length then some element else none
  | _ => none

/-- The text of a type that is nested less than `depth` deep. -/
def renderWithin (p : TypePool) : (depth id : Nat) → String
  | 0, _ => ""
  | depth + 1, id =>
    let render := renderWithin p depth
    match p.get? id with
    | none => ""
    | some .void => "void"
    | some (.int bits) => s!"i{bits}"
    | some .float => "float"
    | some .double => "double"
    | some .ptr => "ptr"
    | some (.array element length) => s!"[{length} x " ++ render element ++ "]"
    | some (.vector element length) => s!"<{length} x " ++ render element ++ ">"
    | some (.struct (some name) _) => "%" ++ name
    | some (.struct none fields) =>
      "\x7b " ++ String.intercalate ", " (fields.map render) ++ " \x7d"
    | some (.function ret params variadic) =>
      let shown := params.map render ++ (if variadic then ["..."] else [])
      render ret ++ " (" ++ String.intercalate ", " shown ++ ")"
    | some .label => "label"
    | some .token => "token"
    | some .metadata => "metadata"

/-- The text of a type. -/
def render (p : TypePool) (id : Nat) : String := p.renderWithin (id + 1) id

end TypePool

end Stackwise.Source
