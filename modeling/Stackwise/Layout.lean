import Stackwise.Source.Ty
import Stackwise.Word

/-!
# Natural layout

Size and alignment of source types in bytes: an integer takes the next power of two of its bytes
and is aligned to it, up to sixteen; an array is its elements in a row; a structure places each
field at the next multiple of the field's alignment and is padded to its largest one.  Types that
hold a pointer, or no data at all, have no size before run time.

Sizes are kept in 64 bits.  An array that does not fit has no size.  The offsets within a structure
are counted up field by field, and counting stops at the first one that does not fit (`Overflow`):
this is a fault, and not an answer about the type.
-/

namespace Stackwise.Layout

open Source

/-- Size and alignment in bytes. -/
structure Extent where
  size : Nat
  align : Nat
deriving DecidableEq, Repr

/-- The bound of sizes. -/
def sizeLimit : Nat := Word.count 64

/-- The least multiple of `align` that is not below `offset`. -/
def roundUp (offset align : Nat) : Nat :=
  if offset % align = 0 then offset else offset + (align - offset % align)

/-- The least power of two that is not below `n`. -/
def powerFrom (n : Nat) : Nat := if n ≤ 1 then 1 else Word.count (Nat.log2 (n - 1) + 1)

/-- The extent of an integer of a width. -/
def ofInt (bits : Nat) : Extent :=
  let bytes := powerFrom ((bits + 7) / 8)
  ⟨bytes, min bytes 16⟩

/-- The extent of a number of elements in a row, if it fits. -/
def repeated (element : Extent) (length : Nat) : Option Extent :=
  if element.size * length < sizeLimit then some ⟨element.size * length, element.align⟩ else none

/-- The end of a field placed behind an offset, with the largest alignment so far. -/
def place (soFar field : Extent) : Extent :=
  ⟨roundUp soFar.size field.align + field.size, max soFar.align field.align⟩

/-- The last field with the padding behind it. -/
def pad (last : Extent) : Extent := ⟨roundUp last.size last.align, last.align⟩

/-- Why counting bytes can stop. -/
inductive Overflow where
  /-- An offset within a structure does not fit. -/
  | offset
deriving DecidableEq, Repr

/-- An extent within a structure, if its offset fits. -/
def fitting (e : Extent) : Except Overflow Extent :=
  if e.size < sizeLimit then .ok e else .error .offset

/-- The extent of fields one after another behind `soFar`, with the padding at the end.  They are
looked at in order, up to the first one whose extent is not known. -/
def ofFields (extent : Nat → Except Overflow (Option Extent)) :
    (soFar : Extent) → (fields : List Nat) → Except Overflow (Option Extent)
  | soFar, [] => do return some (← fitting (pad soFar))
  | soFar, field :: rest => do
    match ← extent field with
    | none => return none
    | some e => ofFields extent (← fitting (place soFar e)) rest

/-- The extent of a type that is nested less than `depth` deep. -/
def extentWithin (p : TypePool) : (depth id : Nat) → Except Overflow (Option Extent)
  | 0, _ => return none
  | depth + 1, id =>
    match p.get? id with
    | some (.int bits) => return some (ofInt bits)
    | some .float => return some ⟨4, 4⟩
    | some .double => return some ⟨8, 8⟩
    | some (.array element length) | some (.vector element length) => do
      return (← extentWithin p depth element).bind (repeated · length)
    | some (.struct _ fields) => ofFields (extentWithin p depth) ⟨0, 1⟩ fields
    | _ => return none

/-- The extent of a type, if it is known before run time. -/
def extent? (p : TypePool) (id : Nat) : Except Overflow (Option Extent) :=
  extentWithin p (id + 1) id

end Stackwise.Layout
