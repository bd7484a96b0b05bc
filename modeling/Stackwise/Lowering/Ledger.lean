import Stackwise.Code.Variable
import Stackwise.Lookup

/-!
# Ledgers

While a body is lowered, its variables stand in a table, and maps find them again.

* One map finds the variables that all mentions of a place share.  It grows with the table, and a
  `Ledger` is the two together, kept in step: what is found stands in the table, for what was asked.
* Two maps find the variables of instructions (`Homes`): those for results and those for allocated
  storage.  They are filled before the first line of code is written and never change afterwards.
-/

namespace Stackwise.Lowering

open Code (Place Storage Variable)

/-! ## Shared variables -/

/-- What a shared variable is found by.  The same constant of two types is two variables. -/
structure SharedKey where
  place : Place
  /-- The type, for constants. -/
  ty : Option Code.Ty
deriving DecidableEq, Repr

/-- What the variable for a place of a type is found by. -/
def SharedKey.of (place : Place) (ty : Code.Ty) : SharedKey where
  place
  ty := match place with
    | .constant _ => some ty
    | _ => none

/-- Whether a variable stands for a place that is shared by all its mentions. -/
def isShared (place : Place) (ty : Code.Ty) (v : Variable) : Bool :=
  v.place == place &&
    match place with
    | .constant _ => v.ty == ty
    | _ => true

/-- The key says all that counts. -/
theorem isShared_of_key {place place' : Place} {ty ty' : Code.Ty} {v : Variable}
    (same : SharedKey.of place' ty' = .of place ty) (shared : isShared place ty v = true) :
    isShared place' ty' v = true := by
  obtain rfl : place' = place := congrArg SharedKey.place same
  cases place' with
  | constant value =>
    obtain rfl : ty' = ty := Option.some.inj (congrArg SharedKey.ty same)
    exact shared
  | _ => exact shared

/-- The variables so far, and which of them are shared. -/
structure Ledger extends Storage where
  shared : Lookup SharedKey := {}
  /-- What is found stands in the table. -/
  sound : ∀ ⦃place : Place⦄ ⦃ty : Code.Ty⦄ ⦃id : Nat⦄, shared.find? (.of place ty) = some id →
    ∃ v, toStorage.get? id = some v ∧ isShared place ty v = true

namespace Ledger

instance : CoeOut Ledger Storage := ⟨toStorage⟩

/-- A table with nothing shared. -/
def ofStorage (s : Storage) : Ledger where
  toStorage := s
  sound _ _ _ found := by cases found

instance : Inhabited Ledger := ⟨ofStorage {}⟩

/-- A ledger without variables. -/
def empty : Ledger := ofStorage {}

/-- Continues the table by what a step adds to it, if the variables so far stay where they are. -/
def grow (l : Ledger) (next : Nat × Storage)
    (keeps : ∀ ⦃id : Nat⦄ ⦃v : Variable⦄, l.get? id = some v → next.2.get? id = some v) :
    Nat × Ledger :=
  (next.1, { l with
    toStorage := next.2
    sound := fun _ _ _ found =>
      let ⟨v, there, hit⟩ := l.sound found
      ⟨v, keeps there, hit⟩ })

/-- Appends a method slot. -/
def addSlot (l : Ledger) (ty : Code.Ty) (origin : Option Nat) : Nat × Ledger :=
  l.grow (l.toStorage.addSlot ty origin) fun _ _ => Storage.get?_push

/-- Appends a method slot whose address escapes. -/
def addPinned (l : Ledger) (ty : Code.Ty) (origin : Option Nat) : Nat × Ledger :=
  l.grow (l.toStorage.addPinned ty origin) fun _ _ => Storage.get?_push

/-- Appends a frame field. -/
def addFrameField (l : Ledger) (ty : Code.Ty) (origin : Option Nat) : Nat × Ledger :=
  l.grow (l.toStorage.addFrameField ty origin) fun _ _ => Storage.get?_push

/-- Appends a variable for a place, to be shared by all its mentions. -/
def addShared (l : Ledger) (place : Place) (ty : Code.Ty) : Nat × Ledger :=
  let next := l.toStorage.add place ty none
  (next.1, {
    toStorage := next.2
    shared := l.shared.insert (.of place ty) next.1
    sound := by
      intro place' ty' id found
      rw [Lookup.find?_insert] at found
      split at found
      next same =>
        cases found
        refine ⟨_, Storage.get?_push_self _ _, isShared_of_key same ?_⟩
        cases place <;> simp [isShared]
      next =>
        obtain ⟨v, there, hit⟩ := l.sound found
        exact ⟨v, Storage.get?_push there, hit⟩ })

end Ledger

/-! ## Variables of instructions -/

/-- The variables that were made for instructions. -/
structure Homes where
  /-- What holds the result of an instruction. -/
  results : Lookup Nat := {}
  /-- The storage behind an allocation. -/
  allocations : Lookup Nat := {}
deriving DecidableEq, Repr

namespace Homes

/-- Enters the variable for a result. -/
def addResult (h : Homes) (value var : Nat) : Homes :=
  { h with results := h.results.insert value var }

/-- Enters the variable that an allocation stands for. -/
def addAllocation (h : Homes) (value var : Nat) : Homes :=
  { h with allocations := h.allocations.insert value var }

end Homes

end Stackwise.Lowering
