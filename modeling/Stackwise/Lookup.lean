/-!
# Lookup tables

A table whose entries are numbered by position is searched from its beginning.  A `Lookup` is kept
beside such a table: it gives the number of an entry from a key, and has to be told of every entry
that is added.
-/

namespace Stackwise

/-- A finite map from keys to numbers: a list of entries, of which the first for a key counts. -/
structure Lookup (κ : Type) where
  entries : List (κ × Nat) := []
deriving DecidableEq, Repr

namespace Lookup

variable {κ : Type} [DecidableEq κ]

/-- The number for a key. -/
def find? (l : Lookup κ) (key : κ) : Option Nat := l.entries.lookup key

/-- Enters a number for a key, in place of an earlier one. -/
def insert (l : Lookup κ) (key : κ) (number : Nat) : Lookup κ := ⟨(key, number) :: l.entries⟩

@[simp] theorem find?_empty (key : κ) : ({} : Lookup κ).find? key = none := rfl

/-- Only the entry for the key itself changes. -/
theorem find?_insert (l : Lookup κ) (key key' : κ) (number : Nat) :
    (l.insert key number).find? key' = if key' = key then some number else l.find? key' := by
  rw [insert, find?, List.lookup_cons]
  by_cases same : key' = key
  · rw [same, if_pos rfl, beq_self_eq_true]
  · rw [if_neg same, beq_false_of_ne same]
    rfl

end Lookup

end Stackwise
