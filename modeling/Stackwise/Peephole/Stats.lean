/-!
# Counts of changes

What one run of the peephole rules has changed, one count per rule.
-/

namespace Stackwise.Peephole

/-- How often each rule was applied, and how many indirect accesses are left. -/
structure Stats where
  loadFolds : Nat := 0
  storeFolds : Nat := 0
  popsRemoved : Nat := 0
  initsRemoved : Nat := 0
  forwarded : Nat := 0
  /-- Stores of variables that are never loaded, turned into `pop`. -/
  storesDropped : Nat := 0
  /-- Indirect accesses left in place after the last round. -/
  declined : Nat := 0
deriving DecidableEq, Repr

namespace Stats

/-- The number of changes made. -/
def changes (s : Stats) : Nat :=
  s.loadFolds + s.storeFolds + s.popsRemoved + s.initsRemoved + s.forwarded + s.storesDropped

/-- The counts of two runs together. -/
def add (a b : Stats) : Stats where
  loadFolds := a.loadFolds + b.loadFolds
  storeFolds := a.storeFolds + b.storeFolds
  popsRemoved := a.popsRemoved + b.popsRemoved
  initsRemoved := a.initsRemoved + b.initsRemoved
  forwarded := a.forwarded + b.forwarded
  storesDropped := a.storesDropped + b.storesDropped
  declined := a.declined + b.declined

instance : Add Stats := ⟨add⟩

/-- Changes add up. -/
@[simp] theorem changes_add (a b : Stats) : (a + b).changes = a.changes + b.changes := by
  show (add a b).changes = _
  simp only [changes, add]
  omega

@[simp] theorem changes_zero : ({} : Stats).changes = 0 := rfl

end Stats

end Stackwise.Peephole
