import Stackwise.Proofs.Peephole.Balance

/-!
# The optimizer respects how variables may be used

A table says of each variable whether it may be loaded, stored to, and pushed by address.  A fold
makes a direct access out of an indirect one, so a variable that was only pushed by address is
loaded or stored to afterwards; but the rule asks the table first.  Everything else in a window was
there before.  So code that the table permits stays permitted (`optimize_permits`).
-/

namespace Stackwise

namespace Code

/-- Whether the variable that an instruction names is in the table and may be used in this way. -/
def Storage.permits (s : Storage) : Instr → Bool
  | .load var => (s.get? var).any (·.access.load)
  | .store var => (s.get? var).any (·.access.store)
  | .addressOf var => (s.get? var).any (·.access.address)
  | .clear var => (s.get? var).isSome
  | _ => true

/-- Whether this holds of all instructions of a body. -/
def Storage.permitsAll (s : Storage) (blocks : List Block) : Bool :=
  blocks.all fun b => b.code.all s.permits

theorem Storage.permitsAll_iff {s : Storage} {blocks : List Block} :
    s.permitsAll blocks = true ↔ ∀ b ∈ blocks, ∀ i ∈ b.code, s.permits i = true := by
  rw [Storage.permitsAll, List.all_eq_true]
  constructor
  · intro all b mem
    exact List.all_eq_true.1 (all b mem)
  · intro all b mem
    exact List.all_eq_true.2 (all b mem)

/-- What is permitted is in the table. -/
theorem Storage.lt_size_of_permits {s : Storage} {i : Instr} (h : s.permits i = true) {var : Nat}
    (named : i.var? = some var) : var < s.size := by
  have inside {v : Variable} (there : s.get? var = some v) : var < s.size :=
    (Array.getElem?_eq_some_iff.1 there).1
  cases i with
  | load _ | store _ | addressOf _ =>
    cases named
    obtain ⟨v, there, -⟩ := (Option.any_eq_true _ _).1 h
    exact inside there
  | clear _ =>
    cases named
    obtain ⟨v, there⟩ := Option.isSome_iff_exists.1 h
    exact inside there
  | _ => cases named

end Code

namespace Peephole

open Code

variable {storage : Storage} {temps : Marks}

/-- Folding asks the table before it makes an access direct. -/
theorem Folds.permits {old new : List Instr} (h : Folds storage temps old new)
    (all : ∀ i ∈ old, storage.permits i = true) : ∀ i ∈ new, storage.permits i = true := by
  cases h with
  | load listed _ allowed =>
    refine List.forall_mem_singleton.2 ?_
    rw [Storage.permits, listed]
    exact allowed
  | loadField => exact List.forall_mem_singleton.2 rfl
  | deadLoad | deadAddress | deadSize => exact List.forall_mem_nil _
  | store listed _ _ allowed =>
    obtain ⟨-, later⟩ := List.forall_mem_cons.1 all
    refine List.forall_mem_append.2 ⟨(List.forall_mem_append.1 later).1, ?_⟩
    refine List.forall_mem_singleton.2 ?_
    rw [Storage.permits, listed]
    exact allowed
  | storeField =>
    obtain ⟨-, later⟩ := List.forall_mem_cons.1 all
    refine List.forall_mem_append.2 ⟨(List.forall_mem_append.1 later).1, ?_⟩
    exact List.forall_mem_singleton.2 rfl

theorem Cleans.permits {old new : List Instr} (h : Cleans temps old new)
    (all : ∀ i ∈ old, storage.permits i = true) : ∀ i ∈ new, storage.permits i = true := by
  cases h with
  | clear => exact List.forall_mem_nil _
  | store => exact List.forall_mem_singleton.2 rfl
  | pair =>
    obtain ⟨-, later⟩ := List.forall_mem_cons.1 all
    exact (List.forall_mem_append.1 later).1

/-- So no window of the optimizer needs more than the table permits. -/
theorem Windows.permits {level : Level} {old new : List Instr} (h : Windows storage level old new)
    (all : ∀ i ∈ old, storage.permits i = true) : ∀ i ∈ new, storage.permits i = true := by
  cases h with
  | fold folds => exact folds.permits all
  | clean _ cleans => exact cleans.permits all

/-- On code that the table permits the optimizer runs to its end, and the table permits what it
makes of it. -/
theorem optimize_permits (level : Level) {blocks : List Block}
    (permitted : storage.permitsAll blocks = true) :
    (∃ stats, (optimize storage level blocks).2 = .ok stats) ∧
      storage.permitsAll (optimize storage level blocks).1 = true := by
  rw [Storage.permitsAll_iff] at permitted
  constructor
  · refine optimize_eq_ok level fun b mem i here var named => ?_
    exact Storage.lt_size_of_permits (permitted b mem i here) named
  · rw [Storage.permitsAll_iff]
    exact forall_mem_of_bodyRewrites Windows.permits (optimize_rewrites storage level blocks)
      permitted

end Peephole

end Stackwise
