import Stackwise.Peephole.Stats
import Stackwise.Peephole.Temporary

/-!
# Folding indirect accesses

Lowered code goes through addresses: a read is `addressOf; loadIndirect`, a write is `addressOf`,
the value, `storeIndirect`.  Three rules make such accesses direct within one block.

* **Load.**  `addressOf v; loadIndirect t` becomes `load v` when `v` is a temporary that may be
  loaded and whose type is compatible with `t`; `fieldAddress f; loadIndirect t` becomes
  `loadField f` when the field's type is compatible.
* **Store.**  For `storeIndirect t` the instruction that pushed the address is sought backwards.
  The address of a compatible temporary is dropped and the write becomes a trailing `store`; the
  address of a compatible field gives a trailing `storeField`.
* **Dead push.**  A push that is popped at once goes away with its `pop`.

`foldStep` finds the leftmost place where one applies; `foldCode` repeats it until there is none,
which ends because every rule makes the code lighter.  A rule that concerns a variable asks for its
entry; where there is none, folding stops and leaves the code as it stands.
-/

namespace Stackwise.Peephole

open Code

/-- Which of the three rules was applied. -/
inductive FoldKind where
  | load
  | store
  | deadPush
deriving DecidableEq, Repr

/-- The count of one application. -/
def FoldKind.stats : FoldKind → Stats
  | load => { loadFolds := 1 }
  | store => { storeFolds := 1 }
  | deadPush => { popsRemoved := 1 }

/-- Every fold counts as one change. -/
theorem FoldKind.changes_stats (kind : FoldKind) : kind.stats.changes = 1 := by
  cases kind <;> rfl

/-- Whether reading `ty` through the address of the variable may become a direct load. -/
def mayLoadAs (storage : Storage) (temps : Marks) (var : Nat) (ty : Ty) : Except Unlisted Bool :=
  match storage.get? var with
  | some v => .ok (temps.has var && v.access.load && v.ty.compatible ty)
  | none => .error ⟨var⟩

/-- Whether writing `ty` through the address of the variable may become a direct store. -/
def mayStoreAs (storage : Storage) (temps : Marks) (var : Nat) (ty : Ty) : Except Unlisted Bool :=
  match storage.get? var with
  | some v => .ok (temps.has var && v.access.store && v.ty.compatible ty)
  | none => .error ⟨var⟩

/-- Searches backwards for the instruction that pushed the value `depth` places below the top.
`before` is the code before the search point, last instruction first; the answer gives the
instructions passed on the way, in order, the one sought, and what stands before it. -/
def producer (depth : Nat) (passed : List Instr) :
    (before : List Instr) → Option (List Instr × Instr × List Instr)
  | [] => none
  | i :: before =>
    if i.isAnchor then none
    else if i.pushes = depth then some (passed, i, before)
    else if depth < i.pushes then none
    else producer (depth - i.pushes + i.pops) (i :: passed) before

/-- The rule that applies at an instruction, with the whole code after it.  `before` is the code
in front of the instruction, last first. -/
def foldAt (storage : Storage) (temps : Marks) (before : List Instr) (i : Instr)
    (rest : List Instr) : Except Unlisted (Option (FoldKind × List Instr)) :=
  match before, i with
  | .addressOf var :: front, .loadIndirect ty =>
    match mayLoadAs storage temps var ty with
    | .error unlisted => .error unlisted
    | .ok may => .ok (if may then some (.load, front.reverse ++ .load var :: rest) else none)
  | .fieldAddress field :: front, .loadIndirect ty =>
    .ok (if field.ty.compatible ty then some (.load, front.reverse ++ .loadField field :: rest)
      else none)
  | .load _ :: front, .pop => .ok (some (.deadPush, front.reverse ++ rest))
  | .addressOf _ :: front, .pop => .ok (some (.deadPush, front.reverse ++ rest))
  | .sizeOf _ :: front, .pop => .ok (some (.deadPush, front.reverse ++ rest))
  | before, .storeIndirect ty =>
    match producer 2 [] before with
    | some (passed, .addressOf var, front) =>
      match mayStoreAs storage temps var ty with
      | .error unlisted => .error unlisted
      | .ok may =>
        .ok (if may then some (.store, front.reverse ++ passed ++ .store var :: rest) else none)
    | some (passed, .fieldAddress field, front) =>
      .ok (if field.ty.compatible ty then
        some (.store, front.reverse ++ passed ++ .storeField field :: rest) else none)
    | _ => .ok none
  | _, _ => .ok none

/-- The leftmost application of a rule in `rest`, behind the code `before` (last first). -/
def foldFrom (storage : Storage) (temps : Marks) :
    (before rest : List Instr) → Except Unlisted (Option (FoldKind × List Instr))
  | _, [] => .ok none
  | before, i :: rest =>
    match foldAt storage temps before i rest with
    | .ok none => foldFrom storage temps (i :: before) rest
    | found => found

/-- The leftmost application of a rule to a block's code. -/
def foldStep (storage : Storage) (temps : Marks) (code : List Instr) :
    Except Unlisted (Option (FoldKind × List Instr)) :=
  foldFrom storage temps [] code

/-! ## Every rule makes the code lighter -/

/-- Every instruction adds its own weight. -/
theorem weight_cons (i : Instr) (rest : List Instr) :
    weight (i :: rest) = weight [i] + weight rest := by
  cases i <;> simp only [weight] <;> omega

/-- Pieces of code weigh together what they weigh apart. -/
theorem weight_append (a b : List Instr) : weight (a ++ b) = weight a + weight b := by
  induction a with
  | nil => rw [List.nil_append, weight, Nat.zero_add]
  | cons i a ih => rw [List.cons_append, weight_cons, ih, weight_cons i a, Nat.add_assoc]

/-- The order does not count. -/
theorem weight_reverse (a : List Instr) : weight a.reverse = weight a := by
  induction a with
  | nil => rfl
  | cons i a ih => rw [List.reverse_cons, weight_append, ih, weight_cons i a, Nat.add_comm]

/-- The search for a producer loses nothing on its way. -/
theorem weight_producer {depth : Nat} {passed before : List Instr}
    {found : List Instr × Instr × List Instr} (h : producer depth passed before = some found) :
    weight found.1 + weight [found.2.1] + weight found.2.2 = weight passed + weight before := by
  induction before generalizing depth passed with
  | nil => cases h
  | cons i before ih =>
    rw [producer] at h
    rw [weight_cons i before]
    split at h
    · cases h
    split at h
    · cases h
      exact Nat.add_assoc _ _ _
    split at h
    · cases h
    · rw [ih h, weight_cons i passed]
      omega

/-- The answer of a rule that applies under a condition. -/
theorem eq_of_ok_ite {α : Type} {may : Bool} {folded found : α}
    (h : (.ok (if may then some folded else none) : Except Unlisted (Option α)) =
      .ok (some found)) : found = folded := by
  cases may with
  | false => cases h
  | true =>
    cases h
    rfl

/-- Every rule makes the code lighter. -/
theorem weight_foldAt {storage : Storage} {temps : Marks} {before : List Instr} {i : Instr}
    {rest : List Instr} {found : FoldKind × List Instr}
    (h : foldAt storage temps before i rest = .ok (some found)) :
    weight found.2 < weight before + weight (i :: rest) := by
  unfold foldAt at h
  split at h
  · -- A load through the address of a variable.
    split at h
    · cases h
    · rw [eq_of_ok_ite h]
      simp only [weight_append, weight_reverse, weight]
      omega
  · -- A load through the address of a field.
    rw [eq_of_ok_ite h]
    simp only [weight_append, weight_reverse, weight]
    omega
  case h_3 | h_4 | h_5 =>
    cases h
    simp only [weight_append, weight_reverse, weight]
    omega
  · -- A store, whose address was pushed further in front.
    split at h
    · rename_i passed var front producedBy
      have kept := weight_producer producedBy
      split at h
      · cases h
      · rw [eq_of_ok_ite h]
        simp only [weight_append, weight_reverse, weight] at kept ⊢
        omega
    · rename_i passed field front producedBy
      have kept := weight_producer producedBy
      rw [eq_of_ok_ite h]
      simp only [weight_append, weight_reverse, weight] at kept ⊢
      omega
    · cases h
  · cases h

/-- So does the leftmost rule that applies, wherever that is. -/
theorem weight_foldFrom {storage : Storage} {temps : Marks} {before rest : List Instr}
    {found : FoldKind × List Instr}
    (h : foldFrom storage temps before rest = .ok (some found)) :
    weight found.2 < weight before + weight rest := by
  induction rest generalizing before with
  | nil => cases h
  | cons i rest ih =>
    rw [foldFrom] at h
    split at h
    · have lighter := ih h
      rw [weight_cons] at lighter ⊢
      omega
    · exact weight_foldAt h

/-- A step of folding makes code lighter. -/
theorem weight_foldStep {storage : Storage} {temps : Marks} {code : List Instr}
    {found : FoldKind × List Instr} (h : foldStep storage temps code = .ok (some found)) :
    weight found.2 < weight code := by
  have lighter := weight_foldFrom h
  rwa [weight, Nat.zero_add] at lighter

/-- Folds a block's code until no rule applies, counting the applications, or until a variable has
no entry.  The code is given as it stands at the end. -/
def foldCode (storage : Storage) (temps : Marks) (code : List Instr) :
    List Instr × Except Unlisted Stats :=
  match _found : foldStep storage temps code with
  | .error unlisted => (code, .error unlisted)
  | .ok none => (code, .ok {})
  | .ok (some (kind, folded)) =>
    let (done, stats) := foldCode storage temps folded
    (done, stats.map (kind.stats + ·))
termination_by weight code
decreasing_by exact weight_foldStep _found

/-- Folding makes the code lighter by at least the number of its changes. -/
theorem weight_foldCode {storage : Storage} {temps : Marks} {code : List Instr} {stats : Stats}
    (h : (foldCode storage temps code).2 = .ok stats) :
    weight (foldCode storage temps code).1 + stats.changes ≤ weight code := by
  fun_induction foldCode storage temps code generalizing stats with
  | case1 code unlisted _ => cases h
  | case2 code _ =>
    cases h
    exact Nat.le_refl _
  | case3 code kind folded found done later run ih =>
    have lighter := weight_foldStep found
    rw [run] at ih
    cases later with
    | error unlisted => cases h
    | ok later =>
      cases h
      have rest := ih rfl
      rw [Stats.changes_add, FoldKind.changes_stats]
      dsimp only at rest lighter ⊢
      omega

end Stackwise.Peephole
