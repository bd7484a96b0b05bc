import Stackwise.Peephole.Cleanup

/-!
# Optimizing a body

A round classifies the temporaries of the whole body once, then folds every block by itself, and
then, on the highest level, removes temporaries from every block by itself.  Rounds are repeated
until one changes nothing: what goes away in one block can make a variable of another block a
temporary.  Every change makes the body lighter, so the rounds end, and since the last one changed
nothing a second run changes nothing either.

A run that needs the entry of a variable which the table does not have stops there, with the blocks
as they stand.
-/

namespace Stackwise.Peephole

open Code

/-- Which rules run. -/
inductive Level where
  /-- None: the body is left as it is. -/
  | off
  /-- Folding only. -/
  | fold
  /-- Folding, then the removal of temporaries. -/
  | aggressive
deriving DecidableEq, Repr

/-- Drops redundant initializations and carried temporaries from a block's code. -/
def cleanCode (temps : Marks) (code : List Instr) : List Instr × Stats :=
  let (carried, stats) := carry temps (dropClears temps code)
  (carried, { initsRemoved := countRedundant temps code } + stats)

/-- Folds every block, up to the first variable without an entry. -/
def foldBlocks (storage : Storage) (temps : Marks) :
    List Block → List Block × Except Unlisted Stats
  | [] => ([], .ok {})
  | b :: blocks =>
    match foldCode storage temps b.code with
    | (code, .error unlisted) => ({ b with code } :: blocks, .error unlisted)
    | (code, .ok here) =>
      let (rest, later) := foldBlocks storage temps blocks
      ({ b with code } :: rest, later.map (here + ·))

/-- Cleans every block. -/
def cleanBlocks (temps : Marks) : List Block → List Block × Stats
  | [] => ([], {})
  | b :: blocks =>
    let (code, here) := cleanCode temps b.code
    let (rest, later) := cleanBlocks temps blocks
    ({ b with code } :: rest, here + later)

/-- What a round does to folded blocks. -/
def cleanAt (level : Level) (temps : Marks) (blocks : List Block) : List Block × Stats :=
  match level with
  | .aggressive => cleanBlocks temps blocks
  | _ => (blocks, {})

/-- One round on a body. -/
def round (storage : Storage) (level : Level) (blocks : List Block) :
    List Block × Except Unlisted Stats :=
  match classify storage blocks with
  | .error unlisted => (blocks, .error unlisted)
  | .ok temps =>
    match foldBlocks storage temps blocks with
    | (folded, .error unlisted) => (folded, .error unlisted)
    | (folded, .ok folds) =>
      let (cleaned, cleanups) := cleanAt level temps folded
      (cleaned, .ok (folds + cleanups))

/-- The weight of a whole body. -/
def bodyWeight : List Block → Nat
  | [] => 0
  | b :: rest => weight b.code + bodyWeight rest

/-- Cleaning up makes the code lighter by at least the number of changes. -/
theorem weight_cleanCode (temps : Marks) (code : List Instr) :
    weight (cleanCode temps code).1 + (cleanCode temps code).2.changes ≤ weight code := by
  have cleared := weight_dropClears temps code
  have carried := weight_carry temps (dropClears temps code)
  have counted : ({ initsRemoved := countRedundant temps code } : Stats).changes
      = countRedundant temps code := by simp only [Stats.changes, Nat.zero_add, Nat.add_zero]
  simp only [cleanCode, Stats.changes_add, counted]
  omega

/-- Folding all blocks makes the body lighter by at least the number of changes. -/
theorem weight_foldBlocks {storage : Storage} {temps : Marks} {blocks : List Block}
    {stats : Stats} (h : (foldBlocks storage temps blocks).2 = .ok stats) :
    bodyWeight (foldBlocks storage temps blocks).1 + stats.changes ≤ bodyWeight blocks := by
  fun_induction foldBlocks storage temps blocks generalizing stats with
  | case1 =>
    cases h
    exact Nat.le_refl _
  | case2 b blocks code unlisted _ => cases h
  | case3 b blocks code here folded rest later run ih =>
    have first : weight code + here.changes ≤ weight b.code := by
      have lighter := weight_foldCode (congrArg Prod.snd folded)
      rwa [congrArg Prod.fst folded] at lighter
    rw [run] at ih
    cases later with
    | error unlisted => cases h
    | ok later =>
      cases h
      have others := ih rfl
      simp only [bodyWeight, Stats.changes_add] at others ⊢
      omega

/-- So does cleaning up all blocks. -/
theorem weight_cleanBlocks (temps : Marks) (blocks : List Block) :
    bodyWeight (cleanBlocks temps blocks).1 + (cleanBlocks temps blocks).2.changes
      ≤ bodyWeight blocks := by
  induction blocks with
  | nil => exact Nat.le_refl _
  | cons b blocks ih =>
    have here := weight_cleanCode temps b.code
    simp only [cleanBlocks, bodyWeight, Stats.changes_add] at ih ⊢
    omega

/-- On every level, cleaning up makes a body lighter by at least as much as the number of changes.
-/
theorem weight_cleanAt (level : Level) (temps : Marks) (blocks : List Block) :
    bodyWeight (cleanAt level temps blocks).1 + (cleanAt level temps blocks).2.changes
      ≤ bodyWeight blocks := by
  cases level with
  | aggressive => exact weight_cleanBlocks temps blocks
  | off | fold => exact Nat.le_refl _

/-- A round makes the body lighter by at least the number of its changes, so a round that changes
something is not repeated for ever. -/
theorem weight_round {storage : Storage} {level : Level} {blocks next : List Block}
    {stats : Stats} (h : round storage level blocks = (next, .ok stats)) :
    bodyWeight next + stats.changes ≤ bodyWeight blocks := by
  unfold round at h
  split at h
  · cases h
  · rename_i temps _
    split at h
    · cases h
    · rename_i folded folds run
      have first : bodyWeight folded + folds.changes ≤ bodyWeight blocks := by
        have lighter := weight_foldBlocks (congrArg Prod.snd run)
        rwa [congrArg Prod.fst run] at lighter
      have second := weight_cleanAt level temps folded
      simp only [Prod.mk.injEq, Except.ok.injEq] at h
      obtain ⟨rfl, rfl⟩ := h
      rw [Stats.changes_add]
      omega

/-- Rounds until one changes nothing or stops. -/
def settle (storage : Storage) (level : Level) (blocks : List Block) :
    List Block × Except Unlisted Stats :=
  match _next : round storage level blocks with
  | (next, .error unlisted) => (next, .error unlisted)
  | (next, .ok stats) =>
    if stats.changes = 0 then (next, .ok stats)
    else
      let (done, later) := settle storage level next
      (done, later.map (stats + ·))
termination_by bodyWeight blocks
decreasing_by
  have lighter := weight_round _next
  omega

/-- Indirect accesses in a body. -/
def countIndirect : List Block → Nat
  | [] => 0
  | b :: rest => b.code.countP Instr.isIndirect + countIndirect rest

/-- Optimizes a body whose variables are in `storage`: the blocks as they stand at the end, and the
counts of the changes, unless the run has stopped at a variable without an entry. -/
def optimize (storage : Storage) (level : Level) (blocks : List Block) :
    List Block × Except Unlisted Stats :=
  match level with
  | .off => (blocks, .ok {})
  | level =>
    let (done, stats) := settle storage level blocks
    (done, stats.map fun s => { s with declined := countIndirect done })

end Stackwise.Peephole
