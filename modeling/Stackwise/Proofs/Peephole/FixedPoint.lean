import Mathlib.Algebra.Group.Nat.Defs
import Mathlib.Algebra.Group.Prod
import Mathlib.Data.Prod.Lex
import Stackwise.Proofs.Peephole.Balance

/-!
# Optimizing comes to rest

A round either changes nothing, and then it gives back the very same blocks, or it makes the body
smaller: the number of instructions falls or, where it stays, the number of stores does
(`round_shrinks`).  So there is no endless sequence of changing rounds, and the round that ended a
run shows that the result is a fixed point.  Folding does not look at the level, so a fixed point of
the highest level is one of the lower levels too.
-/

namespace Stackwise.Peephole

open Code
open Relation (ReflTransGen)

/-! ## Sizes -/

/-- Whether an instruction stores into a variable. -/
def isStore : Instr → Bool
  | .store _ => true
  | _ => false

/-- The number of instructions, then the number of stores. -/
def codeSize (code : List Instr) : Nat × Nat := (code.length, code.countP isStore)

/-- Stores in a body. -/
def countStores : List Block → Nat
  | [] => 0
  | b :: rest => b.code.countP isStore + countStores rest

/-- The number of instructions of a body, then the number of its stores. -/
def bodySize (blocks : List Block) : Nat × Nat := (instructionCount blocks, countStores blocks)

/-- Fewer instructions, or as many and fewer stores. -/
abbrev Smaller : Nat × Nat → Nat × Nat → Prop := Prod.Lex (· < ·) (· < ·)

theorem smaller_iff {a b : Nat × Nat} : Smaller a b ↔ a.1 < b.1 ∨ a.1 = b.1 ∧ a.2 < b.2 :=
  Prod.lex_def

/-- Sizes of code add up. -/
theorem codeSize_append (a b : List Instr) : codeSize (a ++ b) = codeSize a + codeSize b := by
  simp [codeSize]

theorem codeSize_cons (i : Instr) (code : List Instr) :
    codeSize (i :: code) = codeSize [i] + codeSize code :=
  codeSize_append [i] code

theorem bodySize_cons (b : Block) (rest : List Block) :
    bodySize (b :: rest) = codeSize b.code + bodySize rest := rfl

/-- What a pass that counts its changes does: none leaves everything as it is, and any makes it
smaller. -/
structure Shrinks {α : Type} (size : α → Nat × Nat) (changes : Nat) (before after : α) : Prop where
  same : changes = 0 → after = before
  smaller : 0 < changes → Smaller (size after) (size before)

namespace Shrinks

variable {α β : Type} {size : α → Nat × Nat} {size' : β → Nat × Nat} {n k : Nat}

theorem refl (a : α) : Shrinks size 0 a a := ⟨fun _ => rfl, fun positive => by omega⟩

/-- A change that makes things smaller may be counted as any positive number. -/
theorem of_smaller {before after : α} (h : Smaller (size after) (size before)) (positive : 0 < n) :
    Shrinks size n before after :=
  ⟨fun none => by omega, fun _ => h⟩

/-- Passes one after another shrink, and their changes add up. -/
theorem trans {a b c : α} (first : Shrinks size n a b) (second : Shrinks size k b c) :
    Shrinks size (n + k) a c := by
  rcases Nat.eq_zero_or_pos n with rfl | some
  · cases first.same rfl
    simpa using second
  refine of_smaller ?_ (by omega)
  rcases Nat.eq_zero_or_pos k with rfl | more
  · rw [second.same rfl]
    exact first.smaller some
  · have := smaller_iff.1 (first.smaller some)
    have := smaller_iff.1 (second.smaller more)
    rw [smaller_iff]
    omega

/-- Changes in a part of something larger. -/
theorem lift {before after : α} (h : Shrinks size n before after) (whole : α → β)
    (others : Nat × Nat) (sizes : ∀ a, size' (whole a) = others + size a) :
    Shrinks size' n (whole before) (whole after) := by
  refine ⟨fun none => by rw [h.same none], fun some => ?_⟩
  have := smaller_iff.1 (h.smaller some)
  rw [sizes, sizes, smaller_iff, Prod.fst_add, Prod.fst_add, Prod.snd_add, Prod.snd_add]
  omega

/-- What is in front does not matter to whether code shrinks. -/
theorem cons {before after : List Instr} (h : Shrinks codeSize n before after) (i : Instr) :
    Shrinks codeSize n (i :: before) (i :: after) :=
  h.lift (i :: ·) (codeSize [i]) (codeSize_cons i)

/-- Changes to the first block. -/
theorem inBody {before after : List Instr} (h : Shrinks codeSize n before after) (b : Block)
    (rest : List Block) :
    Shrinks bodySize n ({ b with code := before } :: rest) ({ b with code := after } :: rest) :=
  h.lift (fun code => { b with code } :: rest) (bodySize rest) fun code => by
    rw [bodySize_cons, add_comm]

/-- Changes behind the first block. -/
theorem behind {before after : List Block} (h : Shrinks bodySize n before after) (b : Block) :
    Shrinks bodySize n (b :: before) (b :: after) :=
  h.lift (b :: ·) (codeSize b.code) (bodySize_cons b)

end Shrinks

/-! ## Folding -/

/-- Every fold makes the code shorter. -/
theorem length_foldStep {storage : Storage} {temps : Marks} {code folded : List Instr}
    {kind : FoldKind} (h : foldStep storage temps code = .ok (some (kind, folded))) :
    folded.length < code.length := by
  obtain ⟨front, old, new, rest, window, rfl, rfl⟩ := foldStep_rewrites h
  have shorter : new.length < old.length := by cases window <;> simp
  simpa using shorter

/-- What holds of no fold, and of one fold more, holds of folding a block's code. -/
theorem foldCode_induction {storage : Storage} {temps : Marks}
    {P : Stats → List Instr → List Instr → Prop} (refl : ∀ code, P {} code code)
    (step : ∀ {kind stats code folded done},
      foldStep storage temps code = .ok (some (kind, folded)) → P stats folded done →
        P (kind.stats + stats) code done)
    {code done : List Instr} {stats : Stats}
    (h : foldCode storage temps code = (done, .ok stats)) : P stats code done := by
  fun_induction foldCode storage temps code generalizing done stats with
  | case1 code unlisted stopped => cases h
  | case2 code unchanged =>
    cases h
    exact refl code
  | case3 code kind folded found rest later run ih =>
    cases later with
    | error unlisted => cases h
    | ok later =>
      cases h
      exact step found (ih run)

/-- What holds block by block holds of folding all blocks. -/
theorem foldBlocks_induction {storage : Storage} {temps : Marks}
    {P : Stats → List Block → List Block → Prop} (nil : P {} [] [])
    (cons : ∀ {b code here later blocks rest},
      foldCode storage temps b.code = (code, .ok here) → P later blocks rest →
        P (here + later) (b :: blocks) ({ b with code } :: rest))
    {blocks done : List Block} {stats : Stats}
    (h : foldBlocks storage temps blocks = (done, .ok stats)) : P stats blocks done := by
  fun_induction foldBlocks storage temps blocks generalizing done stats with
  | case1 =>
    cases h
    exact nil
  | case2 b blocks code unlisted stopped => cases h
  | case3 b blocks code here folded rest later run ih =>
    cases later with
    | error unlisted => cases h
    | ok later =>
      cases h
      exact cons folded (ih run)

/-- Folding shrinks code by as many changes as it counts. -/
theorem foldCode_shrinks {storage : Storage} {temps : Marks} {code done : List Instr}
    {stats : Stats} (h : foldCode storage temps code = (done, .ok stats)) :
    Shrinks codeSize stats.changes code done := by
  refine foldCode_induction (P := fun stats => Shrinks codeSize stats.changes) .refl ?_ h
  intro kind later code folded done found rest
  have here : Shrinks codeSize kind.stats.changes code folded := by
    refine .of_smaller (.left _ _ (length_foldStep found)) ?_
    rw [FoldKind.changes_stats]
    exact Nat.one_pos
  rw [Stats.changes_add]
  exact here.trans rest

theorem foldBlocks_shrinks {storage : Storage} {temps : Marks} {blocks done : List Block}
    {stats : Stats} (h : foldBlocks storage temps blocks = (done, .ok stats)) :
    Shrinks bodySize stats.changes blocks done := by
  refine foldBlocks_induction (P := fun stats => Shrinks bodySize stats.changes) (.refl []) ?_ h
  intro b code here later blocks rest folded others
  rw [Stats.changes_add]
  exact ((foldCode_shrinks folded).inBody b blocks).trans (others.behind _)

/-! ## Removing temporaries -/

/-- Each redundant clearing store is one instruction less. -/
theorem dropClears_shrinks (temps : Marks) (code : List Instr) :
    Shrinks codeSize (countRedundant temps code) code (dropClears temps code) := by
  induction code with
  | nil => exact .refl []
  | cons i rest ih =>
    have later := ih.cons i
    cases redundant : isRedundant temps i rest with
    | false => simpa [countRedundant, dropClears, redundant] using later
    | true =>
      have here : Shrinks codeSize 1 (i :: dropClears temps rest) (dropClears temps rest) :=
        .of_smaller (.left _ _ (by simp)) Nat.one_pos
      simpa [countRedundant, dropClears, redundant] using later.trans here

/-- The size of code with gaps is that of the instructions left. -/
def gappedSize (code : Gapped) : Nat × Nat := codeSize code.toCode

theorem gappedSize_cons (entry : Option Instr) (code : Gapped) :
    gappedSize (entry :: code) = codeSize entry.toList + gappedSize code := by
  cases entry with
  | none => simp [gappedSize, codeSize]
  | some i => exact codeSize_cons i code.toCode

/-- What is in front does not matter to whether code with gaps shrinks. -/
theorem Shrinks.consGapped {n : Nat} {before after : Gapped}
    (h : Shrinks gappedSize n before after) (entry : Option Instr) :
    Shrinks gappedSize n (entry :: before) (entry :: after) :=
  h.lift (entry :: ·) (codeSize entry.toList) (gappedSize_cons entry)

/-- A store that becomes a `pop` leaves as many instructions and one store less. -/
theorem dropStores_shrinks (var : Nat) (code : Gapped) :
    Shrinks gappedSize (dropStores var code).2 code (dropStores var code).1 := by
  induction code with
  | nil => exact .refl []
  | cons entry rest ih =>
    have later := ih.consGapped entry
    by_cases found : entry = some (.store var)
    · -- As many instructions, but one store less.
      subst found
      have popped : Smaller (gappedSize (some .pop :: (dropStores var rest).1))
          (gappedSize (some (.store var) :: (dropStores var rest).1)) := by
        rw [gappedSize_cons, gappedSize_cons, smaller_iff]
        exact .inr ⟨rfl, Nat.add_lt_add_right (show 0 < 1 by decide) _⟩
      simpa [dropStores] using later.trans (.of_smaller popped Nat.one_pos)
    · simpa [dropStores, found] using later

/-- A store that goes with its load leaves two instructions less. -/
theorem dropPair_shrinks {var : Nat} {code dropped : Gapped}
    (h : dropPair var code = some dropped) : Shrinks gappedSize 1 code dropped := by
  obtain ⟨front, between, rest, -, before, after⟩ := dropPair_eq_some h
  refine .of_smaller (.left _ _ ?_) Nat.one_pos
  rw [before, after]
  simp only [List.length_append, List.length_cons]
  omega

/-- Removing one carrier shrinks code. -/
theorem carryVar_shrinks (use : Use) (code : Gapped) (var : Nat) :
    Shrinks gappedSize (carryVar use code var).2.changes code (carryVar use code var).1 := by
  fun_cases carryVar use code var with
  | case1 _ dropped count run =>
    have shrinks := dropStores_shrinks var code
    rw [run] at shrinks
    simpa [Stats.changes] using shrinks
  | case2 _ _ dropped found => exact dropPair_shrinks found
  | case3 | case4 => exact .refl code

/-- Removing several carriers does, one after another. -/
theorem carryVars_shrinks (code : Gapped) (vars : List (Use × Nat)) :
    Shrinks gappedSize (carryVars code vars).2.changes code (carryVars code vars).1 := by
  induction vars generalizing code with
  | nil => exact .refl code
  | cons entry vars ih =>
    simp only [carryVars, Stats.changes_add]
    exact (carryVar_shrinks entry.1 code entry.2).trans (ih _)

theorem carry_shrinks (temps : Marks) (code : List Instr) :
    Shrinks codeSize (carry temps code).2.changes code (carry temps code).1 := by
  have gapped := carryVars_shrinks (code.map some) (carriers temps code)
  have closed := gapped.lift Gapped.toCode 0 fun gaps => (zero_add (gappedSize gaps)).symm
  rwa [Gapped.toCode_map_some] at closed

/-- Cleaning up shrinks code by as many changes as it counts. -/
theorem cleanCode_shrinks (temps : Marks) (code : List Instr) :
    Shrinks codeSize (cleanCode temps code).2.changes code (cleanCode temps code).1 := by
  have counted : ({ initsRemoved := countRedundant temps code } : Stats).changes
      = countRedundant temps code := by simp [Stats.changes]
  simp only [cleanCode, Stats.changes_add, counted]
  exact (dropClears_shrinks temps code).trans (carry_shrinks temps _)

theorem cleanBlocks_shrinks (temps : Marks) (blocks : List Block) :
    Shrinks bodySize (cleanBlocks temps blocks).2.changes blocks (cleanBlocks temps blocks).1 := by
  induction blocks with
  | nil => exact .refl []
  | cons b blocks ih =>
    have first := (cleanCode_shrinks temps b.code).inBody b blocks
    simp only [cleanBlocks, Stats.changes_add]
    exact first.trans (ih.behind _)

/-- So it does on every level; below the aggressive one it counts nothing and changes nothing. -/
theorem cleanAt_shrinks (level : Level) (temps : Marks) (blocks : List Block) :
    Shrinks bodySize (cleanAt level temps blocks).2.changes blocks
      (cleanAt level temps blocks).1 := by
  cases level with
  | aggressive => exact cleanBlocks_shrinks temps blocks
  | off | fold => exact .refl blocks

/-! ## Rounds -/

/-- A round that runs to its end folds all blocks and then cleans them. -/
theorem round_eq_ok_iff {storage : Storage} {level : Level} {blocks next : List Block}
    {stats : Stats} :
    round storage level blocks = (next, .ok stats) ↔
      ∃ temps folded folds, classify storage blocks = .ok temps ∧
        foldBlocks storage temps blocks = (folded, .ok folds) ∧
        next = (cleanAt level temps folded).1 ∧
        stats = folds + (cleanAt level temps folded).2 := by
  constructor
  · intro h
    unfold round at h
    split at h
    · cases h
    · rename_i temps classified
      split at h
      · cases h
      · rename_i folded folds run
        cases h
        exact ⟨temps, folded, folds, classified, run, rfl, rfl⟩
  · rintro ⟨temps, folded, folds, classified, run, rfl, rfl⟩
    rw [round, classified]
    dsimp only
    rw [run]

/-- A round shrinks a body by as many changes as it counts. -/
theorem round_shrinks {storage : Storage} {level : Level} {blocks next : List Block}
    {stats : Stats} (h : round storage level blocks = (next, .ok stats)) :
    Shrinks bodySize stats.changes blocks next := by
  obtain ⟨temps, folded, folds, -, run, rfl, rfl⟩ := round_eq_ok_iff.1 h
  rw [Stats.changes_add]
  exact (foldBlocks_shrinks run).trans (cleanAt_shrinks level temps folded)

/-- A round that changes something leads from one body to the next. -/
def Improves (storage : Storage) (level : Level) (blocks next : List Block) : Prop :=
  ∃ stats, round storage level blocks = (next, .ok stats) ∧ 0 < stats.changes

/-- A round gives the body back and has changed nothing. -/
def AtRest (storage : Storage) (level : Level) (blocks : List Block) : Prop :=
  ∃ stats, round storage level blocks = (blocks, .ok stats) ∧ stats.changes = 0

/-- A round that changes something makes the body smaller, so rounds cannot go on forever. -/
theorem Improves.smaller {storage : Storage} {level : Level} {blocks next : List Block}
    (h : Improves storage level blocks next) : Smaller (bodySize next) (bodySize blocks) := by
  obtain ⟨stats, ran, positive⟩ := h
  exact (round_shrinks ran).smaller positive

/-- How far the rules of a level go. -/
def Level.rank : Level → Nat
  | off => 0
  | fold => 1
  | aggressive => 2

/-- Folding is the same on every level, so what a stronger level has no change for, a weaker one has
none for either. -/
theorem AtRest.weaken {storage : Storage} {level weaker : Level} {blocks : List Block}
    (h : AtRest storage level blocks) (le : weaker.rank ≤ level.rank) :
    AtRest storage weaker blocks := by
  obtain ⟨stats, ran, none⟩ := h
  obtain ⟨temps, folded, folds, classified, run, same, rfl⟩ := round_eq_ok_iff.1 ran
  rw [Stats.changes_add] at none
  obtain rfl := (foldBlocks_shrinks run).same (by omega)
  have cleans : (cleanAt weaker temps folded).2.changes = 0 ∧
      folded = (cleanAt weaker temps folded).1 := by
    cases weaker with
    | off | fold => exact ⟨rfl, rfl⟩
    | aggressive =>
      cases level with
      | off | fold => simp [Level.rank] at le
      | aggressive => exact ⟨by omega, same⟩
  refine ⟨_, round_eq_ok_iff.2 ⟨temps, folded, folds, classified, run, cleans.2, rfl⟩, ?_⟩
  rw [Stats.changes_add]
  omega

/-- A run is a chain of rounds that change something, up to a body at rest. -/
theorem settle_comesToRest {storage : Storage} {level : Level} {blocks done : List Block}
    {stats : Stats} (h : settle storage level blocks = (done, .ok stats)) :
    ReflTransGen (Improves storage level) blocks done ∧ AtRest storage level done := by
  fun_induction settle storage level blocks generalizing done stats with
  | case1 blocks next unlisted stopped => cases h
  | case2 blocks next here ran unchanged =>
    cases h
    obtain rfl := (round_shrinks ran).same unchanged
    exact ⟨.refl, here, ran, unchanged⟩
  | case3 blocks next here ran changed last later run ih =>
    cases later with
    | error unlisted => cases h
    | ok later =>
      cases h
      obtain ⟨chain, rest⟩ := ih run
      exact ⟨.head ⟨here, ran, by omega⟩ chain, rest⟩

/-- A body at rest is given back by further rounds. -/
theorem AtRest.settle {storage : Storage} {level : Level} {blocks : List Block}
    (h : AtRest storage level blocks) :
    ∃ stats, settle storage level blocks = (blocks, .ok stats) ∧ stats.changes = 0 := by
  obtain ⟨stats, ran, none⟩ := h
  refine ⟨stats, ?_, none⟩
  rw [Peephole.settle]
  split
  · rename_i stopped
    rw [ran] at stopped
    cases stopped
  · rename_i next again ran'
    rw [ran] at ran'
    cases ran'
    rw [if_pos none]

/-- The optimizer gives a body at rest back. -/
theorem AtRest.optimize {storage : Storage} {level : Level} {blocks : List Block}
    (h : AtRest storage level blocks) :
    ∃ stats, optimize storage level blocks = (blocks, .ok stats) ∧ stats.changes = 0 := by
  obtain ⟨stats, settled, none⟩ := h.settle
  cases level with
  | off => exact ⟨_, rfl, rfl⟩
  | fold | aggressive =>
    refine ⟨{ stats with declined := countIndirect blocks }, ?_, none⟩
    rw [Peephole.optimize, settled]
    · rfl
    · intro same
      cases same

/-- Unless the optimizer is off, it leads by improving rounds to a body at rest. -/
theorem optimize_comesToRest {storage : Storage} {level : Level} {blocks done : List Block}
    {stats : Stats} (h : optimize storage level blocks = (done, .ok stats)) (on : level ≠ .off) :
    ReflTransGen (Improves storage level) blocks done ∧ AtRest storage level done := by
  rw [optimize] at h
  · cases settled : settle storage level blocks with
    | mk last counts =>
      rw [settled] at h
      cases counts with
      | error unlisted => cases h
      | ok counts =>
        cases h
        exact settle_comesToRest settled
  · exact on

/-- Optimizing ends, and what it ends with is a fixed point, also of every weaker level.

Each fold shortens the code of its block.  Each round that changes something lowers the number of
instructions of the body or, where that stays, the number of its stores.  So neither goes on
forever.  A body whose variables have entries is optimized to the end, by rounds that change
something up to one that does not, and another run on the same level or on a weaker one changes
nothing and gives back the same blocks. -/
theorem optimizing_comes_to_rest (storage : Storage) (level : Level) :
    (∀ temps code kind folded, foldStep storage temps code = .ok (some (kind, folded)) →
      folded.length < code.length) ∧
    (∀ temps, WellFounded fun after before =>
      ∃ kind, foldStep storage temps before = .ok (some (kind, after))) ∧
    (∀ blocks next, Improves storage level blocks next →
      Smaller (bodySize next) (bodySize blocks)) ∧
    (WellFounded fun after before => Improves storage level before after) ∧
    (∀ blocks, (∀ b ∈ blocks, Listed storage b.code) →
      ∃ done stats, optimize storage level blocks = (done, .ok stats)) ∧
    ∀ blocks done stats, optimize storage level blocks = (done, .ok stats) →
      ReflTransGen (Improves storage level) blocks done ∧
      ∀ weaker : Level, weaker.rank ≤ level.rank →
        ∃ again, optimize storage weaker done = (done, .ok again) ∧ again.changes = 0 := by
  refine ⟨fun _ _ _ _ => length_foldStep, fun temps => ?_, fun _ _ => Improves.smaller, ?_, ?_, ?_⟩
  · refine Subrelation.wf ?_ (InvImage.wf List.length Nat.lt_wfRel.wf)
    rintro after before ⟨kind, found⟩
    exact length_foldStep found
  · exact Subrelation.wf Improves.smaller
      (InvImage.wf bodySize (WellFounded.prod_lex Nat.lt_wfRel.wf Nat.lt_wfRel.wf))
  · intro blocks listed
    obtain ⟨stats, ok⟩ := optimize_eq_ok level listed
    exact ⟨_, stats, Prod.ext rfl ok⟩
  · intro blocks done stats optimized
    by_cases on : level = .off
    · -- Nothing has run, and on the only level that is not stronger nothing will.
      subst on
      cases optimized
      refine ⟨.refl, fun weaker le => ?_⟩
      cases weaker with
      | off => exact ⟨_, rfl, rfl⟩
      | fold | aggressive => simp [Level.rank] at le
    · obtain ⟨chain, rest⟩ := optimize_comesToRest optimized on
      exact ⟨chain, fun weaker le => (rest.weaken le).optimize⟩

/-- Two blocks that name variable 0, one of them only to drop its value: it is a temporary of the
second block from the second round on. -/
def staged : List Block :=
  [⟨0, none, [.load 0, .pop, .branch 1]⟩, ⟨1, none, [.load 1, .store 0, .load 0, .ret true]⟩]

/-- What the first round makes of them. -/
def stagedOnce : List Block :=
  [⟨0, none, [.branch 1]⟩, ⟨1, none, [.load 1, .store 0, .load 0, .ret true]⟩]

/-- What is left in the end. -/
def stagedDone : List Block :=
  [⟨0, none, [.branch 1]⟩, ⟨1, none, [.load 1, .ret true]⟩]

/-- The second round removes what the first one has made a temporary, and then nothing is left to
do. -/
theorem optimizing_comes_to_rest_staged :
    [Instr.branch 1].length < [Instr.load 0, .pop, .branch 1].length ∧
    Smaller (bodySize stagedOnce) (bodySize staged) ∧
    (∃ done stats, optimize roundaboutStorage .aggressive staged = (done, .ok stats)) ∧
    ReflTransGen (Improves roundaboutStorage .aggressive) staged stagedDone ∧
    ∃ again, optimize roundaboutStorage .fold stagedDone = (stagedDone, .ok again) ∧
      again.changes = 0 := by
  have folded : foldStep roundaboutStorage #[] [.load 0, .pop, .branch 1]
      = .ok (some (.deadPush, [.branch 1])) := rfl
  have improves : Improves roundaboutStorage .aggressive staged stagedOnce :=
    ⟨{ popsRemoved := 1 }, by with_unfolding_all rfl, by decide⟩
  have listed : ∀ b ∈ staged, Listed roundaboutStorage b.code := by
    simp [staged, roundaboutStorage, Listed, Instr.var?, Storage.size]
  have optimized : optimize roundaboutStorage .aggressive staged
      = (stagedDone, .ok { popsRemoved := 1, forwarded := 1 }) := by with_unfolding_all rfl
  obtain ⟨shortens, -, lowers, -, ends, rests⟩ :=
    optimizing_comes_to_rest roundaboutStorage .aggressive
  obtain ⟨chain, again⟩ := rests _ _ _ optimized
  exact ⟨shortens _ _ _ _ folded, lowers _ _ improves, ends _ listed, chain,
    again .fold (by decide)⟩

end Stackwise.Peephole
