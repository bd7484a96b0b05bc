import Mathlib.Data.List.Forall2
import Stackwise.Proofs.Peephole.Carrying

/-!
# Classification only grows

A round finds the temporaries of a body once, and goes on using them while it changes all blocks.
The next round finds them anew.  Both are sound for one reason: no step of a round makes a block
name a variable that it has not named before (`Narrows`).

* A temporary is named in one block when the round begins.  So it is named in at most one block at
  every later moment of the round (`Marks.Lone.narrows`), whatever the order of the steps.
* A candidate stops being a temporary only when the last instruction that names it is gone.  Until
  then it is named in the block that it has always been named in, its *home*, and every later round
  finds it again (`BodyNarrows.temporary`).

What a later round adds are candidates that some block has ceased to name.
-/

namespace Stackwise.Peephole

open Code
open Relation (ReflTransGen)

/-! ## Bodies that name less -/

/-- Block by block, the second body names no variable that the first does not name there. -/
def BodyNarrows (blocks now : List Block) : Prop :=
  List.Forall₂ (fun b b' => Narrows b.code b'.code) blocks now

/-- Some block names the variable. -/
def Mentioned (blocks : List Block) (var : Nat) : Prop :=
  ∃ b ∈ blocks, mentions var b.code = true

/-- The block with the number `k` names the variable, and no other does. -/
def IsHome (blocks : List Block) (var k : Nat) : Prop :=
  ∀ k', (∃ b, blocks[k']? = some b ∧ mentions var b.code = true) ↔ k' = k

variable {blocks now later : List Block} {var : Nat}

namespace BodyNarrows

theorem refl (blocks : List Block) : BodyNarrows blocks blocks := by
  induction blocks with
  | nil => exact .nil
  | cons b rest ih => exact .cons (fun _ named => named) ih

theorem trans (first : BodyNarrows blocks now) (second : BodyNarrows now later) :
    BodyNarrows blocks later := by
  induction first generalizing later with
  | nil => exact second
  | cons here _ ih =>
    obtain _ | ⟨here', rest'⟩ := second
    exact .cons (fun var named => here var (here' var named)) (ih rest')

/-- A block that names a variable has named it before. -/
theorem getElem? (h : BodyNarrows blocks now) {k : Nat} {b' : Block} (found : now[k]? = some b')
    (named : mentions var b'.code = true) :
    ∃ b, blocks[k]? = some b ∧ mentions var b.code = true := by
  induction h generalizing k with
  | nil => cases found
  | @cons b b'' blocks now here _ ih =>
    cases k with
    | zero =>
      cases found
      exact ⟨b, rfl, here var named⟩
    | succ k => exact ih found

/-- A variable is not mentioned in more blocks. -/
theorem countP_le (h : BodyNarrows blocks now) (var : Nat) :
    now.countP (fun b => mentions var b.code) ≤ blocks.countP fun b => mentions var b.code := by
  induction h with
  | nil => exact Nat.le_refl 0
  | @cons b b' blocks now here _ ih =>
    rw [List.countP_cons, List.countP_cons]
    refine Nat.add_le_add ih ?_
    by_cases named : mentions var b'.code = true
    · exact Nat.le_of_eq (by rw [if_pos named, if_pos (here var named)])
    · rw [if_neg named]
      exact Nat.zero_le _

theorem mentioned (h : BodyNarrows blocks now) (named : Mentioned now var) :
    Mentioned blocks var := by
  obtain ⟨b', mem, named⟩ := named
  obtain ⟨k, found⟩ := List.getElem?_of_mem mem
  obtain ⟨b, there, named⟩ := h.getElem? found named
  exact ⟨b, List.mem_of_getElem? there, named⟩

end BodyNarrows

/-- Temporaries stay in one block each while blocks name less and less. -/
theorem Marks.Lone.narrows {temps : Marks} (lone : temps.Lone blocks) (h : BodyNarrows blocks now) :
    temps.Lone now := by
  intro var k k' b b' marked found found' named named'
  obtain ⟨c, there, before⟩ := h.getElem? found named
  obtain ⟨c', there', before'⟩ := h.getElem? found' named'
  exact lone marked there there' before before'

/-- A variable keeps its home as long as it is named at all. -/
theorem IsHome.narrows {k : Nat} (home : IsHome blocks var k) (h : BodyNarrows blocks now)
    (still : Mentioned now var) : IsHome now var k := by
  have only {k' : Nat} {b' : Block} (found : now[k']? = some b')
      (named : mentions var b'.code = true) : k' = k :=
    (home k').1 (h.getElem? found named)
  intro k'
  constructor
  · rintro ⟨b', found, named⟩
    exact only found named
  · rintro rfl
    obtain ⟨b, mem, named⟩ := still
    obtain ⟨k, found⟩ := List.getElem?_of_mem mem
    rw [only found named] at found
    exact ⟨b, found, named⟩

/-! ## Temporaries -/

/-- A candidate is a temporary exactly if one block names it. -/
theorem has_temporaries_iff {storage : Storage} :
    (temporaries storage blocks).has var = true ↔
      (∃ v, storage.get? var = some v ∧ v.access.temporary = true) ∧
        blocks.countP (fun b => mentions var b.code) = 1 := by
  rw [has_temporaries, Option.any_eq_true]
  simp only [Bool.and_eq_true, beq_iff_eq]
  constructor
  · rintro ⟨v, listed, candidate, once⟩
    exact ⟨⟨v, listed, candidate⟩, once⟩
  · rintro ⟨⟨v, listed, candidate⟩, once⟩
    exact ⟨v, listed, candidate, once⟩

/-- A temporary has one block that mentions it. -/
theorem exists_isHome {storage : Storage} (marked : (temporaries storage blocks).has var = true) :
    ∃ k, IsHome blocks var k := by
  have once := (has_temporaries_iff.1 marked).2
  have positive : 0 < blocks.countP fun b => mentions var b.code := by
    rw [once]
    exact Nat.one_pos
  obtain ⟨b, mem, named⟩ := List.countP_pos_iff.1 positive
  obtain ⟨k, found⟩ := List.getElem?_of_mem mem
  refine ⟨k, fun k' => ⟨?_, ?_⟩⟩
  · rintro ⟨b', found', named'⟩
    exact temporaries_lone storage blocks marked found' found named' named
  · rintro rfl
    exact ⟨b, found, named⟩

/-- A temporary that is still named somewhere is a temporary of the smaller body too. -/
theorem BodyNarrows.temporary {storage : Storage} (h : BodyNarrows blocks now)
    (marked : (temporaries storage blocks).has var = true) (still : Mentioned now var) :
    (temporaries storage now).has var = true := by
  obtain ⟨candidate, once⟩ := has_temporaries_iff.1 marked
  refine has_temporaries_iff.2 ⟨candidate, ?_⟩
  have less := h.countP_le var
  have more : 0 < now.countP fun b => mentions var b.code := List.countP_pos_iff.2 still
  omega

/-! ## Steps and rounds -/

/-- One step of a round that has found the temporaries `temps`: a fold in one block or, on the
highest level, the removal of one initialization, of one store, or of a store and its load. -/
def RoundStep (storage : Storage) (level : Level) (temps : Marks) (blocks next : List Block) :
    Prop :=
  BodyRewrites (Folds storage temps) blocks next ∨
    level = .aggressive ∧ BodyRewrites (Cleans temps) blocks next

/-- The body after a number of rounds. -/
def afterRounds (storage : Storage) (level : Level) : (n : Nat) → List Block → List Block
  | 0, blocks => blocks
  | n + 1, blocks => afterRounds storage level n (round storage level blocks).1

/-- Rewriting a window names no new variable anywhere. -/
theorem BodyRewrites.narrows {window : List Instr → List Instr → Prop}
    (narrow : ∀ {old new}, window old new → Narrows old new) (h : BodyRewrites window blocks now) :
    BodyNarrows blocks now := by
  obtain ⟨front, b, rest, code, rewritten, rfl, rfl⟩ := h
  induction front with
  | nil => exact .cons (rewritten.narrows narrow) (BodyNarrows.refl rest)
  | cons first front ih => exact .cons (fun _ named => named) ih

variable {storage : Storage} {level : Level}

theorem RoundStep.narrows {temps : Marks} (h : RoundStep storage level temps blocks now) :
    BodyNarrows blocks now := by
  rcases h with folds | ⟨-, cleans⟩
  · exact BodyRewrites.narrows Folds.narrows folds
  · exact BodyRewrites.narrows Cleans.narrows cleans

theorem narrows_of_steps {temps : Marks}
    (steps : ReflTransGen (RoundStep storage level temps) blocks now) : BodyNarrows blocks now := by
  induction steps with
  | refl => exact .refl blocks
  | tail _ step ih => exact ih.trans step.narrows

/-- A round takes such steps only, with the temporaries of the body that it starts from.  This
includes a round that stops. -/
theorem round_steps (storage : Storage) (level : Level) (blocks : List Block) :
    ReflTransGen (RoundStep storage level (temporaries storage blocks)) blocks
      (round storage level blocks).1 := by
  unfold round classify
  cases loneStranger? storage blocks with
  | some var => exact .refl
  | none =>
    dsimp only
    generalize temporaries storage blocks = temps
    have folds : ReflTransGen (RoundStep storage level temps) blocks
        (foldBlocks storage temps blocks).1 :=
      ReflTransGen.mono (fun _ _ step => .inl step) _ _ (foldBlocks_rewrites storage temps blocks)
    split
    · rename_i folded unlisted run
      rwa [run] at folds
    · rename_i folded stats run
      rw [run] at folds
      refine folds.trans ?_
      cases level with
      | off | fold => exact .refl
      | aggressive =>
        exact ReflTransGen.mono (fun _ _ step => .inr ⟨rfl, step⟩) _ _
          (cleanBlocks_rewrites temps folded)

/-- A round names no new variable anywhere. -/
theorem round_narrows (storage : Storage) (level : Level) (blocks : List Block) :
    BodyNarrows blocks (round storage level blocks).1 :=
  narrows_of_steps (round_steps storage level blocks)

/-- Rounds can be counted in two parts. -/
theorem afterRounds_add (storage : Storage) (level : Level) (m n : Nat) (blocks : List Block) :
    afterRounds storage level (m + n) blocks
      = afterRounds storage level n (afterRounds storage level m blocks) := by
  induction m generalizing blocks with
  | zero => rw [Nat.zero_add, afterRounds]
  | succ m ih =>
    rw [Nat.succ_add, afterRounds, afterRounds]
    exact ih _

theorem afterRounds_narrows (storage : Storage) (level : Level) (n : Nat) (blocks : List Block) :
    BodyNarrows blocks (afterRounds storage level n blocks) := by
  induction n generalizing blocks with
  | zero => exact .refl blocks
  | succ n ih => exact (round_narrows storage level blocks).trans (ih _)

/-- Fewer rounds leave a body that names at least as much. -/
theorem afterRounds_antitone (storage : Storage) (level : Level) {m n : Nat} (le : m ≤ n)
    (blocks : List Block) :
    BodyNarrows (afterRounds storage level m blocks) (afterRounds storage level n blocks) := by
  obtain ⟨more, rfl⟩ := Nat.exists_eq_add_of_le le
  rw [afterRounds_add]
  exact afterRounds_narrows storage level more _

/-- What the optimizer comes to is what some number of rounds gives. -/
theorem settle_eq_afterRounds (storage : Storage) (level : Level) (blocks : List Block) :
    ∃ n, (settle storage level blocks).1 = afterRounds storage level n blocks := by
  fun_induction settle storage level blocks with
  | case1 blocks next unlisted ran =>
    refine ⟨1, ?_⟩
    rw [afterRounds, afterRounds, ran]
  | case2 blocks next stats ran unchanged =>
    refine ⟨1, ?_⟩
    rw [afterRounds, afterRounds, ran]
  | case3 blocks next stats ran changed done later run ih =>
    obtain ⟨n, same⟩ := ih
    refine ⟨n + 1, ?_⟩
    rw [afterRounds, ran, ← same, run]

/-- A run of the optimizer is a number of rounds, none on the lowest level. -/
theorem optimize_eq_afterRounds (storage : Storage) (level : Level) (blocks : List Block) :
    ∃ n, (optimize storage level blocks).1 = afterRounds storage level n blocks := by
  cases level with
  | off => exact ⟨0, rfl⟩
  | fold | aggressive => exact settle_eq_afterRounds storage _ blocks

/-- A fold that is found in a block is one step. -/
theorem foldStep_roundStep (level : Level) {temps : Marks} {b : Block} {code : List Instr}
    {kind : FoldKind} (found : foldStep storage temps b.code = .ok (some (kind, code)))
    (front rest : List Block) :
    RoundStep storage level temps (front ++ b :: rest) (front ++ { b with code } :: rest) :=
  .inl ⟨front, b, rest, code, foldStep_rewrites found, rfl, rfl⟩

/-- **Classification only grows.**  A run of the optimizer is a number of rounds.  Take any body
that a round may start from, and its temporaries.

* The round takes steps of one fold or one removal each.  Whatever steps have been taken, each block
  names a part of the variables that it named at the start, no temporary is named in two blocks, and
  the next step again leaves each block with a part of its variables.
* A temporary that is still named after any number of rounds has been a temporary in all of them,
  and the only block that names it is the same as at the start. -/
theorem classification_only_grows (storage : Storage) (level : Level) (blocks : List Block) :
    (∃ n, (optimize storage level blocks).1 = afterRounds storage level n blocks) ∧
    ReflTransGen (RoundStep storage level (temporaries storage blocks)) blocks
      (round storage level blocks).1 ∧
    (∀ front b rest kind code,
      foldStep storage (temporaries storage blocks) b.code = .ok (some (kind, code)) →
      RoundStep storage level (temporaries storage blocks) (front ++ b :: rest)
        (front ++ { b with code } :: rest)) ∧
    (∀ now, ReflTransGen (RoundStep storage level (temporaries storage blocks)) blocks now →
      BodyNarrows blocks now ∧ (temporaries storage blocks).Lone now ∧
      ∀ next, RoundStep storage level (temporaries storage blocks) now next →
        BodyNarrows now next) ∧
    ∀ n var, (temporaries storage blocks).has var = true →
      Mentioned (afterRounds storage level n blocks) var → ∀ m ≤ n,
        (temporaries storage (afterRounds storage level m blocks)).has var = true ∧
        ∃ k, IsHome blocks var k ∧ IsHome (afterRounds storage level m blocks) var k := by
  refine ⟨optimize_eq_afterRounds storage level blocks, round_steps storage level blocks,
    fun front _ rest _ _ found => foldStep_roundStep level found front rest,
    fun now steps => ?_, fun n var marked still m le => ?_⟩
  · have narrows := narrows_of_steps steps
    exact ⟨narrows, (temporaries_lone storage blocks).narrows narrows, fun _ step => step.narrows⟩
  · have narrows := afterRounds_narrows storage level m blocks
    have named := (afterRounds_antitone storage level le blocks).mentioned still
    obtain ⟨k, home⟩ := exists_isHome marked
    exact ⟨narrows.temporary marked named, k, home, home.narrows narrows named⟩

/-- Two blocks that both name variable 0, the first only to drop its value; variable 2 is loaded
twice and stays. -/
def lingering : List Block :=
  [⟨0, none, [.load 0, .pop, .branch 1]⟩,
    ⟨1, none, [.load 1, .store 2, .load 2, .load 2, .binary .add, .store 0, .load 0, .ret true]⟩]

/-- Their variables. -/
def lingeringStorage : Storage :=
  { entries := #[⟨.slot, .int32, .free, none⟩, ⟨.parameter 0, .int32, .pinned, none⟩,
      ⟨.slot, .int32, .free, none⟩] }

/-- What two rounds make of them. -/
def lingeringDone : List Block :=
  [⟨0, none, [.branch 1]⟩,
    ⟨1, none, [.load 1, .store 2, .load 2, .load 2, .binary .add, .ret true]⟩]

/-- Variable 0 is a temporary from the second round on, variable 2 in every round. -/
theorem classification_only_grows_lingering :
    ((temporaries lingeringStorage lingering).has 2 = true ∧
      Mentioned (afterRounds lingeringStorage .aggressive 2 lingering) 2) ∧
    (temporaries lingeringStorage lingering).has 0 = false ∧
    (temporaries lingeringStorage
      (afterRounds lingeringStorage .aggressive 1 lingering)).has 0 = true ∧
    (temporaries lingeringStorage
      (afterRounds lingeringStorage .aggressive 1 lingering)).has 2 = true ∧
    IsHome (afterRounds lingeringStorage .aggressive 1 lingering) 2 1 := by
  have twice : afterRounds lingeringStorage .aggressive 2 lingering = lingeringDone := by
    with_unfolding_all rfl
  have marked : (temporaries lingeringStorage lingering).has 2 = true := by decide
  have still : Mentioned (afterRounds lingeringStorage .aggressive 2 lingering) 2 := by
    rw [twice]
    exact ⟨_, .tail _ (.head _), rfl⟩
  obtain ⟨-, -, -, -, later⟩ :=
    classification_only_grows lingeringStorage .aggressive lingering
  obtain ⟨again, k, home, home'⟩ := later 2 2 marked still 1 (by decide)
  have first : 1 = k := (home 1).1 ⟨_, rfl, rfl⟩
  rw [← first] at home'
  exact ⟨⟨marked, still⟩, by decide, by with_unfolding_all rfl, again, home'⟩

end Stackwise.Peephole
