import Stackwise.Proofs.Peephole.FixedPoint

/-!
# The counts account for the changes

Every rule takes a fixed number of instructions away: a fold one, and with it the indirect access
that it makes direct; a dead push its `pop` too; a redundant initialization one; a carried value its
store and its load; and a store that becomes a `pop` none.  So the counts of a run say how many
instructions are missing in the end, and how many indirect accesses (`Stats.cost`).

`Accounts` is that equation for a piece of code.  It holds of a single window, whatever stands
around it (`Accounts.within`), and adds up (`Accounts.trans`) through blocks and rounds
(`settle_accounts`).  Whether anything has changed is known from the sizes: a change makes the body
smaller (`settle_shrinks`).
-/

namespace Stackwise.Peephole

open Code

/-! ## What changes cost -/

/-- The number of instructions, then the number of indirect accesses among them. -/
def inventory (code : List Instr) : Nat × Nat := (code.length, code.countP Instr.isIndirect)

/-- The instructions that the counted changes take away, then the indirect accesses. -/
def Stats.cost (s : Stats) : Nat × Nat :=
  (s.loadFolds + s.storeFolds + 2 * s.popsRemoved + s.initsRemoved + 2 * s.forwarded,
    s.loadFolds + s.storeFolds)

/-- Costs add up. -/
@[simp] theorem Stats.cost_add (a b : Stats) : (a + b).cost = a.cost + b.cost := by
  show (Stats.add a b).cost = _
  apply Prod.ext
  · simp only [cost, add, Prod.fst_add]
    omega
  · simp only [cost, add, Prod.snd_add]
    omega

@[simp] theorem inventory_append (a b : List Instr) :
    inventory (a ++ b) = inventory a + inventory b := by
  simp [inventory]

theorem inventory_cons (i : Instr) (code : List Instr) :
    inventory (i :: code) = inventory [i] + inventory code :=
  inventory_append [i] code

/-- What is missing after the changes is what they have cost. -/
def Accounts (stats : Stats) (before after : List Instr) : Prop :=
  inventory before = inventory after + stats.cost

namespace Accounts

variable {stats later : Stats} {before between after : List Instr}

theorem refl (code : List Instr) : Accounts {} code code := (add_zero (inventory code)).symm

/-- What two passes cost together is the sum of what each costs. -/
theorem trans (first : Accounts stats before between) (second : Accounts later between after) :
    Accounts (stats + later) before after := by
  rw [Accounts, Stats.cost_add, first, second, add_assoc, add_comm later.cost]

/-- Changes to a part are changes to the whole. -/
theorem within (h : Accounts stats before after) (front rest : List Instr) :
    Accounts stats (front ++ before ++ rest) (front ++ after ++ rest) := by
  rw [Accounts] at h ⊢
  simp only [inventory_append, h]
  ac_rfl

/-- An instruction in front is neither lost nor gained. -/
theorem cons (h : Accounts stats before after) (i : Instr) :
    Accounts stats (i :: before) (i :: after) := by
  have whole := h.within [i] []
  simpa using whole

end Accounts

/-! ## Folding -/

/-- A fold takes the address away and makes the access direct; a dead push goes with its `pop`. -/
theorem Folds.accounts {storage : Storage} {temps : Marks} {old new : List Instr}
    (h : Folds storage temps old new) : Accounts (ruleOf old).stats old new := by
  cases h with
  | load | loadField | deadLoad | deadAddress | deadSize => rfl
  | store listed pushesOne marked allowed =>
    rw [ruleOf_store, Accounts, List.cons_append, inventory_cons, inventory_append,
      inventory_append, add_left_comm]
    rfl
  | storeField field pushesOne =>
    rw [ruleOf_store, Accounts, List.cons_append, inventory_cons, inventory_append,
      inventory_append, add_left_comm]
    rfl

/-- A step of folding costs what its rule does. -/
theorem foldStep_accounts {storage : Storage} {temps : Marks} {code folded : List Instr}
    {kind : FoldKind} (h : foldStep storage temps code = .ok (some (kind, folded))) :
    Accounts kind.stats code folded := by
  obtain ⟨front, old, new, rest, ⟨window, rfl⟩, rfl, rfl⟩ := foldStep_folds h
  exact window.accounts.within front rest

/-- Folding costs what it counts. -/
theorem foldCode_accounts {storage : Storage} {temps : Marks} {code done : List Instr}
    {stats : Stats} (h : foldCode storage temps code = (done, .ok stats)) :
    Accounts stats code done :=
  foldCode_induction Accounts.refl (fun found later => (foldStep_accounts found).trans later) h

/-! ## Removing temporaries -/

/-- Each clearing store that is counted is missing. -/
theorem dropClears_accounts (temps : Marks) (code : List Instr) :
    Accounts { initsRemoved := countRedundant temps code } code (dropClears temps code) := by
  induction code with
  | nil => rfl
  | cons i rest ih =>
    have later := ih.cons i
    cases redundant : isRedundant temps i rest with
    | false => simpa [countRedundant, dropClears, redundant] using later
    | true =>
      -- Only the zeroing of a variable is redundant, and that is no indirect access.
      have here : Accounts { initsRemoved := 1 } (i :: dropClears temps rest)
          (dropClears temps rest) := by
        cases i with
        | clear var =>
          rw [Accounts, inventory_cons, add_comm]
          rfl
        | _ => cases redundant
      rw [dropClears, if_pos redundant, countRedundant, redundant]
      exact later.trans here

/-- A `pop` stands for each store, so nothing is missing. -/
theorem dropStores_accounts (var : Nat) (code : Gapped) :
    Accounts { storesDropped := (dropStores var code).2 } code.toCode
      (dropStores var code).1.toCode := by
  show inventory _ = inventory _ + 0
  rw [add_zero]
  induction code with
  | nil => rfl
  | cons entry rest ih =>
    by_cases found : entry = some (.store var)
    · subst found
      simp only [dropStores, if_true, Gapped.toCode_some]
      rw [inventory_cons, inventory_cons .pop, ih]
      rfl
    · cases entry with
      | none => simpa [dropStores] using ih
      | some i =>
        simp only [dropStores, found, if_false, Gapped.toCode_some]
        rw [inventory_cons i, inventory_cons i (dropStores var rest).1.toCode, ih]

/-- A forwarded value costs a store and a load. -/
theorem dropPair_accounts {var : Nat} {code dropped : Gapped}
    (h : dropPair var code = some dropped) :
    Accounts { forwarded := 1 } code.toCode dropped.toCode := by
  obtain ⟨front, between, rest, -, before, after⟩ := dropPair_eq_some h
  rw [before, after, Accounts]
  simp [inventory, Stats.cost, Instr.isIndirect]
  omega

/-- Removing a carrier costs what it counts. -/
theorem carryVar_accounts (use : Use) (code : Gapped) (var : Nat) :
    Accounts (carryVar use code var).2 code.toCode (carryVar use code var).1.toCode := by
  fun_cases carryVar use code var with
  | case1 _ dropped count run =>
    have accounts := dropStores_accounts var code
    rwa [run] at accounts
  | case2 _ _ dropped found => exact dropPair_accounts found
  | case3 | case4 => exact .refl _

theorem carryVars_accounts (code : Gapped) (vars : List (Use × Nat)) :
    Accounts (carryVars code vars).2 code.toCode (carryVars code vars).1.toCode := by
  induction vars generalizing code with
  | nil => exact .refl _
  | cons entry vars ih => exact (carryVar_accounts entry.1 code entry.2).trans (ih _)

/-- Cleaning up code costs what it counts. -/
theorem cleanCode_accounts (temps : Marks) (code : List Instr) :
    Accounts (cleanCode temps code).2 code (cleanCode temps code).1 := by
  have carried := carryVars_accounts ((dropClears temps code).map some)
    (carriers temps (dropClears temps code))
  rw [Gapped.toCode_map_some] at carried
  exact (dropClears_accounts temps code).trans carried

/-! ## Bodies -/

/-- All instructions of a body, block by block. -/
def bodyCode (blocks : List Block) : List Instr := blocks.flatMap (·.code)

/-- The counts of a block and of those behind it add up. -/
theorem Accounts.blocks {here later : Stats} {b : Block} {code : List Instr}
    {blocks blocks' : List Block} (first : Accounts here b.code code)
    (others : Accounts later (bodyCode blocks) (bodyCode blocks')) :
    Accounts (here + later) (bodyCode (b :: blocks)) (bodyCode ({ b with code } :: blocks')) := by
  have head := first.within [] (bodyCode blocks)
  have tail := others.within code []
  simp only [List.nil_append, List.append_nil] at head tail
  exact head.trans tail

/-- Folding a body costs what it counts. -/
theorem foldBlocks_accounts {storage : Storage} {temps : Marks} {blocks done : List Block}
    {stats : Stats} (h : foldBlocks storage temps blocks = (done, .ok stats)) :
    Accounts stats (bodyCode blocks) (bodyCode done) :=
  foldBlocks_induction (P := fun stats blocks done =>
    Accounts stats (bodyCode blocks) (bodyCode done)) (.refl _)
    (fun folded later => (foldCode_accounts folded).blocks later) h

theorem cleanBlocks_accounts (temps : Marks) (blocks : List Block) :
    Accounts (cleanBlocks temps blocks).2 (bodyCode blocks)
      (bodyCode (cleanBlocks temps blocks).1) := by
  induction blocks with
  | nil => exact .refl _
  | cons b blocks ih => exact (cleanCode_accounts temps b.code).blocks ih

theorem cleanAt_accounts (level : Level) (temps : Marks) (blocks : List Block) :
    Accounts (cleanAt level temps blocks).2 (bodyCode blocks)
      (bodyCode (cleanAt level temps blocks).1) := by
  cases level with
  | aggressive => exact cleanBlocks_accounts temps blocks
  | off | fold => exact .refl _

/-- A round costs what it counts. -/
theorem round_accounts {storage : Storage} {level : Level} {blocks next : List Block}
    {stats : Stats} (h : round storage level blocks = (next, .ok stats)) :
    Accounts stats (bodyCode blocks) (bodyCode next) := by
  obtain ⟨temps, folded, folds, -, run, rfl, rfl⟩ := round_eq_ok_iff.1 h
  exact (foldBlocks_accounts run).trans (cleanAt_accounts level temps folded)

/-! ## Runs -/

/-- What every round has, and what adds up, a whole run has. -/
theorem settle_induction {storage : Storage} {level : Level}
    {P : Stats → List Block → List Block → Prop}
    (round : ∀ {blocks next stats}, round storage level blocks = (next, .ok stats) →
      P stats blocks next)
    (trans : ∀ {a b blocks between done}, P a blocks between → P b between done →
      P (a + b) blocks done)
    {blocks done : List Block} {stats : Stats}
    (h : settle storage level blocks = (done, .ok stats)) : P stats blocks done := by
  fun_induction settle storage level blocks generalizing done stats with
  | case1 blocks next unlisted stopped => cases h
  | case2 blocks next here ran unchanged =>
    cases h
    exact round ran
  | case3 blocks next here ran changed last later run ih =>
    cases later with
    | error unlisted => cases h
    | ok later =>
      cases h
      exact trans (round ran) (ih run)

/-- All rounds together cost what they count. -/
theorem settle_accounts {storage : Storage} {level : Level} {blocks done : List Block}
    {stats : Stats} (h : settle storage level blocks = (done, .ok stats)) :
    Accounts stats (bodyCode blocks) (bodyCode done) :=
  settle_induction (P := fun stats blocks done => Accounts stats (bodyCode blocks) (bodyCode done))
    round_accounts Accounts.trans h

/-- If they count nothing, they have changed nothing. -/
theorem settle_shrinks {storage : Storage} {level : Level} {blocks done : List Block}
    {stats : Stats} (h : settle storage level blocks = (done, .ok stats)) :
    Shrinks bodySize stats.changes blocks done := by
  refine settle_induction (P := fun stats => Shrinks bodySize stats.changes) round_shrinks ?_ h
  intro a b blocks between done first second
  rw [Stats.changes_add]
  exact first.trans second

/-- Nothing but folds has been counted. -/
def Stats.OnlyFolds (s : Stats) : Prop :=
  s.initsRemoved = 0 ∧ s.forwarded = 0 ∧ s.storesDropped = 0

theorem Stats.OnlyFolds.add {a b : Stats} (ha : a.OnlyFolds) (hb : b.OnlyFolds) :
    (a + b).OnlyFolds := by
  obtain ⟨inits, forwarded, stores⟩ := ha
  obtain ⟨inits', forwarded', stores'⟩ := hb
  refine ⟨?_, ?_, ?_⟩
  · show a.initsRemoved + b.initsRemoved = 0
    omega
  · show a.forwarded + b.forwarded = 0
    omega
  · show a.storesDropped + b.storesDropped = 0
    omega

theorem FoldKind.onlyFolds (kind : FoldKind) : kind.stats.OnlyFolds := by
  cases kind <;> exact ⟨rfl, rfl, rfl⟩

/-- Folding counts nothing but folds. -/
theorem foldBlocks_onlyFolds {storage : Storage} {temps : Marks} {blocks done : List Block}
    {stats : Stats} (h : foldBlocks storage temps blocks = (done, .ok stats)) :
    stats.OnlyFolds := by
  refine foldBlocks_induction (P := fun stats _ _ => stats.OnlyFolds) ⟨rfl, rfl, rfl⟩ ?_ h
  intro b code here later blocks rest folded others
  refine Stats.OnlyFolds.add ?_ others
  exact foldCode_induction (P := fun stats _ _ => stats.OnlyFolds) (fun _ => ⟨rfl, rfl, rfl⟩)
    (fun {kind} _ _ _ _ _ later => kind.onlyFolds.add later) folded

/-- On the level of folding, nothing else is counted. -/
theorem settle_onlyFolds {storage : Storage} {blocks done : List Block} {stats : Stats}
    (h : settle storage .fold blocks = (done, .ok stats)) : stats.OnlyFolds := by
  refine settle_induction (P := fun stats _ _ => stats.OnlyFolds) ?_ Stats.OnlyFolds.add h
  intro blocks next stats ran
  obtain ⟨temps, folded, folds, -, run, -, rfl⟩ := round_eq_ok_iff.1 ran
  exact (foldBlocks_onlyFolds run).add ⟨rfl, rfl, rfl⟩

/-- Indirect accesses are counted over all blocks. -/
theorem countIndirect_eq (blocks : List Block) :
    countIndirect blocks = (bodyCode blocks).countP Instr.isIndirect := by
  induction blocks with
  | nil => rfl
  | cons b rest ih => simp [countIndirect, bodyCode, ih]

/-- A run that is on counts what its rounds have changed, and what is left at the end. -/
theorem optimize_eq_ok_iff {storage : Storage} {level : Level} (on : level ≠ .off)
    {blocks done : List Block} {stats : Stats} :
    optimize storage level blocks = (done, .ok stats) ↔
      ∃ counts, settle storage level blocks = (done, .ok counts) ∧
        stats = { counts with declined := countIndirect done } := by
  rw [optimize]
  · cases settled : settle storage level blocks with
    | mk last counts =>
      cases counts with
      | error unlisted =>
        constructor
        · intro h
          cases h
        · rintro ⟨counts, same, -⟩
          cases same
      | ok counts =>
        constructor
        · intro h
          cases h
          exact ⟨counts, rfl, rfl⟩
        · rintro ⟨counts', same, rfl⟩
          cases same
          rfl
  · exact on

/-- The counts of a run account for its changes.

The instructions that are missing afterwards are one for each fold, two for each dead push, one for
each initialization and two for each carried value.  The indirect accesses that are missing are
those that were folded, and the others have been counted as declined.  The body differs from what it
was exactly if a change was counted.  The lower level only folds.  A body whose variables have
entries is optimized to the end. -/
theorem counts_account_for_changes (storage : Storage) (level : Level) (on : level ≠ .off)
    (blocks : List Block) :
    (∀ done stats, optimize storage level blocks = (done, .ok stats) →
      (bodyCode blocks).length = (bodyCode done).length + (stats.loadFolds + stats.storeFolds +
        2 * stats.popsRemoved + stats.initsRemoved + 2 * stats.forwarded) ∧
      stats.declined = (bodyCode done).countP Instr.isIndirect ∧
      (bodyCode blocks).countP Instr.isIndirect =
        stats.declined + (stats.loadFolds + stats.storeFolds) ∧
      (done ≠ blocks ↔ 0 < stats.changes) ∧
      (level = .fold →
        stats.initsRemoved = 0 ∧ stats.forwarded = 0 ∧ stats.storesDropped = 0)) ∧
    ((∀ b ∈ blocks, Listed storage b.code) →
      ∃ done stats, optimize storage level blocks = (done, .ok stats)) := by
  constructor
  · intro done stats ran
    obtain ⟨counts, settled, rfl⟩ := (optimize_eq_ok_iff on).1 ran
    have accounts := Prod.ext_iff.1 (settle_accounts settled)
    have shrinks := settle_shrinks settled
    have declined := countIndirect_eq done
    refine ⟨accounts.1, declined, ?_, ?_, ?_⟩
    · rw [declined]
      exact accounts.2
    · constructor
      · intro differ
        refine Nat.pos_of_ne_zero fun none => differ (shrinks.same none)
      · rintro changed rfl
        have smaller := smaller_iff.1 (shrinks.smaller changed)
        omega
    · rintro rfl
      have only := settle_onlyFolds settled
      exact only
  · intro listed
    obtain ⟨stats, ok⟩ := optimize_eq_ok level listed
    exact ⟨_, stats, Prod.ext rfl ok⟩

/-- A block to which every rule applies.  Variable 1, a parameter, is no temporary, so the read
through its address stays. -/
def cluttered : List Block :=
  [⟨0, none, [.clear 2, .addressOf 2, .load 1, .storeIndirect .int32, .addressOf 2,
    .loadIndirect .int32, .store 0, .load 1, .pop, .addressOf 1, .loadIndirect .int32, .ret true]⟩]

/-- What is left of it. -/
def tidied : List Block := [⟨0, none, [.addressOf 1, .loadIndirect .int32, .ret true]⟩]

/-- Its variables. -/
def clutteredStorage : Storage :=
  { entries := #[⟨.slot, .int32, .free, none⟩, ⟨.parameter 0, .int32, .pinned, none⟩,
    ⟨.slot, .int32, .free, none⟩] }

/-- What the run has counted: nine instructions are missing, and two of three indirect accesses. -/
def tidiedStats : Stats :=
  { loadFolds := 1, storeFolds := 1, popsRemoved := 2, initsRemoved := 1, forwarded := 1,
    storesDropped := 1, declined := 1 }

/-- Every rule applies to the block, and the counts add up to the nine instructions that are gone.
-/
theorem counts_account_for_changes_cluttered :
    optimize clutteredStorage .aggressive cluttered = (tidied, .ok tidiedStats) ∧
    (bodyCode cluttered).length = (bodyCode tidied).length + 9 ∧
    (bodyCode cluttered).countP Instr.isIndirect = 1 + 2 ∧
    (tidied ≠ cluttered ↔ 0 < tidiedStats.changes) ∧
    ∃ done stats, optimize clutteredStorage .aggressive cluttered = (done, .ok stats) := by
  have ran : optimize clutteredStorage .aggressive cluttered = (tidied, .ok tidiedStats) := by
    with_unfolding_all rfl
  have listed : ∀ b ∈ cluttered, Listed clutteredStorage b.code := by
    simp [cluttered, clutteredStorage, Listed, Instr.var?, Storage.size]
  obtain ⟨account, ends⟩ :=
    counts_account_for_changes clutteredStorage .aggressive (by decide) cluttered
  obtain ⟨length, -, indirect, differ, -⟩ := account _ _ ran
  exact ⟨ran, length, indirect, differ, ends listed⟩

end Stackwise.Peephole
