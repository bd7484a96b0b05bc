import Stackwise.Proofs.Peephole.Windows

/-!
# The optimizer keeps bodies balanced

`verify` accepts what the optimizer makes of a body that it has accepted.  Heights do change on the
way: a fold runs the instructions between an address and its store one value lower, and a value that
stays on the stack runs those between its store and its load one value higher.  But seen from
outside, a window always leads from the height where it starts to the same height as before
(`Levels`), and a window is straight-line code, so there is no branch point in it to notice the
difference.

The optimizer also comes to an end by itself: it only stops early at a variable without an entry,
and it never introduces one (`optimize_eq_ok`).
-/

namespace Stackwise.Peephole

open Code
open Relation (ReflTransGen)

/-! ## Windows lead to the same height -/

/-- Straight-line code, at least one instruction, and code that leads to the same height wherever it
may stand instead. -/
structure Levels (old new : List Instr) : Prop where
  straight : ∀ i ∈ old, i.isAnchor = false
  nonempty : old ≠ []
  climbs : ∀ {low high : Nat}, climb low old = some high → climb low new = some high

/-- Code that climbs has no anchors. -/
theorem not_anchor_of_climb {low high : Nat} {code : List Instr}
    (h : climb low code = some high) : ∀ i ∈ code, i.isAnchor = false := by
  induction code generalizing low with
  | nil => simp
  | cons i rest ih =>
    obtain ⟨plain, -, later⟩ := climb_cons_eq_some.1 h
    intro j mem
    rcases List.mem_cons.1 mem with rfl | inside
    · exact plain
    · exact ih later j inside

theorem not_anchor_between {low high : Nat} {first last : Instr} {inner : List Instr}
    (h : climb low inner = some high) (plain : first.isAnchor = false)
    (plain' : last.isAnchor = false) : ∀ i ∈ first :: inner ++ [last], i.isAnchor = false := by
  intro i mem
  rw [List.cons_append, List.mem_cons, List.mem_append, List.mem_singleton] at mem
  rcases mem with rfl | among | rfl
  · exact plain
  · exact not_anchor_of_climb h i among
  · exact plain'

/-- Code that pushes one value, on top of any other values. -/
theorem climb_of_pushesOne {passed : List Instr} (pushesOne : climb 0 passed = some 1)
    (low : Nat) : climb low passed = some (low + 1) :=
  climb_add low pushesOne

/-- Folding leads to the same height. -/
theorem Folds.levels {storage : Storage} {temps : Marks} {old new : List Instr}
    (h : Folds storage temps old new) : Levels old new := by
  cases h with
  | load | deadLoad | deadAddress | deadSize =>
    refine ⟨by simp [Instr.isAnchor], by simp, fun climbed => ?_⟩
    simpa [climb, Instr.isAnchor, Instr.pops, Instr.pushes] using climbed
  | loadField field =>
    refine ⟨by simp [Instr.isAnchor], by simp, fun climbed => ?_⟩
    obtain ⟨-, enough, later⟩ := climb_cons_eq_some.1 climbed
    obtain ⟨-, -, done⟩ := climb_cons_eq_some.1 later
    rw [climb_cons_eq_some]
    refine ⟨rfl, enough, ?_⟩
    simpa [Instr.pops, Instr.pushes] using done
  | @store var v passed listed pushesOne =>
    refine ⟨not_anchor_between pushesOne rfl rfl, by simp, fun {low high} climbed => ?_⟩
    -- The address is gone, so the value is pushed one place lower, and only it is popped.
    obtain ⟨-, -, later⟩ := climb_cons_eq_some.1 climbed
    obtain ⟨top, pushed, stored⟩ := climb_append_eq_some.1 later
    cases pushed.symm.trans (climb_of_pushesOne pushesOne _)
    obtain ⟨-, -, done⟩ := climb_cons_eq_some.1 stored
    refine climb_append (climb_of_pushesOne pushesOne low) ?_
    simpa [climb, Instr.isAnchor, Instr.pops, Instr.pushes] using done
  | @storeField field passed pushesOne =>
    refine ⟨not_anchor_between pushesOne rfl rfl, by simp, fun {low high} climbed => ?_⟩
    obtain ⟨-, enough, later⟩ := climb_cons_eq_some.1 climbed
    have same : low - (Instr.fieldAddress field).pops + (Instr.fieldAddress field).pushes = low :=
      Nat.sub_add_cancel enough
    rw [same] at later
    obtain ⟨top, pushed, stored⟩ := climb_append_eq_some.1 later
    exact climb_append pushed stored

theorem Cleans.levels {temps : Marks} {old new : List Instr} (h : Cleans temps old new) :
    Levels old new := by
  cases h with
  | clear var | store var =>
    refine ⟨by simp [Instr.isAnchor], by simp, fun climbed => ?_⟩
    simpa [climb, Instr.isAnchor, Instr.pops, Instr.pushes] using climbed
  | @pair var between level =>
    refine ⟨not_anchor_between level rfl rfl, by simp, fun {low high} climbed => ?_⟩
    -- The value stays where it was before it was stored, below everything in between.
    obtain ⟨-, enough, later⟩ := climb_cons_eq_some.1 climbed
    obtain ⟨top, run, loaded⟩ := climb_append_eq_some.1 later
    cases run.symm.trans (climb_add _ level)
    obtain ⟨-, -, done⟩ := climb_cons_eq_some.1 loaded
    have back : low - (Instr.store var).pops + (Instr.store var).pops = high :=
      Option.some.inj done
    rw [← back, Nat.sub_add_cancel enough]
    exact climb_add low level

/-- Every window of the optimizer leads to the same height. -/
theorem Windows.levels {storage : Storage} {level : Level} {old new : List Instr}
    (h : Windows storage level old new) : Levels old new := by
  cases h with
  | fold folds => exact folds.levels
  | clean _ cleans => exact cleans.levels

/-! ## Accepted bodies stay accepted -/

/-- Behind a window, a block must still hold the terminator it ends in. -/
theorem Levels.rest_ne_nil {old new front rest : List Instr} (levels : Levels old new)
    (ends : endsInTerminator (front ++ old ++ rest) = true) : rest ≠ [] := by
  rintro rfl
  rw [List.append_nil, endsInTerminator_append_of_ne_nil _ levels.nonempty,
    endsInTerminator] at ends
  cases last : old.getLast? with
  | none => exact levels.nonempty (List.getLast?_eq_none_iff.1 last)
  | some i =>
    have plain := levels.straight i (List.mem_of_getLast? last)
    have anchor : i.isAnchor = true := Instr.isAnchor_of_isTerminator (by simpa [last] using ends)
    rw [plain] at anchor
    cases anchor

/-- Code that leads to the same height is accepted where the old code was. -/
theorem Levels.accepted {count : Nat} {old new front rest : List Instr} (levels : Levels old new)
    (h : Accepted count (front ++ old ++ rest)) : Accepted count (front ++ new ++ rest) := by
  have behind := levels.rest_ne_nil h.ends
  obtain ⟨middle, reached, later⟩ := reaches_append.1 h.balanced
  obtain ⟨low, before, inside⟩ := reaches_append.1 reached
  refine ⟨(before.append (reaches_of_climb (levels.climbs ?_))).append later, ?_⟩
  · exact climb_of_reaches levels.straight inside
  · -- The last instruction is the same one.
    have ends := h.ends
    rw [endsInTerminator_append_of_ne_nil _ behind] at ends
    rwa [endsInTerminator_append_of_ne_nil _ behind]

/-- Rewriting a window keeps accepted code accepted. -/
theorem Rewrites.accepted {count : Nat} {storage : Storage} {level : Level}
    {code code' : List Instr} (h : Rewrites (Windows storage level) code code')
    (accepted : Accepted count code) : Accepted count code' := by
  obtain ⟨front, old, new, rest, window, rfl, rfl⟩ := h
  exact window.levels.accepted accepted

/-- Rewriting a window keeps a verified body verified. -/
theorem BodyRewrites.verify {storage : Storage} {level : Level} {blocks blocks' : List Block}
    {name : String} (h : BodyRewrites (Windows storage level) blocks blocks')
    (verified : Code.verify name blocks = .ok ()) : Code.verify name blocks' = .ok () := by
  obtain ⟨front, b, rest, code, rewritten, rfl, rfl⟩ := h
  rw [verify_eq_ok_iff] at verified ⊢
  have same : (front ++ { b with code } :: rest).length = (front ++ b :: rest).length := by simp
  rw [same]
  intro c mem
  rcases List.mem_append.1 mem with before | after
  · exact verified c (List.mem_append.2 (.inl before))
  rcases List.mem_cons.1 after with rfl | later
  · exact rewritten.accepted (verified b (by simp))
  · exact verified c (List.mem_append.2 (.inr (List.mem_cons_of_mem b later)))

/-- The optimizer gives a verified body for a verified one. -/
theorem optimize_verify (storage : Storage) (level : Level) {blocks : List Block} {name : String}
    (verified : verify name blocks = .ok ()) :
    verify name (optimize storage level blocks).1 = .ok () := by
  have chain := optimize_rewrites storage level blocks
  generalize (optimize storage level blocks).1 = done at chain ⊢
  induction chain with
  | refl => exact verified
  | tail _ step ih => exact step.verify ih

/-! ## The optimizer comes to an end by itself -/

/-- All variables that the code names have an entry. -/
def Listed (storage : Storage) (code : List Instr) : Prop :=
  ∀ i ∈ code, ∀ var, i.var? = some var → var < storage.size

theorem listed_cons {storage : Storage} {i : Instr} {code : List Instr} :
    Listed storage (i :: code) ↔
      (∀ var, i.var? = some var → var < storage.size) ∧ Listed storage code :=
  List.forall_mem_cons

theorem listed_nil (storage : Storage) : Listed storage [] := by
  intro i mem
  cases mem

/-- Code is listed if every variable that it mentions has an entry. -/
theorem listed_iff {storage : Storage} {code : List Instr} :
    Listed storage code ↔ ∀ var, mentions var code = true → var < storage.size := by
  simp only [Listed, mentions, List.any_eq_true, beq_iff_eq]
  constructor
  · rintro all var ⟨i, mem, named⟩
    exact all i mem var named
  · intro all i mem var named
    exact all var ⟨i, mem, named⟩

/-- Code that names no new variable stays listed. -/
theorem Narrows.listed {storage : Storage} {code code' : List Instr} (h : Narrows code code')
    (listed : Listed storage code) : Listed storage code' := by
  rw [listed_iff] at listed ⊢
  exact fun var named => listed var (h var named)

theorem may_ne_error {storage : Storage} {var : Nat} {allowed : Variable → Bool}
    (inside : var < storage.size) (unlisted : Unlisted) :
    (match storage.get? var with
      | some v => .ok (allowed v)
      | none => .error ⟨var⟩ : Except Unlisted Bool) ≠ .error unlisted := by
  have there : storage.get? var = some storage.entries[var] := Array.getElem?_eq_getElem inside
  rw [there]
  exact nofun

/-- Folding at an instruction finds the entries of all variables in listed code. -/
theorem foldAt_ne_error {storage : Storage} {temps : Marks} {before rest : List Instr} {i : Instr}
    (listed : Listed storage before) (unlisted : Unlisted) :
    foldAt storage temps before i rest ≠ .error unlisted := by
  intro h
  unfold foldAt at h
  split at h
  · split at h
    · rename_i asked
      exact may_ne_error ((listed_cons.1 listed).1 _ rfl) _ asked
    · cases h
  · cases h
  · cases h
  · cases h
  · cases h
  · split at h
    · rename_i passed var front found
      split at h
      · -- The address that the search has found stands in the code before.
        rename_i asked
        obtain ⟨-, same⟩ := climb_producer (by decide) rfl found
        have mem : Instr.addressOf var ∈ before := by
          rw [← List.mem_reverse, ← List.append_nil before.reverse, same]
          simp
        exact may_ne_error (listed _ mem _ rfl) _ asked
      · cases h
    · cases h
    · cases h
  · cases h

theorem foldFrom_ne_error {storage : Storage} {temps : Marks} {before rest : List Instr}
    (listed : Listed storage before) (listed' : Listed storage rest) (unlisted : Unlisted) :
    foldFrom storage temps before rest ≠ .error unlisted := by
  induction rest generalizing before with
  | nil => exact nofun
  | cons i rest ih =>
    obtain ⟨here, later⟩ := listed_cons.1 listed'
    rw [foldFrom]
    split
    · exact ih (listed_cons.2 ⟨here, listed⟩) later
    · exact foldAt_ne_error listed unlisted

/-- Folding listed code comes to an end by itself. -/
theorem foldCode_eq_ok {storage : Storage} (temps : Marks) {code : List Instr}
    (listed : Listed storage code) : ∃ stats, (foldCode storage temps code).2 = .ok stats := by
  fun_induction foldCode storage temps code with
  | case1 code unlisted stopped =>
    exact absurd stopped (foldFrom_ne_error (listed_nil _) listed unlisted)
  | case2 => exact ⟨_, rfl⟩
  | case3 code kind folded found done later run ih =>
    have listed' := ((foldStep_rewrites found).narrows Folds.narrows).listed listed
    obtain ⟨stats, ok⟩ := ih listed'
    rw [run] at ok
    change later = .ok stats at ok
    rw [ok]
    exact ⟨_, rfl⟩

theorem classify_eq_ok {storage : Storage} {blocks : List Block}
    (listed : ∀ b ∈ blocks, Listed storage b.code) :
    classify storage blocks = .ok (temporaries storage blocks) := by
  have known : ∀ b ∈ blocks, strangers storage.size b.code = [] := by
    intro b mem
    rw [strangers, List.filter_eq_nil_iff]
    intro var named
    obtain ⟨i, inside, same⟩ := List.mem_filterMap.1 named
    have := listed b mem i inside var same
    simp only [decide_eq_true_eq]
    omega
  have none : loneStranger? storage blocks = none := by
    rw [loneStranger?, List.flatMap_eq_nil_iff.2 known]
    rfl
  rw [classify, none]

theorem foldBlocks_eq_ok {storage : Storage} (temps : Marks) {blocks : List Block}
    (listed : ∀ b ∈ blocks, Listed storage b.code) :
    ∃ stats, (foldBlocks storage temps blocks).2 = .ok stats := by
  fun_induction foldBlocks storage temps blocks with
  | case1 => exact ⟨_, rfl⟩
  | case2 b blocks code unlisted stopped =>
    obtain ⟨stats, ok⟩ := foldCode_eq_ok temps (listed b (by simp))
    rw [stopped] at ok
    cases ok
  | case3 b blocks code here folded rest later run ih =>
    obtain ⟨stats, ok⟩ := ih fun c mem => listed c (by simp [mem])
    rw [run] at ok
    change later = .ok stats at ok
    rw [ok]
    exact ⟨_, rfl⟩

/-- A round on a listed body comes to an end by itself. -/
theorem round_eq_ok {storage : Storage} (level : Level) {blocks : List Block}
    (listed : ∀ b ∈ blocks, Listed storage b.code) :
    ∃ stats, (round storage level blocks).2 = .ok stats := by
  rw [round, classify_eq_ok listed]
  obtain ⟨stats, ok⟩ := foldBlocks_eq_ok (temporaries storage blocks) listed
  dsimp only
  split
  · rename_i folded unlisted run
    rw [run] at ok
    cases ok
  · exact ⟨_, rfl⟩

theorem settle_eq_ok {storage : Storage} {level : Level} {blocks : List Block}
    (listed : ∀ b ∈ blocks, Listed storage b.code) :
    ∃ stats, (settle storage level blocks).2 = .ok stats := by
  fun_induction settle storage level blocks with
  | case1 blocks next unlisted stopped =>
    obtain ⟨stats, ok⟩ := round_eq_ok level listed
    rw [stopped] at ok
    cases ok
  | case2 => exact ⟨_, rfl⟩
  | case3 blocks next stats ran changed done later run ih =>
    have chain := round_rewrites storage level blocks
    rw [ran] at chain
    have listed' : ∀ b ∈ next, Listed storage b.code :=
      forall_mem_of_bodyRewrites (fun window => window.narrows.listed) chain listed
    obtain ⟨others, ok⟩ := ih listed'
    rw [run] at ok
    change later = .ok others at ok
    rw [ok]
    exact ⟨_, rfl⟩

/-- On a body all of whose variables have an entry the optimizer runs to its end. -/
theorem optimize_eq_ok {storage : Storage} (level : Level) {blocks : List Block}
    (listed : ∀ b ∈ blocks, Listed storage b.code) :
    ∃ stats, (optimize storage level blocks).2 = .ok stats := by
  cases level with
  | off => exact ⟨_, rfl⟩
  | fold | aggressive =>
    rw [optimize]
    · obtain ⟨stats, ok⟩ := settle_eq_ok listed
      dsimp only
      rw [ok]
      exact ⟨_, rfl⟩
    · exact nofun

/-- A block that writes a temporary through its address, over a longer way, and reads it back. -/
def roundabout : List Block :=
  [⟨0, some 0, [.addressOf 0, .sizeOf .int32, .addressOf 1, .loadIndirect .int32, .binary .add,
    .storeIndirect .int32, .load 0, .store 1, .ret false]⟩]

/-- Its variables. -/
def roundaboutStorage : Storage :=
  { entries := #[⟨.slot, .int32, .free, none⟩, ⟨.parameter 0, .int32, .pinned, none⟩] }

end Stackwise.Peephole
