import Stackwise.Proofs.Peephole.Carrying

/-!
# Dropped initializations

An initialization is dropped when the first instruction behind it that names the variable stores to
it.  In between, the variable is read by nobody who names it.  Whether it is read at all depends on
its address: an address that was taken before, in the block or in an earlier pass through it, may
still be dereferenced there, and then finds what the variable held before.

* `clearing_keeps_behaviour`: if no variable that loses an initialization has its address taken in
  the block, no run can tell that it is gone.
* `dropped_clear_observable`: without that condition a run returns something else.
-/

namespace Stackwise.Code.Machine

variable {V R : Type}

/-- Initializing the variable writes a fixed value to its cell. -/
def Zeroes (μ : Machine V (Memory V R)) (zero : V) (var : Nat) : Prop :=
  ∀ s, μ.act s (.clear var) [] = some ([], s.set var zero)

end Stackwise.Code.Machine

namespace Stackwise.Peephole

open Code

/-- Drops the redundant initializations of every block. -/
def clearBlocks (temps : Marks) (blocks : List Block) : List Block :=
  blocks.map fun b => { b with code := dropClears temps b.code }

/-- Cleaning drops the initializations first and then the carried values. -/
theorem cleanBlocks_eq (temps : Marks) (blocks : List Block) :
    (cleanBlocks temps blocks).1 = carryBlocks temps (clearBlocks temps blocks) := by
  induction blocks with
  | nil => rfl
  | cons b blocks ih => exact congrArg (_ :: ·) ih

/-- Whether an initialization of the variable is dropped from the code. -/
def loses (temps : Marks) (var : Nat) : List Instr → Bool
  | [] => false
  | i :: rest => i == .clear var && isRedundant temps i rest || loses temps var rest

theorem marked_of_loses {temps : Marks} {var : Nat} {code : List Instr}
    (h : loses temps var code = true) : temps.has var = true ∧ .clear var ∈ code := by
  induction code with
  | nil => cases h
  | cons i rest ih =>
    rw [loses, Bool.or_eq_true, Bool.and_eq_true, beq_iff_eq] at h
    obtain ⟨rfl, redundant⟩ | later := h
    · exact ⟨(Bool.and_eq_true_iff.1 redundant).1, List.mem_cons_self⟩
    · exact ⟨(ih later).1, List.mem_cons_of_mem i (ih later).2⟩

/-! ## Blocks -/

variable {V R : Type} {μ : Machine V (Memory V R)} {p : Pointers V R}

/-- Code that overwrites a variable first cannot tell what its cell holds, and neither can what
follows. -/
theorem exec_overwritten {var : Nat} (confines : μ.Confines p var) {code : List Instr}
    (h : overwritten var code = true) {stack : List V} {s : Memory V R} {x : V}
    (unseen : p.Unseen var stack s) (harmless : ¬ p.reaches x var) :
    μ.exec code stack (s.set var x) = μ.exec code stack s := by
  induction code generalizing stack s with
  | nil => cases h
  | cons i rest ih =>
    rw [overwritten] at h
    split at h
    · cases h
    rename_i plain
    rw [Bool.not_eq_true] at plain
    by_cases enough : i.pops ≤ stack.length
    · rw [μ.exec_cons plain enough, μ.exec_cons plain enough]
      split at h
      · -- The store that overwrites it.
        obtain rfl := beq_iff_eq.1 h
        obtain ⟨y, stack, rfl⟩ := List.exists_cons_of_length_pos (l := stack) enough
        rw [confines.step_store, confines.step_store, Memory.set_set]
      · rename_i other
        have taken : i ≠ .addressOf var := fun same => other (by rw [same]; rfl)
        rw [confines.step_set plain other enough unseen harmless]
        cases stepped : μ.step i stack s with
        | none => rfl
        | some r => exact ih h (confines.step_unseen plain taken enough unseen stepped)
    · rw [Machine.exec, Machine.exec, if_pos (Nat.lt_of_not_le enough),
        if_pos (Nat.lt_of_not_le enough)]

/-- An initialization that is overwritten unread may be left out. -/
theorem exec_clear {var : Nat} (confines : μ.Confines p var) {zero : V}
    (zeroes : μ.Zeroes zero var) {rest : List Instr} (h : overwritten var rest = true)
    {stack : List V} {s : Memory V R} (unseen : p.Unseen var stack s) :
    μ.exec (.clear var :: rest) stack s = μ.exec rest stack s := by
  have stepped : μ.step (.clear var) stack s = some (stack, s.set var zero) := by
    show (μ.act s (.clear var) []).map _ = _
    rw [zeroes s]
    rfl
  have taken : Instr.clear var ≠ .addressOf var := nofun
  have after := confines.step_unseen rfl taken (Nat.zero_le _) unseen stepped
  have harmless : ¬ p.reaches zero var := by
    have cell := after.cells var
    rwa [Memory.cells_set_self] at cell
  rw [μ.exec_step rfl (Nat.zero_le _) stepped, exec_overwritten confines h unseen harmless]

/-- A block runs exactly as before. -/
theorem exec_dropClears {hidden : Nat → Prop} (confines : ∀ var, hidden var → μ.Confines p var)
    {zero : Nat → V} (zeroes : ∀ var, hidden var → μ.Zeroes (zero var) var) {temps : Marks}
    {code : List Instr} (untaken : ∀ var, hidden var → .addressOf var ∉ code)
    (losing : ∀ var, loses temps var code = true → hidden var) {stack : List V} {s : Memory V R}
    (unseen : ∀ var, hidden var → p.Unseen var stack s) :
    μ.exec (dropClears temps code) stack s = μ.exec code stack s := by
  induction code generalizing stack s with
  | nil => rfl
  | cons i rest ih =>
    have later {stack : List V} {s : Memory V R}
        (unseen : ∀ var, hidden var → p.Unseen var stack s) :=
      ih (fun var out mem => untaken var out (List.mem_cons_of_mem i mem))
        (fun var lost => losing var (by rw [loses, lost, Bool.or_true])) unseen
    rw [dropClears]
    split
    · rename_i redundant
      cases i with
      | clear var =>
        have out : hidden var := losing var (by rw [loses, redundant]; simp)
        rw [exec_clear (confines var out) (zeroes var out) (Bool.and_eq_true_iff.1 redundant).2
          (unseen var out), later unseen]
      | _ => cases redundant
    · rw [← Pass.map_id (μ.exec (i :: dropClears temps rest) stack s),
        ← Pass.map_id (μ.exec (i :: rest) stack s)]
      refine Machine.exec_cons_congr fun stack' s' passes => congrArg (Pass.map id) (later ?_)
      intro var out
      have taken : i ≠ .addressOf var := fun same =>
        untaken var out (by rw [same]; exact List.mem_cons_self)
      exact (confines var out).passes_unseen taken (unseen var out) passes

/-! ## Bodies -/

/-- A run passes through the blocks exactly as before. -/
theorem run_clearBlocks {hidden : Nat → Prop} (confines : ∀ var, hidden var → μ.Confines p var)
    {zero : Nat → V} (zeroes : ∀ var, hidden var → μ.Zeroes (zero var) var) {temps : Marks}
    {blocks : List Block} (untaken : ∀ var, hidden var → ∀ b ∈ blocks, .addressOf var ∉ b.code)
    (losing : ∀ b ∈ blocks, ∀ var, loses temps var b.code = true → hidden var)
    (fuel label : Nat) {stack : List V} {s : Memory V R}
    (unseen : ∀ var, hidden var → p.Unseen var stack s) :
    μ.run (clearBlocks temps blocks) fuel label stack s = μ.run blocks fuel label stack s := by
  induction fuel generalizing label stack s with
  | zero => rfl
  | succ fuel ih =>
    cases found : blocks[label]? with
    | none =>
      have beyond : (clearBlocks temps blocks)[label]? = none := by
        rw [clearBlocks, List.getElem?_map, found]
        rfl
      rw [Machine.run, Machine.run, found, beyond]
    | some b =>
      have mem := List.mem_of_getElem? found
      have found' : (clearBlocks temps blocks)[label]? =
          some { b with code := dropClears temps b.code } := by
        rw [clearBlocks, List.getElem?_map, found]
        rfl
      have pass := exec_dropClears confines zeroes (fun var out => untaken var out b mem)
        (losing b mem) unseen
      cases goes : (μ.exec b.code stack s).ending.onward label with
      | none =>
        rw [Machine.run_halts found goes, Machine.run_halts found' (by rw [pass, goes]), pass]
      | some target =>
        obtain ⟨next, stack', s'⟩ := target
        rw [Machine.run_onward found goes, Machine.run_onward found' (by rw [pass, goes]), pass]
        rw [ih next fun var out =>
          (confines var out).exec_unseen (untaken var out b mem) (unseen var out) goes]

/-- A body without the redundant initializations of its temporaries. -/
def cleared (storage : Storage) (blocks : List Block) : List Block :=
  clearBlocks (temporaries storage blocks) blocks

/-- Some block loses an initialization of the variable. -/
def LosesIn (storage : Storage) (blocks : List Block) (var : Nat) : Prop :=
  ∃ b ∈ blocks, loses (temporaries storage blocks) var b.code = true

theorem LosesIn.candidate {storage : Storage} {blocks : List Block} {var : Nat}
    (h : LosesIn storage blocks var) :
    ∃ v, storage.get? var = some v ∧ v.access.temporary = true := by
  obtain ⟨b, -, lost⟩ := h
  exact temporaries_within storage blocks var (marked_of_loses lost).1

/-- Only the block that loses the initialization names the variable. -/
theorem LosesIn.untaken {storage : Storage} {blocks : List Block} {var : Nat}
    (h : LosesIn storage blocks var)
    (untaken : ∀ b ∈ blocks, ∀ var, loses (temporaries storage blocks) var b.code = true →
      .addressOf var ∉ b.code) : ∀ b ∈ blocks, .addressOf var ∉ b.code := by
  intro b' mem' taken
  obtain ⟨b, mem, lost⟩ := h
  obtain ⟨marked, cleared⟩ := marked_of_loses lost
  obtain ⟨k, found⟩ := List.getElem?_of_mem mem
  obtain ⟨k', found'⟩ := List.getElem?_of_mem mem'
  obtain rfl := temporaries_lone storage blocks marked found found'
    (List.any_eq_true.2 ⟨_, cleared, beq_self_eq_true _⟩)
    (List.any_eq_true.2 ⟨_, taken, beq_self_eq_true _⟩)
  rw [found] at found'
  cases found'
  exact untaken b' mem' var lost taken

/-- No run can tell that the redundant initializations are gone, if no block takes the address of a
variable whose initialization it loses. -/
theorem clearing_keeps_behaviour {V R : Type} (μ : Machine V (Memory V R)) (p : Pointers V R)
    (zero : Nat → V) (storage : Storage) (blocks : List Block)
    (confines : ∀ var, IsPrivate storage blocks var →
      μ.Confines p var ∧ μ.Zeroes (zero var) var)
    (candidates : ∀ var v, storage.get? var = some v → v.access.temporary = true →
      v.place = .slot)
    (untaken : ∀ b ∈ blocks, ∀ var, loses (temporaries storage blocks) var b.code = true →
      .addressOf var ∉ b.code)
    (fuel label : Nat) (stack : List V) (s : Memory V R)
    (secluded : Secluded p storage blocks stack s) :
    μ.run (cleared storage blocks) fuel label stack s = μ.run blocks fuel label stack s := by
  have hidden : ∀ var, LosesIn storage blocks var → IsPrivate storage blocks var := by
    intro var lost
    obtain ⟨v, listed, candidate⟩ := lost.candidate
    exact ⟨⟨v, listed, candidates var v listed candidate⟩, lost.untaken untaken⟩
  exact run_clearBlocks (fun var lost => (confines var (hidden var lost)).1)
    (fun var lost => (confines var (hidden var lost)).2) (fun var lost => (hidden var lost).2)
    (fun b mem var lost => ⟨b, mem, lost⟩) fuel label
    (fun var lost => secluded var (hidden var lost))

theorem pointing_zeroes (var : Nat) : pointing.Zeroes (.number 0) var := fun _ => rfl

/-- A block that zeroes a slot, reads another through a pointer, and then stores to the first. -/
def resetting : List Block :=
  [⟨0, some 0, [.clear 0, .addressOf 1, .loadIndirect .int32, .store 0, .load 0, .load 0,
    .binary .add, .ret true]⟩]

/-- Its two slots. -/
def resettingStorage : Storage :=
  { entries := #[⟨.slot, .int32, .free, none⟩, ⟨.slot, .int32, .pinned, none⟩] }

/-- Every cell holds seven. -/
def sevens : Memory Datum Unit := ⟨fun _ => .number 7, ()⟩

theorem sevens_secluded (storage : Storage) (blocks : List Block) :
    Secluded pointers storage blocks [] sevens :=
  fun _ _ => ⟨nofun, nofun, nofun⟩

theorem clearing_keeps_behaviour_resetting :
    cleared resettingStorage resetting =
      [⟨0, some 0, [.addressOf 1, .loadIndirect .int32, .store 0, .load 0, .load 0, .binary .add,
        .ret true]⟩] ∧
    (∃ store, (pointing.run resetting 1 0 [] sevens).2 = .left (some (.number 14)) store) ∧
    pointing.run (cleared resettingStorage resetting) 1 0 [] sevens =
      pointing.run resetting 1 0 [] sevens := by
  have candidates : ∀ v ∈ resettingStorage.entries, v.access.temporary = true →
      v.place = .slot := by decide
  refine ⟨by decide +kernel, ⟨_, rfl⟩, ?_⟩
  refine clearing_keeps_behaviour pointing pointers (fun _ => .number 0) resettingStorage resetting
    (fun var _ => ⟨pointing_confines var, pointing_zeroes var⟩)
    (fun _ v listed => candidates v (Array.mem_of_getElem? listed)) ?_ 1 0 [] sevens
    (sevens_secluded _ _)
  intro b mem var lost taken
  obtain rfl := List.mem_singleton.1 mem
  have zero : var = 0 := by simpa using (marked_of_loses lost).2
  have one : var = 1 := by simpa using taken
  rw [zero] at one
  cases one

/-- A block that takes the address of a slot before it zeroes it, and reads through the address
before it stores to the slot. -/
def aliasing : List Block :=
  [⟨0, some 0, [.addressOf 0, .clear 0, .loadIndirect .int32, .load 1, .store 0, .ret true]⟩]

/-- Its variables: the slot and a parameter. -/
def aliasingStorage : Storage :=
  { entries := #[⟨.slot, .int32, .free, none⟩, ⟨.parameter 0, .int32, .pinned, none⟩] }

/-- Where the address has been taken, a dropped initialization can be seen: the block returns zero,
and without the initialization what the slot held before.  The optimizer drops it. -/
theorem dropped_clear_observable :
    cleared aliasingStorage aliasing =
      [⟨0, some 0, [.addressOf 0, .loadIndirect .int32, .load 1, .store 0, .ret true]⟩] ∧
    (∃ store, (pointing.run aliasing 1 0 [] sevens).2 = .left (some (.number 0)) store) ∧
    (∃ store, (pointing.run (cleared aliasingStorage aliasing) 1 0 [] sevens).2 =
      .left (some (.number 7)) store) ∧
    ∃ store, (pointing.run (optimize aliasingStorage .aggressive aliasing).1 1 0 [] sevens).2 =
      .left (some (.number 7)) store := by
  have optimized : (optimize aliasingStorage .aggressive aliasing).1 =
      [⟨0, some 0, [.load 0, .load 1, .store 0, .ret true]⟩] := by decide +kernel
  refine ⟨by decide +kernel, ⟨_, rfl⟩, ⟨_, rfl⟩, ?_⟩
  rw [optimized]
  exact ⟨_, rfl⟩

end Stackwise.Peephole
