import Stackwise.Code.Balance

/-!
# Heights of code

`walk` follows the height of the stack through a list of instructions and stops at the first broken
rule.  Proofs about bodies ask the opposite question: which code is accepted, and what happens to
the height when pieces of code are put together.

* `Reaches` is an accepted walk, stated without positions.  It composes along `++` and does not
  mind a larger body.
* `Accepted` is what `verify` asks of a single block, and `verify_eq_ok_iff` says that it asks
  nothing else.
* `climb` is the height of straight-line code: no anchors, and never below the height it started
  from less what it is given.  Straight-line code runs in the same way on top of anything
  (`climb_add`), which is what moving a value across it needs.
-/

namespace Stackwise.Code

/-! ## Accepted walks -/

/-- An instruction is accepted if the stack is high enough, no value is left where control branches,
and its targets exist. -/
theorem Instr.step_eq_ok_iff {count height after : Nat} {i : Instr} :
    i.step count height = .ok after ↔
      i.pops ≤ height ∧ after = height - i.pops + i.pushes ∧
        (i.isBranchPoint = true → after = 0) ∧ ∀ target ∈ i.targets, target < count := by
  unfold Instr.step
  by_cases under : height < i.pops
  · rw [if_pos under]
    exact ⟨nofun, fun h => absurd h.1 (by omega)⟩
  · rw [if_neg under]
    by_cases left : (i.isBranchPoint && height - i.pops + i.pushes != 0) = true
    · simp only [left, if_true]
      refine ⟨nofun, fun h => ?_⟩
      simp only [Bool.and_eq_true, bne_iff_ne, ne_eq] at left
      exact absurd (h.2.1 ▸ h.2.2.1 left.1) left.2
    · simp only [left, if_false, Bool.false_eq_true]
      simp only [Bool.and_eq_true, bne_iff_ne, ne_eq, not_and, Decidable.not_not] at left
      cases found : i.targets.find? (count ≤ ·) with
      | some target =>
        have mem := List.mem_of_find?_eq_some found
        have past := List.find?_some found
        simp only [decide_eq_true_eq] at past
        refine ⟨nofun, fun h => ?_⟩
        have := h.2.2.2 target mem
        omega
      | none =>
        simp only [List.find?_eq_none, decide_eq_true_eq] at found
        simp only [Except.ok.injEq]
        constructor
        · rintro rfl
          exact ⟨by omega, rfl, left, fun target mem => by have := found target mem; omega⟩
        · exact fun h => h.2.1.symm

/-- The position only matters to the text of a fault. -/
theorem walk_position {count height after : Nat} (position position' : Nat) {code : List Instr}
    (h : walk count height position code = .ok after) :
    walk count height position' code = .ok after := by
  induction code generalizing height position position' with
  | nil => exact h
  | cons i rest ih =>
    simp only [walk] at h ⊢
    cases run : i.step count height with
    | error breach => simp [run] at h
    | ok between =>
      rw [run] at h
      exact ih _ _ h

/-- The instructions are accepted in a body of `count` blocks and lead from one height to
another. -/
def Reaches (count height : Nat) (code : List Instr) (after : Nat) : Prop :=
  walk count height 0 code = .ok after

theorem walk_eq_ok_iff {count height position after : Nat} {code : List Instr} :
    walk count height position code = .ok after ↔ Reaches count height code after :=
  ⟨walk_position position 0, walk_position 0 position⟩

@[simp] theorem reaches_nil {count height after : Nat} :
    Reaches count height [] after ↔ height = after := by
  simp [Reaches, walk]

theorem reaches_cons {count height after : Nat} {i : Instr} {rest : List Instr} :
    Reaches count height (i :: rest) after ↔
      ∃ between, i.step count height = .ok between ∧ Reaches count between rest after := by
  unfold Reaches
  simp only [walk]
  cases i.step count height with
  | error breach => simp
  | ok between =>
    simp only [Except.ok.injEq, exists_eq_left']
    exact walk_eq_ok_iff

/-- Joined code is accepted if its parts are. -/
theorem reaches_append {count height after : Nat} {front rest : List Instr} :
    Reaches count height (front ++ rest) after ↔
      ∃ between, Reaches count height front between ∧ Reaches count between rest after := by
  induction front generalizing height with
  | nil => simp
  | cons i front ih =>
    simp only [List.cons_append, reaches_cons, ih]
    constructor
    · rintro ⟨first, here, between, left, right⟩
      exact ⟨between, ⟨first, here, left⟩, right⟩
    · rintro ⟨between, ⟨first, here, left⟩, right⟩
      exact ⟨first, here, between, left, right⟩

theorem Reaches.append {count height between after : Nat} {front rest : List Instr}
    (left : Reaches count height front between) (right : Reaches count between rest after) :
    Reaches count height (front ++ rest) after :=
  reaches_append.2 ⟨between, left, right⟩

/-- More blocks only make more jumps good. -/
theorem Reaches.mono {count count' height after : Nat} {code : List Instr}
    (larger : count ≤ count') (h : Reaches count height code after) :
    Reaches count' height code after := by
  induction code generalizing height with
  | nil => simpa using h
  | cons i rest ih =>
    rw [reaches_cons] at h ⊢
    obtain ⟨between, here, later⟩ := h
    -- Only the last of the four conditions on a step is about the number of blocks.
    obtain ⟨enough, same, empty, known⟩ := Instr.step_eq_ok_iff.1 here
    refine ⟨between, Instr.step_eq_ok_iff.2 ⟨enough, same, empty, fun target mem => ?_⟩, ih later⟩
    exact Nat.lt_of_lt_of_le (known target mem) larger

/-! ## Accepted blocks -/

/-- Whether the last instruction never lets control through. -/
def endsInTerminator (code : List Instr) : Bool := code.getLast?.any Instr.isTerminator

theorem endsInTerminator_append_of_ne_nil (before : List Instr) {code : List Instr}
    (some : code ≠ []) : endsInTerminator (before ++ code) = endsInTerminator code := by
  rw [endsInTerminator, endsInTerminator, List.getLast?_append]
  cases last : code.getLast? with
  | none => exact absurd (List.getLast?_eq_none_iff.1 last) some
  | some i => rfl

theorem endsInTerminator_append (before : List Instr) {code : List Instr}
    (h : endsInTerminator code = true) : endsInTerminator (before ++ code) = true := by
  have some : code ≠ [] := by
    rintro rfl
    cases h
  rwa [endsInTerminator_append_of_ne_nil before some]

/-- The code keeps the contract as a block of a body of `count` blocks. -/
structure Accepted (count : Nat) (code : List Instr) : Prop where
  balanced : Reaches count 0 code 0
  ends : endsInTerminator code = true

/-- A block may stand in a larger body. -/
theorem Accepted.mono {count count' : Nat} {code : List Instr} (larger : count ≤ count')
    (h : Accepted count code) : Accepted count' code :=
  ⟨h.balanced.mono larger, h.ends⟩

/-- What is asked of an instruction in the middle of a block. -/
theorem Accepted.step {count height : Nat} {code front rest : List Instr} {i : Instr}
    (h : Accepted count code) (same : code = front ++ i :: rest)
    (reaches : Reaches count 0 front height) :
    i.pops ≤ height ∧ Reaches count 0 (front ++ [i]) (height - i.pops + i.pushes) ∧
      (i.isBranchPoint = true → height - i.pops + i.pushes = 0) := by
  have balanced := h.balanced
  rw [same] at balanced
  obtain ⟨height', reaches', later⟩ := reaches_append.1 balanced
  obtain rfl : height = height' := Except.ok.inj (reaches.symm.trans reaches')
  obtain ⟨after, stepped, -⟩ := reaches_cons.1 later
  obtain ⟨enough, rfl, empty, -⟩ := Instr.step_eq_ok_iff.1 stepped
  exact ⟨enough, reaches.append (reaches_cons.2 ⟨_, stepped, reaches_nil.2 rfl⟩), empty⟩

/-- The verifier passes a block exactly if its code keeps the contract. -/
theorem Block.verify_eq_ok_iff {count : Nat} {b : Block} :
    b.verify count = .ok () ↔ Accepted count b.code := by
  unfold Block.verify
  cases run : walk count 0 0 b.code with
  | error e =>
    refine ⟨nofun, fun h => ?_⟩
    rw [show walk count 0 0 b.code = .ok 0 from h.balanced] at run
    simp at run
  | ok height =>
    simp only
    by_cases left : (height != 0) = true
    · rw [if_pos left]
      refine ⟨nofun, fun h => ?_⟩
      rw [show walk count 0 0 b.code = .ok 0 from h.balanced] at run
      cases run
      simp at left
    · rw [if_neg left]
      have zero : height = 0 := by simpa using left
      subst zero
      by_cases ends : endsInTerminator b.code = true
      · rw [endsInTerminator] at ends
        rw [if_pos ends]
        exact ⟨fun _ => ⟨run, ends⟩, fun _ => rfl⟩
      · rw [endsInTerminator] at ends
        rw [if_neg ends]
        exact ⟨nofun, fun h => absurd h.ends ends⟩

/-- A list of checks passes exactly if each of them does. -/
theorem forM_eq_ok_iff {α ε : Type} {check : α → Except ε Unit} {l : List α} :
    l.forM check = .ok () ↔ ∀ a ∈ l, check a = .ok () := by
  induction l with
  | nil => simp [pure, Except.pure]
  | cons a l ih =>
    rw [List.forall_mem_cons, ← ih]
    show (check a >>= fun _ => l.forM check) = .ok () ↔ _
    cases check a with
    | error e => simp [bind, Except.bind]
    | ok u => simp [bind, Except.bind]

/-- A body is accepted exactly if every block of it is. -/
theorem verify_eq_ok_iff {name : String} {blocks : List Block} :
    verify name blocks = .ok () ↔ ∀ b ∈ blocks, Accepted blocks.length b.code := by
  rw [verify, forM_eq_ok_iff]
  refine forall_congr' fun b => imp_congr_right fun _ => ?_
  rw [← Block.verify_eq_ok_iff]
  cases b.verify blocks.length with
  | error breach => exact ⟨nofun, nofun⟩
  | ok _ => exact ⟨fun _ => rfl, fun _ => rfl⟩

/-! ## Straight-line code -/

/-- The height after straight-line code.  It has none at an anchor, and none where an instruction
pops more than there is. -/
def climb : (height : Nat) → List Instr → Option Nat
  | height, [] => some height
  | height, i :: rest =>
    if i.isAnchor || height < i.pops then none else climb (height - i.pops + i.pushes) rest

@[simp] theorem climb_nil (height : Nat) : climb height [] = some height := rfl

/-- Straight-line code has no anchor, and each instruction finds what it pops. -/
theorem climb_cons_eq_some {height after : Nat} {i : Instr} {rest : List Instr} :
    climb height (i :: rest) = some after ↔
      i.isAnchor = false ∧ i.pops ≤ height ∧
        climb (height - i.pops + i.pushes) rest = some after := by
  simp only [climb]
  by_cases stops : (i.isAnchor || decide (height < i.pops)) = true
  · rw [if_pos stops]
    simp only [Bool.or_eq_true, decide_eq_true_eq] at stops
    refine ⟨nofun, fun h => ?_⟩
    rcases stops with anchor | under
    · simp [h.1] at anchor
    · omega
  · rw [if_neg stops]
    simp only [Bool.or_eq_true, decide_eq_true_eq, not_or, Bool.not_eq_true, Nat.not_lt] at stops
    simp [stops]

/-- Joined code climbs as its parts do. -/
theorem climb_append_eq_some {height after : Nat} {front rest : List Instr} :
    climb height (front ++ rest) = some after ↔
      ∃ between, climb height front = some between ∧ climb between rest = some after := by
  induction front generalizing height with
  | nil => simp
  | cons i front ih =>
    simp only [List.cons_append, climb_cons_eq_some, ih]
    constructor
    · rintro ⟨plain, enough, between, left, right⟩
      exact ⟨between, ⟨plain, enough, left⟩, right⟩
    · rintro ⟨between, ⟨plain, enough, left⟩, right⟩
      exact ⟨plain, enough, between, left, right⟩

theorem climb_append {height between after : Nat} {front rest : List Instr}
    (left : climb height front = some between) (right : climb between rest = some after) :
    climb height (front ++ rest) = some after :=
  climb_append_eq_some.2 ⟨between, left, right⟩

/-- Straight-line code runs in the same way above any number of further values. -/
theorem climb_add {height after : Nat} {code : List Instr} (below : Nat)
    (h : climb height code = some after) : climb (below + height) code = some (below + after) := by
  induction code generalizing height with
  | nil =>
    simp only [climb_nil, Option.some.injEq] at h ⊢
    rw [h]
  | cons i rest ih =>
    rw [climb_cons_eq_some] at h ⊢
    obtain ⟨plain, enough, later⟩ := h
    refine ⟨plain, by omega, ?_⟩
    rw [show below + height - i.pops + i.pushes = below + (height - i.pops + i.pushes) by omega]
    exact ih later

/-- Only anchors jump. -/
theorem Instr.targets_eq_nil_of_not_anchor {i : Instr} (plain : i.isAnchor = false) :
    i.targets = [] := by
  cases i <;> simp_all [Instr.isAnchor, Instr.targets]

theorem Instr.isBranchPoint_eq_false_of_not_anchor {i : Instr} (plain : i.isAnchor = false) :
    i.isBranchPoint = false := by
  cases i <;> simp_all [Instr.isAnchor, Instr.isBranchPoint]

/-- Terminators are anchors. -/
theorem Instr.isAnchor_of_isTerminator {i : Instr} (h : i.isTerminator = true) :
    i.isAnchor = true := by
  cases i <;> simp_all [Instr.isAnchor, Instr.isTerminator]

/-- An instruction that is no anchor is accepted wherever there is enough to pop. -/
theorem Instr.step_of_not_anchor {i : Instr} (count : Nat) {height : Nat}
    (plain : i.isAnchor = false) (enough : i.pops ≤ height) :
    i.step count height = .ok (height - i.pops + i.pushes) := by
  rw [Instr.step_eq_ok_iff, Instr.targets_eq_nil_of_not_anchor plain,
    Instr.isBranchPoint_eq_false_of_not_anchor plain]
  exact ⟨enough, rfl, by simp, by simp⟩

/-- Straight-line code is accepted in every body. -/
theorem reaches_of_climb {count height after : Nat} {code : List Instr}
    (h : climb height code = some after) : Reaches count height code after := by
  induction code generalizing height with
  | nil => simpa using h
  | cons i rest ih =>
    obtain ⟨plain, enough, later⟩ := climb_cons_eq_some.1 h
    exact reaches_cons.2 ⟨_, Instr.step_of_not_anchor count plain enough, ih later⟩

/-- Where straight-line code is accepted, it leads to the height that `climb` gives. -/
theorem climb_of_reaches {count height after : Nat} {code : List Instr}
    (plain : ∀ i ∈ code, i.isAnchor = false) (h : Reaches count height code after) :
    climb height code = some after := by
  induction code generalizing height with
  | nil => simpa using h
  | cons i rest ih =>
    obtain ⟨between, here, later⟩ := reaches_cons.1 h
    obtain ⟨enough, rfl, -, -⟩ := Instr.step_eq_ok_iff.1 here
    rw [climb_cons_eq_some]
    exact ⟨plain i (by simp), enough, ih (fun j mem => plain j (by simp [mem])) later⟩

end Stackwise.Code
