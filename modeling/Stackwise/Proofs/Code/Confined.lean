import Stackwise.Proofs.Code.Machine

/-!
# Variables that only their own instructions reach

A variable of the method itself is read and written by `load`, `store` and `clear`, or through an
address that `addressOf` has pushed.  As long as no such address is anywhere, every other
instruction runs as if the cell of the variable were not there: it does not read it and does not
change it.

* `Memory` is a store with a cell for every variable, and `Memory.hide` covers some of the cells.
  Two passes agree but for those cells if they are equal once the cells are covered (`Pass.map`).
* `Machine.Confines` says what is asked of a machine.  Which values are addresses of a variable is
  the machine's own affair (`Pointers`); with none at all, a confined variable is out of reach from
  every stack and store.
* `Confines.exec_set`: code that never reads a confined variable cannot tell what its cell holds,
  and `exec_covered` says the same of many variables at once.
* `Confines.exec_unseen`: code that takes no address of a variable lets none come into sight.
-/

namespace Stackwise.Code

/-! ## Stores with cells -/

/-- A store with a cell for every variable, and whatever else there is. -/
structure Memory (V R : Type) where
  cells : (var : Nat) → V
  rest : R

namespace Memory

variable {V R : Type}

/-- Writes the cell of a variable. -/
def set (s : Memory V R) (var : Nat) (x : V) : Memory V R :=
  { s with cells := fun other => if other = var then x else s.cells other }

@[simp] theorem rest_set (s : Memory V R) (var : Nat) (x : V) : (s.set var x).rest = s.rest := rfl

@[simp] theorem cells_set_self (s : Memory V R) (var : Nat) (x : V) :
    (s.set var x).cells var = x := if_pos rfl

/-- Writing one cell changes no other. -/
theorem cells_set_of_ne (s : Memory V R) {var other : Nat} (x : V) (differ : other ≠ var) :
    (s.set var x).cells other = s.cells other := if_neg differ

@[simp] theorem set_set (s : Memory V R) (var : Nat) (x y : V) :
    (s.set var x).set var y = s.set var y := by
  show Memory.mk _ _ = Memory.mk _ _
  congr 1
  funext other
  by_cases same : other = var
  · rw [if_pos same, if_pos same]
  · rw [if_neg same, if_neg same]
    exact if_neg same

/-- The store with the cells of some variables covered. -/
def hide (gone : Nat → Bool) (s : Memory V R) : Memory (Option V) R where
  cells var := if gone var then none else some (s.cells var)
  rest := s.rest

/-- What a covered cell holds does not show. -/
theorem hide_set {gone : Nat → Bool} {var : Nat} (covered : gone var = true) (s : Memory V R)
    (x : V) : (s.set var x).hide gone = s.hide gone := by
  show Memory.mk _ _ = Memory.mk _ _
  congr 1
  funext other
  by_cases same : other = var
  · rw [same, if_pos covered, if_pos covered]
  · rw [cells_set_of_ne s x same]

/-- Stores that look alike agree on the cells that are not covered. -/
theorem cells_eq_of_hide_eq {gone : Nat → Bool} {s s' : Memory V R}
    (alike : s.hide gone = s'.hide gone) {var : Nat} (shown : gone var = false) :
    s.cells var = s'.cells var := by
  have same := congrFun (congrArg Memory.cells alike) var
  simpa [hide, shown] using same

/-- They also agree on what is no cell. -/
theorem rest_eq_of_hide_eq {gone : Nat → Bool} {s s' : Memory V R}
    (alike : s.hide gone = s'.hide gone) : s.rest = s'.rest :=
  congrArg (fun hidden : Memory (Option V) R => hidden.rest) alike

/-- The store with the covered cells below a bound filled from another store. -/
def fill (gone : Nat → Bool) (s s' : Memory V R) (bound : Nat) : Memory V R :=
  { s with cells := fun var => if gone var ∧ var < bound then s'.cells var else s.cells var }

theorem fill_zero (gone : Nat → Bool) (s s' : Memory V R) : s.fill gone s' 0 = s := by
  show Memory.mk _ _ = Memory.mk _ _
  congr 1
  funext var
  exact if_neg fun both => Nat.not_lt_zero var both.2

/-- Filling goes over the covered cells one by one. -/
theorem fill_succ {gone : Nat → Bool} {n : Nat} (covered : gone n = true) (s s' : Memory V R) :
    s.fill gone s' (n + 1) = (s.fill gone s' n).set n (s'.cells n) := by
  show Memory.mk _ _ = Memory.mk _ _
  congr 1
  funext var
  by_cases same : var = n
  · rw [same, if_pos ⟨covered, Nat.lt_succ_self n⟩, if_pos rfl]
  · have bounds : var < n + 1 ↔ var < n := by omega
    simp only [if_neg same, bounds]
    rfl

/-- A cell that is not covered is not filled. -/
theorem fill_succ_of_shown {gone : Nat → Bool} {n : Nat} (shown : gone n = false)
    (s s' : Memory V R) : s.fill gone s' (n + 1) = s.fill gone s' n := by
  show Memory.mk _ _ = Memory.mk _ _
  congr 1
  funext var
  by_cases same : var = n
  · rw [same, shown, if_neg (by simp), if_neg (by simp)]
  · have bounds : var < n + 1 ↔ var < n := by omega
    simp only [bounds]

/-- Stores that differ only in covered cells are the same once all of those are filled. -/
theorem fill_eq {gone : Nat → Bool} {bound : Nat} (bounded : ∀ var, gone var = true → var < bound)
    {s s' : Memory V R} (alike : s'.hide gone = s.hide gone) : s.fill gone s' bound = s' := by
  show Memory.mk _ _ = Memory.mk _ _
  congr 1
  · funext var
    cases covered : gone var with
    | true => exact if_pos ⟨rfl, bounded var covered⟩
    | false =>
      rw [if_neg (by simp)]
      exact (cells_eq_of_hide_eq alike covered).symm
  · exact (rest_eq_of_hide_eq alike).symm

end Memory

/-! ## Looking at the stores of a pass -/

section Map

variable {V S T : Type} (f : S → T)

/-- An anchor's effect, with its store looked at through a function. -/
def Control.map : Control V S → Control V T
  | .next stack store => .next stack (f store)
  | .jump label stack store => .jump label stack (f store)
  | .leave value store => .leave value (f store)

/-- An arrival at an anchor, with its store looked at through a function. -/
def Arrival.map (a : Arrival V S) : Arrival V T := ⟨a.anchor, a.stack, f a.store⟩

/-- The end of a pass, with its store looked at through a function. -/
def Ending.map : Ending V S → Ending V T
  | .fell stack store => .fell stack (f store)
  | .jumped label stack store => .jumped label stack (f store)
  | .left value store => .left value (f store)
  | .underflowed => .underflowed
  | .stuck => .stuck

/-- A pass whose stores are looked at through a function. -/
def Pass.map (p : Pass V S) : Pass V T := ⟨p.arrivals.map (Arrival.map f), p.ending.map f⟩

@[simp] theorem Pass.map_id (p : Pass V S) : p.map id = p := by
  obtain ⟨arrivals, ending⟩ := p
  show Pass.mk (arrivals.map id) (ending.map id) = _
  rw [List.map_id]
  cases ending <;> rfl

/-- Looking at a pass through a function and adding an arrival in front can be done in either order.
-/
theorem Pass.map_after (first : Arrival V S) (p : Pass V S) :
    (p.after first).map f = (p.map f).after (first.map f) := rfl

/-- A run whose stores are looked at through a function. -/
def mapRun (run : List (Nat × Pass V S) × Ending V S) : List (Nat × Pass V T) × Ending V T :=
  (run.1.map fun q => (q.1, q.2.map f), run.2.map f)

variable {f}

/-- Whether the stack is too short does not depend on how the store is looked at. -/
theorem Ending.map_eq_underflowed {e : Ending V S} :
    e.map f = .underflowed ↔ e = .underflowed := by
  cases e <;> simp [Ending.map]

/-- Passes that look alike underflow together. -/
theorem Pass.underflowed_of_map_eq {p p' : Pass V S} (alike : p'.map f = p.map f)
    (runs : p.ending ≠ .underflowed) : p'.ending ≠ .underflowed := by
  have same : p'.ending.map f = p.ending.map f := congrArg Pass.ending alike
  rw [Ne, ← Ending.map_eq_underflowed (f := f)] at runs ⊢
  rwa [same]

end Map

/-! ## Going on to the next instruction -/

section Next

variable {V S T : Type} {μ : Machine V S} {i : Instr} {stack stack' : List V} {s s' : S}

/-- Control goes over the instruction to the next one, which finds the given stack and store. -/
def Machine.Passes (μ : Machine V S) (i : Instr) (stack : List V) (s : S) (stack' : List V)
    (s' : S) : Prop :=
  i.pops ≤ stack.length ∧
    if i.isAnchor then μ.control i stack s = .next stack' s'
    else μ.step i stack s = some (stack', s')

/-- Code ends as it does from behind an instruction that control goes over. -/
theorem Machine.Passes.ending (h : μ.Passes i stack s stack' s') (code : List Instr) :
    (μ.exec (i :: code) stack s).ending = (μ.exec code stack' s').ending := by
  obtain ⟨enough, goesOn⟩ := h
  split at goesOn
  · rename_i anchor
    rw [ending_exec_anchor anchor enough, goesOn]
  · rename_i plain
    rw [μ.exec_step (Bool.eq_false_iff.2 plain) enough goesOn]

/-- Code that runs alike runs alike behind one more instruction. -/
theorem Machine.exec_cons_congr {f : S → T} {code code' : List Instr}
    (h : ∀ stack' s', μ.Passes i stack s stack' s' →
      (μ.exec code' stack' s').map f = (μ.exec code stack' s').map f) :
    (μ.exec (i :: code') stack s).map f = (μ.exec (i :: code) stack s).map f := by
  by_cases enough : i.pops ≤ stack.length
  · cases anchor : i.isAnchor with
    | true =>
      have passes {stack' : List V} {s' : S} (goesOn : μ.control i stack s = .next stack' s') :
          μ.Passes i stack s stack' s' := ⟨enough, by rwa [if_pos anchor]⟩
      rw [exec, exec, if_neg (Nat.not_lt.2 enough), if_pos anchor, if_neg (Nat.not_lt.2 enough),
        if_pos anchor, Pass.map_after, Pass.map_after]
      cases control : μ.control i stack s with
      | next stack' s' => exact congrArg (Pass.after _) (h stack' s' (passes control))
      | jump label stack' s' => rfl
      | leave value s' => rfl
    | false =>
      rw [μ.exec_cons anchor enough, μ.exec_cons anchor enough]
      cases stepped : μ.step i stack s with
      | none => rfl
      | some r =>
        exact h r.1 r.2 ⟨enough, by rw [if_neg (by rw [anchor]; exact Bool.false_ne_true), stepped]⟩
  · rw [exec, exec, if_pos (Nat.lt_of_not_le enough), if_pos (Nat.lt_of_not_le enough)]

end Next

/-! ## Going on to another block -/

/-- Where a run goes on to, with which stack and store, if the block that ends so is the one at
position `label`. -/
def Ending.onward {V S : Type} (label : Nat) : Ending V S → Option (Nat × List V × S)
  | .jumped next stack store => some (next, stack, store)
  | .fell stack store => some (label + 1, stack, store)
  | _ => none

/-- Where a run goes on to does not depend on how the store is looked at. -/
theorem Ending.onward_map {V S T : Type} (f : S → T) (label : Nat) (e : Ending V S) :
    (e.map f).onward label = (e.onward label).map fun at' => (at'.1, at'.2.1, f at'.2.2) := by
  cases e <;> rfl

section Run

variable {V S : Type} {μ : Machine V S} {blocks : List Block} {label : Nat} {b : Block}
  {stack : List V} {store : S}

/-- A run takes the pass through its block, and goes on where that ends. -/
theorem Machine.run_onward (found : blocks[label]? = some b) {next : Nat} {stack' : List V}
    {store' : S}
    (goes : (μ.exec b.code stack store).ending.onward label = some (next, stack', store'))
    (fuel : Nat) :
    μ.run blocks (fuel + 1) label stack store =
      ((label, μ.exec b.code stack store) :: (μ.run blocks fuel next stack' store').1,
        (μ.run blocks fuel next stack' store').2) := by
  rw [run, found]
  cases ended : (μ.exec b.code stack store).ending with
  | jumped | fell =>
    rw [ended] at goes
    cases goes
    simp only [ended]
  | _ =>
    rw [ended] at goes
    cases goes

/-- A run stops with the pass through its block if that does not go on. -/
theorem Machine.run_halts (found : blocks[label]? = some b)
    (halts : (μ.exec b.code stack store).ending.onward label = none) (fuel : Nat) :
    μ.run blocks (fuel + 1) label stack store =
      ([(label, μ.exec b.code stack store)], (μ.exec b.code stack store).ending) := by
  rw [run, found]
  cases ended : (μ.exec b.code stack store).ending with
  | jumped | fell =>
    rw [ended] at halts
    cases halts
  | _ => simp only [ended]

end Run

/-! ## Addresses -/

/-- What counts as an address of a variable. -/
structure Pointers (V R : Type) where
  /-- The value leads to the cell of the variable. -/
  reaches : V → (var : Nat) → Prop
  /-- Such a value is kept beside the cells. -/
  holds : R → (var : Nat) → Prop

variable {V R : Type}

/-- There is no address of the variable on the stack or in the store. -/
structure Pointers.Unseen (p : Pointers V R) (var : Nat) (stack : List V) (s : Memory V R) :
    Prop where
  stack : ∀ x ∈ stack, ¬ p.reaches x var
  cells : ∀ other, ¬ p.reaches (s.cells other) var
  rest : ¬ p.holds s.rest var

/-- A value that is no address of the variable may be written anywhere. -/
theorem Pointers.Unseen.set {p : Pointers V R} {var : Nat} {stack : List V} {s : Memory V R}
    (h : p.Unseen var stack s) (other : Nat) {x : V} (harmless : ¬ p.reaches x var) :
    p.Unseen var stack (s.set other x) := by
  refine ⟨h.stack, fun cell => ?_, h.rest⟩
  by_cases same : cell = other
  · rw [same, Memory.cells_set_self]
    exact harmless
  · rw [Memory.cells_set_of_ne s x same]
    exact h.cells cell

/-- Covered cells may be filled from a store without an address of the variable. -/
theorem Pointers.Unseen.fill {p : Pointers V R} {var : Nat} {stack : List V} {s s' : Memory V R}
    (h : p.Unseen var stack s) (gone : Nat → Bool) (h' : p.Unseen var stack s') (bound : Nat) :
    p.Unseen var stack (s.fill gone s' bound) := by
  refine ⟨h.stack, fun other => ?_, h.rest⟩
  show ¬ p.reaches (if _ then _ else _) var
  split
  · exact h'.cells other
  · exact h.cells other

/-- The variable has a cell of its own.  `addressOf` alone makes addresses of it, and while there is
none, an instruction that does not name the variable neither reads nor changes its cell. -/
structure Machine.Confines (μ : Machine V (Memory V R)) (p : Pointers V R) (var : Nat) : Prop where
  read : ∀ s, μ.read s var = s.cells var
  write : ∀ s x, μ.write s var x = s.set var x
  act_unseen : ∀ {i popped s pushed s'}, i.isAnchor = false → i ≠ .addressOf var →
    popped.length = i.pops → p.Unseen var popped s → μ.act s i popped = some (pushed, s') →
      p.Unseen var pushed s'
  act_set : ∀ {i popped s} (x : V), i.isAnchor = false → i.var? ≠ some var →
    popped.length = i.pops → p.Unseen var popped s → ¬ p.reaches x var →
      μ.act (s.set var x) i popped = (μ.act s i popped).map fun r => (r.1, r.2.set var x)
  next_unseen : ∀ {i stack s stack' s'}, i.isAnchor = true → p.Unseen var stack s →
    μ.control i stack s = .next stack' s' → p.Unseen var stack' s'
  jump_unseen : ∀ {i stack s label stack' s'}, i.isAnchor = true → p.Unseen var stack s →
    μ.control i stack s = .jump label stack' s' → p.Unseen var stack' s'
  control_set : ∀ {i stack s} (x : V), i.isAnchor = true → p.Unseen var stack s →
    ¬ p.reaches x var →
      μ.control i stack (s.set var x) = (μ.control i stack s).map (·.set var x)

namespace Machine.Confines

variable {μ : Machine V (Memory V R)} {p : Pointers V R} {var : Nat}

/-! ## Single instructions -/

/-- An instruction other than `addressOf` makes no address of the variable. -/
theorem step_unseen (h : μ.Confines p var) {i : Instr} {stack stack' : List V}
    {s s' : Memory V R} (plain : i.isAnchor = false) (taken : i ≠ .addressOf var)
    (enough : i.pops ≤ stack.length) (unseen : p.Unseen var stack s)
    (stepped : μ.step i stack s = some (stack', s')) : p.Unseen var stack' s' := by
  rw [step, Option.map_eq_some_iff] at stepped
  obtain ⟨⟨pushed, after⟩, acted, same⟩ := stepped
  cases same
  have popped : p.Unseen var (stack.take i.pops) s :=
    ⟨fun x mem => unseen.stack x (List.mem_of_mem_take mem), unseen.cells, unseen.rest⟩
  have left := h.act_unseen plain taken (List.length_take_of_le enough) popped acted
  refine ⟨fun x mem => ?_, left.cells, left.rest⟩
  obtain mem | mem := List.mem_append.1 mem
  · exact left.stack x mem
  · exact unseen.stack x (List.mem_of_mem_drop mem)

/-- An instruction that does not name the variable runs as it would with another value in its cell.
-/
theorem step_set (h : μ.Confines p var) {i : Instr} {stack : List V} {s : Memory V R} {x : V}
    (plain : i.isAnchor = false) (other : i.var? ≠ some var) (enough : i.pops ≤ stack.length)
    (unseen : p.Unseen var stack s) (harmless : ¬ p.reaches x var) :
    μ.step i stack (s.set var x) = (μ.step i stack s).map fun r => (r.1, r.2.set var x) := by
  have popped : p.Unseen var (stack.take i.pops) s :=
    ⟨fun x mem => unseen.stack x (List.mem_of_mem_take mem), unseen.cells, unseen.rest⟩
  rw [step, step, h.act_set x plain other (List.length_take_of_le enough) popped harmless,
    Option.map_map, Option.map_map]
  rfl

/-- Storing to the variable writes its cell. -/
theorem step_store (h : μ.Confines p var) (x : V) (stack : List V) (s : Memory V R) :
    μ.step (.store var) (x :: stack) s = some (stack, s.set var x) := by
  rw [Machine.step_store, h.write]

/-- Loading the variable reads its cell. -/
theorem step_load (h : μ.Confines p var) (stack : List V) (s : Memory V R) :
    μ.step (.load var) stack s = some (s.cells var :: stack, s) := by
  rw [Machine.step_load, h.read]

/-- The same where control goes over an instruction, anchor or not. -/
theorem passes_unseen (h : μ.Confines p var) {i : Instr} {stack stack' : List V}
    {s s' : Memory V R} (taken : i ≠ .addressOf var) (unseen : p.Unseen var stack s)
    (passes : μ.Passes i stack s stack' s') : p.Unseen var stack' s' := by
  obtain ⟨enough, goesOn⟩ := passes
  split at goesOn
  · exact h.next_unseen ‹_› unseen goesOn
  · exact h.step_unseen (Bool.eq_false_iff.2 ‹_›) taken enough unseen goesOn

/-! ## Code that leaves the variable alone -/

/-- Straight-line code that does not name the variable. -/
theorem steps_set (h : μ.Confines p var) {code : List Instr} {height : Nat}
    (stack : List V) (climbs : climb stack.length code = some height)
    (others : ∀ i ∈ code, i.var? ≠ some var) {s : Memory V R} {x : V}
    (unseen : p.Unseen var stack s) (harmless : ¬ p.reaches x var) :
    μ.steps code stack (s.set var x) =
      (μ.steps code stack s).map fun r => (r.1, r.2.set var x) := by
  induction code generalizing stack s with
  | nil => rfl
  | cons i rest ih =>
    obtain ⟨plain, enough, later⟩ := climb_cons_eq_some.1 climbs
    rw [List.forall_mem_cons] at others
    have taken : i ≠ .addressOf var := fun same => others.1 (by rw [same]; rfl)
    rw [steps, steps, h.step_set plain others.1 enough unseen harmless]
    cases stepped : μ.step i stack s with
    | none => rfl
    | some r =>
      rw [← μ.length_step stepped] at later
      exact ih r.1 later others.2 (h.step_unseen plain taken enough unseen stepped)

/-- Straight-line code without `addressOf` makes no address of the variable. -/
theorem steps_unseen (h : μ.Confines p var) {code : List Instr} {height : Nat}
    (stack : List V) (climbs : climb stack.length code = some height)
    (untaken : .addressOf var ∉ code) {s s' : Memory V R} {stack' : List V}
    (unseen : p.Unseen var stack s) (stepped : μ.steps code stack s = some (stack', s')) :
    p.Unseen var stack' s' := by
  induction code generalizing stack s with
  | nil =>
    cases stepped
    exact unseen
  | cons i rest ih =>
    obtain ⟨plain, enough, later⟩ := climb_cons_eq_some.1 climbs
    rw [List.mem_cons, not_or] at untaken
    rw [steps] at stepped
    split at stepped
    · rename_i between first
      rw [← μ.length_step first] at later
      exact ih _ later untaken.2
        (h.step_unseen plain (Ne.symm untaken.1) enough unseen first) stepped
    · cases stepped

/-- Code that takes no address of the variable lets none come into sight. -/
theorem exec_unseen (h : μ.Confines p var) {code : List Instr} (untaken : .addressOf var ∉ code)
    {stack : List V} {s : Memory V R} (unseen : p.Unseen var stack s) {stack' : List V}
    {s' : Memory V R} {label next : Nat}
    (goes : (μ.exec code stack s).ending.onward label = some (next, stack', s')) :
    p.Unseen var stack' s' := by
  induction code generalizing stack s with
  | nil =>
    cases goes
    exact unseen
  | cons i rest ih =>
    rw [List.mem_cons, not_or] at untaken
    by_cases enough : i.pops ≤ stack.length
    · cases anchor : i.isAnchor with
      | true =>
        rw [ending_exec_anchor anchor enough] at goes
        cases control : μ.control i stack s with
        | next stack' s' =>
          simp only [control] at goes
          exact ih untaken.2 (h.next_unseen anchor unseen control) goes
        | jump label stack' s' =>
          simp only [control] at goes
          cases goes
          exact h.jump_unseen anchor unseen control
        | leave value s' =>
          simp only [control] at goes
          cases goes
      | false =>
        rw [μ.exec_cons anchor enough] at goes
        cases stepped : μ.step i stack s with
        | none =>
          simp only [stepped] at goes
          cases goes
        | some r =>
          simp only [stepped] at goes
          exact ih untaken.2
            (h.step_unseen anchor (Ne.symm untaken.1) enough unseen stepped) goes
    · rw [exec, if_pos (Nat.lt_of_not_le enough)] at goes
      cases goes

/-- Code that names the variable only to store to it cannot tell what its cell holds. -/
theorem exec_set (h : μ.Confines p var) {gone : Nat → Bool} (covered : gone var = true)
    {code : List Instr} (stored : ∀ i ∈ code, i.var? = some var → i = .store var)
    {stack : List V} {s : Memory V R} {x : V} (unseen : p.Unseen var stack s)
    (harmless : ¬ p.reaches x var) :
    (μ.exec code stack (s.set var x)).map (Memory.hide gone) =
      (μ.exec code stack s).map (Memory.hide gone) := by
  have blind (s : Memory V R) := Memory.hide_set covered s x
  induction code generalizing stack s with
  | nil => exact congrArg (Pass.mk [] ∘ Ending.fell stack) (blind s)
  | cons i rest ih =>
    rw [List.forall_mem_cons] at stored
    by_cases enough : i.pops ≤ stack.length
    · cases anchor : i.isAnchor with
      | true =>
        rw [exec, exec, if_neg (Nat.not_lt.2 enough), if_pos anchor, if_neg (Nat.not_lt.2 enough),
          if_pos anchor, Pass.map_after, Pass.map_after, h.control_set x anchor unseen harmless]
        congr 1
        · exact congrArg (Arrival.mk i stack) (blind s)
        · cases control : μ.control i stack s with
          | next stack' s' => exact ih stored.2 (h.next_unseen anchor unseen control)
          | jump label stack' s' =>
            exact congrArg (Pass.mk [] ∘ Ending.jumped label stack') (blind s')
          | leave value s' => exact congrArg (Pass.mk [] ∘ Ending.left value) (blind s')
      | false =>
        rw [μ.exec_cons anchor enough, μ.exec_cons anchor enough]
        by_cases named : i.var? = some var
        · -- A store: from here on both cells hold the same.
          obtain rfl := stored.1 named
          obtain ⟨y, stack, rfl⟩ := List.exists_cons_of_length_pos (l := stack) enough
          rw [h.step_store, h.step_store, Memory.set_set]
        · have taken : i ≠ .addressOf var := fun same => named (by rw [same]; rfl)
          rw [h.step_set anchor named enough unseen harmless]
          cases stepped : μ.step i stack s with
          | none => rfl
          | some r => exact ih stored.2 (h.step_unseen anchor taken enough unseen stepped)
    · rw [exec, exec, if_pos (Nat.lt_of_not_le enough), if_pos (Nat.lt_of_not_le enough)]

end Machine.Confines

namespace Machine

variable {μ : Machine V (Memory V R)} {p : Pointers V R}

/-- Code that names no covered variable cannot tell what the covered cells hold. -/
theorem exec_covered {gone : Nat → Bool} {bound : Nat}
    (bounded : ∀ var, gone var = true → var < bound)
    (confines : ∀ var, gone var = true → μ.Confines p var) {code : List Instr}
    (others : ∀ i ∈ code, ∀ var, i.var? = some var → gone var = false)
    {stack : List V} {s s' : Memory V R} (alike : s'.hide gone = s.hide gone)
    (unseen : ∀ var, gone var = true → p.Unseen var stack s)
    (unseen' : ∀ var, gone var = true → p.Unseen var stack s') :
    (μ.exec code stack s').map (Memory.hide gone) =
      (μ.exec code stack s).map (Memory.hide gone) := by
  -- The covered cells of one store are filled from the other, one after the other.
  have filled (n : Nat) : (μ.exec code stack (s.fill gone s' n)).map (Memory.hide gone) =
      (μ.exec code stack s).map (Memory.hide gone) := by
    induction n with
    | zero => rw [Memory.fill_zero]
    | succ n ih =>
      by_cases covered : gone n = true
      · have hidden := (unseen n covered).fill gone (unseen' n covered) n
        have stored : ∀ i ∈ code, i.var? = some n → i = .store n := by
          intro i mem named
          rw [others i mem n named] at covered
          cases covered
        rw [Memory.fill_succ covered, (confines n covered).exec_set covered stored hidden
          ((unseen' n covered).cells n), ih]
      · rw [Memory.fill_succ_of_shown (Bool.eq_false_iff.2 covered), ih]
  rw [← filled bound, Memory.fill_eq bounded alike]

end Machine

/-! ## A machine with pointers -/

/-- A number, or the address of a variable. -/
inductive Datum where
  | number (n : Int)
  | pointer (var : Nat)
deriving DecidableEq, Repr

/-- A machine whose addresses can be stored, loaded and dereferenced like any other value.  It adds
numbers, and branches on whether a number is zero. -/
def pointing : Machine Datum (Memory Datum Unit) where
  read s var := s.cells var
  write s var x := s.set var x
  address var := .pointer var
  field _ _ := none
  fetch s _ a :=
    match a with
    | .pointer var => some (s.cells var)
    | .number _ => none
  assign s _ a x :=
    match a with
    | .pointer var => some (s.set var x)
    | .number _ => none
  size _ := .number 4
  plain i popped s :=
    match i, popped with
    | .clear var, _ => some ([], s.set var (.number 0))
    | .binary _, [.number b, .number a] => some ([.number (a + b)], s)
    | i, _ => some (List.replicate i.pushes (.number 0), s)
  length_plain {i popped s pushed s'} h := by
    split at h
    · cases h
      rfl
    · cases h
      rfl
    · cases h
      exact List.length_replicate
  control i stack s :=
    match i, stack with
    | .branch label, stack => .jump label stack s
    | .branchIfTrue label, x :: stack =>
      if x = .number 0 then .next stack s else .jump label stack s
    | .ret true, stack => .leave stack.head? s
    | _, stack => .next stack s

/-- Its addresses, all of which are in the cells or on the stack. -/
def pointers : Pointers Datum Unit where
  reaches x var := x = .pointer var
  holds _ _ := False

/-- Two different cells can be written in either order. -/
theorem Memory.set_comm (s : Memory V R) {var other : Nat} (differ : var ≠ other) (x y : V) :
    (s.set var x).set other y = (s.set other y).set var x := by
  show Memory.mk _ _ = Memory.mk _ _
  congr 1
  funext cell
  by_cases second : cell = other
  · have first : cell ≠ var := fun same => differ (same.symm.trans second)
    rw [if_pos second, if_neg first]
    exact (if_pos second).symm
  · rw [if_neg second]
    by_cases first : cell = var
    · rw [if_pos first]
      exact if_pos first
    · rw [if_neg first]
      exact (if_neg first).trans (if_neg second).symm

/-- An instruction without a meaning of its own zeroes a variable, or pushes numbers. -/
theorem pointing_plain {i : Instr} {popped pushed : List Datum} {s s' : Memory Datum Unit}
    (acted : pointing.plain i popped s = some (pushed, s')) :
    (∃ v, pushed = [] ∧ s' = s.set v (.number 0)) ∨ s' = s ∧ ∀ x ∈ pushed, ∃ n, x = .number n := by
  simp only [pointing] at acted
  split at acted
  · cases acted
    exact .inl ⟨_, rfl, rfl⟩
  · cases acted
    exact .inr ⟨rfl, List.forall_mem_singleton.2 ⟨_, rfl⟩⟩
  · cases acted
    exact .inr ⟨rfl, fun x mem => ⟨0, List.eq_of_mem_replicate mem⟩⟩

/-- Instructions of the pointing machine that name no variable do not see its cells. -/
theorem pointing_plain_set {var : Nat} {i : Instr} (other : i.var? ≠ some var)
    (popped : List Datum) (s : Memory Datum Unit) (x : Datum) :
    pointing.plain i popped (s.set var x) =
      (pointing.plain i popped s).map fun r => (r.1, r.2.set var x) := by
  simp only [pointing]
  split
  case h_1 v =>
    have differ : var ≠ v := fun same => other (congrArg some same.symm)
    rw [Memory.set_comm s differ]
    rfl
  case h_2 | h_3 => rfl

/-- Addresses are only passed on by the pointing machine, unless one is taken. -/
theorem pointing_act_unseen {var : Nat} {i : Instr} {popped pushed : List Datum}
    {s s' : Memory Datum Unit} (taken : i ≠ .addressOf var)
    (unseen : pointers.Unseen var popped s) (acted : pointing.act s i popped = some (pushed, s')) :
    pointers.Unseen var pushed s' := by
  unfold Machine.act at acted
  split at acted
  case h_1 =>
    cases acted
    refine ⟨List.forall_mem_singleton.2 (unseen.cells _), unseen.cells, unseen.rest⟩
  case h_2 v x =>
    cases acted
    have after := unseen.set v (unseen.stack x List.mem_cons_self)
    exact ⟨nofun, after.cells, after.rest⟩
  case h_3 v =>
    cases acted
    refine ⟨List.forall_mem_singleton.2 fun same => taken ?_, unseen.cells, unseen.rest⟩
    cases same
    rfl
  case h_4 ty a =>
    cases a with
    | number n => cases acted
    | pointer v =>
      cases acted
      exact ⟨List.forall_mem_singleton.2 (unseen.cells v), unseen.cells, unseen.rest⟩
  case h_5 ty x a =>
    cases a with
    | number n => cases acted
    | pointer v =>
      cases acted
      have after := unseen.set v (unseen.stack x List.mem_cons_self)
      exact ⟨nofun, after.cells, after.rest⟩
  case h_6 | h_7 | h_8 => cases acted
  case h_9 =>
    cases acted
    exact ⟨List.forall_mem_singleton.2 nofun, unseen.cells, unseen.rest⟩
  case h_10 =>
    cases acted
    exact ⟨nofun, unseen.cells, unseen.rest⟩
  case h_11 =>
    obtain ⟨v, rfl, rfl⟩ | ⟨rfl, numbers⟩ := pointing_plain acted
    · have zero : ¬ pointers.reaches (.number 0) var := nofun
      have after := unseen.set v zero
      exact ⟨nofun, after.cells, after.rest⟩
    · refine ⟨fun x mem => ?_, unseen.cells, unseen.rest⟩
      obtain ⟨n, rfl⟩ := numbers x mem
      exact nofun

/-- While there is no address of a variable, dereferencing does not reach its cell. -/
theorem pointing_act_set {var : Nat} {i : Instr} {popped : List Datum} {s : Memory Datum Unit}
    (x : Datum) (other : i.var? ≠ some var) (unseen : pointers.Unseen var popped s) :
    pointing.act (s.set var x) i popped =
      (pointing.act s i popped).map fun r => (r.1, r.2.set var x) := by
  have reached {v : Nat} (mem : .pointer v ∈ popped) : var ≠ v := by
    intro same
    refine unseen.stack _ mem ?_
    rw [same]
    rfl
  have named {v : Nat} (here : i.var? = some v) : var ≠ v := fun same =>
    other (here.trans (congrArg some same.symm))
  unfold Machine.act
  split
  case h_1 v =>
    show some ([(s.set var x).cells v], _) = some ([s.cells v], _)
    rw [Memory.cells_set_of_ne s x (Ne.symm (named rfl))]
  case h_2 v y =>
    show some ([], (s.set var x).set v y) = some ([], (s.set v y).set var x)
    rw [Memory.set_comm s (named rfl)]
  case h_4 ty a =>
    cases a with
    | number n => rfl
    | pointer v =>
      show some ([(s.set var x).cells v], _) = some ([s.cells v], _)
      rw [Memory.cells_set_of_ne s x (Ne.symm (reached List.mem_cons_self))]
  case h_5 ty y a =>
    cases a with
    | number n => rfl
    | pointer v =>
      show some ([], (s.set var x).set v y) = some ([], (s.set v y).set var x)
      rw [Memory.set_comm s (reached (List.mem_cons_of_mem _ List.mem_cons_self))]
  case h_3 | h_6 | h_7 | h_8 | h_9 | h_10 => rfl
  case h_11 => exact pointing_plain_set other popped s x

/-- On the pointing machine, every variable has a cell of its own. -/
theorem pointing_confines (var : Nat) : pointing.Confines pointers var where
  read _ := rfl
  write _ _ := rfl
  act_unseen _ taken _ unseen acted := pointing_act_unseen taken unseen acted
  act_set x _ other _ unseen _ := pointing_act_set x other unseen
  next_unseen _ unseen h := by
    simp only [pointing] at h
    split at h
    case h_1 | h_3 => cases h
    case h_2 =>
      split at h
      · cases h
        exact ⟨fun x mem => unseen.stack x (List.mem_cons_of_mem _ mem), unseen.cells, unseen.rest⟩
      · cases h
    case h_4 =>
      cases h
      exact unseen
  jump_unseen _ unseen h := by
    simp only [pointing] at h
    split at h
    case h_3 | h_4 => cases h
    case h_2 =>
      split at h
      · cases h
      · cases h
        exact ⟨fun x mem => unseen.stack x (List.mem_cons_of_mem _ mem), unseen.cells, unseen.rest⟩
    case h_1 =>
      cases h
      exact unseen
  control_set x _ _ _ := by
    simp only [pointing]
    split
    case h_1 | h_3 | h_4 => rfl
    case h_2 => split <;> rfl

end Stackwise.Code
