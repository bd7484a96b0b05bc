import Stackwise.Proofs.Code.Machine

/-!
# The states of a run

`Machine.run` tells which anchors a body reaches.  What is to be said about the instructions between
them needs the states in which they stand: `Machine.Reached` lists all states of the runs of a body
from its first block, one instruction after another, and `Machine.Reached.run` is the bridge from
`run` to them.

A `Contract` says what must hold before instructions, where blocks are entered and where the body is
left.  Code is `Safe` if it honours the contract up to where control leaves its block.  If every
block is safe wherever it may be entered, every state that is reached is safe (`Reached.safe`).
-/

namespace Stackwise.Code

/-- A state of a run: in which block, before which code, with which stack and store. -/
structure State (V S : Type) where
  label : Nat
  code : List Instr
  stack : List V
  store : S

/-- The store that an anchor leaves. -/
def Control.store {V S : Type} : Control V S → S
  | next _ store | jump _ _ store | leave _ store => store

namespace Machine

variable {V S : Type} (μ : Machine V S)

/-- An instruction that is no anchor runs, from one stack and store to others. -/
structure Runs (i : Instr) (stack : List V) (store : S) (stack' : List V) (store' : S) : Prop where
  plain : i.isAnchor = false
  enough : i.pops ≤ stack.length
  step : μ.step i stack store = some (stack', store')

/-- One step of a run. -/
inductive Moves (blocks : List Block) : State V S → State V S → Prop
  | run {label : Nat} {i : Instr} {rest : List Instr} {stack stack' : List V} {store store' : S}
      (runs : μ.Runs i stack store stack' store') :
    Moves blocks ⟨label, i :: rest, stack, store⟩ ⟨label, rest, stack', store'⟩
  | next {label : Nat} {i : Instr} {rest : List Instr} {stack stack' : List V} {store store' : S}
      (anchor : i.isAnchor = true) (enough : i.pops ≤ stack.length)
      (control : μ.control i stack store = .next stack' store') :
    Moves blocks ⟨label, i :: rest, stack, store⟩ ⟨label, rest, stack', store'⟩
  | jump {label target : Nat} {i : Instr} {rest : List Instr} {stack stack' : List V}
      {store store' : S} {b : Block} (anchor : i.isAnchor = true) (enough : i.pops ≤ stack.length)
      (control : μ.control i stack store = .jump target stack' store')
      (there : blocks[target]? = some b) :
    Moves blocks ⟨label, i :: rest, stack, store⟩ ⟨target, b.code, stack', store'⟩
  /-- A block that control falls out of is followed by the next one. -/
  | fall {label : Nat} {stack : List V} {store : S} {b : Block}
      (there : blocks[label + 1]? = some b) :
    Moves blocks ⟨label, [], stack, store⟩ ⟨label + 1, b.code, stack, store⟩

/-- The states of the runs from the start of a body, where the stack is empty. -/
inductive Reached (blocks : List Block) (start : S) : State V S → Prop
  | start {b : Block} (there : blocks[0]? = some b) : Reached blocks start ⟨0, b.code, [], start⟩
  | move {s s' : State V S} (reached : Reached blocks start s) (moves : μ.Moves blocks s s') :
    Reached blocks start s'

/-- The state is the last one: its instruction leaves the body. -/
def Leaves (s : State V S) (value : Option V) (store : S) : Prop :=
  ∃ i rest, s.code = i :: rest ∧ i.isAnchor = true ∧ i.pops ≤ s.stack.length ∧
    μ.control i s.stack s.store = .leave value store

/-! ## From runs to states -/

/-- The ending of a pass through a block, as states that are reached. -/
def Attained (blocks : List Block) (start : S) (label : Nat) : Ending V S → Prop
  | .fell stack store => μ.Reached blocks start ⟨label, [], stack, store⟩
  | .jumped target stack store =>
    ∀ b, blocks[target]? = some b → μ.Reached blocks start ⟨target, b.code, stack, store⟩
  | .left value store => ∃ s, μ.Reached blocks start s ∧ μ.Leaves s value store
  | .underflowed | .stuck => True

variable {μ} {blocks : List Block} {start : S}

theorem Reached.exec {label : Nat} {code : List Instr} {stack : List V} {store : S}
    (reached : μ.Reached blocks start ⟨label, code, stack, store⟩) :
    μ.Attained blocks start label (μ.exec code stack store).ending := by
  induction code generalizing stack store with
  | nil => exact reached
  | cons i rest ih =>
    rw [Machine.exec]
    split
    · trivial
    rename_i enough
    have enough : i.pops ≤ stack.length := Nat.le_of_not_lt enough
    split
    · rename_i anchor
      rw [Pass.after]
      split
      · rename_i control
        exact ih (reached.move (.next anchor enough control))
      · rename_i control
        exact fun b there => reached.move (.jump anchor enough control there)
      · rename_i control
        exact ⟨_, reached, i, rest, rfl, anchor, enough, control⟩
    · rename_i plain
      split
      · rename_i step
        exact ih (reached.move (.run ⟨Bool.eq_false_iff.2 plain, enough, step⟩))
      · trivial

/-- A run that leaves the body does so in a state that is reached. -/
theorem Reached.run {fuel label : Nat} {stack : List V} {store store' : S} {value : Option V}
    (reached : ∀ b, blocks[label]? = some b →
      μ.Reached blocks start ⟨label, b.code, stack, store⟩)
    (left : (μ.run blocks fuel label stack store).2 = .left value store') :
    ∃ s, μ.Reached blocks start s ∧ μ.Leaves s value store' := by
  induction fuel generalizing label stack store with
  | zero => cases left
  | succ fuel ih =>
    rw [Machine.run] at left
    split at left
    · cases left
    rename_i b there
    have attained := (reached b there).exec
    dsimp only at left
    split at left
    · rename_i ending
      rw [ending] at attained
      exact ih attained left
    · rename_i ending
      rw [ending] at attained
      exact ih (fun b there => Reached.move attained (.fall there)) left
    · dsimp only at left
      rw [left] at attained
      exact attained

/-! ## Contracts -/

/-- What must hold of the store at some places of a run. -/
structure Contract (S : Type) where
  /-- Before an instruction of a block, behind which the rest of the block is given. -/
  before : (label : Nat) → Instr → (rest : List Instr) → S → Prop
  /-- Where a block is entered. -/
  enter : (label : Nat) → S → Prop
  /-- Where the body is left. -/
  leave : S → Prop

/-- From here to where control leaves the block, the contract is honoured; and control does not fall
out of the block. -/
def Safe (μ : Machine V S) (κ : Contract S) (label : Nat) : List Instr → List V → S → Prop
  | [], _, _ => False
  | i :: rest, stack, store => κ.before label i rest store ∧
    (∀ stack' store', μ.Runs i stack store stack' store' → Safe μ κ label rest stack' store') ∧
    (i.isAnchor = true → i.pops ≤ stack.length →
      (∀ stack' store', μ.control i stack store = .next stack' store' →
        Safe μ κ label rest stack' store') ∧
      (∀ target stack' store', μ.control i stack store = .jump target stack' store' →
        κ.enter target store') ∧
      ∀ value store', μ.control i stack store = .leave value store' → κ.leave store')

variable {κ : Contract S}

/-- If blocks are safe wherever they may be entered, then so is every state that is reached. -/
theorem Reached.safe (enters : κ.enter 0 start)
    (safe : ∀ {label : Nat} {b : Block}, blocks[label]? = some b → ∀ stack store,
      κ.enter label store → μ.Safe κ label b.code stack store)
    {s : State V S} (reached : μ.Reached blocks start s) :
    μ.Safe κ s.label s.code s.stack s.store := by
  induction reached with
  | start there => exact safe there _ _ enters
  | move _ moves ih =>
    cases moves with
    | run runs => exact ih.2.1 _ _ runs
    | next anchor enough control => exact (ih.2.2 anchor enough).1 _ _ control
    | jump anchor enough control there =>
      exact safe there _ _ ((ih.2.2 anchor enough).2.1 _ _ _ control)
    | fall => exact ih.elim

/-- Straight-line code that keeps a property of the store, before safe code. -/
theorem Safe.behind {P : S → Prop} {label : Nat} {front rest : List Instr}
    (plain : ∀ i ∈ front, i.isAnchor = false)
    (honours : ∀ i ∈ front, ∀ rest store, P store → κ.before label i rest store)
    (keeps : ∀ i ∈ front, ∀ {stack store stack' store'}, μ.Runs i stack store stack' store' →
      P store → P store')
    (later : ∀ stack store, P store → μ.Safe κ label rest stack store)
    (stack : List V) (store : S) (holds : P store) :
    μ.Safe κ label (front ++ rest) stack store := by
  induction front generalizing stack store with
  | nil => exact later stack store holds
  | cons i front ih =>
    rw [List.forall_mem_cons] at plain honours keeps
    refine ⟨honours.1 _ _ holds, fun stack' store' runs => ?_, fun anchor => ?_⟩
    · exact ih plain.2 honours.2 keeps.2 stack' store' (keeps.1 runs holds)
    · rw [plain.1] at anchor
      cases anchor

end Machine

end Stackwise.Code
