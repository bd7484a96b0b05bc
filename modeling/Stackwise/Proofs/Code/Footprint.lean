import Stackwise.Code.Block
import Stackwise.Proofs.Code.Paths

/-!
# Code that writes only to variables of its own

Straight-line code may need variables: it stores to them, clears them, or writes through their
addresses.  If all of them are its `own`, then the other variables keep what they hold.

For direct writes this shows in the instruction itself.  For writes through addresses the stack has
to be watched: `Stays` goes along with the code and marks the positions of the stack that hold an
address inside of a variable of its own.

A support routine whose result is of type `void` pushes nothing, and code that counts on its result
pops what is below.  Such code is found out by its net effect, which is too small.  So `Contained`
says of code only that its net effect is not larger than it should be, and that it stays within its
own variables if it is just that.

Two support routines write to a variable that code never names as its target: both are given the
address of an argument list, one to start it and one to advance it.

* `Machine.Provenant` says what is asked of a machine: an address leads to one variable, what is
  computed from it leads to no other, and routines write at most to the lists that they are given.
* `Machine.Strides`: a run through code, step by step, in which some cells do not change.
* `Machine.Provenant.strides`: code that pushes one value, wherever it stands, changes no cell but
  its own and those that it advances as lists (`Machine.Advances`).
-/

namespace Stackwise.Code

/-! ## Watching the stack -/

/-- Whether the instruction neither names a variable to write to nor writes through an address. -/
def Instr.leavesCells : Instr → Bool
  | load _ | addressOf _ | loadIndirect _ | fieldAddress _ | loadField _ => true
  | binary _ | compare _ | negate | convert _ _ | sizeOf _ | pop => true
  | call (.helper _) _ => true
  | _ => false

/-- Whether the instruction calls a support routine that writes to an argument list. -/
def Instr.writesList : Instr → Bool
  | call (.helper .vaStart) _ | call (.helper .vaArg) _ => true
  | _ => false

/-- One instruction, between two markings of the stack.  A mark `some var` stands for an address
inside of the variable, `none` for any value. -/
inductive Instr.Stays (own : Nat → Prop) : Instr → List (Option Nat) → List (Option Nat) → Prop
  | store {var : Nat} {mark : Option Nat} {marks : List (Option Nat)} (mine : own var) :
    Stays own (.store var) (mark :: marks) marks
  | clear {var : Nat} {marks : List (Option Nat)} (mine : own var) :
    Stays own (.clear var) marks marks
  | addressOf {var : Nat} {marks : List (Option Nat)} (mine : own var) :
    Stays own (.addressOf var) marks (some var :: marks)
  | fieldAddress {field : Field} {mark : Option Nat} {marks : List (Option Nat)} :
    Stays own (.fieldAddress field) (mark :: marks) (mark :: marks)
  | add {other mark : Option Nat} {marks : List (Option Nat)} :
    Stays own (.binary .add) (other :: mark :: marks) (mark :: marks)
  | storeIndirect {ty : Ty} {var : Nat} {other : Option Nat} {marks : List (Option Nat)} :
    Stays own (.storeIndirect ty) (other :: some var :: marks) marks
  | other {i : Instr} {popped marks : List (Option Nat)} (leaves : i.leavesCells = true)
      (height : popped.length = i.pops) :
    Stays own i (popped ++ marks) (List.replicate i.pushes none ++ marks)

/-- Code that writes only to variables of its own. -/
inductive Stays (own : Nat → Prop) : List (Option Nat) → List Instr → List (Option Nat) → Prop
  | nil {marks : List (Option Nat)} : Stays own marks [] marks
  | cons {i : Instr} {rest : List Instr} {marks between after : List (Option Nat)}
      (first : i.Stays own marks between) (later : Stays own between rest after) :
    Stays own marks (i :: rest) after

namespace Stays

variable {own : Nat → Prop} {marks between after : List (Option Nat)} {code code' : List Instr}

/-- Code that stays within its own variables can be joined where the marks agree. -/
theorem append (first : Stays own marks code between) (second : Stays own between code' after) :
    Stays own marks (code ++ code') after := by
  induction first with
  | nil => exact second
  | cons step _ ih => exact .cons step (ih second)

theorem singleton {i : Instr} (h : i.Stays own marks after) : Stays own marks [i] after :=
  .cons h .nil

end Stays

namespace Instr.Stays

variable {own : Nat → Prop} {i : Instr} {marks : List (Option Nat)}

/-- An instruction that writes nowhere may push a value that is not marked. -/
theorem pushes (leaves : i.leavesCells = true) (pops : i.pops = 0) (pushes : i.pushes = 1) :
    i.Stays own marks (none :: marks) := by
  have step : i.Stays own ([] ++ marks) (List.replicate i.pushes none ++ marks) :=
    .other leaves pops.symm
  rwa [pushes] at step

/-- It may also replace a value, marked or not. -/
theorem replaces (mark : Option Nat) (leaves : i.leavesCells = true) (pops : i.pops = 1)
    (pushes : i.pushes = 1) : i.Stays own (mark :: marks) (none :: marks) := by
  have step : i.Stays own ([mark] ++ marks) (List.replicate i.pushes none ++ marks) :=
    .other leaves pops.symm
  rwa [pushes] at step

/-- It may also make one value of two. -/
theorem joins (first second : Option Nat) (leaves : i.leavesCells = true) (pops : i.pops = 2)
    (pushes : i.pushes = 1) : i.Stays own (first :: second :: marks) (none :: marks) := by
  have step : i.Stays own ([first, second] ++ marks) (List.replicate i.pushes none ++ marks) :=
    .other leaves pops.symm
  rwa [pushes] at step

theorem drops (mark : Option Nat) : Instr.Stays own .pop (mark :: marks) marks :=
  show Instr.Stays own .pop ([mark] ++ marks) ([] ++ marks) from .other rfl rfl

end Instr.Stays

/-- What lies below on the stack does not matter to a single instruction. -/
theorem Instr.Stays.over {own : Nat → Prop} {i : Instr} {marks after : List (Option Nat)}
    (h : i.Stays own marks after) (below : List (Option Nat)) :
    i.Stays own (marks ++ below) (after ++ below) := by
  cases h with
  | store mine => exact .store mine
  | clear mine => exact .clear mine
  | addressOf mine => exact .addressOf mine
  | fieldAddress => exact .fieldAddress
  | add => exact .add
  | storeIndirect => exact .storeIndirect
  | other leaves height =>
    rw [List.append_assoc, List.append_assoc]
    exact .other leaves height

/-- The code does the same on top of other values. -/
theorem Stays.over {own : Nat → Prop} {code : List Instr} {marks after : List (Option Nat)}
    (h : Stays own marks code after) (below : List (Option Nat)) :
    Stays own (marks ++ below) code (after ++ below) := by
  induction h with
  | nil => exact .nil
  | cons first _ ih => exact .cons (first.over below) ih

/-- An instruction may be given more variables of its own. -/
theorem Instr.Stays.mono {own own' : Nat → Prop} (more : ∀ var, own var → own' var) {i : Instr}
    {marks after : List (Option Nat)} (h : i.Stays own marks after) : i.Stays own' marks after := by
  cases h with
  | store mine => exact .store (more _ mine)
  | clear mine => exact .clear (more _ mine)
  | addressOf mine => exact .addressOf (more _ mine)
  | fieldAddress => exact .fieldAddress
  | add => exact .add
  | storeIndirect => exact .storeIndirect
  | other leaves height => exact .other leaves height

/-- Code may be given more variables of its own. -/
theorem Stays.mono {own own' : Nat → Prop} (more : ∀ var, own var → own' var) {code : List Instr}
    {marks after : List (Option Nat)} (h : Stays own marks code after) :
    Stays own' marks code after := by
  induction h with
  | nil => exact .nil
  | cons first _ ih => exact .cons (first.mono more) ih

/-! ## Net effects -/

/-- The net effect of code that is joined is the sum. -/
theorem netEffect_append (code code' : List Instr) :
    netEffect (code ++ code') = netEffect code + netEffect code' := by
  induction code with
  | nil => exact (Int.zero_add _).symm
  | cons i rest ih => rw [List.cons_append, netEffect, ih, netEffect, Int.add_assoc]

/-- The marks of an instruction say what it does to the height of the stack. -/
theorem Instr.Stays.effect_eq {own : Nat → Prop} {i : Instr} {marks after : List (Option Nat)}
    (h : i.Stays own marks after) : i.effect = (after.length : Int) - marks.length := by
  cases h with
  | other leaves height =>
    rw [List.length_append, List.length_append, List.length_replicate, height, Instr.effect]
    omega
  | _ =>
    simp only [Instr.effect, Instr.pushes, Instr.pops, List.length_cons]
    omega

/-- The marks of code say its net effect. -/
theorem Stays.netEffect_eq {own : Nat → Prop} {code : List Instr} {marks after : List (Option Nat)}
    (h : Stays own marks code after) : netEffect code = (after.length : Int) - marks.length := by
  induction h with
  | nil => exact (Int.sub_self _).symm
  | cons first _ ih =>
    rw [netEffect, first.effect_eq, ih]
    omega

/-- Whether the instruction is neither an anchor nor the call of a function. -/
def Instr.isLocal : Instr → Bool
  | call (.function _) _ | callIndirect _ => false
  | i => !i.isAnchor

theorem Instr.not_anchor_of_isLocal {i : Instr} (h : i.isLocal = true) : i.isAnchor = false := by
  cases i with
  | branch | branchIfTrue | branchIfFalse | branchIfEqual | switch | phiEnqueue | phiDequeue
  | ret | retDefault | retIfPending | unreachable => cases h
  | _ => rfl

theorem Instr.isLocal_of_leavesCells {i : Instr} (h : i.leavesCells = true) :
    i.isLocal = true := by
  cases i with
  | call target =>
    cases target with
    | helper => rfl
    | function => cases h
  | callIndirect | branch | branchIfTrue | branchIfFalse | branchIfEqual | switch | phiEnqueue
  | phiDequeue | ret | retDefault | retIfPending | unreachable => cases h
  | _ => rfl

/-- An instruction that stays within its own variables calls no function and is no anchor. -/
theorem Instr.Stays.isLocal {own : Nat → Prop} {i : Instr} {marks after : List (Option Nat)}
    (h : i.Stays own marks after) : i.isLocal = true := by
  cases h with
  | other leaves => exact Instr.isLocal_of_leavesCells leaves
  | _ => rfl

theorem Stays.isLocal {own : Nat → Prop} {code : List Instr} {marks after : List (Option Nat)}
    (h : Stays own marks code after) : ∀ i ∈ code, i.isLocal = true := by
  induction h with
  | nil => exact List.forall_mem_nil _
  | cons first _ ih => exact List.forall_mem_cons.2 ⟨first.isLocal, ih⟩

/-- The instruction finds on the stack what it pops, and leaves the height of the second marking. -/
theorem Instr.Stays.height_eq {own : Nat → Prop} {i : Instr} {marks after : List (Option Nat)}
    (h : i.Stays own marks after) :
    i.pops ≤ marks.length ∧ marks.length - i.pops + i.pushes = after.length := by
  cases h with
  | other leaves height =>
    rw [List.length_append, List.length_append, List.length_replicate, height]
    omega
  | _ => simp [Instr.pops, Instr.pushes]

/-- The code climbs from the height of the one marking to that of the other. -/
theorem Stays.climb_eq {own : Nat → Prop} {code : List Instr} {marks after : List (Option Nat)}
    (h : Stays own marks code after) : climb marks.length code = some after.length := by
  induction h with
  | nil => rfl
  | cons first _ ih =>
    obtain ⟨enough, height⟩ := first.height_eq
    rw [climb_cons_eq_some, height]
    exact ⟨Instr.not_anchor_of_isLocal first.isLocal, enough, ih⟩

/-- Straight-line code with no larger net effect than the marks say, and which stays within its own
variables if it has just that. -/
structure Contained (own : Nat → Prop) (marks : List (Option Nat)) (code : List Instr)
    (after : List (Option Nat)) : Prop where
  isLocal : ∀ i ∈ code, i.isLocal = true
  effect_le : netEffect code ≤ (after.length : Int) - marks.length
  stays : netEffect code = (after.length : Int) - marks.length → Stays own marks code after

namespace Contained

variable {own : Nat → Prop} {marks between after : List (Option Nat)} {code code' : List Instr}

/-- Code that stays within its own variables is contained. -/
theorem of_stays (h : Stays own marks code after) : Contained own marks code after where
  isLocal := h.isLocal
  effect_le := Int.le_of_eq h.netEffect_eq
  stays _ := h

/-- Contained code may be given more variables of its own. -/
theorem mono {own' : Nat → Prop} (more : ∀ var, own var → own' var)
    (h : Contained own marks code after) : Contained own' marks code after where
  isLocal := h.isLocal
  effect_le := h.effect_le
  stays same := (h.stays same).mono more

/-- Contained code can be joined where the marks agree: if its net effect is all that the marks say,
then so is that of both parts. -/
theorem append (first : Contained own marks code between)
    (second : Contained own between code' after) :
    Contained own marks (code ++ code') after := by
  have most := first.effect_le
  have most' := second.effect_le
  refine ⟨List.forall_mem_append.2 ⟨first.isLocal, second.isLocal⟩, ?_, fun same => ?_⟩
  · rw [netEffect_append]
    omega
  · rw [netEffect_append] at same
    exact (first.stays (by omega)).append (second.stays (by omega))

/-- A support routine pushes its result, unless that is of type `void`. -/
theorem helper (routine : Helper) (popped marks : List (Option Nat))
    (height : popped.length = routine.signature.params.length) :
    Contained own (popped ++ marks) [.call (.helper routine) routine.signature]
      (none :: marks) := by
  have effect : netEffect [.call (.helper routine) routine.signature] =
      ((!routine.signature.result.isVoid).toNat : Int) - popped.length := by
    rw [height]
    exact Int.add_zero _
  refine ⟨List.forall_mem_singleton.2 rfl, ?_, fun same => ?_⟩
  · have most := Bool.toNat_le (!routine.signature.result.isVoid)
    rw [effect, List.length_cons, List.length_append]
    omega
  · rw [effect, List.length_cons, List.length_append] at same
    have one : Instr.pushes (.call (.helper routine) routine.signature) = 1 := by
      show (!routine.signature.result.isVoid).toNat = 1
      omega
    have step : Instr.Stays own (.call (.helper routine) routine.signature) (popped ++ marks)
        (List.replicate (Instr.pushes (.call (.helper routine) routine.signature)) none ++ marks) :=
      .other rfl height
    rw [one] at step
    exact .singleton step

end Contained

namespace Machine

variable {V S : Type} {μ : Machine V S}

/-- The code runs step by step without calling a function, and no step changes a cell that is
`kept`. -/
inductive Strides (μ : Machine V S) (kept : Nat → Prop) :
    List Instr → List V → S → List V → S → Prop
  | nil {stack : List V} {store : S} : Strides μ kept [] stack store stack store
  | cons {i : Instr} {rest : List Instr} {stack stack₁ stack' : List V} {store store₁ store' : S}
      (isLocal : i.isLocal = true) (runs : μ.Runs i stack store stack₁ store₁)
      (same : ∀ var, kept var → μ.read store₁ var = μ.read store var)
      (later : Strides μ kept rest stack₁ store₁ stack' store') :
    Strides μ kept (i :: rest) stack store stack' store'

namespace Strides

variable {kept : Nat → Prop} {code code' : List Instr} {stack stack₁ stack' : List V}
  {store store₁ store' : S}

/-- Runs can be joined. -/
theorem append (first : Strides μ kept code stack store stack₁ store₁)
    (second : Strides μ kept code' stack₁ store₁ stack' store') :
    Strides μ kept (code ++ code') stack store stack' store' := by
  induction first with
  | nil => exact second
  | cons isLocal runs same _ ih => exact .cons isLocal runs same (ih second)

/-- A run through one local instruction. -/
theorem singleton {i : Instr} (isLocal : i.isLocal = true)
    (enough : i.pops ≤ stack.length) (step : μ.step i stack store = some (stack', store'))
    (same : ∀ var, kept var → μ.read store' var = μ.read store var) :
    Strides μ kept [i] stack store stack' store' :=
  .cons isLocal ⟨Instr.not_anchor_of_isLocal isLocal, enough, step⟩ same .nil

theorem load (var : Nat) (stack : List V) (store : S) :
    Strides μ kept [.load var] stack store (μ.read store var :: stack) store :=
  .singleton rfl (Nat.zero_le _) (μ.step_load var stack store) fun _ _ => rfl

theorem addressOf (var : Nat) (stack : List V) (store : S) :
    Strides μ kept [.addressOf var] stack store (μ.address var :: stack) store :=
  .singleton rfl (Nat.zero_le _) (μ.step_addressOf var stack store) fun _ _ => rfl

/-- An instruction whose meaning is the machine's own. -/
theorem act (i : Instr) (popped pushed : List V) (isLocal : i.isLocal = true)
    (height : popped.length = i.pops) (acted : μ.act store i popped = some (pushed, store'))
    (same : ∀ var, kept var → μ.read store' var = μ.read store var) (stack : List V) :
    Strides μ kept [i] (popped ++ stack) store (pushed ++ stack) store' := by
  refine .singleton isLocal ?_ (step_of_act height acted stack) same
  rw [List.length_append, height]
  exact Nat.le_add_right _ _

/-- A run without calls is a run. -/
theorem leads (h : Strides μ kept code stack store stack' store') :
    μ.Leads code stack store stack' store' := by
  induction h with
  | nil => exact .refl _ _
  | cons _ runs _ _ ih => exact (leads_step runs.plain runs.enough runs.step).append ih

/-- A run leaves the cells unchanged that it keeps. -/
theorem read_eq (h : Strides μ kept code stack store stack' store') {var : Nat} (keep : kept var) :
    μ.read store' var = μ.read store var := by
  induction h with
  | nil => rfl
  | cons _ _ same _ ih => exact ih.trans (same var keep)

/-- Fewer cells may be said to be kept. -/
theorem mono {kept' : Nat → Prop} (less : ∀ var, kept' var → kept var)
    (h : Strides μ kept code stack store stack' store') :
    Strides μ kept' code stack store stack' store' := by
  induction h with
  | nil => exact .nil
  | cons isLocal runs same _ ih =>
    exact .cons isLocal runs (fun var keep => same var (less var keep)) ih

end Strides

/-- Code without anchors and calls of functions that is run through has run step by step, and its
net effect is what it has done to the height. -/
theorem strides_of_fell {code : List Instr} (isLocal : ∀ i ∈ code, i.isLocal = true)
    {stack stack' : List V} {store store' : S}
    (fell : (μ.exec code stack store).ending = .fell stack' store') :
    Strides μ (fun _ => False) code stack store stack' store' ∧
      (stack'.length : Int) = stack.length + netEffect code := by
  induction code generalizing stack store with
  | nil =>
    cases fell
    exact ⟨.nil, (Int.add_zero _).symm⟩
  | cons i rest ih =>
    obtain ⟨isLocal, others⟩ := List.forall_mem_cons.1 isLocal
    have plain := Instr.not_anchor_of_isLocal isLocal
    by_cases enough : i.pops ≤ stack.length
    · rw [μ.exec_cons plain enough] at fell
      cases stepped : μ.step i stack store with
      | none =>
        rw [stepped] at fell
        cases fell
      | some p =>
        obtain ⟨stack₁, store₁⟩ := p
        rw [stepped] at fell
        obtain ⟨later, height⟩ := ih others fell
        refine ⟨.cons isLocal ⟨plain, enough, stepped⟩ (fun _ => False.elim) later, ?_⟩
        have lifted := μ.length_step stepped
        rw [netEffect, Instr.effect]
        omega
    · rw [exec, if_pos (Nat.lt_of_not_le enough)] at fell
      cases fell

/-- A run through local instructions is one without calls, and changes the height by their net
effect. -/
theorem Leads.strides {code : List Instr} (isLocal : ∀ i ∈ code, i.isLocal = true)
    {stack stack' : List V} {store store' : S} (led : μ.Leads code stack store stack' store') :
    Strides μ (fun _ => False) code stack store stack' store' ∧
      (stack'.length : Int) = stack.length + netEffect code := by
  have ran := led []
  rw [List.append_nil] at ran
  exact strides_of_fell isLocal ran

/-! ## Machines on which addresses lead to one variable -/

/-- What is asked of a machine.  `inside a var` says that an address leads into a variable; the
machine itself writes to no cell that is `spared`, the argument lists that its routines are given
apart. -/
structure Provenant (μ : Machine V S) (inside : V → Nat → Prop) (spared : Nat → Prop) : Prop where
  read_write : ∀ store var x other,
    μ.read (μ.write store var x) other = if other = var then x else μ.read store other
  clear : ∀ {var popped store pushed store'},
    μ.plain (.clear var) popped store = some (pushed, store') →
      ∀ other, other ≠ var → μ.read store' other = μ.read store other
  address : ∀ var, inside (μ.address var) var
  field : ∀ {field a a' var}, μ.field field a = some a' → inside a var → inside a' var
  /-- What is added to an address leads no further than to another part of the variable. -/
  add : ∀ {a y z store store' var},
    μ.plain (.binary .add) [y, a] store = some ([z], store') → inside a var → inside z var
  assign : ∀ {ty a x store store' var}, μ.assign store ty a x = some store' → inside a var →
    ∀ other, other ≠ var → μ.read store' other = μ.read store other
  plain : ∀ {i popped store pushed store'}, i.leavesCells = true →
    μ.plain i popped store = some (pushed, store') → ∀ var, spared var →
      (i.writesList = true → ∀ a ∈ popped, ¬ inside a var) → μ.read store' var = μ.read store var

/-- Somewhere in a run through the code, a routine that writes to an argument list is given the
address of the variable. -/
def Advances (μ : Machine V S) (inside : V → Nat → Prop) (code : List Instr) (stack : List V)
    (store : S) (var : Nat) : Prop :=
  ∃ before i after stack' store', code = before ++ i :: after ∧ i.writesList = true ∧
    μ.Leads before stack store stack' store' ∧ ∃ a ∈ stack'.take i.pops, inside a var

/-- The values on the stack are what the marks say. -/
inductive Marked (own : Nat → Prop) (inside : V → Nat → Prop) : List V → List (Option Nat) → Prop
  | nil : Marked own inside [] []
  | cons {x : V} {mark : Option Nat} {stack : List V} {marks : List (Option Nat)}
      (here : ∀ var, mark = some var → own var ∧ inside x var)
      (later : Marked own inside stack marks) :
    Marked own inside (x :: stack) (mark :: marks)

variable {own : Nat → Prop} {inside : V → Nat → Prop} {spared : Nat → Prop}

/-- Every stack is as the marks say that say nothing. -/
theorem Marked.any (stack : List V) :
    Marked own inside stack (List.replicate stack.length none) := by
  induction stack with
  | nil => exact .nil
  | cons x stack ih => exact .cons nofun ih

/-- Values that are not marked may be pushed. -/
theorem Marked.any_append (pushed : List V) {stack : List V} {marks : List (Option Nat)}
    (h : Marked own inside stack marks) :
    Marked own inside (pushed ++ stack) (List.replicate pushed.length none ++ marks) := by
  induction pushed with
  | nil => exact h
  | cons x pushed ih => exact .cons nofun ih

/-- The values below keep their marks. -/
theorem Marked.drop {stack : List V} {popped marks : List (Option Nat)}
    (h : Marked own inside stack (popped ++ marks)) :
    Marked own inside (stack.drop popped.length) marks := by
  induction popped generalizing stack with
  | nil => exact h
  | cons mark popped ih =>
    cases h with
    | cons _ later => exact ih later

/-- An instruction that leaves cells alone does to a cell what the machine itself does. -/
theorem read_act {i : Instr} (leaves : i.leavesCells = true) {popped pushed : List V}
    {store store' : S} (acted : μ.act store i popped = some (pushed, store')) {var : Nat}
    (plain : μ.plain i popped store = some (pushed, store') →
      μ.read store' var = μ.read store var) :
    μ.read store' var = μ.read store var := by
  unfold act at acted
  split at acted
  case h_2 | h_5 | h_8 => cases leaves
  case h_1 | h_3 | h_9 | h_10 =>
    cases acted
    rfl
  case h_4 | h_6 =>
    obtain ⟨_, -, same⟩ := Option.map_eq_some_iff.1 acted
    cases same
    rfl
  case h_7 =>
    obtain ⟨_, -, acted⟩ := Option.bind_eq_some_iff.1 acted
    obtain ⟨_, -, same⟩ := Option.map_eq_some_iff.1 acted
    cases same
    rfl
  case h_11 => exact plain acted

/-- Storing to a variable changes no other one. -/
theorem Provenant.strides_store (laws : Provenant μ inside spared) {kept : Nat → Prop} {var : Nat}
    (apart : ∀ other, kept other → other ≠ var) (x : V) (stack : List V) (store : S) :
    Strides μ kept [.store var] (x :: stack) store stack (μ.write store var x) := by
  refine .singleton rfl (Nat.le_add_left 1 _) (μ.step_store var x stack store) fun other keep => ?_
  rw [laws.read_write, if_neg (apart other keep)]

/-- One instruction keeps the marks right, and every other spared variable that it is not given the
address of as a list. -/
theorem Provenant.step_keeps (laws : Provenant μ inside spared) {i : Instr}
    {marks after : List (Option Nat)} (h : i.Stays own marks after) {stack stack' : List V}
    {store store' : S} (marked : Marked own inside stack marks)
    (stepped : μ.step i stack store = some (stack', store')) :
    Marked own inside stack' after ∧ ∀ var, spared var ∧ ¬ own var →
      (i.writesList = true → ∀ a ∈ stack.take i.pops, ¬ inside a var) →
        μ.read store' var = μ.read store var := by
  have apart {var mine : Nat} (h : own mine) (keep : spared var ∧ ¬ own var) : var ≠ mine := by
    rintro rfl
    exact keep.2 h
  cases h with
  | store mine =>
    cases marked with
    | cons _ later =>
      rw [μ.step_store] at stepped
      cases stepped
      refine ⟨later, fun var keep _ => ?_⟩
      rw [laws.read_write, if_neg (apart mine keep)]
  | clear mine =>
    rw [step, Option.map_eq_some_iff] at stepped
    obtain ⟨⟨pushed, _⟩, acted, same⟩ := stepped
    cases same
    cases List.eq_nil_of_length_eq_zero (μ.length_act acted)
    exact ⟨marked, fun var keep _ => laws.clear acted var (apart mine keep)⟩
  | addressOf mine =>
    rw [μ.step_addressOf] at stepped
    cases stepped
    refine ⟨.cons (fun var same => ?_) marked, fun _ _ _ => rfl⟩
    cases same
    exact ⟨mine, laws.address _⟩
  | fieldAddress =>
    cases marked with
    | cons here later =>
      rw [μ.step_fieldAddress, Option.map_eq_some_iff] at stepped
      obtain ⟨a', moved, same⟩ := stepped
      cases same
      refine ⟨.cons (fun var same => ?_) later, fun _ _ _ => rfl⟩
      exact ⟨(here var same).1, laws.field moved (here var same).2⟩
  | add =>
    cases marked with
    | cons _ later =>
      cases later with
      | cons here later =>
        rw [step, Option.map_eq_some_iff] at stepped
        obtain ⟨⟨pushed, _⟩, acted, same⟩ := stepped
        cases same
        obtain ⟨z, rfl⟩ := List.length_eq_one_iff.1 (μ.length_act acted)
        refine ⟨.cons (fun var same => ?_) later, fun var keep away => ?_⟩
        · exact ⟨(here var same).1, laws.add acted (here var same).2⟩
        · exact laws.plain rfl acted var keep.1 away
  | storeIndirect =>
    cases marked with
    | cons _ later =>
      cases later with
      | cons here later =>
        rw [μ.step_storeIndirect, Option.map_eq_some_iff] at stepped
        obtain ⟨_, assigned, same⟩ := stepped
        cases same
        obtain ⟨mine, within⟩ := here _ rfl
        exact ⟨later, fun var keep _ => laws.assign assigned within var (apart mine keep)⟩
  | @other _ popped marks leaves height =>
    rw [step, Option.map_eq_some_iff] at stepped
    obtain ⟨⟨pushed, _⟩, acted, same⟩ := stepped
    cases same
    refine ⟨?_, fun var keep away => read_act leaves acted fun acts => ?_⟩
    case refine_2 => exact laws.plain leaves acts var keep.1 away
    rw [← μ.length_act acted, ← height]
    exact marked.drop.any_append pushed

/-- If an argument list is advanced in a later part of a run, then it is in the whole run. -/
theorem Advances.behind {i : Instr} {code : List Instr} {stack stack' : List V} {store store' : S}
    {var : Nat} (first : μ.Leads [i] stack store stack' store')
    (h : μ.Advances inside code stack' store' var) :
    μ.Advances inside (i :: code) stack store var := by
  obtain ⟨before, call, after, stack₁, store₁, rfl, writes, led, given⟩ := h
  exact ⟨i :: before, call, after, stack₁, store₁, rfl, writes, first.append led, given⟩

/-- A run through code that stays within its own variables leaves the others as they are, unless it
advances them as lists. -/
theorem Provenant.strides_of_stays (laws : Provenant μ inside spared) {code : List Instr}
    {marks after : List (Option Nat)} (h : Stays own marks code after) {stack stack' : List V}
    {store store' : S} (marked : Marked own inside stack marks)
    (ran : Strides μ (fun _ => False) code stack store stack' store') :
    Strides μ (fun var => (spared var ∧ ¬ own var) ∧ ¬ μ.Advances inside code stack store var)
      code stack store stack' store' := by
  induction h generalizing stack store with
  | nil =>
    cases ran
    exact .nil
  | @cons i rest marks between after first _ ih =>
    cases ran with
    | cons isLocal runs _ later =>
      obtain ⟨marked, keeps⟩ := laws.step_keeps first marked runs.step
      have leads := leads_step runs.plain runs.enough runs.step
      -- What is not advanced at all is given neither to this instruction nor to a later one.
      refine .cons isLocal runs (fun var keep => keeps var keep.1 fun writes a mem led => ?_) ?_
      · exact keep.2 ⟨[], i, rest, stack, store, rfl, writes, .refl stack store, a, mem, led⟩
      · exact (ih marked later).mono fun var keep => ⟨keep.1, fun given =>
          keep.2 (given.behind leads)⟩

/-- Contained code that pushes a value changes no spared cell but those of its own variables and
those that it advances as lists. -/
theorem Provenant.strides (laws : Provenant μ inside spared) {code : List Instr}
    (h : Contained own [] code [none]) {stack : List V} {x : V} {store store' : S}
    (led : μ.Leads code stack store (x :: stack) store') :
    Strides μ (fun var => (spared var ∧ ¬ own var) ∧ ¬ μ.Advances inside code stack store var)
      code stack store (x :: stack) store' := by
  obtain ⟨ran, height⟩ := led.strides h.isLocal
  rw [List.length_cons] at height
  have one : netEffect code = (([none] : List (Option Nat)).length : Int) -
      ([] : List (Option Nat)).length := by
    show netEffect code = 1
    omega
  have whole := (h.stays one).over (List.replicate stack.length none)
  exact laws.strides_of_stays whole (.any stack) ran

end Machine

end Stackwise.Code
