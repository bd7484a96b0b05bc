import Stackwise.Proofs.Lowering.Unwinding

/-!
# Exceptions are neither lost nor leaked

From the source to the runs of its lowered body: no function is called while an exception is in
flight, except for the personality routine that is asked about handlers; and a function that is not
found to throw never returns with one.
-/

namespace Stackwise.Lowering

open Code (Control Ending Instr Machine Storage)
open Source (Function Module)

/-- The exception in flight is neither lost nor leaked.  Take a function of a module that can be
built, all of whose blocks end in their only terminator and which unwinds to pads only, and lower it
with the functions that the analysis of the module has found to throw.  On a machine that treats
exceptions as it should, start the body with no exception in flight and with zeroed slots.  Then no
function is called while an exception is in flight, except when a personality routine is asked about
a handler; and if the body is left with an exception in flight, the function is one that may
throw. -/
theorem exception_never_leaks {V S : Type} {H : Host V S} {conventions : Conventions} {m : Module}
    {function : Nat} {f : Function} {body : Code.Body} (built : m.Built)
    (found : m.function? function = some f)
    (ends : ∀ b ∈ f.blocks, endsAtTerminator (m.instructionsOf b) = true)
    (padded : ∀ p ∈ m.bodyOf f, unwindsToPads m function f p.2 = true)
    (lowered : (lowerFunction conventions m (Throwing.analyze conventions m).1 function).1 =
      .ok body)
    (unwinds : H.Unwinds conventions m f body) {start : S} (clear : H.slot start = H.null)
    (zeroed : ∀ var v, body.storage.get? var = some v → v.place = .slot →
      H.read start var = H.zero v.ty) :
    (∀ s, H.Reached body.blocks start s → ∀ i rest, s.code = i :: rest → callsFunction i = true →
      H.slot s.store = H.null ∨ IsTest m f s.label i rest) ∧
    ∀ fuel value store, (H.run body.blocks fuel 0 [] start).2 = .left value store →
      H.slot store ≠ H.null → (Throwing.analyze conventions m).1.mayThrow function = true := by
  obtain ⟨returns, homes, roles, shaped⟩ := lowering_shapes built found ends lowered
  obtain ⟨_, _, _, found', defined, -⟩ := lowerFunction_eq_ok lowered
  cases found.symm.trans found'
  have g : Guarded H (functionContext conventions m (Throwing.analyze conventions m).1 function f
      returns homes) function f body roles := ⟨built, found, rfl, rfl, padded, shaped, unwinds⟩
  have safe {s : Code.State V S} (reached : H.Reached body.blocks start s) :=
    reached.safe (g.enter_start defined clear zeroed) g.block_safe
  refine ⟨fun s reached i rest here calls => ?_, fun fuel value store left set => ?_⟩
  · have safe := safe reached
    rw [here] at safe
    exact safe.1 calls
  · obtain ⟨s, reached, i, rest, here, anchor, enough, control⟩ :=
      Machine.Reached.run (fun b there => .start there) left
    have safe := safe reached
    rw [here] at safe
    have harmless := (safe.2.2 anchor enough).2.2 value store control
    have same := g.mayThrow_eq
    cases throws : (Throwing.analyze conventions m).1.mayThrow function with
    | true => rfl
    | false => exact absurd (harmless (same.trans throws)).1 set

/-! ## A machine that raises exceptions -/

/-- The exception in flight, or 0, and a cell for each variable. -/
structure Cells where
  pending : Nat
  cell : Nat → Nat

/-- Whether a variable stands for a place. -/
def standsFor (s : Storage) (place : Code.Place) (var : Nat) : Bool :=
  (s.get? var).any (·.place == place)

/-- What a call does: some functions raise the exception 1. -/
def raise (raising : List Nat) (store : Cells) : Instr → Cells
  | .call (.function target) _ =>
    if target ∈ raising then { store with pending := 1 } else store
  | _ => store

/-- How anchors decide. -/
def decideOn (store : Cells) : Instr → List Nat → Control Nat Cells
  | .branch label, stack => .jump label stack store
  | .branchIfTrue label, x :: stack =>
    if x = 0 then .next stack store else .jump label stack store
  | .branchIfFalse label, x :: stack =>
    if x = 0 then .jump label stack store else .next stack store
  | .phiEnqueue _, stack | .phiDequeue _, stack => .next stack store
  | .retIfPending _ _, stack =>
    if store.pending = 0 then .next stack store else .leave none store
  | _, _ => .leave none store

/-- A machine on which all other instructions push the same value. -/
def thrower (s : Storage) (raising : List Nat) (answer : Nat) : Host Nat Cells where
  read store var :=
    if standsFor s .exceptionSlot var then store.pending
    else if standsFor s (.constant .null) var then 0 else store.cell var
  write store var x :=
    if standsFor s .exceptionSlot var then { store with pending := x }
    else { store with cell := fun other => if other = var then x else store.cell other }
  address var := var
  field _ a := some a
  fetch _ _ _ := some answer
  assign store _ _ _ := some store
  size _ := answer
  plain i _ store := some (List.replicate i.pushes answer, raise raising store i)
  length_plain h := by
    cases h
    exact List.length_replicate
  control i stack store := decideOn store i stack
  slot := Cells.pending
  zero _ := 0

theorem of_ite_eq {α : Type} {p : Prop} [Decidable p] {a b x : α} (h : (if p then a else b) = x)
    (ne : b ≠ x) : p := by
  by_cases holds : p
  · exact holds
  · rw [if_neg holds] at h
    exact absurd h ne

theorem standsFor_of_hasPlace {s : Storage} {place place' : Code.Place} {var : Nat}
    (h : HasPlace s place var) : standsFor s place' var = (place == place') := by
  obtain ⟨v, there, rfl⟩ := h
  rw [standsFor, there]
  rfl

theorem hasPlace_of_standsFor {s : Storage} {place : Code.Place} {var : Nat}
    (h : standsFor s place var = true) : HasPlace s place var := by
  obtain ⟨v, there, same⟩ := (Option.any_eq_true _ _).1 h
  exact ⟨v, there, beq_iff_eq.1 same⟩

/-- Only a call of a raising function puts an exception in flight. -/
theorem raise_cases (raising : List Nat) (store : Cells) (i : Instr) :
    (∃ target sig, i = .call (.function target) sig ∧ target ∈ raising ∧
      raise raising store i = { store with pending := 1 }) ∨ raise raising store i = store := by
  unfold raise
  split
  · split
    · rename_i raises
      exact .inl ⟨_, _, rfl, raises, rfl⟩
    · exact .inr rfl
  · exact .inr rfl

/-- Deciding on a jump changes nothing in the store. -/
theorem store_decideOn (store : Cells) (i : Instr) (stack : List Nat) :
    (decideOn store i stack).store = store := by
  unfold decideOn
  split
  case h_2 | h_3 | h_6 => split <;> rfl
  all_goals rfl

/-- A jump goes to one of its targets. -/
theorem mem_targets_of_decideOn {i : Instr} {label : Nat} {stack stack' : List Nat}
    {store store' : Cells} (control : decideOn store i stack = .jump label stack' store') :
    label ∈ i.targets := by
  unfold decideOn at control
  split at control
  · cases control
    exact List.mem_cons_self
  · split at control
    · cases control
    · cases control
      exact List.mem_cons_self
  · split at control
    · cases control
      exact List.mem_cons_self
    · cases control
  · cases control
  · cases control
  · split at control <;> cases control
  · cases control

section

variable {s : Storage} {raising : List Nat} {answer : Nat}

theorem read_thrower_slot {var : Nat} (store : Cells) (slot : HasPlace s .slot var) :
    (thrower s raising answer).read store var = store.cell var := by
  show (if _ then _ else if _ then _ else _) = _
  rw [standsFor_of_hasPlace slot, standsFor_of_hasPlace slot]
  rfl

/-- Only stores to variables and calls that raise change the store. -/
theorem thrower_runs {i : Instr} {stack stack' : List Nat} {store store' : Cells}
    (runs : (thrower s raising answer).Runs i stack store stack' store') :
    (∃ var x, i = .store var ∧ store' = (thrower s raising answer).write store var x) ∨
      (∃ target sig, i = .call (.function target) sig ∧ target ∈ raising ∧
        store' = { store with pending := 1 }) ∨ store' = store := by
  have step := runs.step
  rw [Machine.step, Option.map_eq_some_iff] at step
  obtain ⟨⟨pushed, after⟩, acted, same⟩ := step
  cases same
  unfold Machine.act at acted
  split at acted
  case h_2 =>
    cases acted
    exact .inl ⟨_, _, rfl, rfl⟩
  case h_11 =>
    cases acted
    exact .inr (raise_cases _ _ _)
  all_goals
    cases acted
    exact .inr (.inr rfl)

/-- The machine treats exceptions as it should, if the functions that raise are found to throw and
the personality routine is none of them. -/
theorem thrower_unwinds {conventions : Conventions} {m : Module} {f : Function} {body : Code.Body}
    (throws : ∀ target ∈ raising, (Throwing.analyze conventions m).1.mayThrow target = true)
    (calm : ∀ routine ∈ f.personality, routine ∉ raising) :
    (thrower body.storage raising answer).Unwinds conventions m f body where
  read_slot store isSlot := by
    show (if _ then _ else _) = _
    rw [standsFor_of_hasPlace isSlot]
    rfl
  slot_write store x isSlot := by
    show Cells.pending (if _ then _ else _) = x
    rw [standsFor_of_hasPlace isSlot]
    rfl
  read_null store isNull := by
    obtain ⟨v, there, place, -⟩ := isNull
    have isNull : HasPlace body.storage (.constant .null) _ := ⟨v, there, place⟩
    show (if _ then _ else if _ then _ else _) = _
    rw [standsFor_of_hasPlace isNull, standsFor_of_hasPlace isNull]
    rfl
  read_write store x isPrivate := by
    rw [read_thrower_slot _ isPrivate.1]
    show Cells.cell (if _ then _ else _) _ = x
    rw [standsFor_of_hasPlace isPrivate.1]
    exact if_pos rfl
  read_run runs isPrivate others := by
    rw [read_thrower_slot _ isPrivate.1, read_thrower_slot _ isPrivate.1]
    rcases thrower_runs runs with ⟨var, x, rfl, rfl⟩ | ⟨_, _, -, -, rfl⟩ | rfl
    · show Cells.cell (if _ then _ else _) _ = _
      split
      · rfl
      · exact if_neg fun same => others (congrArg some same.symm)
    · rfl
    · rfl
  slot_run runs plain others := by
    rcases thrower_runs runs with ⟨var, x, rfl, rfl⟩ | ⟨_, _, rfl, -, -⟩ | rfl
    · show Cells.pending (if _ then _ else _) = _
      split
      · rename_i isSlot
        exact absurd (hasPlace_of_standsFor isSlot) (others var rfl)
      · rfl
    · cases plain
    · rfl
  call runs clear set := by
    rcases thrower_runs runs with ⟨_, _, ⟨⟩, -⟩ | ⟨target, sig, same, raises, -⟩ | rfl
    · cases same
      exact throws _ raises
    · exact absurd clear set
  callIndirect runs clear set := by
    rcases thrower_runs runs with ⟨_, _, ⟨⟩, -⟩ | ⟨_, _, ⟨⟩, -⟩ | rfl
    exact absurd clear set
  personality asked runs := by
    rcases thrower_runs runs with ⟨_, _, ⟨⟩, -⟩ | ⟨target, sig, same, raises, -⟩ | rfl
    · cases same
      exact absurd raises (calm _ asked)
    · rfl
  read_control {i} stack store {var} anchor isPrivate := by
    show (thrower body.storage raising answer).read (decideOn store _ stack).store _ = _
    rw [store_decideOn]
  slot_control stack store anchor := by
    show Cells.pending (decideOn store _ stack).store = _
    rw [store_decideOn]
    rfl
  targets anchor control := mem_targets_of_decideOn control
  terminator {i stack stack' store store'} last control := by
    change decideOn store i stack = _ at control
    cases i with
    | branch | ret | retDefault | unreachable => cases control
    | _ => cases last
  branchIfTrue {label stack stack' store store'} control :=
    of_ite_eq (p := store.pending = 0) control nofun
  branchIfFalse {label target stack stack' store store'} control :=
    of_ite_eq (p := store.pending = 0) control nofun
  retIfPending {ty framed stack stack' store store'} control :=
    of_ite_eq (p := store.pending = 0) control nofun

end

/-- A function that calls one that raises, offers the exception to a handler, and cleans up if that
refuses. -/
def attemptingSteps : List Source.Step :=
  [.intern .void, .intern (.function 0 [] false), .intern (.int 32), .intern (.function 2 [] true),
    .addFunction "__cxa_throw" 1, .addFunction "__gxx_personality_v0" 3, .addFunction "report" 1,
    .addFunction "attempt" 1, .setPersonality 3 1,
    .appendBlock 3 "entry", .appendBlock 3 "done", .appendBlock 3 "dispatch",
    .appendBlock 3 "handler", .appendBlock 3 "cleanup", .noneToken,
    .positionAt 3 0, .invoke 1 0 [] 1 2,
    .positionAt 3 1, .call 1 2 [], .ret none,
    .positionAt 3 2, .catchSwitch 4 [3] (some 4),
    .positionAt 3 3, .catchPad 8 [], .call 1 2 [], .catchRet 9 1,
    .positionAt 3 4, .cleanupPad 4 [], .call 1 2 [], .cleanupRet 12 none]

/-- The module that they build. -/
def attempting : Module := Source.build "attempting" attemptingSteps

/-- The function that cleans up. -/
def attempt : Function := (attempting.function? 3).get (by decide +kernel)

/-- Which exception a run leaves behind, if it leaves the body. -/
def leftBehind : Ending Nat Cells → Option Nat
  | .left _ store => some store.pending
  | _ => none

theorem eq_left_of_leftBehind {ending : Ending Nat Cells} {x : Nat}
    (h : leftBehind ending = some x) :
    ∃ value store, ending = .left value store ∧ store.pending = x := by
  cases ending with
  | left value store => exact ⟨value, store, rfl, Option.some.inj h⟩
  | _ => cases h

/-- The handler refuses: the run goes through the cleanup and leaves with the exception. -/
theorem exception_never_leaks_attempting : ∃ body value store,
    (lowerFunction .natural attempting (Throwing.analyze .natural attempting).1 3).1 = .ok body ∧
    ((thrower body.storage [0] 1).run body.blocks 9 0 [] ⟨0, fun _ => 0⟩).2 = .left value store ∧
    store.pending = 1 ∧ (Throwing.analyze .natural attempting).1.mayThrow 3 = true ∧
    ∀ s, (thrower body.storage [0] 1).Reached body.blocks ⟨0, fun _ => 0⟩ s →
      ∀ i rest, s.code = i :: rest → callsFunction i = true →
        s.store.pending = 0 ∨ IsTest attempting attempt s.label i rest := by
  have found : attempting.function? 3 = some attempt := (Option.some_get _).symm
  have ran : ((lowerFunction .natural attempting (Throwing.analyze .natural attempting).1 3).1.map
      fun body => leftBehind ((thrower body.storage [0] 1).run body.blocks 9 0 []
        ⟨0, fun _ => 0⟩).2).toOption = some (some 1) := by
    decide +kernel
  cases lowered : (lowerFunction .natural attempting
      (Throwing.analyze .natural attempting).1 3).1 with
  | error fault =>
    rw [lowered] at ran
    cases ran
  | ok body =>
    rw [lowered] at ran
    obtain ⟨value, store, left, pending⟩ := eq_left_of_leftBehind (Option.some.inj ran)
    have unwinds : (thrower body.storage [0] 1).Unwinds .natural attempting attempt body :=
      thrower_unwinds (by decide +kernel) (by decide +kernel)
    have clear : (thrower body.storage [0] 1).slot ⟨0, fun _ => 0⟩ =
      (thrower body.storage [0] 1).null := rfl
    have leaks := exception_never_leaks ⟨_, attemptingSteps, rfl⟩ found (by decide +kernel)
      (by decide +kernel) lowered unwinds clear
      fun var v there place => read_thrower_slot _ ⟨v, there, place⟩
    refine ⟨body, value, store, rfl, left, pending, leaks.2 9 value store left ?_, leaks.1⟩
    show store.pending ≠ 0
    rw [pending]
    decide

end Stackwise.Lowering
