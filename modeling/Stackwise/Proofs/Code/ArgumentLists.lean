import Mathlib.Logic.Function.Basic
import Stackwise.Proofs.Code.Footprint

/-!
# Argument lists

Code that stays within its own variables leaves another variable as it is, unless it hands its
address to a routine that starts or advances an argument list.

* `Machine.Advancing` says what is asked of a machine.
* `Machine.Advancing.pushes`: code for a value keeps a variable, or has advanced it as a list.
* `listMachine`: a machine with arguments to go through, on which the laws hold.
-/

namespace Stackwise.Code

/-- Code of a known height has a known net effect. -/
theorem netEffect_of_climb {height after : Nat} {code : List Instr}
    (climbs : climb height code = some after) : netEffect code = (after : Int) - height := by
  induction code generalizing height with
  | nil =>
    cases climbs
    exact (Int.sub_self _).symm
  | cons i rest ih =>
    obtain ⟨-, enough, climbs⟩ := climb_cons_eq_some.1 climbs
    rw [netEffect, Instr.effect, ih climbs]
    omega

namespace Machine

variable {V S : Type} {μ : Machine V S} {inside : V → Nat → Prop} {own : Nat → Prop}

/-! ## Machines with argument lists -/

/-- What is asked of a machine: of its own accord it writes only to the argument lists that a
routine is given the addresses of. -/
def Advancing (μ : Machine V S) (inside : V → Nat → Prop) : Prop :=
  μ.Provenant inside fun _ => True

/-- Contained code that climbs by one leaves the stack below its value as it is and every variable
of another, the lists that it advances apart. -/
theorem Advancing.pushes (laws : μ.Advancing inside) {code : List Instr}
    (h : Contained own [] code [none]) (climbs : climb 0 code = some 1) (stack : List V)
    (store : S) :
    (μ.exec code stack store).ending = .stuck ∨
      ∃ x store', (μ.exec code stack store).ending = .fell (x :: stack) store' ∧
        ∀ var, ¬ own var →
          μ.read store' var = μ.read store var ∨ μ.Advances inside code stack store var := by
  have runs := μ.exec_pushesOne climbs store
  rcases runs with stuck | ⟨x, store', leads⟩
  · left
    have alone := stuck [] stack
    rw [List.append_nil] at alone
    rw [alone]
  · right
    have alone := leads [] stack
    rw [List.append_nil] at alone
    have fell : (μ.exec code stack store).ending = .fell (x :: stack) store' := by
      rw [alone]
      rfl
    refine ⟨x, store', fell, fun var other => ?_⟩
    have stays := (h.stays (netEffect_of_climb climbs)).over (List.replicate stack.length none)
    have strides := Provenant.strides_of_stays laws stays (.any stack)
      (strides_of_fell h.isLocal fell).1
    by_cases advances : μ.Advances inside code stack store var
    · exact .inr advances
    · exact .inl (strides.read_eq ⟨⟨trivial, other⟩, advances⟩)

end Machine

/-! ## A machine with arguments to go through -/

/-- The values of a machine on which an argument list is known by its next argument. -/
inductive Listed where
  | blank
  | int (n : Int)
  | address (var : Nat)
  | list (next : Nat)
  /-- The address of the place where the address of an argument stands. -/
  | slot (index : Nat)
  /-- The address of an argument. -/
  | argument (index : Nat)
deriving DecidableEq

namespace Listed

/-- What an instruction answers. -/
def respond (store : Nat → Listed) :
    Instr → (popped : List Listed) → Option (Listed × (Nat → Listed))
  | .clear var, [] => some (blank, Function.update store var blank)
  | .binary .add, [int y, int x] => some (int (x + y), store)
  | .call (.helper .vaStart) _, [_, address var] => some (blank, Function.update store var (list 0))
  | .call (.helper .vaArg) _, [address var] =>
    match store var with
    | list next => some (slot next, Function.update store var (list (next + 1)))
    | _ => none
  | _, _ => none

/-- A routine writes at most to the variable whose address it is given. -/
theorem respond_of_writesList {i : Instr} (writes : i.writesList = true) {popped : List Listed}
    {store store' : Nat → Listed} {x : Listed} (h : respond store i popped = some (x, store'))
    {var : Nat} (away : ∀ a ∈ popped, ¬ a = address var) : store' var = store var := by
  unfold respond at h
  split at h
  · cases writes
  · cases writes
  · cases h
    refine Function.update_of_ne ?_ _ _
    rintro rfl
    exact away _ (.tail _ (.head _)) rfl
  · split at h
    · cases h
      refine Function.update_of_ne ?_ _ _
      rintro rfl
      exact away _ (.head _) rfl
    · cases h
  · cases h

/-- Only clearing and the routines write. -/
theorem respond_of_leavesCells {i : Instr} (leaves : i.leavesCells = true)
    (writes : i.writesList = false) {popped : List Listed} {store store' : Nat → Listed}
    {x : Listed} (h : respond store i popped = some (x, store')) : store' = store := by
  unfold respond at h
  split at h
  · cases leaves
  · cases h
    rfl
  · cases writes
  · cases writes
  · cases h

end Listed

/-- The machine, for the arguments that a list goes through. -/
def listMachine (args : Nat → Int) : Machine Listed (Nat → Listed) where
  read store var := store var
  write := Function.update
  address := .address
  field _ _ := none
  fetch _ _ a :=
    match a with
    | .slot index => some (.argument index)
    | .argument index => some (.int (args index))
    | _ => none
  assign store _ a x :=
    match a with
    | .address var => some (Function.update store var x)
    | _ => none
  size _ := .blank
  plain i popped store :=
    (Listed.respond store i popped).map fun p => (List.replicate i.pushes p.1, p.2)
  length_plain h := by
    obtain ⟨_, -, same⟩ := Option.map_eq_some_iff.1 h
    cases same
    exact List.length_replicate
  control _ _ store := .leave none store

theorem listMachine_advancing (args : Nat → Int) :
    (listMachine args).Advancing (fun a var => a = .address var) where
  read_write store var x other := Function.update_apply store var x other
  clear {var popped store pushed store'} h other apart := by
    obtain ⟨⟨x, store₁⟩, responds, same⟩ := Option.map_eq_some_iff.1 h
    cases same
    cases popped with
    | nil =>
      cases responds
      exact Function.update_of_ne apart _ _
    | cons _ _ => cases responds
  address _ := rfl
  field h := by cases h
  add {a y z store store' var} h inside := by
    cases inside
    cases y <;> cases h
  assign {ty a x store store' var} h inside other apart := by
    cases inside
    cases h
    exact Function.update_of_ne apart _ _
  plain {i _ _ _ _} leaves h var _ away := by
    obtain ⟨⟨x, store⟩, responds, same⟩ := Option.map_eq_some_iff.1 h
    cases same
    cases writes : i.writesList with
    | true => exact Listed.respond_of_writesList writes responds (away writes)
    | false => rw [Listed.respond_of_leavesCells leaves writes responds]

end Stackwise.Code
