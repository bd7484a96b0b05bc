import Stackwise.Proofs.Lowering.Heights

/-!
# Pushing writes only to variables of its own

Pushing a value may take many steps: a constant aggregate is built in a variable, the members of an
aggregate are reached through addresses, and the operands of a constant expression are constants
again.  All the variables that this writes to are made on the way, so whatever was there before is
left alone (`push_contained`).  Nothing is asked of the module, and the variables of the table stay
where they are (`push_adds`).

The variables that count as a step's own are slots, numbered from some `floor` on that the table has
reached when the step begins (`Emit.Contained`).
-/

namespace Stackwise.Lowering

open Code (Constant Helper Instr Storage)
open Source (Opcode)

/-- A slot that is as new as `floor` says. -/
def Own (floor : Nat) (s : Storage) (var : Nat) : Prop :=
  floor ≤ var ∧ ∃ v, s.get? var = some v ∧ v.place = .slot

/-- A slot is still as new when the table has grown. -/
theorem Own.grows {m : Source.Module} {floor : Nat} {s s' : Storage} {var : Nat}
    (h : Own floor s var) (grown : s.Grows m s') : Own floor s' var := by
  obtain ⟨new, v, there, slot⟩ := h
  exact ⟨new, v, grown.get?_eq_some there, slot⟩

namespace Emit

variable {α β : Type} {c : Context} {s : Ledger}

/-- A step that only adds variables, none of them for an instruction. -/
def Adds (c : Context) (s : Ledger) (step : Emit α) : Prop :=
  Ensures c s step fun e => s.Grows c.module e.storage

/-- A step that makes a variable first. -/
theorem Writes.fresh {v : Code.Variable} {add : Ledger → Nat × Ledger} {f : Nat → Emit α}
    {Q : Storage → List Instr → Prop} (number : (add s).1 = s.size)
    (adds : (add s).2.toStorage = (s.toStorage.push v).2) (incidental : v.Incidental c.module)
    (later : ∀ s' : Ledger, s.Grows c.module s' → s'.get? s.size = some v →
      Writes c s' (f s.size) Q) : Writes c s (fresh add >>= f) Q := by
  refine Ensures.bind (fresh_ensures number adds incidental) ?_
  rintro e ⟨nothing, new, grown, there⟩
  rw [nothing, new]
  refine Ensures.imp (later e.storage grown there) fun e' ⟨grown', holds⟩ => ?_
  exact ⟨grown.trans grown', holds⟩

/-- A new slot is the last variable, and is what was asked for. -/
theorem freshSlot_ensures {origin : Option Nat} (ty : Code.Ty)
    (apart : ∀ id, origin = some id → c.module.instruction? id = none) :
    Ensures c s (freshSlot ty origin) fun e => e.code = [] ∧ e.value = s.size ∧
      s.Grows c.module e.storage ∧
      e.storage.get? s.size = some ⟨.slot, ty, Code.Place.access .slot, origin⟩ :=
  fresh_ensures rfl rfl ⟨apart, .inl rfl, rfl⟩

/-- A step that only adds variables, and whose code is contained by slots from `floor` on. -/
def Contained (c : Context) (floor : Nat) (s : Ledger) (step : Emit α)
    (marks after : List (Option Nat)) : Prop :=
  floor ≤ s.size → Ensures c s step fun e =>
    s.Grows c.module e.storage ∧ Code.Contained (Own floor e.storage) marks e.code after

variable {floor : Nat} {marks between after : List (Option Nat)}

/-- A step whose code is contained only adds variables. -/
theorem Contained.adds {step : Emit α} (h : ∀ floor, Contained c floor s step marks after) :
    Adds c s step :=
  Ensures.imp (h 0 (Nat.zero_le _)) fun _ => And.left

theorem Contained.pure (a : α) : Contained c floor s (pure a : Emit α) marks marks :=
  fun _ => Ensures.pure ⟨.refl _ _, .of_stays .nil⟩

/-- Steps can be chained where the marks agree. -/
theorem Contained.bind {x : Emit α} {f : α → Emit β} (first : Contained c floor s x marks between)
    (second : ∀ a (s' : Ledger), s.Grows c.module s' → Contained c floor s' (f a) between after) :
    Contained c floor s (x >>= f) marks after := by
  intro reached
  refine Ensures.bind (first reached) fun e ⟨grown, contained⟩ => ?_
  have reached' := Nat.le_trans reached grown.size_le
  refine Ensures.imp (second e.value e.storage grown reached') fun e' ⟨grown', contained'⟩ => ?_
  exact ⟨grown.trans grown', (contained.mono fun _ mine => mine.grows grown').append contained'⟩

/-- Behind a step that only looks something up, the next one writes all the code. -/
theorem Contained.read {x : Emit α} {f : α → Emit β} {P : α → Prop} (first : Reads c s x P)
    (second : ∀ a, P a → Contained c floor s (f a) marks after) :
    Contained c floor s (x >>= f) marks after :=
  fun reached => Ensures.read first fun a found => second a found reached

/-- Of a step that always stops, nothing is asked. -/
theorem Contained.fault {step : Emit α} (h : Ensures c s step fun _ => False) :
    Contained c floor s step marks after :=
  fun _ => Ensures.imp h fun _ => False.elim

/-- Contained code may be written as it stands. -/
theorem code_contained {instrs : List Instr} (h : Code.Contained (Own floor s) marks instrs after) :
    Contained c floor s (code instrs) marks after := by
  intro reached spot e run
  cases run
  exact ⟨.refl _ _, h⟩

theorem code_stays {instrs : List Instr} (h : Code.Stays (Own floor s) marks instrs after) :
    Contained c floor s (code instrs) marks after :=
  code_contained (.of_stays h)

theorem instr_stays {i : Instr} (h : i.Stays (Own floor s) marks after) :
    Contained c floor s (instr i) marks after :=
  code_stays (.singleton h)

theorem load_contained (var : Nat) :
    Contained c floor s (instr (.load var)) marks (none :: marks) :=
  instr_stays (.pushes rfl rfl rfl)

/-- A support routine takes its parameters from the stack. -/
theorem helper_contained (routine : Helper) (popped : List (Option Nat))
    (height : popped.length = routine.signature.params.length) :
    Contained c floor s (helper routine) (popped ++ marks) (none :: marks) :=
  code_contained (.helper routine popped marks height)

/-- Taking a shared variable writes nothing. -/
theorem shared_contained {place : Code.Place} (unframed : place.isFrameField = false)
    (ty : Code.Ty) : Contained c floor s (shared place ty) marks marks := by
  refine fun _ => Ensures.imp (shared_ensures unframed ty) fun e ⟨nothing, grown, _⟩ => ?_
  rw [nothing]
  exact ⟨grown, .of_stays .nil⟩

/-- A new slot is one of the step's own. -/
theorem Contained.slot {f : Nat → Emit α} {origin : Option Nat} (ty : Code.Ty)
    (apart : ∀ id, origin = some id → c.module.instruction? id = none)
    (later : ∀ s' : Ledger, s.Grows c.module s' → Own floor s' s.size →
      Contained c floor s' (f s.size) marks after) :
    Contained c floor s (freshSlot ty origin >>= f) marks after := by
  intro reached
  refine Ensures.bind (freshSlot_ensures ty apart) fun e ⟨nothing, new, grown, there⟩ => ?_
  rw [nothing, new]
  have own : Own floor e.storage s.size := ⟨reached, _, there, rfl⟩
  have reached' := Nat.le_trans reached grown.size_le
  refine Ensures.imp (later e.storage grown own reached') fun e' ⟨grown', contained⟩ => ?_
  exact ⟨grown.trans grown', contained⟩

end Emit

open Emit (Composed Contained Ensures)

variable {c : Context} {floor : Nat}

theorem globalVariable_contained (s : Ledger) (id : Nat) (marks : List (Option Nat)) :
    Contained c floor s (globalVariable id) marks marks := by
  refine .read Emit.module_reads fun _ _ => .read (Emit.required_reads _) fun _ _ => ?_
  exact .read (Emit.lowerType_reads _ _ _) fun _ _ => Emit.shared_contained rfl _

/-- A composed step is contained by the variables that it owns, if pushing a value is. -/
theorem Emit.Composed.contained {α : Type} {push push' : Nat → Emit Unit}
    {pushable own : Nat → Prop} {full : Prop} {x y : Emit α} {marks after : List (Option Nat)}
    (composed : Composed c push push' pushable full own x y marks after)
    (pushes : ∀ value s marks, pushable value →
      Contained c floor s (push value) marks (none :: marks))
    {s : Ledger} (mine : ∀ var, own var → Own floor s var) :
    Contained c floor s x marks after := by
  induction composed generalizing s with
  | pure a => exact .pure _
  | fault stops => exact .fault (stops s)
  | read reads _ ih => exact .read (reads s) fun a found => ih a found mine
  | bind _ _ first later =>
    refine .bind (first mine) fun a s' grown => ?_
    exact later a fun var owned => (mine var owned).grows grown
  | push allowed => exact pushes _ s _ allowed
  | code stays _ => exact Emit.code_stays (stays.mono mine)
  | helper popped height _ => exact Emit.helper_contained _ popped height
  | slot apart _ ih =>
    refine .slot _ apart fun s' grown new => ih _ fun var owned => ?_
    rcases owned with owned | rfl
    · exact (mine var owned).grows grown
    · exact new
  | loadShared unframed =>
    exact .bind (Emit.shared_contained unframed _) fun _ _ _ => Emit.load_contained _
  | addressOfGlobal =>
    refine .bind (globalVariable_contained s _ _) fun _ _ _ => ?_
    exact Emit.instr_stays (.pushes rfl rfl rfl)
  | result _ => exact Emit.load_contained _
  | allocation _ => exact Emit.instr_stays (.pushes rfl rfl rfl)

/-- Pushing a value writes only to slots made meanwhile. -/
theorem pushWithin_contained (depth id : Nat) (s : Ledger) (marks : List (Option Nat)) :
    Contained c floor s (pushWithin depth id) marks (none :: marks) := by
  induction depth generalizing id s marks with
  | zero => exact .fault Ensures.fail
  | succ depth ih =>
    exact (pushWithin_composed depth id (fun _ => False) marks).contained
      (fun part s marks _ => ih part s marks) fun _ => False.elim

theorem push_contained (id : Nat) (s : Ledger) (marks : List (Option Nat)) :
    Contained c floor s (push id) marks (none :: marks) :=
  pushWithin_contained (id + 1) id s marks

theorem pushWithin_adds (depth id : Nat) (s : Ledger) : Emit.Adds c s (pushWithin depth id) :=
  Contained.adds fun _ => pushWithin_contained depth id s []

/-- Pushing a value only adds variables. -/
theorem push_adds (id : Nat) (s : Ledger) : Emit.Adds c s (push id) :=
  pushWithin_adds (id + 1) id s

end Stackwise.Lowering
