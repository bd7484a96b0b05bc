import Stackwise.Lowering.Body
import Stackwise.Proofs.Lowering.Steps

/-!
# Variables of instructions

Before the first line of code is written, every instruction of a function gets its variable: storage
for an allocation, a place for the exception of a pad, a slot for any other result.  Two maps lead
from the instructions to them (`Homes`).

`Allocates` says what this does for one instruction, to the table and to the maps, and
`allocateAll_ensures` carries a property along all of them.  There are results for exactly the
instructions that have a value (`HasResults`), and the maps lead to variables of the table that were
made for the instruction and live where they should (`Housed`).  The table only grows from then on,
and the maps stay as they are.
-/

namespace Stackwise.Lowering

open Code (Storage Variable)
open Source (Function Instruction Module Opcode)

/-- Whether an instruction of this kind gets a variable exactly if it has a value.  An allocation
always gets one, a pad gets one for the exception, a choice between handlers gets none. -/
def isPlain : Opcode → Bool
  | .alloca _ | .catchSwitch _ | .catchPad | .cleanupPad => false
  | _ => true

/-- Whether an operation takes the exception in flight into a variable of its own. -/
def isPad : Opcode → Bool
  | .catchPad | .cleanupPad => true
  | _ => false

/-- What is in the body of a function is an instruction. -/
theorem instruction?_of_mem_bodyOf {m : Module} {f : Function} {id : Nat} {i : Instruction}
    (mem : (id, i) ∈ m.bodyOf f) : m.instruction? id = some i := by
  obtain ⟨b, -, inside⟩ := List.mem_flatMap.1 mem
  obtain ⟨id', -, found⟩ := List.mem_filterMap.1 inside
  obtain ⟨i', isInstruction, same⟩ := Option.map_eq_some_iff.1 found
  cases same
  exact isInstruction

variable {c : Context} {id : Nat} {i : Instruction} {homes homes' : Homes} {s s' : Ledger}

/-! ## One instruction -/

/-- What making the variable for an instruction does: nothing, if the instruction has no value, or
one variable more, and an entry that leads to it. -/
inductive Allocates (c : Context) (id : Nat) (i : Instruction) (homes : Homes) (s : Ledger) :
    Homes → Ledger → Prop
  | nothing (void : isPlain i.opcode = true → ∀ ty, c.module.typeOf? id = some ty →
      c.module.types.isVoid ty = true) : Allocates c id i homes s homes s
  | frameField {allocated : Nat} (ty : Code.Ty) (isAlloca : i.opcode = .alloca allocated)
      (framed : c.needsFrame = true) :
    Allocates c id i homes s (homes.addAllocation id s.size) (s.addFrameField ty (some id)).2
  | slot {allocated : Nat} (ty : Code.Ty) (isAlloca : i.opcode = .alloca allocated) :
    Allocates c id i homes s (homes.addAllocation id s.size) (s.addSlot ty (some id)).2
  | pad (pads : isPad i.opcode = true) :
    Allocates c id i homes s (homes.addResult id s.size) (s.addPinned .exceptionInfo (some id)).2
  | result (ty : Code.Ty) (plain : isPlain i.opcode = true)
      (solid : ∀ ty, c.module.typeOf? id = some ty → c.module.types.isVoid ty = false) :
    Allocates c id i homes s (homes.addResult id s.size) (s.addSlot ty (some id)).2

theorem allocatedType_reads (s : Ledger) (id allocated : Nat) (i : Instruction) :
    Emit.Reads c s (allocatedType id allocated i) fun _ => True := by
  have sized (base : Code.Ty) (count : Int) : Emit.Reads c s (if count = 1 then return base
      else if Word.isUnsigned 64 count then return .inlineArray base count.toNat
      else Emit.unsupported "alloca" .allocationCount id) fun _ => True := by
    split
    · exact Emit.Ensures.pure ⟨rfl, rfl, trivial⟩
    · split
      · exact Emit.Ensures.pure ⟨rfl, rfl, trivial⟩
      · exact Emit.unsupported_ensures _ _ _
  refine .read (Emit.lowerType_reads _ _ _) fun base _ => ?_
  split
  · exact .read (Emit.Reads.pure _) fun count _ => sized base count
  · refine .read (Emit.sourceValue_reads _) fun _ _ => ?_
    exact .read (Emit.supported_reads _ _ _ _) fun count _ => sized base count

/-- A step that adds a variable and enters its number. -/
theorem enter_ensures {add : Ledger → Nat × Ledger} {enter : Nat → Homes}
    {Q : Homes → Ledger → Prop} (made : Q (enter (add s).1) (add s).2) :
    Emit.Ensures c s (do return enter (← Emit.fresh add)) fun e =>
      e.code = [] ∧ Q e.value e.storage := by
  intro spot e run
  cases run
  exact ⟨rfl, made⟩

/-- Making the variables of an instruction writes nothing, and adds them to the maps. -/
theorem allocate_ensures (homes : Homes) (s : Ledger) (id : Nat) (i : Instruction) :
    Emit.Ensures c s (allocate homes id i) fun e =>
      e.code = [] ∧ Allocates c id i homes s e.value e.storage := by
  unfold allocate
  cases opcode : i.opcode with
  | alloca allocated =>
    refine .read (allocatedType_reads _ _ _ _) fun ty _ => ?_
    refine .read Emit.context_reads fun _ same => ?_
    rw [same]
    cases framed : c.needsFrame with
    | false => exact enter_ensures (.slot ty opcode)
    | true => exact enter_ensures (.frameField ty opcode framed)
  | catchSwitch hasUnwind =>
    refine .pure ⟨rfl, .nothing fun plain => ?_⟩
    rw [opcode] at plain
    cases plain
  | catchPad | cleanupPad => exact enter_ensures (.pad (by rw [opcode]; rfl))
  | _ =>
    refine .read (Emit.typeOf_reads _) fun ty typed => ?_
    refine .read Emit.module_reads fun _ same => ?_
    rw [same]
    split
    · rename_i void
      refine .pure ⟨rfl, .nothing fun _ ty' typed' => ?_⟩
      cases typed.symm.trans typed'
      exact void
    · rename_i solid
      refine .read (Emit.lowerType_reads _ _ _) fun lowered _ => ?_
      refine enter_ensures (.result lowered (by rw [opcode]; rfl) fun ty' typed' => ?_)
      cases typed.symm.trans typed'
      exact Bool.eq_false_iff.2 solid

/-! ## All instructions -/

/-- What holds at first, and is kept by making the variable of each instruction, holds of all.  The
property may speak of the instructions `done` so far. -/
theorem allocateAll_ensures {P : List (Nat × Instruction) → Homes → Ledger → Prop}
    {code : List (Nat × Instruction)}
    (step : ∀ {done : List (Nat × Instruction)} {id : Nat} {i : Instruction} {homes homes' : Homes}
      {s s' : Ledger}, (id, i) ∈ code → P done homes s → Allocates c id i homes s homes' s' →
        P (done ++ [(id, i)]) homes' s')
    (done : List (Nat × Instruction)) (start : P done homes s) :
    Emit.Ensures c s (allocateAll homes code) fun e =>
      e.code = [] ∧ P (done ++ code) e.value e.storage := by
  induction code generalizing done homes s with
  | nil => exact .pure ⟨rfl, (List.append_nil done).symm ▸ start⟩
  | cons first rest ih =>
    refine .bind (allocate_ensures homes s first.1 first.2) fun e ⟨nothing, allocates⟩ => ?_
    have next := step List.mem_cons_self start allocates
    refine .imp (ih (fun mem => step (List.mem_cons_of_mem _ mem)) _ next) ?_
    rintro e' ⟨nothing', holds⟩
    rw [List.append_assoc] at holds
    exact ⟨by rw [nothing, nothing']; rfl, holds⟩

/-! ## Results -/

/-- There are results for the plain instructions of a function that have a value, and for no
others. -/
def HasResults (m : Module) (f : Function) (homes : Homes) : Prop :=
  ∀ ⦃id : Nat⦄ ⦃i : Instruction⦄, (id, i) ∈ m.bodyOf f → isPlain i.opcode = true →
    ∀ ⦃ty : Nat⦄, m.typeOf? id = some ty →
      ((homes.results.find? id).isSome = true ↔ m.types.isVoid ty = false)

/-- A result that is added is found, and so are those that were found before. -/
theorem isSome_find?_addResult (homes : Homes) (id made var : Nat) :
    ((homes.addResult made var).results.find? id).isSome = true ↔
      (homes.results.find? id).isSome = true ∨ id = made := by
  rw [Homes.addResult, Lookup.find?_insert]
  by_cases same : id = made <;> simp [same]

/-- Which plain instructions have a result, before and after. -/
theorem Allocates.hasResult_iff (h : Allocates c id i homes s homes' s')
    (isInstruction : c.module.instruction? id = some i) {id' ty : Nat} {i' : Instruction}
    (isInstruction' : c.module.instruction? id' = some i') (plain : isPlain i'.opcode = true)
    (typed : c.module.typeOf? id' = some ty) :
    (homes'.results.find? id').isSome = true ↔ (homes.results.find? id').isSome = true ∨
      (id', i') = (id, i) ∧ c.module.types.isVoid ty = false := by
  have same_of_eq (same : id' = id) : i' = i := by
    subst same
    exact Option.some.inj (isInstruction'.symm.trans isInstruction)
  -- Unless the two instructions are one, nothing changes.
  have other (apart : ¬ (id' = id ∧ i' = i)) :
      (homes.results.find? id').isSome = true ↔ (homes.results.find? id').isSome = true ∨
        (id', i') = (id, i) ∧ c.module.types.isVoid ty = false := by
    simp [apart]
  cases h with
  | nothing void =>
    by_cases same : id' = id
    · obtain rfl := same_of_eq same
      subst same
      simp [void plain ty typed]
    · exact other fun both => same both.1
  | frameField _ isAlloca _ | slot _ isAlloca =>
    refine other fun ⟨_, same⟩ => ?_
    rw [same, isAlloca] at plain
    cases plain
  | pad pads =>
    rw [isSome_find?_addResult]
    refine or_congr_right ⟨fun same => ?_, fun ⟨same, _⟩ => congrArg Prod.fst same⟩
    rw [← same_of_eq same] at pads
    cases opcode : i'.opcode <;> simp [opcode, isPad, isPlain] at pads plain
  | result _ _ solid =>
    rw [isSome_find?_addResult]
    refine or_congr_right ⟨fun same => ?_, fun ⟨same, _⟩ => congrArg Prod.fst same⟩
    obtain rfl := same_of_eq same
    subst same
    exact ⟨rfl, solid ty typed⟩

/-- When all variables are made, there are results for the instructions that have a value. -/
theorem allocated_hasResults (f : Function) :
    Emit.Ensures c s (allocateAll {} (c.module.bodyOf f)) fun e =>
      e.code = [] ∧ HasResults c.module f e.value := by
  let P (done : List (Nat × Instruction)) (homes : Homes) (_ : Ledger) : Prop :=
    ∀ ⦃id i ty⦄, c.module.instruction? id = some i → isPlain i.opcode = true →
      c.module.typeOf? id = some ty → ((homes.results.find? id).isSome = true ↔
        (id, i) ∈ done ∧ c.module.types.isVoid ty = false)
  have start : P [] {} s := fun id i ty _ _ _ => by simp
  refine .imp (allocateAll_ensures (P := P) ?_ [] start) fun e ⟨nothing, made⟩ => ⟨nothing, ?_⟩
  · intro done id i homes homes' s s' mem before allocates id' i' ty isInstruction plain typed
    rw [allocates.hasResult_iff (instruction?_of_mem_bodyOf mem) isInstruction plain typed,
      before isInstruction plain typed, List.mem_append, List.mem_singleton, or_and_right]
  · intro id i mem plain ty typed
    rw [made (instruction?_of_mem_bodyOf mem) plain typed]
    simp [mem]

/-! ## Where variables live -/

/-- Variables of instructions are slots or frame fields, those of pads are slots for exceptions. -/
def Homed (m : Module) (s : Storage) : Prop :=
  ∀ v ∈ s.entries, ∀ id i, v.origin = some id → m.instruction? id = some i →
    (v.place = .slot ∨ v.isDurable = true) ∧
      (isPad i.opcode = true → v.place = .slot ∧ v.ty = .exceptionInfo)

theorem homed_empty (m : Module) : Homed m {} := fun v mem => absurd mem (Array.not_mem_empty v)

/-- The maps lead to variables made for the instruction: slots for results, and storage for
allocations only. -/
structure Housed (m : Module) (homes : Homes) (s : Storage) : Prop where
  homed : Homed m s
  result : ∀ ⦃id var : Nat⦄, homes.results.find? id = some var →
    ∃ v, s.get? var = some v ∧ v.origin = some id ∧ v.place = .slot
  allocation : ∀ ⦃id var : Nat⦄, homes.allocations.find? id = some var →
    (∃ v, s.get? var = some v ∧ v.origin = some id) ∧
      ∃ i allocated, m.instruction? id = some i ∧ i.opcode = .alloca allocated

theorem housed_empty (m : Module) : Housed m {} {} where
  homed := homed_empty m
  result _ _ found := by cases found
  allocation _ _ found := by cases found

section Housed

variable {m : Module} {s s' : Storage}

/-- Incidental variables belong to no instruction. -/
theorem Homed.grows (h : Homed m s) (grown : s.Grows m s') : Homed m s' := by
  obtain ⟨added, same, incidental, -⟩ := grown
  intro v mem id i origin isInstruction
  rw [same] at mem
  rcases Array.mem_append.1 mem with old | new
  · exact h v old id i origin isInstruction
  · rw [(incidental v new).origin id origin] at isInstruction
    cases isInstruction

/-- The maps stay true when the table grows. -/
theorem Housed.grows (h : Housed m homes s) (grown : s.Grows m s') : Housed m homes s' where
  homed := h.homed.grows grown
  result id var found := by
    obtain ⟨v, there, made⟩ := h.result found
    exact ⟨v, grown.get?_eq_some there, made⟩
  allocation id var found := by
    obtain ⟨⟨v, there, origin⟩, isAlloca⟩ := h.allocation found
    exact ⟨⟨v, grown.get?_eq_some there, origin⟩, isAlloca⟩

/-- Different instructions have different results. -/
theorem Housed.result_injective (h : Housed m homes s) {id id' var : Nat}
    (found : homes.results.find? id = some var) (found' : homes.results.find? id' = some var) :
    id = id' := by
  obtain ⟨v, there, origin, -⟩ := h.result found
  obtain ⟨v', there', origin', -⟩ := h.result found'
  cases there.symm.trans there'
  exact Option.some.inj (origin.symm.trans origin')

/-- A new variable for an instruction is at home, if it lives where it should. -/
theorem Homed.push (h : Homed m s) (s' : Storage) {v : Variable}
    (entries : s'.entries = s.entries.push v) (isInstruction : m.instruction? id = some i)
    (origin : v.origin = some id)
    (home : v.place = .slot ∨ v.isDurable = true)
    (slot : isPad i.opcode = true → v.place = .slot ∧ v.ty = .exceptionInfo) : Homed m s' := by
  intro u mem id' i' origin' isInstruction'
  rw [entries] at mem
  rcases Array.mem_push.1 mem with old | rfl
  · exact h u old id' i' origin' isInstruction'
  · cases origin.symm.trans origin'
    cases isInstruction.symm.trans isInstruction'
    exact ⟨home, slot⟩

end Housed

section Push

variable {m : Module} {s s' : Storage} {v : Variable}

theorem get?_of_entries_eq_push (entries : s'.entries = s.entries.push v) :
    s'.get? s.size = some v ∧ ∀ {var w}, s.get? var = some w → s'.get? var = some w := by
  have made : ∀ var, s'.get? var = (s.push v).2.get? var := fun var => by
    rw [Storage.get?, entries]
    rfl
  exact ⟨(made _).trans (Storage.get?_push_self s v), fun there =>
    (made _).trans (Storage.get?_push there)⟩

/-- A slot that is added for a result may be entered into the map of results. -/
theorem Housed.addResult (h : Housed m homes s) (entries : s'.entries = s.entries.push v)
    (homed : Homed m s') (origin : v.origin = some id) (slot : v.place = .slot) :
    Housed m (homes.addResult id s.size) s' where
  homed := homed
  result id' var found := by
    obtain ⟨new, old⟩ := get?_of_entries_eq_push entries
    rw [Homes.addResult, Lookup.find?_insert] at found
    split at found
    next same =>
      cases found
      exact ⟨v, new, same ▸ origin, slot⟩
    next =>
      obtain ⟨w, there, made⟩ := h.result found
      exact ⟨w, old there, made⟩
  allocation id' var found := by
    obtain ⟨⟨w, there, origin⟩, isAlloca⟩ := h.allocation found
    exact ⟨⟨w, (get?_of_entries_eq_push entries).2 there, origin⟩, isAlloca⟩

/-- A variable that is added for a local variable may be entered into the map of allocations. -/
theorem Housed.addAllocation {allocated : Nat} (h : Housed m homes s)
    (entries : s'.entries = s.entries.push v) (homed : Homed m s') (origin : v.origin = some id)
    (isInstruction : m.instruction? id = some i) (isAlloca : i.opcode = .alloca allocated) :
    Housed m (homes.addAllocation id s.size) s' where
  homed := homed
  result id' var found := by
    obtain ⟨w, there, made⟩ := h.result found
    exact ⟨w, (get?_of_entries_eq_push entries).2 there, made⟩
  allocation id' var found := by
    obtain ⟨new, old⟩ := get?_of_entries_eq_push entries
    rw [Homes.addAllocation, Lookup.find?_insert] at found
    split at found
    next same =>
      cases found
      subst same
      exact ⟨⟨v, new, origin⟩, i, allocated, isInstruction, isAlloca⟩
    next =>
      obtain ⟨⟨w, there, made⟩, isAlloca'⟩ := h.allocation found
      exact ⟨⟨w, old there, made⟩, isAlloca'⟩

end Push

/-- Making the variables of an instruction keeps the maps true. -/
theorem Allocates.housed (h : Allocates c id i homes s homes' s')
    (isInstruction : c.module.instruction? id = some i) (housed : Housed c.module homes s) :
    Housed c.module homes' s' := by
  cases h with
  | nothing => exact housed
  | frameField ty isAlloca framed =>
    have homed := housed.homed.push (s.addFrameField ty (some id)).2 rfl isInstruction rfl
      (.inr rfl) fun pads => by rw [isAlloca] at pads; cases pads
    exact housed.addAllocation rfl homed rfl isInstruction isAlloca
  | slot ty isAlloca =>
    have homed := housed.homed.push (s.addSlot ty (some id)).2 rfl isInstruction rfl
      (.inl rfl) fun pads => by rw [isAlloca] at pads; cases pads
    exact housed.addAllocation rfl homed rfl isInstruction isAlloca
  | pad pads =>
    have homed := housed.homed.push (s.addPinned .exceptionInfo (some id)).2 rfl
      isInstruction rfl (.inl rfl) fun _ => ⟨rfl, rfl⟩
    exact housed.addResult rfl homed rfl rfl
  | result ty plain solid =>
    have homed := housed.homed.push (s.addSlot ty (some id)).2 rfl isInstruction rfl
      (.inl rfl) fun pads => by
        cases opcode : i.opcode <;> simp [opcode, isPad, isPlain] at pads plain
    exact housed.addResult rfl homed rfl rfl

/-- The variables of a body are at home when they are all made. -/
theorem allocated_housed (f : Function) :
    Emit.Ensures c .empty (allocateAll {} (c.module.bodyOf f)) fun e =>
      e.code = [] ∧ Housed c.module e.value e.storage :=
  allocateAll_ensures (P := fun _ homes s => Housed c.module homes s)
    (fun mem housed allocates => allocates.housed (instruction?_of_mem_bodyOf mem) housed) []
    (housed_empty c.module)

end Stackwise.Lowering
