import Stackwise.Lowering.Emit
import Stackwise.Proofs.Code.Height

/-!
# Reasoning about straight-line steps

A step of `Emit` gives a value, new variables and code, or a fault.  `Emit.Ensures` says what holds
of all that it leaves behind when it does not fault; its rules follow the way steps are written, so
that a proof about a step reads like the step.

* `Emit.Reads` is for the many steps that only look something up.  They change nothing, so they can
  be passed under every judgement (`Ensures.read`).
* `Emit.Climbs` is for steps that write straight-line code: it gives the heights between which the
  code climbs, and says that variables are only added (`Storage.Grows`).
* `Emit.Writes` says what holds of the code of a step once the table of variables is finished.

Variables are never made for an instruction on the way: those exist before the first line of code,
and the maps that find them are a part of the context.
-/

namespace Stackwise

open Source (Module)

/-- Looking up every member of a list succeeds exactly if each look-up does. -/
theorem mapM_eq_some_iff {α β : Type} {f : α → Option β} {l : List α} {l' : List β} :
    l.mapM f = some l' ↔ l.map f = l'.map some := by
  induction l generalizing l' with
  | nil => cases l' <;> simp
  | cons a l ih =>
    rw [List.mapM_cons]
    cases l' with
    | nil => cases f a <;> cases l.mapM f <;> simp
    | cons b l' =>
      cases found : f a with
      | none => simp [found]
      | some b' =>
        simp only [Option.bind_eq_bind, Option.bind_some, Option.bind_eq_some_iff, Option.pure_def,
          Option.some.injEq, List.cons.injEq, List.map_cons, found, ← ih]
        constructor
        · rintro ⟨rest, later, rfl, rfl⟩
          exact ⟨rfl, later⟩
        · rintro ⟨rfl, later⟩
          exact ⟨l', later, rfl, rfl⟩

namespace Code

/-- Whether a place is a field of the heap frame. -/
def Place.isFrameField : Place → Bool
  | .frameField _ => true
  | _ => false

/-- The variable may be used as its place allows; a slot may be kept from the peephole rules. -/
def Variable.Furnished (v : Variable) : Prop :=
  v.access = v.place.access ∨ v.place = .slot ∧ v.access = .pinned

/-- A variable that comes up while code is written: no instruction's, and no frame field. -/
structure Variable.Incidental (m : Module) (v : Variable) : Prop where
  origin : ∀ id, v.origin = some id → m.instruction? id = none
  furnished : v.Furnished
  unframed : v.isDurable = false

namespace Storage

/-- The second table continues the first with incidental variables. -/
def Grows (m : Module) (before after : Storage) : Prop :=
  ∃ added : Array Variable, after.entries = before.entries ++ added ∧
    (∀ v ∈ added, v.Incidental m) ∧ after.frameSlots = before.frameSlots

variable {m : Module} {first second third : Storage}

theorem Grows.refl (m : Module) (s : Storage) : Grows m s s :=
  ⟨#[], by simp, by simp, rfl⟩

/-- Growing twice is growing. -/
theorem Grows.trans (h : Grows m first second) (h' : Grows m second third) :
    Grows m first third := by
  obtain ⟨added, same, incidental, slots⟩ := h
  obtain ⟨more, same', incidental', slots'⟩ := h'
  refine ⟨added ++ more, by rw [same', same, Array.append_assoc], ?_, slots'.trans slots⟩
  intro v mem
  rcases Array.mem_append.1 mem with here | there
  · exact incidental v here
  · exact incidental' v there

/-- A table grows by an incidental variable at its end. -/
theorem Grows.push (m : Module) (s : Storage) (v : Variable) (incidental : v.Incidental m) :
    Grows m s (s.push v).2 := by
  refine ⟨#[v], by simp [Storage.push], ?_, rfl⟩
  simpa using incidental

/-- No variable goes away. -/
theorem Grows.size_le (h : Grows m first second) : first.size ≤ second.size := by
  obtain ⟨added, same, -, -⟩ := h
  rw [Storage.size, Storage.size, same, Array.size_append]
  exact Nat.le_add_right _ _

/-- A variable keeps its number. -/
theorem Grows.get?_eq_some (h : Grows m first second) {id : Nat} {v : Variable}
    (found : first.get? id = some v) : second.get? id = some v := by
  obtain ⟨added, same, -, -⟩ := h
  obtain ⟨inside, -⟩ := Array.getElem?_eq_some_iff.1 found
  rw [Storage.get?, same, Array.getElem?_append_left inside]
  exact found

end Storage

end Code

namespace Lowering

open Code (Constant Instr Place Storage climb)

namespace Emit

variable {α β : Type} {c : Context} {s : Ledger}

/-- A chain of two steps succeeds if both do: the second one starts behind the code of the first and
in the table that the first leaves, and the code of both is joined. -/
theorem bind_eq_ok {x : Emit α} {f : α → Emit β} {spot : Spot} {e : Emitted β} :
    (x >>= f) c spot s = .ok e ↔
      ∃ first, x c spot s = .ok first ∧
        ∃ second, f first.value c { spot with position := spot.position + first.code.length }
            first.storage = .ok second ∧
          e = ⟨second.value, second.storage, first.code ++ second.code⟩ := by
  show Emit.bind x f c spot s = .ok e ↔ _
  unfold Emit.bind
  cases x c spot s with
  | error fault => simp
  | ok first =>
    simp only [Except.ok.injEq, exists_eq_left']
    cases f first.value c { spot with position := spot.position + first.code.length }
      first.storage with
    | error fault => simp
    | ok second => simp [eq_comm]

/-- What holds of all that a step leaves behind, in a context and from given variables, unless it
stops with a fault. -/
def Ensures (c : Context) (s : Ledger) (step : Emit α) (Q : Emitted α → Prop) : Prop :=
  ∀ ⦃spot : Spot⦄ ⦃e : Emitted α⦄, step c spot s = .ok e → Q e

/-- A step that only looks something up: it writes nothing, takes no variable, and what it finds has
a property. -/
def Reads (c : Context) (s : Ledger) (step : Emit α) (P : α → Prop) : Prop :=
  Ensures c s step fun e => e.code = [] ∧ e.storage = s ∧ P e.value

/-! ## Rules -/

theorem Ensures.imp {step : Emit α} {Q R : Emitted α → Prop} (h : Ensures c s step Q)
    (imp : ∀ e, Q e → R e) : Ensures c s step R :=
  fun _ e run => imp e (h run)

theorem Ensures.pure {Q : Emitted α → Prop} {a : α} (h : Q ⟨a, s, []⟩) :
    Ensures c s (pure a : Emit α) Q := by
  intro spot e run
  cases run
  exact h

/-- A step that stops leaves nothing behind that something could be false of. -/
theorem Ensures.fail {Q : Emitted α → Prop} {fault : Fault} :
    Ensures c s (fail fault : Emit α) Q := by
  intro spot e run
  cases run

/-- The second step may rely on what the first one ensures; the code of the first stands in front.
-/
theorem Ensures.bind {x : Emit α} {f : α → Emit β} {P : Emitted α → Prop}
    {Q : Emitted β → Prop} (first : Ensures c s x P)
    (second : ∀ e, P e →
      Ensures c e.storage (f e.value) fun e' => Q ⟨e'.value, e'.storage, e.code ++ e'.code⟩) :
    Ensures c s (x >>= f) Q := by
  intro spot e run
  obtain ⟨e₁, run₁, e₂, run₂, rfl⟩ := bind_eq_ok.1 run
  exact second e₁ (first run₁) run₂

/-- Behind a step that only looks something up, code and variables are the same as before it. -/
theorem Ensures.read {x : Emit α} {f : α → Emit β} {P : α → Prop} {Q : Emitted β → Prop}
    (first : Reads c s x P) (second : ∀ a, P a → Ensures c s (f a) Q) :
    Ensures c s (x >>= f) Q := by
  refine Ensures.bind first ?_
  rintro ⟨a, s', code⟩ ⟨rfl, rfl, found⟩
  exact second a found

theorem Reads.imp {step : Emit α} {P P' : α → Prop} (h : Reads c s step P)
    (imp : ∀ a, P a → P' a) : Reads c s step P' :=
  Ensures.imp h fun _ found => ⟨found.1, found.2.1, imp _ found.2.2⟩

theorem Reads.pure (a : α) : Reads c s (pure a : Emit α) (· = a) :=
  Ensures.pure ⟨rfl, rfl, rfl⟩

/-! ## Looking things up -/

theorem context_reads : Reads c s context (· = c) := by
  intro spot e run
  cases run
  exact ⟨rfl, rfl, rfl⟩

theorem spot_reads : Reads c s spot fun _ => True := by
  intro spot e run
  cases run
  exact ⟨rfl, rfl, trivial⟩

theorem ledger_reads : Reads c s ledger (· = s) := by
  intro spot e run
  cases run
  exact ⟨rfl, rfl, rfl⟩

theorem module_reads : Reads c s module (· = c.module) :=
  .read context_reads fun _ same => same ▸ Reads.pure _

/-- What is required is found, or the step stops. -/
theorem required_reads (a? : Option α) : Reads c s (required a?) (a? = some ·) := by
  cases a? with
  | none => exact Ensures.fail
  | some a => exact Ensures.pure ⟨rfl, rfl, rfl⟩

/-- The value that a number stands for in the module. -/
theorem sourceValue_reads (id : Nat) :
    Reads c s (sourceValue id) (c.module.value? id = some ·) :=
  .read module_reads fun _ same => same ▸ required_reads _

/-- The type of a value of the module. -/
theorem typeOf_reads (id : Nat) : Reads c s (typeOf id) (c.module.typeOf? id = some ·) :=
  .read (sourceValue_reads id) fun v found =>
    Ensures.pure ⟨rfl, rfl, by rw [Module.typeOf?, found, Option.map_some]⟩

/-- A step that stops at an unsupported construct leaves nothing behind. -/
theorem unsupported_ensures {Q : Emitted α → Prop} (site : String) (construct : Construct)
    (value : Nat) : Ensures c s (unsupported site construct value : Emit α) Q :=
  .read module_reads fun _ _ => Ensures.fail

theorem breachAt_ensures {Q : Emitted α → Prop} (spot : Spot) (breach : Breach) :
    Ensures c s (breachAt spot breach : Emit α) Q :=
  .read context_reads fun _ _ => Ensures.fail

theorem breach_ensures {Q : Emitted α → Prop} (broken : String → Breach) (value : Nat) :
    Ensures c s (breach broken value : Emit α) Q :=
  .read spot_reads fun spot _ => .read module_reads fun _ _ => breachAt_ensures spot _

/-- The operand at a position, as `operation` reads it: the step stops if it is missing. -/
def operandAt (start : Spot) (operands : List Nat) (index : Nat) (broken : Breach) : Emit Nat :=
  match operands[index]? with
  | some value => pure value
  | none => breachAt start broken

/-- The operand at a position is found, or the step stops. -/
theorem operandAt_reads (start : Spot) (operands : List Nat) (index : Nat) (broken : Breach) :
    Reads c s (operandAt start operands index broken) (operands[index]? = some ·) := by
  unfold operandAt
  cases operands[index]? with
  | none => exact breachAt_ensures start broken
  | some value => exact Ensures.pure ⟨rfl, rfl, rfl⟩

/-- What the oracle supports is its answer. -/
theorem supported_reads (answer : Option α) (site : String) (construct : Construct)
    (value : Nat) : Reads c s (supported answer site construct value) (answer = some ·) := by
  cases answer with
  | none => exact unsupported_ensures site construct value
  | some a => exact Ensures.pure ⟨rfl, rfl, rfl⟩

/-- The type that the oracle lowers a type to. -/
theorem lowerType_reads (ty value : Nat) (site : String) :
    Reads c s (lowerType ty value site) (c.conventions.lowerType c.module ty = some ·) :=
  .read context_reads fun _ same => same ▸ supported_reads _ site .ty value

/-- The size that the oracle gives for a type.  The step stops only where its computation does. -/
theorem sizeOf_reads (ty : Nat) :
    Reads c s (sizeOf ty) (c.conventions.sizeOf c.module ty = .ok ·) := by
  refine .read context_reads fun _ same => ?_
  rw [same]
  dsimp only
  split
  next size answer => exact Ensures.pure ⟨rfl, rfl, answer⟩
  next => exact Ensures.fail

/-- The variable that holds the result of an instruction is the one in the map of results. -/
theorem resultOf_reads (value : Nat) :
    Reads c s (resultOf value) (c.homes.results.find? value = some ·) := by
  refine .read context_reads fun _ same => ?_
  rw [same]
  cases c.homes.results.find? value with
  | none => exact breach_ensures _ value
  | some id => exact Ensures.pure ⟨rfl, rfl, rfl⟩

/-! ## Writing straight-line code -/

/-- A step that writes straight-line code between two heights, and makes no variable for an
instruction. -/
def Climbs (c : Context) (s : Ledger) (step : Emit α) (low high : Nat) : Prop :=
  Ensures c s step fun e => climb low e.code = some high ∧ s.Grows c.module e.storage

theorem Climbs.pure (a : α) (height : Nat) : Climbs c s (pure a : Emit α) height height :=
  Ensures.pure ⟨rfl, .refl _ _⟩

/-- Steps can be chained where the height that the first leaves is the one that the second starts
from. -/
theorem Climbs.bind {x : Emit α} {f : α → Emit β} {low middle high : Nat}
    (first : Climbs c s x low middle)
    (second : ∀ a (s' : Ledger), s.Grows c.module s' → Climbs c s' (f a) middle high) :
    Climbs c s (x >>= f) low high := by
  refine Ensures.bind first fun e ⟨below, grown⟩ => ?_
  exact Ensures.imp (second e.value e.storage grown) fun e' ⟨above, grown'⟩ =>
    ⟨Code.climb_append below above, grown.trans grown'⟩

/-- Straight-line steps do not see the values below. -/
theorem Climbs.add {step : Emit α} {low high : Nat} (h : Climbs c s step low high)
    (below : Nat) : Climbs c s step (below + low) (below + high) :=
  Ensures.imp h fun _ ⟨climbs, grown⟩ => ⟨Code.climb_add below climbs, grown⟩

/-- Straight-line code written as it is climbs as it climbs on its own. -/
theorem code_climbs {instrs : List Instr} {low : Nat} (high : Nat)
    (h : climb low instrs = some high) :
    Climbs c s (code instrs) low high := by
  intro spot e run
  cases run
  exact ⟨h, .refl _ _⟩

theorem instr_climbs {i : Instr} {low : Nat} (high : Nat) (h : climb low [i] = some high) :
    Climbs c s (instr i) low high :=
  code_climbs high h

/-- A new variable is the last one. -/
theorem fresh_ensures {v : Code.Variable} {add : Ledger → Nat × Ledger}
    (number : (add s).1 = s.size) (adds : (add s).2.toStorage = (s.toStorage.push v).2)
    (incidental : v.Incidental c.module) :
    Ensures c s (fresh add) fun e => e.code = [] ∧ e.value = s.size ∧
      s.Grows c.module e.storage ∧ e.storage.get? s.size = some v := by
  intro spot e run
  cases run
  rw [adds]
  exact ⟨rfl, number, .push _ _ _ incidental, Storage.get?_push_self _ _⟩

/-- Taking a new variable writes nothing. -/
theorem fresh_climbs {add : Ledger → Nat × Ledger} (height : Nat)
    (h : s.Grows c.module (add s).2) : Climbs c s (fresh add) height height := by
  intro spot e run
  cases run
  exact ⟨rfl, h⟩

/-- Taking a new slot that belongs to no instruction writes nothing. -/
theorem freshSlot_climbs {origin : Option Nat} (ty : Code.Ty) (height : Nat)
    (h : ∀ id, origin = some id → c.module.instruction? id = none) :
    Climbs c s (freshSlot ty origin) height height :=
  fresh_climbs height (.push _ _ _ ⟨h, .inl rfl, rfl⟩)

/-- A slot that is kept from the peephole rules is taken in the same way. -/
theorem freshPinned_climbs {origin : Option Nat} (ty : Code.Ty) (height : Nat)
    (h : ∀ id, origin = some id → c.module.instruction? id = none) :
    Climbs c s (freshPinned ty origin) height height :=
  fresh_climbs height (.push _ _ _ ⟨h, .inr ⟨rfl, rfl⟩, rfl⟩)

/-- What is made at the first mention of a place that is no frame field. -/
theorem incidental_shared {place : Place} (unframed : place.isFrameField = false) (ty : Code.Ty) :
    Code.Variable.Incidental c.module ⟨place, ty, place.access, none⟩ where
  origin _ made := by cases made
  furnished := .inl rfl
  unframed := by
    cases place with
    | frameField => cases unframed
    | _ => rfl

/-- A variable that is shared is taken from the table or added to it, and nothing is written. -/
theorem shared_climbs {place : Place} (unframed : place.isFrameField = false) (ty : Code.Ty)
    (height : Nat) : Climbs c s (shared place ty) height height := by
  refine .read ledger_reads fun _ _ => ?_
  split
  · exact Climbs.pure _ height
  · exact fresh_climbs height (.push _ _ _ (incidental_shared unframed ty))

/-- A constant is pushed. -/
theorem constant_climbs (value : Constant) (ty : Code.Ty) (height : Nat) :
    Climbs c s (constant value ty) height (height + 1) :=
  Climbs.bind (shared_climbs rfl ty height) fun _ _ _ => instr_climbs _ rfl

/-! ## Code in the finished table -/

/-- A step that makes no variable for an instruction, and whose code has a property once all
variables are made. -/
def Writes (c : Context) (s : Ledger) (step : Emit α) (Q : Storage → List Instr → Prop) : Prop :=
  Ensures c s step fun e => s.Grows c.module e.storage ∧
    ∀ final : Storage, e.storage.Grows c.module final → Q final e.code

/-- What is written may be described less precisely, in every table that grows from the one before.
-/
theorem Writes.imp {step : Emit α} {Q R : Storage → List Instr → Prop} (h : Writes c s step Q)
    (imp : ∀ final code, s.Grows c.module final → Q final code → R final code) :
    Writes c s step R := by
  refine Ensures.imp h fun e ⟨grown, holds⟩ => ⟨grown, fun final later => ?_⟩
  exact imp final e.code (grown.trans later) (holds final later)

theorem Writes.pure {Q : Storage → List Instr → Prop} {a : α}
    (h : ∀ final, s.Grows c.module final → Q final []) : Writes c s (pure a : Emit α) Q :=
  Ensures.pure ⟨.refl _ _, h⟩

/-- What the codes of two steps have makes up what their code has as a whole. -/
theorem Writes.bind {x : Emit α} {f : α → Emit β} {P Q R : Storage → List Instr → Prop}
    (first : Writes c s x P) (second : ∀ a (s' : Ledger), s.Grows c.module s' → Writes c s' (f a) Q)
    (join : ∀ final code code', s.Grows c.module final → P final code → Q final code' →
      R final (code ++ code')) : Writes c s (x >>= f) R := by
  refine Ensures.bind first fun e ⟨grown, holds⟩ => ?_
  refine Ensures.imp (second e.value e.storage grown) fun e' ⟨grown', holds'⟩ => ?_
  refine ⟨grown.trans grown', fun final later => ?_⟩
  have between := grown'.trans later
  exact join final _ _ (grown.trans between) (holds final between) (holds' final later)

/-- Behind a step that only looks something up, the next one writes all the code. -/
theorem Writes.read {x : Emit α} {f : α → Emit β} {P : α → Prop} {Q : Storage → List Instr → Prop}
    (first : Reads c s x P) (second : ∀ a, P a → Writes c s (f a) Q) : Writes c s (x >>= f) Q :=
  Ensures.read first second

/-- Code is written as it stands. -/
theorem code_writes {Q : Storage → List Instr → Prop} {instrs : List Instr}
    (h : ∀ final, s.Grows c.module final → Q final instrs) : Writes c s (code instrs) Q := by
  intro spot e run
  cases run
  exact ⟨.refl _ _, h⟩

/-- A single instruction is written as it stands. -/
theorem instr_writes {Q : Storage → List Instr → Prop} {i : Instr}
    (h : ∀ final, s.Grows c.module final → Q final [i]) : Writes c s (instr i) Q :=
  code_writes h

/-- The variable that is given for a place is in the table afterwards and is the one for that place
and type. -/
theorem shared_ensures {place : Place} (unframed : place.isFrameField = false) (ty : Code.Ty) :
    Ensures c s (shared place ty) fun e => e.code = [] ∧ s.Grows c.module e.storage ∧
      ∃ v, e.storage.get? e.value = some v ∧ isShared place ty v = true := by
  refine .read ledger_reads fun table same => ?_
  rw [same]
  split
  next id found => exact .pure ⟨rfl, .refl _ _, s.sound found⟩
  next =>
    intro spot e run
    cases run
    refine ⟨rfl, .push _ _ _ (incidental_shared unframed ty), _, Storage.get?_push_self _ _, ?_⟩
    cases place <;> simp [isShared]

end Emit

end Lowering

end Stackwise
