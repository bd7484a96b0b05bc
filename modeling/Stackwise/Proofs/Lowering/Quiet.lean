import Stackwise.Proofs.Lowering.Allocation
import Stackwise.Proofs.Lowering.Composition

/-!
# Quiet code

Between its jumps and its calls, lowered code only computes.  Such code is *quiet*: it has no
anchors, calls support routines but no functions, names only variables of the body's table, and
writes only to slots and frame fields (`Writable`).  In particular it leaves alone the exception in
flight and the variables in which pads keep theirs, and never takes the address of either.

Pushing a value, computing an operation, reading and writing memory and packing arguments are all
quiet.  This rests on where the variables of instructions live, which is settled before the first
line of code is written (`Housed`).
-/

namespace Stackwise.Lowering

open Code (Constant Instr Place Storage Variable)
open Source (Instruction Module Opcode)

/-- The variable is a slot or a frame field, and not the one of a pad. -/
def Writable (m : Module) (s : Storage) (var : Nat) : Prop :=
  ∃ v, s.get? var = some v ∧ (v.place = .slot ∨ v.isDurable = true) ∧
    ∀ id i, v.origin = some id → m.instruction? id = some i → isPad i.opcode = false

/-- Whether an instruction computes with the values on the stack, or calls a support routine, and
names no variable. -/
def computes : Instr → Bool
  | .loadIndirect _ | .storeIndirect _ | .fieldAddress _ | .loadField _ | .storeField _ => true
  | .binary _ | .compare _ | .negate | .convert _ _ | .sizeOf _ | .pop => true
  | .call (.helper _) _ => true
  | _ => false

/-- An instruction that only computes. -/
def Quiet (m : Module) (s : Storage) : Instr → Prop
  | .load var => ∃ v, s.get? var = some v
  | .store var | .clear var => Writable m s var
  | .addressOf var =>
    Writable m s var ∨ ∃ v global, s.get? var = some v ∧ v.place = .global global
  | i => computes i = true

/-- Code that only computes. -/
def AllQuiet (m : Module) (s : Storage) (code : List Instr) : Prop := ∀ i ∈ code, Quiet m s i

section

variable {m : Module} {s s' : Storage}

/-- A variable may still be written to when the table has grown. -/
theorem Writable.grows {var : Nat} (h : Writable m s var) (grown : s.Grows m s') :
    Writable m s' var := by
  obtain ⟨v, there, home⟩ := h
  exact ⟨v, grown.get?_eq_some there, home⟩

/-- Instructions that only compute do so in every table that has grown from theirs. -/
theorem Quiet.grows {i : Instr} (h : Quiet m s i) (grown : s.Grows m s') : Quiet m s' i := by
  cases i with
  | load var =>
    obtain ⟨v, there⟩ := h
    exact ⟨v, grown.get?_eq_some there⟩
  | store var | clear var => exact Writable.grows h grown
  | addressOf var =>
    rcases h with writable | ⟨v, global, there, place⟩
    · exact .inl (writable.grows grown)
    · exact .inr ⟨v, global, grown.get?_eq_some there, place⟩
  | _ => exact h

/-- Instructions that name no variable need no table. -/
theorem quiet_of_computes {i : Instr} (h : computes i = true) : Quiet m s i := by
  cases i with
  | load | store | addressOf | clear => cases h
  | _ => exact h

/-- Code that only computes does so in every table that has grown from its own. -/
theorem AllQuiet.grows {code : List Instr} (h : AllQuiet m s code) (grown : s.Grows m s') :
    AllQuiet m s' code :=
  fun i mem => (h i mem).grows grown

/-- Code that only computes can be joined. -/
theorem AllQuiet.append {code code' : List Instr} (h : AllQuiet m s code)
    (h' : AllQuiet m s code') : AllQuiet m s (code ++ code') :=
  List.forall_mem_append.2 ⟨h, h'⟩

theorem allQuiet_nil : AllQuiet m s [] := List.forall_mem_nil _

/-- An instruction that only computes ends no stretch of straight-line code. -/
theorem Quiet.not_anchor {i : Instr} (h : Quiet m s i) : i.isAnchor = false := by
  cases i with
  | branch | branchIfTrue | branchIfFalse | branchIfEqual | switch | phiEnqueue | phiDequeue | ret
  | retDefault | retIfPending | unreachable => cases h
  | _ => rfl

/-- Quiet code names no variable outside its table. -/
theorem Quiet.var_lt {i : Instr} {var : Nat} (h : Quiet m s i) (named : i.var? = some var) :
    var < s.size := by
  have inside {v : Variable} (there : s.get? var = some v) : var < s.size :=
    (Array.getElem?_eq_some_iff.1 there).1
  cases i with
  | load var' =>
    cases named
    obtain ⟨v, there⟩ := h
    exact inside there
  | store var' | clear var' =>
    cases named
    obtain ⟨v, there, -⟩ := h
    exact inside there
  | addressOf var' =>
    cases named
    rcases h with ⟨v, there, -⟩ | ⟨v, global, there, -⟩
    · exact inside there
    · exact inside there
  | _ => cases named

/-- The result of an instruction that is no pad may be written. -/
theorem Housed.writable {homes : Homes} (h : Housed m homes s) {id var : Nat} {i : Instruction}
    (isInstruction : m.instruction? id = some i) (notPad : isPad i.opcode = false)
    (found : homes.results.find? id = some var) : Writable m s var := by
  obtain ⟨v, there, origin, slot⟩ := h.result found
  refine ⟨v, there, .inl slot, fun id' i' origin' isInstruction' => ?_⟩
  cases origin.symm.trans origin'
  cases isInstruction.symm.trans isInstruction'
  exact notPad

/-- The storage of an allocation may be written. -/
theorem Housed.writable_allocation {homes : Homes} (h : Housed m homes s) {id var : Nat}
    (found : homes.allocations.find? id = some var) : Writable m s var := by
  obtain ⟨⟨v, there, origin⟩, i, allocated, isInstruction, isAlloca⟩ := h.allocation found
  have home := h.homed v (Array.mem_of_getElem? there) id i origin isInstruction
  refine ⟨v, there, home.1, fun id' i' origin' isInstruction' => ?_⟩
  cases origin.symm.trans origin'
  cases isInstruction.symm.trans isInstruction'
  rw [isAlloca]
  rfl

end

/-! ## Steps that write quiet code -/

namespace Emit

variable {α β : Type} {c : Context} {s : Ledger}

/-- A step that writes quiet code and makes no variable for an instruction, and whose value has a
property in the table that it leaves. -/
def Yields (c : Context) (s : Ledger) (step : Emit α) (P : α → Storage → Prop) : Prop :=
  Ensures c s step fun e => s.Grows c.module e.storage ∧ AllQuiet c.module e.storage e.code ∧
    P e.value e.storage

/-- A step that writes quiet code. -/
abbrev Quietly (c : Context) (s : Ledger) (step : Emit α) : Prop :=
  Yields c s step fun _ _ => True

theorem Yields.pure {P : α → Storage → Prop} {a : α} (h : P a s) :
    Yields c s (pure a : Emit α) P :=
  Ensures.pure ⟨.refl _ _, allQuiet_nil, h⟩

theorem Quietly.pure (a : α) : Quietly c s (pure a : Emit α) := Yields.pure trivial

/-- Quiet steps can be chained, and the second one may rely on the value of the first in the table
that the first leaves. -/
theorem Yields.bind {x : Emit α} {f : α → Emit β} {P : α → Storage → Prop}
    {P' : β → Storage → Prop} (first : Yields c s x P)
    (second : ∀ a (s' : Ledger), s.Grows c.module s' → P a s' → Yields c s' (f a) P') :
    Yields c s (x >>= f) P' := by
  refine Ensures.bind first fun e ⟨grown, quiet, found⟩ => ?_
  refine Ensures.imp (second e.value e.storage grown found) fun e' ⟨grown', quiet', found'⟩ => ?_
  exact ⟨grown.trans grown', (quiet.grows grown').append quiet', found'⟩

/-- Behind a step that only looks something up. -/
theorem Yields.read {x : Emit α} {f : α → Emit β} {P : α → Prop} {P' : β → Storage → Prop}
    (first : Reads c s x P) (second : ∀ a, P a → Yields c s (f a) P') :
    Yields c s (x >>= f) P' :=
  Ensures.read first second

/-- Quiet steps can be chained also where nothing is said of the first value. -/
theorem Quietly.bind {x : Emit α} {f : α → Emit β} {P' : β → Storage → Prop}
    (first : Quietly c s x)
    (second : ∀ a (s' : Ledger), s.Grows c.module s' → Yields c s' (f a) P') :
    Yields c s (x >>= f) P' :=
  Yields.bind first fun a s' grown _ => second a s' grown

/-- Quiet code is quiet in the finished table too. -/
theorem Yields.writes {step : Emit α} {P : α → Storage → Prop} (h : Yields c s step P) :
    Writes c s step (AllQuiet c.module) :=
  Ensures.imp h fun _ ⟨grown, quiet, _⟩ => ⟨grown, fun _ later => quiet.grows later⟩

/-- Quiet code is written by a quiet step. -/
theorem code_quietly {instrs : List Instr} (h : AllQuiet c.module s instrs) :
    Quietly c s (code instrs) := by
  intro spot e run
  cases run
  exact ⟨.refl _ _, h, trivial⟩

theorem instr_quietly {i : Instr} (h : Quiet c.module s i) : Quietly c s (instr i) :=
  code_quietly (List.forall_mem_singleton.2 h)

/-- Code that names no variable is written by a quiet step, and whether it is such code can be
computed. -/
theorem computing_quietly {instrs : List Instr} (h : instrs.all computes = true) :
    Quietly c s (code instrs) :=
  code_quietly fun i mem => quiet_of_computes (List.all_eq_true.1 h i mem)

theorem helper_quietly (routine : Code.Helper) : Quietly c s (helper routine) :=
  computing_quietly rfl

/-- A new slot that belongs to no instruction may be written to. -/
theorem fresh_yields {v : Variable} {add : Ledger → Nat × Ledger} (number : (add s).1 = s.size)
    (adds : (add s).2.toStorage = (s.toStorage.push v).2) (slot : v.place = .slot)
    (incidental : v.Incidental c.module) :
    Yields c s (fresh add) fun var s' => Writable c.module s' var := by
  refine Ensures.imp (fresh_ensures number adds incidental) ?_
  rintro e ⟨nothing, new, grown, there⟩
  rw [nothing, new]
  refine ⟨grown, allQuiet_nil, v, there, .inl slot, fun id i made isInstruction => ?_⟩
  rw [incidental.origin id made] at isInstruction
  cases isInstruction

/-- A new slot may be written to. -/
theorem freshSlot_yields {origin : Option Nat} (ty : Code.Ty)
    (h : ∀ id, origin = some id → c.module.instruction? id = none) :
    Yields c s (freshSlot ty origin) fun var s' => Writable c.module s' var :=
  fresh_yields rfl rfl rfl ⟨h, .inl rfl, rfl⟩

theorem freshPinned_yields {origin : Option Nat} (ty : Code.Ty)
    (h : ∀ id, origin = some id → c.module.instruction? id = none) :
    Yields c s (freshPinned ty origin) fun var s' => Writable c.module s' var :=
  fresh_yields rfl rfl rfl ⟨h, .inr ⟨rfl, rfl⟩, rfl⟩

/-- A shared variable is at its place in the table afterwards. -/
theorem shared_yields {place : Place} (unframed : place.isFrameField = false) (ty : Code.Ty) :
    Yields c s (shared place ty) fun var s' => ∃ v, s'.get? var = some v ∧ v.place = place := by
  refine Ensures.imp (shared_ensures unframed ty) fun e ⟨nothing, grown, v, there, hit⟩ => ?_
  rw [nothing]
  simp only [isShared, Bool.and_eq_true, beq_iff_eq] at hit
  exact ⟨grown, allQuiet_nil, v, there, hit.1⟩

/-- Loading a variable that stands for a shared place. -/
theorem loadShared_quietly {place : Place} (unframed : place.isFrameField = false)
    (ty : Code.Ty) :
    Quietly c s (do instr (.load (← shared place ty))) :=
  Yields.bind (shared_yields unframed ty) fun _ _ _ ⟨v, there, _⟩ => instr_quietly ⟨v, there⟩

theorem constant_quietly (value : Constant) (ty : Code.Ty) : Quietly c s (constant value ty) :=
  loadShared_quietly rfl ty

end Emit

open Emit (Composed Ensures Quietly Yields)

variable {c : Context}

/-! ## Composed steps -/

/-- The variable of a global stands for it in the table afterwards. -/
theorem globalVariable_yields (s : Ledger) (id : Nat) :
    Yields c s (globalVariable id) fun var s' =>
      ∃ v, s'.get? var = some v ∧ v.place = .global id := by
  refine .read Emit.module_reads fun _ _ => ?_
  refine .read (Emit.required_reads _) fun _ _ => ?_
  exact .read (Emit.lowerType_reads _ _ _) fun _ _ => Emit.shared_yields rfl _

/-- Code that stays within variables that may be written, and names no others, is quiet. -/
theorem quiet_of_stays {m : Module} {s : Storage} {own : Nat → Prop} {i : Instr}
    {marks after : List (Option Nat)} (writable : ∀ var, own var → Writable m s var)
    (stays : i.Stays own marks after) (names : ∀ var, i.var? = some var → own var) :
    Quiet m s i := by
  cases stays with
  | store mine | clear mine => exact writable _ mine
  | addressOf mine => exact .inl (writable _ mine)
  | fieldAddress | add | storeIndirect => rfl
  | other leaves height =>
    cases i with
    | load var =>
      obtain ⟨v, there, -⟩ := writable var (names var rfl)
      exact ⟨v, there⟩
    | addressOf var => exact .inl (writable var (names var rfl))
    | loadIndirect | fieldAddress | loadField | binary | compare | negate | convert | sizeOf
    | pop => rfl
    | call target sig =>
      cases target with
      | helper routine => rfl
      | function => cases leaves
    | _ => cases leaves

/-- Code that stays within writable variables, and names no others, only computes. -/
theorem allQuiet_of_stays {m : Module} {s : Storage} {own : Nat → Prop} {code : List Instr}
    {marks after : List (Option Nat)} (writable : ∀ var, own var → Writable m s var)
    (stays : Code.Stays own marks code after)
    (names : ∀ i ∈ code, ∀ var, i.var? = some var → own var) : AllQuiet m s code := by
  induction stays with
  | nil => exact allQuiet_nil
  | cons first _ ih =>
    obtain ⟨here, later⟩ := List.forall_mem_cons.1 names
    exact List.forall_mem_cons.2 ⟨quiet_of_stays writable first here, ih later⟩

/-- A composed step is quiet, if pushing a value is. -/
theorem Emit.Composed.quietly {α : Type} {push push' : Nat → Emit Unit}
    {pushable own : Nat → Prop} {full : Prop} {x y : Emit α} {marks after : List (Option Nat)}
    (composed : Composed c push push' pushable full own x y marks after)
    (pushes : ∀ value (s : Ledger), pushable value → Housed c.module c.homes s →
      Quietly c s (push value))
    {s : Ledger} (housed : Housed c.module c.homes s)
    (writable : ∀ var, own var → Writable c.module s var) : Quietly c s x := by
  induction composed generalizing s with
  | pure a => exact Quietly.pure _
  | fault stops => exact Ensures.imp (stops s) fun _ => False.elim
  | read reads _ ih => exact .read (reads s) fun a found => ih a found housed writable
  | bind _ _ first later =>
    refine Quietly.bind (first housed writable) fun a s' grown => ?_
    exact later a (housed.grows grown) fun var mine => (writable var mine).grows grown
  | push allowed => exact pushes _ s allowed housed
  | code stays names => exact Emit.code_quietly (allQuiet_of_stays writable stays names)
  | helper => exact Emit.helper_quietly _
  | slot apart _ ih =>
    refine Yields.bind (Emit.freshSlot_yields _ apart) fun var s' grown new => ?_
    refine ih var (housed.grows grown) fun v mine => ?_
    rcases mine with mine | rfl
    · exact (writable v mine).grows grown
    · exact new
  | loadShared unframed => exact Emit.loadShared_quietly unframed _
  | addressOfGlobal =>
    refine Yields.bind (globalVariable_yields s _) ?_
    rintro _ _ _ ⟨v, there, place⟩
    exact Emit.instr_quietly (.inr ⟨v, _, there, place⟩)
  | result found =>
    obtain ⟨v, there, -⟩ := housed.result found
    exact Emit.instr_quietly ⟨v, there⟩
  | allocation found => exact Emit.instr_quietly (.inl (housed.writable_allocation found))

/-- Constants are pushed by code that only computes, whatever they are made of. -/
theorem pushWithin_quietly (depth id : Nat) {s : Ledger} (housed : Housed c.module c.homes s) :
    Quietly c s (pushWithin depth id) := by
  induction depth generalizing id s with
  | zero => exact Ensures.fail
  | succ depth ih =>
    exact (pushWithin_composed depth id (fun _ => False) []).quietly
      (fun part _ _ housed => ih part housed) housed fun _ => False.elim

theorem push_quietly (id : Nat) {s : Ledger} (housed : Housed c.module c.homes s) :
    Quietly c s (push id) :=
  pushWithin_quietly (id + 1) id housed

theorem pushInt_quietly {s : Ledger} (housed : Housed c.module c.homes s) (n : Int)
    (ty origin : Nat) : Quietly c s (pushInt n ty origin) := by
  have composed : Composed c push push (fun _ => False) False (fun _ => False) (pushInt n ty origin)
      (pushInt n ty origin) [] [none] :=
    pushInt_composed n ty origin
  exact composed.quietly (fun _ _ => False.elim) housed fun _ => False.elim

/-! ## Memory -/

/-- A variable that is accessed directly is the storage of an allocation. -/
theorem Housed.writable_direct {m : Module} {homes : Homes} {s : Storage}
    (housed : Housed m homes s) {ptr var : Nat} {ty : Code.Ty}
    (h : direct? homes s ptr ty = some var) : Writable m s var := by
  simp only [direct?, Option.bind_eq_bind, Option.bind_eq_some_iff] at h
  obtain ⟨var', found, v, there, h⟩ := h
  split at h
  · cases h
    exact housed.writable_allocation found
  · cases h

section

variable {s : Ledger} (housed : Housed c.module c.homes s) {id : Nat} {i : Instruction}
  (isInstruction : c.module.instruction? id = some i) (notPad : isPad i.opcode = false)

include housed isInstruction notPad

omit isInstruction notPad in
/-- A local variable is lowered to code that only computes. -/
theorem lowerAlloca_quietly : Quietly c s (lowerAlloca id) := by
  refine .read Emit.context_reads fun _ same => ?_
  rw [same]
  split
  · rename_i found
    exact Emit.instr_quietly (housed.writable_allocation found)
  · exact Emit.breach_ensures _ _

/-- The outcome of an atomic operation is zeroed. -/
theorem clearResult_quietly : Quietly c s (do Emit.instr (.clear (← Emit.resultOf id))) :=
  .read (Emit.resultOf_reads _) fun _ found =>
    Emit.instr_quietly (housed.writable isInstruction notPad found)

theorem lowerLoad_quietly : Quietly c s (lowerLoad id i) := by
  unfold lowerLoad
  split
  · exact .read Emit.spot_reads fun _ _ => Emit.breachAt_ensures _ _
  · refine .read (Emit.typeOf_reads _) fun _ _ => ?_
    refine .read (Emit.lowerType_reads _ _ _) fun ty _ => ?_
    refine .read (Emit.resultOf_reads _) fun result found => ?_
    have writable := housed.writable isInstruction notPad found
    refine .read Emit.context_reads fun _ same => .read Emit.ledger_reads fun _ same' => ?_
    rw [same, same']
    split
    · rename_i storage direct
      obtain ⟨v, there, -⟩ := housed.writable_direct direct
      exact Quietly.bind (Emit.instr_quietly ⟨v, there⟩) fun _ _ grown =>
        Emit.instr_quietly (writable.grows grown)
    · refine Quietly.bind (push_quietly _ housed) fun _ _ grown => ?_
      exact Quietly.bind (Emit.computing_quietly rfl) fun _ _ grown' =>
        Emit.instr_quietly (writable.grows (grown.trans grown'))

theorem lowerOperation_quietly : Quietly c s (lowerOperation id i) := by
  unfold lowerOperation
  split
  · exact Emit.unsupported_ensures _ _ _
  · rename_i operands _
    refine .read (Emit.resultOf_reads _) fun result found => ?_
    refine .read (Emit.typeOf_reads _) fun ty _ => ?_
    have writable := housed.writable isInstruction notPad found
    have composed : Composed c push push (fun _ => True) False (Writable c.module s)
        (operation push i.opcode operands ty result id)
        (operation push i.opcode operands ty result id) [] [] :=
      operation_composed (fun _ _ => trivial) writable False.elim False.elim id
    exact composed.quietly (fun _ _ _ housed => push_quietly _ housed) housed fun _ mine => mine

end

theorem lowerStore_quietly {s : Ledger} (housed : Housed c.module c.homes s) (id : Nat)
    (i : Instruction) : Quietly c s (lowerStore id i) := by
  unfold lowerStore
  split
  · refine .read (Emit.typeOf_reads _) fun _ _ => ?_
    refine .read (Emit.lowerType_reads _ _ _) fun ty _ => ?_
    refine .read Emit.context_reads fun _ same => .read Emit.ledger_reads fun _ same' => ?_
    rw [same, same']
    split
    · rename_i storage direct
      exact Quietly.bind (push_quietly _ housed) fun _ _ grown =>
        Emit.instr_quietly ((housed.writable_direct direct).grows grown)
    · refine Quietly.bind (push_quietly _ housed) fun _ _ grown => ?_
      refine Quietly.bind (push_quietly _ (housed.grows grown)) fun _ _ _ => ?_
      exact Emit.computing_quietly rfl
  · exact Emit.breach_ensures _ _

/-! ## Arguments -/

/-- Each argument of a call is stored to a slot of its own, which may be written to. -/
theorem storeArguments_yields {s : Ledger} (housed : Housed c.module c.homes s) (origin : Nat)
    (args : List Nat) : Yields c s (storeArguments origin args) fun slots s' =>
      ∀ slot ∈ slots, Writable c.module s' slot := by
  induction args generalizing s with
  | nil => exact Yields.pure (List.forall_mem_nil _)
  | cons arg rest ih =>
    refine .read (Emit.typeOf_reads _) fun _ _ => ?_
    refine .read (Emit.lowerType_reads _ _ _) fun _ _ => ?_
    refine Yields.bind (Emit.freshPinned_yields _ nofun) fun slot _ grown writable => ?_
    refine Quietly.bind (push_quietly _ (housed.grows grown)) fun _ _ grown' => ?_
    have writable := writable.grows grown'
    refine Quietly.bind (Emit.instr_quietly writable) fun _ _ grown'' => ?_
    have housed := housed.grows ((grown.trans grown').trans grown'')
    refine Yields.bind (ih housed) fun slots _ grown₃ others => Yields.pure ?_
    exact List.forall_mem_cons.2 ⟨writable.grows (grown''.trans grown₃), others⟩

/-- The addresses of the slots are stored to the span, one after another. -/
theorem storeAddresses_quietly {s : Ledger} {span : Nat} (writable : Writable c.module s span)
    {slots : List Nat} (others : ∀ slot ∈ slots, Writable c.module s slot) (index : Nat) :
    Quietly c s (storeAddresses span index slots) := by
  induction slots generalizing s index with
  | nil => exact Quietly.pure _
  | cons slot rest ih =>
    refine Quietly.bind (Emit.instr_quietly (.inl writable)) fun _ _ grown => ?_
    refine Quietly.bind (Emit.constant_quietly _ _) fun _ _ grown' => ?_
    refine Quietly.bind (Emit.helper_quietly _) fun _ s' grown'' => ?_
    have grown := (grown.trans grown').trans grown''
    have first : AllQuiet c.module s' [.addressOf slot, .storeIndirect .nativeInt] := by
      simpa [AllQuiet, Quiet, computes] using Or.inl ((others slot (by simp)).grows grown)
    refine Quietly.bind (Emit.code_quietly first) fun _ _ grown' => ?_
    have grown := grown.trans grown'
    exact ih (writable.grows grown) (fun slot mem => (others slot (by simp [mem])).grows grown) _

/-- Packing arguments gives a variable that may be loaded. -/
theorem packArguments_yields {s : Ledger} (housed : Housed c.module c.homes s) (args : List Nat)
    (origin : Nat) : Yields c s (packArguments args origin) fun pack s' =>
      Writable c.module s' pack := by
  unfold packArguments
  split
  · refine Yields.bind (Emit.freshSlot_yields _ nofun) fun pack _ _ writable => ?_
    exact Quietly.bind (Emit.instr_quietly writable) fun _ _ grown =>
      Yields.pure (writable.grows grown)
  · refine Yields.bind (Emit.freshPinned_yields _ nofun) fun buffer _ grown₁ buffered => ?_
    refine Yields.bind (Emit.freshSlot_yields _ nofun) fun span _ grown₂ spanned => ?_
    refine Yields.bind (Emit.freshSlot_yields _ nofun) fun pack _ grown₃ packed => ?_
    have buffered := buffered.grows (grown₂.trans grown₃)
    have spanned := spanned.grows grown₃
    refine Quietly.bind (Emit.instr_quietly buffered) fun _ _ grown₄ => ?_
    have housed := housed.grows (((grown₁.trans grown₂).trans grown₃).trans grown₄)
    refine Yields.bind (storeArguments_yields housed _ _) fun slots _ grown₅ others => ?_
    have grown := grown₄.trans grown₅
    refine Quietly.bind (Emit.instr_quietly (.inl (buffered.grows grown))) fun _ _ grown₆ => ?_
    refine Quietly.bind (Emit.helper_quietly _) fun _ _ grown₇ => ?_
    have later := grown₆.trans grown₇
    have grown := grown.trans later
    refine Quietly.bind (Emit.instr_quietly (spanned.grows grown)) fun _ _ grown₈ => ?_
    have later := later.trans grown₈
    have grown := grown.trans grown₈
    refine Quietly.bind (storeAddresses_quietly (spanned.grows grown)
      (fun slot mem => (others slot mem).grows later) _) fun _ _ grown₉ => ?_
    have grown := grown.trans grown₉
    obtain ⟨v, there, -⟩ := spanned.grows grown
    refine Quietly.bind (Emit.instr_quietly ⟨v, there⟩) fun _ _ grown₁₀ => ?_
    refine Quietly.bind (Emit.helper_quietly _) fun _ _ grown₁₁ => ?_
    have packed := packed.grows ((grown.trans grown₁₀).trans grown₁₁)
    exact Quietly.bind (Emit.instr_quietly packed) fun _ _ grown =>
      Yields.pure (packed.grows grown)

/-- Values are pushed one after another by code that only computes. -/
theorem pushAll_quietly {s : Ledger} (housed : Housed c.module c.homes s) (values : List Nat) :
    Quietly c s (pushAll values) := by
  induction values generalizing s with
  | nil => exact Quietly.pure _
  | cons value rest ih =>
    exact Quietly.bind (push_quietly _ housed) fun _ _ grown => ih (housed.grows grown)

/-- An argument list is started by code that only computes. -/
theorem startList_quietly {s : Ledger} (housed : Housed c.module c.homes s) (id : Nat)
    (args : List Nat) : Quietly c s (startList id args) := by
  unfold startList
  split
  · refine Yields.bind (P := fun pack s' => ∃ v, s'.get? pack = some v) ?_ ?_
    · refine .read Emit.context_reads fun _ _ => ?_
      dsimp only
      split
      · exact Ensures.imp (Emit.shared_yields rfl _) fun e ⟨grown, quiet, v, there, _⟩ =>
          ⟨grown, quiet, v, there⟩
      · exact Emit.unsupported_ensures _ _ _
    · intro pack _ grown ⟨v, there⟩
      refine Quietly.bind (push_quietly _ (housed.grows grown)) fun _ _ grown' => ?_
      refine Quietly.bind (Emit.instr_quietly ⟨v, grown'.get?_eq_some there⟩) fun _ _ _ => ?_
      exact Emit.helper_quietly _
  · exact Emit.breach_ensures _ _

/-- A condition is pushed by code that only computes. -/
theorem pushCondition_quietly {s : Ledger} (housed : Housed c.module c.homes s) (cond id : Nat) :
    Quietly c s (pushCondition cond id) := by
  refine .read Emit.module_reads fun _ _ => ?_
  refine .read (Emit.typeOf_reads _) fun _ _ => ?_
  split
  · exact push_quietly _ housed
  · exact Emit.unsupported_ensures _ _ _

end Stackwise.Lowering
