import Stackwise.Proofs.Lowering.Edges

/-!
# The variables that lowered code names

Every variable that lowered code names is in the table of its body.  Those that it stores to are
slots, frame fields, or the exception in flight, and those whose address it takes may be written by
quiet code, or are globals (`Shaped.tabled`).  So no address of the exception in flight is ever on
the stack, and none of a variable in which a pad keeps its own.
-/

namespace Stackwise.Lowering

open Code (Instr Storage)
open Source (Function Instruction Module)

/-- The address of the variable may be taken. -/
def Addressable (m : Module) (s : Storage) (var : Nat) : Prop :=
  Writable m s var ∨ ∃ v global, s.get? var = some v ∧ v.place = .global global

/-- The variable may be stored to. -/
def Storable (s : Storage) (var : Nat) : Prop :=
  ∃ v, s.get? var = some v ∧ (v.place = .slot ∨ v.isDurable = true ∨ v.place = .exceptionSlot)

/-- What the instruction names is in the table, and what it takes the address of or stores to may be
used in this way. -/
structure Tabled (m : Module) (s : Storage) (i : Instr) : Prop where
  inside : ∀ var, i.var? = some var → var < s.size
  addressed : ∀ var, i = .addressOf var → Addressable m s var
  stored : ∀ var, i = .store var → Storable s var

/-- The same for all instructions of the code. -/
def AllTabled (m : Module) (s : Storage) (code : List Instr) : Prop := ∀ i ∈ code, Tabled m s i

section

variable {m : Module} {s : Storage}

/-- A slot or a frame field may be stored to. -/
theorem Writable.storable {var : Nat} (h : Writable m s var) : Storable s var := by
  obtain ⟨v, there, home, -⟩ := h
  exact ⟨v, there, home.imp_right .inl⟩

theorem HasPlace.storable {var : Nat} (h : HasPlace s .exceptionSlot var) : Storable s var := by
  obtain ⟨v, there, place⟩ := h
  exact ⟨v, there, .inr (.inr place)⟩

/-- The variable of an instruction, a pad or not, may be stored to. -/
theorem Housed.storable {homes : Homes} (h : Housed m homes s) {id var : Nat}
    (found : homes.results.find? id = some var) : Storable s var := by
  obtain ⟨v, there, -, slot⟩ := h.result found
  exact ⟨v, there, .inl slot⟩

/-- Instructions stay tabled when the table grows. -/
theorem Tabled.grows {s' : Storage} {i : Instr} (h : Tabled m s i) (grown : s.Grows m s') :
    Tabled m s' i where
  inside var named := by
    have there := Array.getElem?_eq_getElem (h.inside var named)
    exact (Array.getElem?_eq_some_iff.1 (grown.get?_eq_some there)).1
  addressed var same := by
    rcases h.addressed var same with writable | ⟨v, global, there, place⟩
    · exact .inl (writable.grows grown)
    · exact .inr ⟨v, global, grown.get?_eq_some there, place⟩
  stored var same := by
    obtain ⟨v, there, home⟩ := h.stored var same
    exact ⟨v, grown.get?_eq_some there, home⟩

theorem AllTabled.append {code code' : List Instr} (h : AllTabled m s code)
    (h' : AllTabled m s code') : AllTabled m s (code ++ code') :=
  List.forall_mem_append.2 ⟨h, h'⟩

theorem allTabled_nil : AllTabled m s [] := List.forall_mem_nil _

/-- An instruction that only computes uses the table as it may. -/
theorem Quiet.tabled {i : Instr} (h : Quiet m s i) : Tabled m s i := by
  refine ⟨fun var named => h.var_lt named, ?_, ?_⟩
  · rintro var rfl
    exact h
  · rintro var rfl
    exact Writable.storable h

theorem AllQuiet.tabled {code : List Instr} (h : AllQuiet m s code) : AllTabled m s code :=
  fun i mem => (h i mem).tabled

/-- An instruction that names no variable needs no table. -/
theorem tabled_unnamed {i : Instr} (none : i.var? = none) : Tabled m s i := by
  refine ⟨fun _ named => (nomatch none.symm.trans named), ?_, ?_⟩
  · rintro var rfl
    cases none
  · rintro var rfl
    cases none

/-- An instruction without a variable, in front of code. -/
theorem AllTabled.behind {i : Instr} {code : List Instr} (none : i.var? = none)
    (h : AllTabled m s code) : AllTabled m s (i :: code) :=
  List.forall_mem_cons.2 ⟨tabled_unnamed none, h⟩

/-- A load, in front of code. -/
theorem AllTabled.load {code : List Instr} {var : Nat} {v : Code.Variable}
    (there : s.get? var = some v) (h : AllTabled m s code) : AllTabled m s (.load var :: code) := by
  refine List.forall_mem_cons.2 ⟨⟨?_, nofun, nofun⟩, h⟩
  rintro _ ⟨⟩
  exact (Array.getElem?_eq_some_iff.1 there).1

/-- A store, in front of code. -/
theorem AllTabled.store {code : List Instr} {var : Nat} (storable : Storable s var)
    (h : AllTabled m s code) : AllTabled m s (.store var :: code) := by
  refine List.forall_mem_cons.2 ⟨⟨?_, nofun, ?_⟩, h⟩
  · rintro _ ⟨⟩
    obtain ⟨v, there, -⟩ := storable
    exact (Array.getElem?_eq_some_iff.1 there).1
  · rintro _ ⟨⟩
    exact storable

end

variable {c : Context} {function : Nat} {w : World}

/-- Handing operands over uses the table as it may. -/
theorem HandOverCode.tabled {s : Storage} {phis : List Nat} {code : List Instr}
    (h : HandOverCode c s phis code) : AllTabled c.module s code := by
  induction h with
  | nil => exact allTabled_nil
  | cons quiet _ _ ih => exact quiet.tabled.append (ih.behind rfl)

/-- Taking operands over stores to the variables of phis, which may be stored to. -/
theorem TakeOverCode.tabled {s : Storage} {phis : List Nat} {code : List Instr}
    (h : TakeOverCode c s phis code) : AllTabled c.module s code := by
  induction h with
  | nil => exact allTabled_nil
  | cons _ writable _ ih =>
    exact (ih.store writable.storable).behind rfl

/-- An edge uses the table as it may. -/
theorem EdgeCode.tabled {s : Storage} {target : Nat} {code : List Instr}
    (h : EdgeCode c function s target code) : AllTabled c.module s code := by
  obtain ⟨phis, front, -, hands, rfl⟩ := h
  exact hands.tabled.append (allTabled_nil.behind rfl)

theorem JumpCode.tabled {code : List Instr} (h : JumpCode c function w code) :
    AllTabled c.module w.storage code := by
  obtain ⟨front, target, last, rfl, turns, edge⟩ := h
  refine AllTabled.append (fun i mem => ?_) edge.tabled
  rcases turns i mem with quiet | ⟨conditional, -⟩
  · exact quiet.tabled
  · refine tabled_unnamed ?_
    cases i with
    | branchIfTrue | branchIfFalse | branchIfEqual | switch => rfl
    | _ => cases conditional

theorem leaving_tabled {m : Module} {s : Storage} {i : Instr} (none : i.var? = none) :
    AllTabled m s (leaving c i) := by
  rw [leaving]
  split
  · exact (allTabled_nil.behind none).behind rfl
  · exact allTabled_nil.behind none

/-- Unwinding uses the table as it may. -/
theorem UnwindCode.tabled {s : Storage} {target? : Option Nat} {code : List Instr}
    (h : UnwindCode c function s target? code) : AllTabled c.module s code := by
  cases target? with
  | some target => exact EdgeCode.tabled h
  | none =>
    obtain rfl : code = leaving c (.retDefault c.returns) := h
    exact leaving_tabled rfl

theorem ChainCode.tabled {handlers : List Nat} {unwind : Option Nat} {code : List Instr}
    (h : ChainCode c function w handlers unwind code) : AllTabled c.module w.storage code := by
  cases handlers with
  | nil => exact UnwindCode.tabled h
  | cons handler rest =>
    obtain ⟨f, routine, before, next, last, -, -, quiet, -, edge, rfl⟩ := h
    exact quiet.tabled.append ((edge.tabled.behind rfl).behind rfl)

/-- A call uses the table as it may. -/
theorem CallCode.tabled {s : Storage} {callee : Nat} {code : List Instr}
    (h : CallCode c s callee code) : AllTabled c.module s code := by
  obtain ⟨before, call, after, quiet, calls, quiet', rfl⟩ := h
  refine quiet.tabled.append (quiet'.tabled.behind ?_)
  cases calls with
  | direct | indirect => rfl

/-- The code of an instruction uses the table as it may; a pad stores to its own variable. -/
theorem StepCode.tabled {s : Storage} (housed : Housed c.module c.homes s) {id : Nat}
    {i : Instruction} {code : List Instr} (h : StepCode c s id i code) :
    AllTabled c.module s code := by
  cases h with
  | quiet _ quiet => exact quiet.tabled
  | call _ _ called =>
    refine called.tabled.append ?_
    rw [checkOf]
    split
    · exact allTabled_nil.behind rfl
    · exact allTabled_nil
  | pad _ isSlot found isNull =>
    have last := allTabled_nil.store (m := c.module) isSlot.storable
    obtain ⟨slot, slotThere, -⟩ := isSlot
    obtain ⟨null, nullThere, -⟩ := isNull
    have taken := (last.load nullThere).store (housed.storable found)
    exact taken.load slotThere

theorem ExitCode.tabled {i : Instruction} {code : List Instr} (h : ExitCode c function w i code) :
    AllTabled c.module w.storage code := by
  cases h with
  | ret _ quiet => exact quiet.tabled.append (leaving_tabled rfl)
  | unreachable => exact allTabled_nil.behind rfl
  | jump _ jumps => exact jumps.tabled
  | invoke _ _ called isSlot forks =>
    obtain ⟨slot, there, -⟩ := isSlot
    exact called.tabled.append (forks.jumps.tabled.load there)
  | catchSwitch _ _ chain => exact chain.tabled
  | cleanupRet _ _ quiet _ isSlot unwinds =>
    exact quiet.tabled.append (unwinds.tabled.store isSlot.storable)

/-- All that follows the phis of a block uses the table as it may. -/
theorem BodyCode.tabled (housed : Housed c.module c.homes w.storage)
    {instrs : List (Nat × Instruction)} {code : List Instr}
    (h : BodyCode c function w instrs code) : AllTabled c.module w.storage code := by
  induction h with
  | exit exits => exact exits.tabled
  | step _ step _ ih => exact (step.tabled housed).append ih

theorem BlockCode.tabled (housed : Housed c.module c.homes w.storage) {role : Role}
    {code : List Instr} (h : BlockCode c function w role code) :
    AllTabled c.module w.storage code := by
  cases role with
  | source block =>
    obtain ⟨phis, instrs, front, rest, -, -, takes, body, rfl⟩ := h
    refine AllTabled.append ?_ (takes.tabled.append (body.tabled housed))
    rw [entering]
    split
    · exact allTabled_nil.behind rfl
    · exact allTabled_nil
  | detour target => exact EdgeCode.tabled h
  | retry handlers unwind => exact ChainCode.tabled h

/-- Every block of a lowered body uses the table as it may. -/
theorem Shaped.tabled {f : Function} {body : Code.Body} {roles : List Role}
    (shaped : Shaped c function f body roles) {b : Code.Block} (mem : b ∈ body.blocks) :
    AllTabled c.module body.storage b.code := by
  obtain ⟨role, code⟩ := shaped.role_of_mem mem
  exact code.tabled shaped.housed

end Stackwise.Lowering
