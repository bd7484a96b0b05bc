import Stackwise.Proofs.Code.Depth
import Stackwise.Proofs.Lowering.Quiet

/-!
# The shape of lowered code

What lowering writes for an instruction, an edge, a block, as relations between the source and the
code: `EdgeCode`, `StepCode`, `ExitCode`, `BlockCode`.  They say where the jumps, the calls, the
phi markers and the accesses to the exception in flight stand, and that everything between them is
quiet.  What is true of all lowered bodies can then be read off the shapes, without going back to
how bodies are made.

A body has blocks that no source block stands behind.  What such a block is there for, its `Role`,
is settled when it is made, before it is written, and decides what its code looks like
(`BlockCode`); a jump to the block is only written with its role in mind.
-/

namespace Stackwise.Lowering

open Code (Instr Storage)
open Source (Function Instruction Module Opcode Operand)

/-! ## Roles -/

/-- What a block of a lowered body is there for. -/
inductive Role where
  /-- It stands for a source block. -/
  | source (block : Nat)
  /-- It hands over operands to a block, on behalf of a jump that cannot. -/
  | detour (target : Nat)
  /-- It asks about the handlers that are left, since all before them have refused. -/
  | retry (handlers : List Nat) (unwind : Option Nat)
deriving DecidableEq, Repr

/-- What code is judged by: the variables of the body and the roles of its blocks, by label. -/
structure World where
  storage : Storage
  roles : List Role

/-- The second world continues the first. -/
structure World.Later (m : Module) (w w' : World) : Prop where
  storage : w.storage.Grows m w'.storage
  roles : w.roles <+: w'.roles

theorem World.Later.refl (m : Module) (w : World) : w.Later m w :=
  ⟨.refl _ _, List.prefix_rfl⟩

/-- A block keeps its role. -/
theorem World.Later.role {m : Module} {w w' : World} (h : w.Later m w') {label : Nat} {role : Role}
    (found : w.roles[label]? = some role) : w'.roles[label]? = some role := by
  obtain ⟨more, same⟩ := h.roles
  rw [← same, List.getElem?_append_left (List.getElem?_eq_some_iff.1 found).1]
  exact found

/-! ## Edges -/

variable (c : Context) (function : Nat)

/-- The stack type of a phi. -/
def phiType? (phi : Nat) : Option Code.Ty :=
  (c.module.typeOf? phi).bind (c.conventions.lowerType c.module)

/-- The operands for phis, in their order, each pushed and marked. -/
inductive HandOverCode (s : Storage) : List Nat → List Instr → Prop
  | nil : HandOverCode s [] []
  | cons {phi : Nat} {phis : List Nat} {ty : Code.Ty} {pushed rest : List Instr}
      (quiet : AllQuiet c.module s pushed) (typed : phiType? c phi = some ty)
      (later : HandOverCode s phis rest) :
    HandOverCode s (phi :: phis) (pushed ++ .phiEnqueue ty :: rest)

/-- Phis that take their operands over, in the given order. -/
inductive TakeOverCode (s : Storage) : List Nat → List Instr → Prop
  | nil : TakeOverCode s [] []
  | cons {phi : Nat} {phis : List Nat} {ty : Code.Ty} {var : Nat} {rest : List Instr}
      (typed : phiType? c phi = some ty) (writable : Writable c.module s var)
      (later : TakeOverCode s phis rest) :
    TakeOverCode s (phi :: phis) (.phiDequeue ty :: .store var :: rest)

/-- An edge: the operands for the phis of its target, then the jump. -/
def EdgeCode (s : Storage) (target : Nat) (code : List Instr) : Prop :=
  ∃ phis front, c.module.leadingPhis? function target = some phis ∧
    HandOverCode c s phis front ∧ code = front ++ [.branch target]

/-- A jump to the label leads to the block: to the block itself, if it has no phis, or to a detour
made for it. -/
def LeadsTo (w : World) (label target : Nat) : Prop :=
  (label = target ∧ c.module.startsWithPhi? function target = some false) ∨
    w.roles[label]? = some (.detour target)

/-- Quiet code and conditional jumps, then an edge. -/
def JumpCode (w : World) (code : List Instr) : Prop :=
  ∃ front target last, code = front ++ last ∧
    (∀ i ∈ front, Quiet c.module w.storage i ∨ (i.isConditional = true ∧
      ∀ label ∈ i.targets, ∃ block, LeadsTo c function w label block)) ∧
    EdgeCode c function w.storage target last

/-- A branch on the value on top of the stack. -/
inductive ForkCode (w : World) (ifTrue ifFalse : Nat) : List Instr → Prop
  | onTrue {label : Nat} {last : List Instr} (leads : LeadsTo c function w label ifTrue)
      (edge : EdgeCode c function w.storage ifFalse last) :
    ForkCode w ifTrue ifFalse (.branchIfTrue label :: last)
  | onFalse {last : List Instr} (plain : c.module.startsWithPhi? function ifFalse = some false)
      (edge : EdgeCode c function w.storage ifTrue last) :
    ForkCode w ifTrue ifFalse (.branchIfFalse ifFalse :: last)

/-! ## Returns and unwinding -/

/-- A return, behind the end of the frame if there is one. -/
def leaving (i : Instr) : List Instr := if c.needsFrame then [.leaveFrame, i] else [i]

/-- Where unwinding goes on: in another block, or out of the function. -/
def UnwindCode (s : Storage) : Option Nat → List Instr → Prop
  | some target, code => EdgeCode c function s target code
  | none, code => code = leaving c (.retDefault c.returns)

/-- The question for the first of the handlers, with the edge to it and a jump to the block that
goes on with the others; or what happens when there is none left. -/
def ChainCode (w : World) : List Nat → Option Nat → List Instr → Prop
  | [], unwind, code => UnwindCode c function w.storage unwind code
  | handler :: rest, unwind, code => ∃ f routine before next last,
    c.module.function? function = some f ∧ f.personality = some routine ∧
    AllQuiet c.module w.storage before ∧ w.roles[next]? = some (.retry rest unwind) ∧
    EdgeCode c function w.storage handler last ∧
    code = before ++ .call (.function routine) personalitySignature :: .branchIfTrue next :: last

/-- The block behind which a choice between handlers unwinds. -/
def unwindOf? (operands : List Operand) (hasUnwind : Bool) : Option Nat :=
  if hasUnwind then operands.getLast?.bind Operand.block? else none

/-! ## Calls and accesses to the exception in flight -/

/-- The instruction that calls a callee. -/
inductive CallInstr (callee : Nat) : Instr → Prop
  | direct {target : Nat} (named : c.module.calleeFunction? callee = some target)
      (sig : Code.Signature) : CallInstr callee (.call (.function target) sig)
  | indirect (unknown : c.module.calleeFunction? callee = none) (sig : Code.Signature) :
    CallInstr callee (.callIndirect sig)

/-- A call between quiet code. -/
def CallCode (s : Storage) (callee : Nat) (code : List Instr) : Prop :=
  ∃ before call after, AllQuiet c.module s before ∧ CallInstr c callee call ∧
    AllQuiet c.module s after ∧ code = before ++ call :: after

/-- The check behind a call that may leave an exception in flight. -/
def checkOf (callee : Nat) : List Instr :=
  if c.mayThrow && calleeMayThrow c callee then [.retIfPending c.returns c.needsFrame] else []

/-- The variable stands for a place. -/
def HasPlace (s : Storage) (place : Code.Place) (var : Nat) : Prop :=
  ∃ v, s.get? var = some v ∧ v.place = place

/-- The variable stands for the exception that is none. -/
def IsNull (s : Storage) (var : Nat) : Prop :=
  ∃ v, s.get? var = some v ∧ v.place = .constant .null ∧ v.ty = .exceptionInfo

/-! ## Instructions -/

/-- The code of an instruction that does not end its block. -/
inductive StepCode (s : Storage) (id : Nat) (i : Instruction) : List Instr → Prop
  | quiet {code : List Instr} (notPad : isPad i.opcode = false)
      (quiet : AllQuiet c.module s code) : StepCode s id i code
  | call {functionType callee : Nat} {code : List Instr} (opcode : i.opcode = .call functionType)
      (last : i.operands.getLast? = some (.value callee)) (called : CallCode c s callee code) :
    StepCode s id i (code ++ checkOf c callee)
  | pad {slot var null : Nat} (isPad : isPad i.opcode = true)
      (isSlot : HasPlace s .exceptionSlot slot) (found : c.homes.results.find? id = some var)
      (isNull : IsNull s null) :
    StepCode s id i [.load slot, .store var, .load null, .store slot]

/-- Whether an operation ends its block by going to one of its operands. -/
def isBranch : Opcode → Bool
  | .br | .switch | .catchRet => true
  | _ => false

/-- The code of an instruction that ends its block. -/
inductive ExitCode (w : World) (i : Instruction) : List Instr → Prop
  | ret {pushed : List Instr} (opcode : i.opcode = .ret)
      (quiet : AllQuiet c.module w.storage pushed) (hasValue : Bool) :
    ExitCode w i (pushed ++ leaving c (.ret hasValue))
  | unreachable (opcode : i.opcode = .unreachable) : ExitCode w i [.unreachable]
  | jump {code : List Instr} (opcode : isBranch i.opcode = true)
      (jumps : JumpCode c function w code) : ExitCode w i code
  | invoke {functionType normal unwind callee slot : Nat} {args : List Nat}
      {before last : List Instr} (opcode : i.opcode = .invoke functionType)
      (operands : readInvoke? i.operands = some (args, normal, unwind, callee))
      (called : CallCode c w.storage callee before)
      (isSlot : HasPlace w.storage .exceptionSlot slot)
      (forks : ForkCode c function w unwind normal last) :
    ExitCode w i (before ++ .load slot :: last)
  | catchSwitch {hasUnwind : Bool} {handlers : List Nat} {code : List Instr}
      (opcode : i.opcode = .catchSwitch hasUnwind)
      (operands : handlers? i.operands hasUnwind = some handlers)
      (chain : ChainCode c function w handlers (unwindOf? i.operands hasUnwind) code) :
    ExitCode w i code
  | cleanupRet {pad slot : Nat} {before last : List Instr} (opcode : i.opcode = .cleanupRet)
      (operand : i.valueAt? 0 = some pad) (quiet : AllQuiet c.module w.storage before)
      (restores : ∀ j, c.module.instruction? pad = some j → isPad j.opcode = true →
        ∃ var, c.homes.results.find? pad = some var ∧ before = [.load var])
      (isSlot : HasPlace w.storage .exceptionSlot slot)
      (unwinds : UnwindCode c function w.storage (i.blockAt? 1) last) :
    ExitCode w i (before ++ .store slot :: last)

/-! ## Blocks -/

/-- The code of instructions up to the one that ends their block. -/
inductive BodyCode (w : World) : List (Nat × Instruction) → List Instr → Prop
  | exit {id : Nat} {i : Instruction} {code : List Instr} (exits : ExitCode c function w i code) :
    BodyCode w [(id, i)] code
  | step {id : Nat} {i : Instruction} {rest : List (Nat × Instruction)} {here more : List Instr}
      (goesOn : i.opcode.isTerminator = false) (step : StepCode c w.storage id i here)
      (later : BodyCode w rest more) : BodyCode w ((id, i) :: rest) (here ++ more)

/-- The start of the frame, in the first block of a body that has one. -/
def entering (block : Nat) : List Instr :=
  if block == 0 && c.needsFrame then [.enterFrame] else []

/-- The code of a block with a role. -/
def BlockCode (w : World) : Role → List Instr → Prop
  | .source block, code => ∃ phis instrs opening rest,
    c.module.leadingPhis? function block = some phis ∧
    c.module.blockInstructions? function block = some instrs ∧
    TakeOverCode c w.storage phis.reverse opening ∧
    BodyCode c function w (instrs.drop phis.length) rest ∧
    code = entering c block ++ (opening ++ rest)
  | .detour target, code => EdgeCode c function w.storage target code
  | .retry handlers unwind, code => ChainCode c function w handlers unwind code

/-! ## Code that has these shapes -/

section

open Emit (Quietly Writes Yields)

variable {c} {function} {s : Ledger}

/-- Quiet code may be put in front of code with the property. -/
def Absorbs (m : Module) (Q : Storage → List Instr → Prop) : Prop :=
  ∀ final front rest, AllQuiet m final front → Q final rest → Q final (front ++ rest)

/-- A step behind one that writes quiet code. -/
theorem Absorbs.bind {α β : Type} {x : Emit α} {f : α → Emit β} {P : α → Storage → Prop}
    {Q : Storage → List Instr → Prop} (absorbs : Absorbs c.module Q) (first : Yields c s x P)
    (second : ∀ a (s' : Ledger), s.Grows c.module s' → P a s' → Writes c s' (f a) Q) :
    Writes c s (x >>= f) Q := by
  refine Emit.Ensures.bind first fun e ⟨grown, quiet, holds⟩ => ?_
  refine Emit.Ensures.imp (second e.value e.storage grown holds) fun e' ⟨grown', written⟩ => ?_
  refine ⟨grown.trans grown', fun final later => ?_⟩
  exact absorbs final _ _ (quiet.grows (grown'.trans later)) (written final later)

/-- A phi has the stack type that its type is lowered to. -/
theorem phiType?_eq_some {phi sourceTy : Nat} {ty : Code.Ty}
    (typed : c.module.typeOf? phi = some sourceTy)
    (lowered : c.conventions.lowerType c.module sourceTy = some ty) : phiType? c phi = some ty := by
  rw [phiType?, typed, Option.bind_some, lowered]

/-- Phis take their operands over in the order in which they are listed. -/
theorem takeOver_shapes {phis : List Nat} (housed : Housed c.module c.homes s)
    (arePhis : ∀ phi ∈ phis, ∃ i, c.module.instruction? phi = some i ∧ i.opcode = .phi) :
    Writes c s (takeOver phis) (TakeOverCode c · phis) := by
  induction phis generalizing s with
  | nil => exact Writes.pure fun _ _ => .nil
  | cons phi rest ih =>
    refine .read (Emit.typeOf_reads _) fun sourceTy typed => ?_
    refine .read (Emit.lowerType_reads _ _ _) fun ty lowered => ?_
    refine .read (Emit.resultOf_reads _) fun result found => ?_
    obtain ⟨i, isInstruction, opcode⟩ := arePhis phi List.mem_cons_self
    have writable := housed.writable isInstruction (by rw [opcode]; rfl) found
    have first : Writes c s (Emit.code [.phiDequeue ty, .store result]) fun final code =>
        code = [.phiDequeue ty, .store result] ∧ Writable c.module final result :=
      Emit.code_writes fun final grown => ⟨rfl, writable.grows grown⟩
    refine Writes.bind first (fun _ s' grown => ih (housed.grows grown)
      fun phi mem => arePhis phi (List.mem_cons_of_mem _ mem)) ?_
    rintro final _ code' _ ⟨rfl, writable⟩ later
    exact .cons (phiType?_eq_some typed lowered) writable later

/-- The operands for phis are pushed and marked one after another. -/
theorem handOver_shapes (housed : Housed c.module c.homes s) (origin : Nat) (phis : List Nat) :
    Writes c s (handOver origin phis) (HandOverCode c · phis) := by
  induction phis generalizing s with
  | nil => exact Writes.pure fun _ _ => .nil
  | cons phi rest ih =>
    refine .read Emit.module_reads fun _ _ => ?_
    split
    · refine Writes.bind (push_quietly _ housed).writes (Q := fun final code =>
        ∃ ty more, phiType? c phi = some ty ∧ HandOverCode c final rest more ∧
          code = .phiEnqueue ty :: more) (fun _ s' grown => ?_) ?_
      · refine .read (Emit.typeOf_reads _) fun sourceTy typed => ?_
        refine .read (Emit.lowerType_reads _ _ _) fun ty lowered => ?_
        refine Writes.bind (Emit.instr_writes (Q := fun _ code => code = [.phiEnqueue ty])
          fun _ _ => rfl) (fun _ _ grown' => ih (housed.grows (grown.trans grown'))) ?_
        rintro final _ more _ rfl later
        exact ⟨ty, more, phiType?_eq_some typed lowered, later, rfl⟩
      · rintro final pushed _ _ quiet ⟨ty, more, typed, later, rfl⟩
        exact .cons quiet typed later
    · exact Emit.breach_ensures _ _

/-- An edge hands over the operands for the phis of its target and jumps. -/
theorem edge_shapes (housed : Housed c.module c.homes s) (source : SourceBlock) (target : Nat) :
    Writes c s (edge source target) (EdgeCode c source.function · target) := by
  refine .read Emit.module_reads fun _ same => ?_
  refine .read (Emit.required_reads _) fun phis leading => ?_
  rw [same] at leading
  refine Writes.bind (handOver_shapes housed _ _) (fun _ _ _ =>
    Emit.instr_writes (Q := fun _ code => code = [.branch target]) fun _ _ => rfl) ?_
  rintro final front _ _ hands rfl
  exact ⟨phis, front, leading, hands, rfl⟩

/-! ### Returns -/

/-- A return, behind the end of the frame. -/
theorem leaving_shapes (i : Instr) :
    Writes c s (do leaveFrame; Emit.instr i) fun _ code => code = leaving c i := by
  have framed : Writes c s leaveFrame fun _ code =>
      code = if c.needsFrame then [.leaveFrame] else [] := by
    refine .read Emit.context_reads fun _ same => ?_
    rw [same]
    split
    · exact Emit.instr_writes fun _ _ => rfl
    · exact Writes.pure fun _ _ => rfl
  refine Writes.bind framed (fun _ _ _ => Emit.instr_writes (Q := fun _ code => code = [i])
    fun _ _ => rfl) ?_
  rintro final _ _ _ rfl rfl
  rw [leaving]
  split <;> rfl

/-- The default return leaves the frame, if there is one, before it returns. -/
theorem returnDefault_shapes :
    Writes c s returnDefault fun _ code => code = leaving c (.retDefault c.returns) := by
  refine Emit.Ensures.imp ?_ fun _ h => h
  have same : (returnDefault : Emit Unit) c = (do leaveFrame; Emit.instr (.retDefault c.returns) :
      Emit Unit) c := rfl
  intro spot e run
  rw [same] at run
  exact leaving_shapes _ run

/-- A return pushes its value, if it has one, and leaves the frame before it returns. -/
theorem lowerRet_shapes (housed : Housed c.module c.homes s) (i : Instruction) :
    Writes c s (lowerRet i) fun final code => ∃ pushed hasValue, AllQuiet c.module final pushed ∧
      code = pushed ++ leaving c (.ret hasValue) := by
  unfold lowerRet
  dsimp only
  split
  · refine Writes.bind (push_quietly _ housed).writes (fun _ _ _ => leaving_shapes _) ?_
    rintro final pushed _ _ quiet rfl
    exact ⟨pushed, _, quiet, rfl⟩
  · exact Writes.imp (leaving_shapes _) fun final code _ same => ⟨[], _, allQuiet_nil, same⟩

/-! ### Calls -/

theorem callCode_absorbs (callee : Nat) : Absorbs c.module (CallCode c · callee) := by
  rintro final front _ quiet ⟨before, call, after, quiet', calls, quiet'', rfl⟩
  exact ⟨front ++ before, call, after, quiet.append quiet', calls, quiet'', by
    rw [List.append_assoc]⟩

section

variable {id : Nat} {i : Instruction} (isInstruction : c.module.instruction? id = some i)
  (notPad : isPad i.opcode = false) (housed : Housed c.module c.homes s)

include isInstruction notPad housed

/-- The call instruction, with what is done with the result behind it. -/
theorem storedCall_shapes {callee : Nat} {call : Instr} (calls : CallInstr c callee call) :
    Writes c s (do
      Emit.instr call
      match c.homes.results.find? id with
      | some result => Emit.instr (.store result)
      | none => return) (CallCode c · callee) := by
  refine Writes.bind (Q := AllQuiet c.module)
    (Emit.instr_writes (Q := fun _ code => code = [call]) fun _ _ => rfl) (fun _ _ grown => ?_) ?_
  · split
    · rename_i result found
      have quiet : Quiet c.module _ (.store result) :=
        (housed.grows grown).writable isInstruction notPad found
      exact (Emit.instr_quietly quiet).writes
    · exact (Quietly.pure _).writes
  · rintro final _ after _ rfl quiet
    exact ⟨[], call, after, allQuiet_nil, calls, quiet, rfl⟩

/-- A callee that is not known by name is pushed behind the arguments. -/
theorem calleeCall_shapes (callee : Nat) (sig : Code.Signature) :
    Writes c s (do
      match c.module.calleeFunction? callee with
      | some function => Emit.instr (.call (.function function) sig)
      | none =>
        push callee
        Emit.instr (.callIndirect sig)
      match c.homes.results.find? id with
      | some result => Emit.instr (.store result)
      | none => return) (CallCode c · callee) := by
  dsimp only
  split
  · rename_i named
    exact storedCall_shapes isInstruction notPad housed (.direct named sig)
  · rename_i unknown
    refine (callCode_absorbs callee).bind (push_quietly callee housed) fun _ _ grown _ => ?_
    exact storedCall_shapes isInstruction notPad (housed.grows grown) (.indirect unknown sig)

/-- A call pushes its arguments, calls, and stores its result. -/
theorem emitCall_shapes (callee : Nat) (args : List Nat) (functionType : Nat) :
    Writes c s (emitCall id callee args functionType) (CallCode c · callee) := by
  refine .read Emit.context_reads fun _ same => ?_
  rw [same]
  refine .read (Emit.supported_reads _ _ _ _) fun parts _ => ?_
  dsimp only
  split
  · exact Emit.breach_ensures _ _
  refine .read (Emit.supported_reads _ _ _ _) fun sig _ => ?_
  have called {s' : Ledger} (grown : s.Grows c.module s') :=
    calleeCall_shapes isInstruction notPad (housed.grows grown) callee sig
  split
  · refine (callCode_absorbs callee).bind (packArguments_yields housed _ _)
      fun pack s₁ grown₁ writable => ?_
    have pushed := pushAll_quietly (housed.grows grown₁) (args.take parts.params.length)
    refine (callCode_absorbs callee).bind pushed fun _ s₂ grown₂ _ => ?_
    obtain ⟨v, there, -⟩ := writable.grows grown₂
    have packed : Quietly c s₂ (Emit.instr (.load pack)) := Emit.instr_quietly ⟨v, there⟩
    exact (callCode_absorbs callee).bind packed fun _ _ grown₃ _ =>
      called ((grown₁.trans grown₂).trans grown₃)
  · exact (callCode_absorbs callee).bind (pushAll_quietly housed _) fun _ _ grown _ => called grown

end

/-- Behind a call that may leave an exception in flight, there is a check. -/
theorem lowerCall_shapes (housed : Housed c.module c.homes s) {id : Nat} {i : Instruction}
    (isInstruction : c.module.instruction? id = some i) {functionType : Nat}
    (opcode : i.opcode = .call functionType) :
    Writes c s (lowerCall id i functionType) (StepCode c · id i) := by
  have notPad : isPad i.opcode = false := by rw [opcode]; rfl
  unfold lowerCall
  split
  · exact Emit.breach_ensures _ _
  rename_i operands read
  split
  · exact Emit.breach_ensures _ _
  rename_i callee last
  have isLast : i.operands.getLast? = some (.value callee) := by
    have same := congrArg List.getLast? (mapM_eq_some_iff.1 read)
    rw [List.getLast?_map, List.getLast?_map, last, Option.map_some,
      Option.map_eq_some_iff] at same
    obtain ⟨operand, there, isValue⟩ := same
    rw [there]
    cases operand with
    | value id => cases isValue; rfl
    | _ => cases isValue
  refine .read Emit.context_reads fun _ same => ?_
  rw [same]
  split
  · exact (startList_quietly housed _ _).writes.imp fun _ _ _ => .quiet notPad
  · exact Writes.pure fun _ _ => .quiet notPad allQuiet_nil
  · have checked {s' : Ledger} : Writes c s' (if c.mayThrow && calleeMayThrow c callee then
        Emit.instr (.retIfPending c.returns c.needsFrame) else pure ())
        fun _ code => code = checkOf c callee := by
      unfold checkOf
      split
      · exact Emit.instr_writes fun _ _ => rfl
      · exact Writes.pure fun _ _ => rfl
    refine Writes.bind (emitCall_shapes isInstruction notPad housed callee _ functionType)
      (fun _ _ _ => checked) ?_
    rintro final code _ _ called rfl
    exact .call opcode isLast called

/-! ### Handlers and cleanups -/

/-- A variable stands for its place also when the table has grown. -/
theorem HasPlace.grows {m : Source.Module} {s s' : Storage} {place : Code.Place} {var : Nat}
    (h : HasPlace s place var) (grown : s.Grows m s') : HasPlace s' place var := by
  obtain ⟨v, there, same⟩ := h
  exact ⟨v, grown.get?_eq_some there, same⟩

/-- A step behind the choice of a variable for a shared place. -/
theorem behindShared_shapes {β : Type} {place : Code.Place} (unframed : place.isFrameField = false)
    {ty : Code.Ty} {f : Nat → Emit β} {Q : Storage → List Instr → Prop}
    (second : ∀ var (s' : Ledger), s.Grows c.module s' →
      (∃ v, s'.get? var = some v ∧ isShared place ty v = true) → Writes c s' (f var) Q) :
    Writes c s (Emit.shared place ty >>= f) Q := by
  refine Emit.Ensures.bind (Emit.shared_ensures unframed ty) fun e ⟨nothing, grown, there⟩ => ?_
  refine Emit.Ensures.imp (second e.value e.storage grown there) fun e' ⟨grown', holds⟩ => ?_
  rw [nothing]
  exact ⟨grown.trans grown', holds⟩

/-- A step behind the choice of a variable for the exception in flight. -/
theorem behindSlot_shapes {β : Type} {f : Nat → Emit β} {Q : Storage → List Instr → Prop}
    (second : ∀ slot (s' : Ledger), s.Grows c.module s' → HasPlace s' .exceptionSlot slot →
      Writes c s' (f slot) Q) : Writes c s (Emit.exceptionSlot >>= f) Q := by
  refine behindShared_shapes rfl fun slot s' grown ⟨v, there, hit⟩ => ?_
  simp only [isShared, Bool.and_true, beq_iff_eq] at hit
  exact second slot s' grown ⟨v, there, hit⟩

theorem loadNull_shapes : Writes c s (Emit.constant .null .exceptionInfo) fun final code =>
    ∃ null, IsNull final null ∧ code = [.load null] := by
  refine behindShared_shapes rfl fun null s' _ ⟨v, there, hit⟩ =>
    Emit.instr_writes fun final grown => ?_
  simp only [isShared, Bool.and_eq_true, beq_iff_eq] at hit
  exact ⟨null, ⟨v, grown.get?_eq_some there, hit⟩, rfl⟩

/-- A pad moves the exception in flight to its own variable and clears the slot. -/
theorem lowerPad_shapes {id : Nat} {i : Instruction} (pad : isPad i.opcode = true) :
    Writes c s (lowerPad id) (StepCode c · id i) := by
  refine behindSlot_shapes fun slot s₁ grown₁ isSlot => ?_
  refine .read (Emit.resultOf_reads _) fun var found => ?_
  have moved : Writes c s₁ (Emit.code [.load slot, .store var]) fun final code =>
      code = [.load slot, .store var] ∧ HasPlace final .exceptionSlot slot :=
    Emit.code_writes fun final grown => ⟨rfl, isSlot.grows grown⟩
  refine Writes.bind moved (Q := fun final code => ∃ null, IsNull final null ∧
    code = [.load null, .store slot]) (fun _ s₂ grown₂ => ?_) ?_
  · refine Writes.bind loadNull_shapes (fun _ _ _ => Emit.instr_writes
      (Q := fun _ code => code = [.store slot]) fun _ _ => rfl) ?_
    rintro final _ _ _ ⟨null, isNull, rfl⟩ rfl
    exact ⟨null, isNull, rfl⟩
  · rintro final _ _ _ ⟨rfl, isSlot⟩ ⟨null, isNull, rfl⟩
    exact .pad pad isSlot found isNull

/-- The value of a pad is read from its variable. -/
theorem pushPad_shapes (housed : Housed c.module c.homes s) {pad : Nat} {j : Instruction}
    (isInstruction : c.module.instruction? pad = some j) (isPad : isPad j.opcode = true) :
    Writes c s (push pad) fun _ code =>
      ∃ var, c.homes.results.find? pad = some var ∧ code = [.load var] := by
  refine .read (Emit.sourceValue_reads _) fun v found => ?_
  have kind : v.instruction? = some j := by
    rwa [Source.Module.instruction?, found, Option.bind_some] at isInstruction
  cases v with
  | mk ty kind' name =>
    cases kind' with
    | instruction j' =>
      refine .read Emit.context_reads fun _ same => ?_
      rw [same]
      split
      · rename_i found
        obtain ⟨-, i, allocated, isInstruction', isAlloca⟩ := housed.allocation found
        cases isInstruction.symm.trans isInstruction'
        rw [isAlloca] at isPad
        cases isPad
      · refine .read (Emit.resultOf_reads _) fun var there => ?_
        exact Emit.instr_writes fun _ _ => ⟨var, there, rfl⟩
    | _ => cases kind

/-- A handler ends with an edge. -/
theorem lowerCatchRet_shapes (housed : Housed c.module c.homes s) (source : SourceBlock) (id : Nat)
    (i : Instruction) : Writes c s (lowerCatchRet source id i) fun final code =>
      ∃ front target last, code = front ++ last ∧ AllQuiet c.module final front ∧
        EdgeCode c source.function final target last := by
  have absorbs : Absorbs c.module fun final code => ∃ front target last, code = front ++ last ∧
      AllQuiet c.module final front ∧ EdgeCode c source.function final target last := by
    rintro final pushed _ quiet ⟨front, target, last, rfl, quiet', edge⟩
    exact ⟨pushed ++ front, target, last, by rw [List.append_assoc], quiet.append quiet', edge⟩
  unfold lowerCatchRet
  split
  · rename_i pad target _ _
    refine absorbs.bind (push_quietly _ housed) fun _ s₁ grown₁ _ => ?_
    refine absorbs.bind (Emit.helper_quietly _) fun _ s₂ grown₂ _ => ?_
    refine (edge_shapes (housed.grows (grown₁.trans grown₂)) source target).imp ?_
    exact fun final last _ edge => ⟨[], target, last, rfl, allQuiet_nil, edge⟩
  · exact Emit.breach_ensures _ _

/-- Unwinding goes on along an edge, or leaves the function with the default value. -/
theorem unwind_shapes (housed : Housed c.module c.homes s) (source : SourceBlock)
    (target? : Option Nat) : Writes c s (match target? with
      | some target => edge source target
      | none => returnDefault) (UnwindCode c source.function · target?) := by
  cases target? with
  | none => exact returnDefault_shapes
  | some target => exact edge_shapes housed source target

/-- A cleanup ends by putting its exception back in flight and unwinding. -/
theorem lowerCleanupRet_shapes (housed : Housed c.module c.homes s) (source : SourceBlock)
    (id : Nat) (i : Instruction) (opcode : i.opcode = .cleanupRet) :
    Writes c s (lowerCleanupRet source id i) fun final code =>
      ∀ roles, ExitCode c source.function ⟨final, roles⟩ i code := by
  unfold lowerCleanupRet
  split
  · rename_i pad operand
    refine behindSlot_shapes fun slot s₁ grown₁ isSlot => ?_
    have housed := housed.grows grown₁
    -- What is put back, and what is known about it if the operand is a pad.
    have restored : Writes c s₁ (push pad) fun final before => AllQuiet c.module final before ∧
        ∀ j, c.module.instruction? pad = some j → isPad j.opcode = true →
          ∃ var, c.homes.results.find? pad = some var ∧ before = [.load var] := by
      intro spot e run
      obtain ⟨grown, quiet⟩ := (push_quietly pad housed).writes run
      refine ⟨grown, fun final later => ⟨quiet final later, fun j isInstruction pads => ?_⟩⟩
      exact (pushPad_shapes housed isInstruction pads run).2 final later
    refine Writes.bind restored (Q := fun final code => ∃ last,
      HasPlace final .exceptionSlot slot ∧ UnwindCode c source.function final (i.blockAt? 1) last ∧
      code = .store slot :: last) (fun _ s₂ grown₂ => ?_) ?_
    · refine Writes.bind (Emit.instr_writes (Q := fun final code =>
        HasPlace final .exceptionSlot slot ∧ code = [.store slot])
        fun final grown => ⟨isSlot.grows (grown₂.trans grown), rfl⟩)
        (fun _ _ grown₃ => unwind_shapes (housed.grows (grown₂.trans grown₃)) source _) ?_
      rintro final _ last _ ⟨isSlot, rfl⟩ unwinds
      exact ⟨last, isSlot, unwinds, rfl⟩
    · rintro final before _ _ ⟨quiet, restores⟩ ⟨last, isSlot, unwinds, rfl⟩ roles
      exact .cleanupRet opcode operand quiet restores isSlot unwinds
  · exact Emit.breach_ensures _ _

/-! ### Switches -/

/-- Quiet code and conditional jumps to the labels of cases. -/
def DispatchCode (m : Source.Module) (cases : List Case) (s : Storage) (code : List Instr) : Prop :=
  ∀ i ∈ code, Quiet m s i ∨
    (i.isConditional = true ∧ ∀ label ∈ i.targets, ∃ k ∈ cases, label = k.label)

theorem DispatchCode.append {m : Source.Module} {cases : List Case} {s : Storage}
    {code code' : List Instr}
    (h : DispatchCode m cases s code) (h' : DispatchCode m cases s code') :
    DispatchCode m cases s (code ++ code') :=
  List.forall_mem_append.2 ⟨h, h'⟩

/-- Quiet code may stand in front of a dispatch. -/
theorem dispatchCode_absorbs (m : Source.Module) (cases : List Case) :
    Absorbs m (DispatchCode m cases) :=
  fun _ _ _ quiet later => List.forall_mem_append.2 ⟨fun i mem => .inl (quiet i mem), later⟩

theorem DispatchCode.mono {m : Source.Module} {cases cases' : List Case} {s : Storage}
    {code : List Instr} (h : DispatchCode m cases s code) (more : cases ⊆ cases') :
    DispatchCode m cases' s code := by
  intro i mem
  refine (h i mem).imp_right fun ⟨conditional, targets⟩ => ⟨conditional, fun label there => ?_⟩
  obtain ⟨k, known, same⟩ := targets label there
  exact ⟨k, more known, same⟩

/-- The comparisons with the cases jump to the labels of cases only. -/
theorem compareCases_shapes (housed : Housed c.module c.homes s) (index ty id : Nat)
    (cases : List Case) (isVariable : ∃ v, s.get? index = some v) :
    Writes c s (compareCases index ty id cases) (DispatchCode c.module cases) := by
  induction cases generalizing s with
  | nil => exact Writes.pure fun _ _ => List.forall_mem_nil _
  | cons k rest ih =>
    obtain ⟨v, there⟩ := isVariable
    have absorbs := dispatchCode_absorbs c.module (k :: rest)
    have jumps {s' : Ledger} : Writes c s' (Emit.instr (.branchIfEqual k.label))
        (DispatchCode c.module (k :: rest)) :=
      Emit.instr_writes fun _ _ => List.forall_mem_singleton.2 <| .inr
        ⟨rfl, List.forall_mem_singleton.2 ⟨k, List.mem_cons_self, rfl⟩⟩
    have loaded : Quietly c s (Emit.instr (.load index)) := Emit.instr_quietly ⟨v, there⟩
    refine absorbs.bind loaded fun _ s₁ grown₁ _ => ?_
    have housed := housed.grows grown₁
    refine absorbs.bind (pushInt_quietly housed _ _ _) fun _ s₂ grown₂ _ => ?_
    refine Writes.bind jumps (fun _ s₃ grown₃ => ih (housed.grows (grown₂.trans grown₃)) ⟨v, ?_⟩) ?_
    · exact ((grown₁.trans grown₂).trans grown₃).get?_eq_some there
    · exact fun _ _ _ _ first later => first.append (later.mono (List.subset_cons_self _ _))

theorem dispatch_shapes (housed : Housed c.module c.homes s) (index ty bits id : Nat)
    (cases : List Case) :
    Writes c s (dispatch index ty bits id cases) (DispatchCode c.module cases) := by
  have absorbs := dispatchCode_absorbs c.module cases
  unfold dispatch
  split
  · refine absorbs.bind (push_quietly _ housed) fun _ _ _ _ => ?_
    refine Emit.instr_writes fun _ _ => List.forall_mem_singleton.2 <| .inr ⟨rfl, ?_⟩
    intro label mem
    obtain ⟨k, known, same⟩ := List.mem_map.1 mem
    exact ⟨k, known, same.symm⟩
  · refine .read (Emit.lowerType_reads _ _ _) fun _ _ => ?_
    refine absorbs.bind (Emit.freshSlot_yields _ nofun) fun copy s₁ grown₁ writable => ?_
    refine absorbs.bind (push_quietly _ (housed.grows grown₁)) fun _ s₂ grown₂ _ => ?_
    have writable := writable.grows grown₂
    refine absorbs.bind (Emit.instr_quietly writable) fun _ s₃ grown₃ _ => ?_
    obtain ⟨v, there, -⟩ := writable.grows grown₃
    have housed := housed.grows ((grown₁.trans grown₂).trans grown₃)
    exact compareCases_shapes housed copy ty id cases ⟨v, there⟩

end

end Stackwise.Lowering
