import Stackwise.Proofs.Lowering.CellMachine

/-!
# Variadic calls are given the right arguments

A call passes its fixed arguments on the stack and a view of its trailing ones above them, and so
does the question whether a handler accepts, which has trailing arguments only.  The pack is made
before the fixed arguments are pushed, and pushing them leaves it alone.

* `VariadicCode` is the code of a call up to the instruction that calls, and `VariadicCode.runs`
  says what is on the stack there.
* `Chain` lists the tests of handlers in a finished body, each in its own block, and `Choice` adds
  what happens behind them; `lowerCatchSwitch_chains` says that this is what is written.
* `Passes` says of code that it passes arguments, and `arguments_packed` that all calls have such
  code before them.
-/

namespace Stackwise.Lowering

open Code (Instr Machine Storage)
open Source (Instruction Module Operand)

/-! ## The code of a call -/

/-- Code that pushes values in order, and writes only to variables from `floor` on. -/
inductive ArgumentCode (c : Context) (final : Storage) (floor : Nat) :
    List Nat → List Instr → Prop
  | nil : ArgumentCode c final floor [] []
  | cons {a : Nat} {args : List Nat} {code rest : List Instr}
      (pushed : PushedFrom c final floor a code) (later : ArgumentCode c final floor args rest) :
    ArgumentCode c final floor (a :: args) (code ++ rest)

/-- The instruction that calls a callee, behind the code that pushes a callee which is not known by
name. -/
inductive CalleeCode (c : Context) (final : Storage) (floor callee : Nat) (sig : Code.Signature) :
    List Instr → Instr → Prop
  | direct {function : Nat} (named : c.module.calleeFunction? callee = some function) :
    CalleeCode c final floor callee sig [] (.call (.function function) sig)
  | indirect {code : List Instr} (unknown : c.module.calleeFunction? callee = none)
      (pushed : PushedFrom c final floor callee code) :
    CalleeCode c final floor callee sig code (.callIndirect sig)

/-- The code of a call with a pack, up to the instruction that calls. -/
inductive VariadicCode (c : Context) (final : Storage) (floor callee : Nat) (sig : Code.Signature)
    (fixed trailing : List Nat) : List Instr → Instr → Prop
  | intro {pack top : Nat} {packed pushed last : List Instr} {call : Instr}
      (packs : PackCode c final floor trailing pack packed top)
      (pushes : ArgumentCode c final top fixed pushed)
      (calls : CalleeCode c final top callee sig last call) :
    VariadicCode c final floor callee sig fixed trailing (packed ++ (pushed ++ .load pack :: last))
      call

/-- Code that begins with a call with a pack, in which `count` arguments are fixed. -/
def VariadicCall (c : Context) (final : Storage) (floor functionType callee count : Nat)
    (args : List Nat) (code : List Instr) : Prop :=
  count ≤ args.length ∧ ∃ sig before call after,
    c.conventions.signature c.module functionType = some sig ∧
    VariadicCode c final floor callee sig (args.take count) (args.drop count) before call ∧
    code = before ++ call :: after

section Writing

open Emit (Lays Writes)

variable {c : Context}

theorem pushAll_lays (s : Ledger) {floor : Nat} (reached : floor ≤ s.size) (values : List Nat) :
    Lays c s (pushAll values) fun final _ _ code => ArgumentCode c final floor values code := by
  induction values generalizing s with
  | nil => exact Lays.pure fun _ _ => .nil
  | cons value rest ih =>
    refine Lays.after (push_writes_pushedFrom reached value) fun _ s₁ code grown => ?_
    exact (ih s₁ (Nat.le_trans reached grown.size_le)).imp fun final _ _ _ later pushed =>
      .cons pushed later

/-- The call instruction, behind the code for its callee and before what is done with the result. -/
theorem calleeCall_lays (s : Ledger) {floor : Nat} (reached : floor ≤ s.size) (id callee : Nat)
    (sig : Code.Signature) : Lays c s (do
      match c.module.calleeFunction? callee with
      | some function => Emit.instr (.call (.function function) sig)
      | none =>
        push callee
        Emit.instr (.callIndirect sig)
      match c.homes.results.find? id with
      | some result => Emit.instr (.store result)
      | none => return) fun final _ _ code => ∃ last call after,
        CalleeCode c final floor callee sig last call ∧ code = last ++ call :: after := by
  have stored (s : Ledger) : Lays c s (do
      match c.homes.results.find? id with
      | some result => Emit.instr (.store result)
      | none => return) fun _ _ _ _ => True := by
    split
    · exact Emit.instr_writes (Q := fun _ _ => True) fun _ _ => trivial
    · exact Lays.pure fun _ _ => trivial
  dsimp only
  split
  · rename_i named
    exact Lays.instr ((stored s).imp fun _ _ _ after _ => ⟨[], _, after, .direct named, rfl⟩)
  · rename_i unknown
    refine Lays.after (push_writes_pushedFrom reached callee) fun _ s₁ code _ => ?_
    exact Lays.instr ((stored s₁).imp fun _ _ _ after _ pushed =>
      ⟨code, _, after, .indirect unknown pushed, rfl⟩)

/-- A call of a variadic function pushes the fixed arguments and a pack of the others. -/
theorem emitCall_lays (s : Ledger) (id callee : Nat) (args : List Nat) {functionType : Nat}
    {parts : Source.TypePool.FunctionParts}
    (known : c.module.types.functionParts? functionType = some parts)
    (variadic : parts.variadic = true) :
    Lays c s (emitCall id callee args functionType) fun final _ _ code =>
      VariadicCall c final s.size functionType callee parts.params.length args code := by
  refine .read Emit.context_reads fun _ same => ?_
  rw [same, known]
  refine .read (Emit.supported_reads _ _ _ _) fun parts' same => ?_
  cases same
  dsimp only
  split
  · exact Emit.breach_ensures _ _
  rename_i enough
  have enough : parts.params.length ≤ args.length :=
    Nat.le_of_not_lt fun short => enough (.inl short)
  refine .read (Emit.supported_reads _ _ _ _) fun sig signed => ?_
  refine Lays.bind (packArguments_lays s _ id) fun pack s₁ packed grown => ?_
  refine Lays.bind (pushAll_lays s₁ (Nat.le_refl _) _) fun _ s₂ pushed grown₂ => Lays.instr ?_
  refine (calleeCall_lays s₂ grown₂.size_le id callee sig).imp ?_
  rintro final _ top _ ⟨last, call, after, calls, rfl⟩ pushes packs
  refine ⟨enough, sig, _, call, after, signed, .intro packs pushes calls, ?_⟩
  simp only [List.append_assoc, List.cons_append]

theorem VariadicCall.append {final : Storage} {floor functionType callee count : Nat}
    {args : List Nat} {code : List Instr}
    (h : VariadicCall c final floor functionType callee count args code) (more : List Instr) :
    VariadicCall c final floor functionType callee count args (code ++ more) := by
  obtain ⟨enough, sig, before, call, after, signed, isCall, rfl⟩ := h
  refine ⟨enough, sig, before, call, after ++ more, signed, isCall, ?_⟩
  rw [List.append_assoc, List.cons_append]

/-- A call that is not lowered in place. -/
theorem lowerCall_lays (s : Ledger) (id : Nat) {i : Instruction} {operands : List Nat}
    {functionType callee : Nat} {parts : Source.TypePool.FunctionParts}
    (read : i.operands.mapM Operand.value? = some operands)
    (last : operands.getLast? = some callee) (called : listRoutine? c.module callee = none)
    (known : c.module.types.functionParts? functionType = some parts)
    (variadic : parts.variadic = true) :
    Lays c s (lowerCall id i functionType) fun final _ _ code =>
      VariadicCall c final s.size functionType callee parts.params.length operands.dropLast
        code := by
  unfold lowerCall
  rw [read]
  dsimp only
  rw [last]
  refine .read Emit.context_reads fun _ same => ?_
  rw [same, called]
  refine Lays.bind (emitCall_lays s id callee _ known variadic) fun _ s₁ code _ => ?_
  have checked : Lays c s₁ (if (c.mayThrow && calleeMayThrow c callee) = true then
      Emit.instr (.retIfPending c.returns c.needsFrame) else pure ()) fun _ _ _ _ => True := by
    split
    · exact Emit.instr_writes (Q := fun _ _ => True) fun _ _ => trivial
    · exact Lays.pure fun _ _ => trivial
  exact checked.imp fun _ _ _ more _ isCall => isCall.append more

/-- Taking the parameter for the pack writes nothing. -/
theorem packParameter_contained {floor : Nat} (s : Ledger) (origin : Nat)
    (marks : List (Option Nat)) : Emit.Contained c floor s (packParameter origin) marks marks := by
  refine .read Emit.context_reads fun _ _ => ?_
  dsimp only
  split
  · exact Emit.shared_contained rfl _
  · exact .fault (Emit.unsupported_ensures _ _ _)

/-- Starting a list writes only to slots made meanwhile. -/
theorem startList_contained {floor : Nat} (s : Ledger) (id : Nat) (args : List Nat) :
    Emit.Contained c floor s (startList id args) [] [none] := by
  unfold startList
  split
  · refine .bind (packParameter_contained s id []) fun pack s₁ _ => ?_
    refine .bind (push_contained _ s₁ []) fun _ s₂ _ => ?_
    exact .bind (Emit.load_contained pack) fun _ _ _ =>
      Emit.helper_contained .vaStart [none, none] rfl
  · exact .fault (Emit.breach_ensures _ _)

/-- A call that is lowered in place calls no function. -/
theorem lowerCall_inPlace (s : Ledger) (id : Nat) {i : Instruction} {operands : List Nat}
    {callee : Nat} {routine : ListRoutine} (functionType : Nat)
    (read : i.operands.mapM Operand.value? = some operands)
    (last : operands.getLast? = some callee)
    (inPlace : listRoutine? c.module callee = some routine) :
    Writes c s (lowerCall id i functionType) fun _ code => ∀ x ∈ code, x.isLocal = true := by
  unfold lowerCall
  rw [read]
  dsimp only
  rw [last]
  refine .read Emit.context_reads fun _ same => ?_
  rw [same, inPlace]
  cases routine with
  | start =>
    have contained := startList_contained (c := c) s id operands.dropLast (Nat.zero_le _)
    exact Emit.Ensures.imp contained fun e ⟨grown, stays⟩ => ⟨grown, fun _ _ => stays.isLocal⟩
  | finish => exact Writes.pure fun _ _ => List.forall_mem_nil _

/-- The straight-line part of a call with an unwind destination. -/
theorem invokeCall_lays (s : Ledger) (id callee : Nat) (args : List Nat) {functionType : Nat}
    {parts : Source.TypePool.FunctionParts}
    (known : c.module.types.functionParts? functionType = some parts)
    (variadic : parts.variadic = true) :
    Lays c s (do
      emitCall id callee args functionType
      Emit.instr (.load (← Emit.exceptionSlot))) fun final _ _ code =>
        VariadicCall c final s.size functionType callee parts.params.length args code := by
  refine Lays.bind (emitCall_lays s id callee args known variadic) fun _ s₁ code _ => ?_
  have loads : Lays c s₁ (do Emit.instr (.load (← Emit.exceptionSlot))) fun _ _ _ _ => True :=
    (Emit.loadShared_quietly rfl .exceptionInfo).writes.imp fun _ _ _ _ => trivial
  exact loads.imp fun _ _ _ more _ isCall => isCall.append more

end Writing

/-! ## What a call finds on the stack -/

/-- The instruction that calls a callee. -/
def callInstr (m : Module) (callee : Nat) (sig : Code.Signature) : Instr :=
  match m.calleeFunction? callee with
  | some function => .call (.function function) sig
  | none => .callIndirect sig

/-- What is pushed above the arguments: a callee that is not known by name. -/
def calleeOperand (m : Module) (callee : Nat) : List Nat :=
  match m.calleeFunction? callee with
  | some _ => []
  | none => [callee]

theorem CalleeCode.call_eq {c : Context} {final : Storage} {floor callee : Nat}
    {sig : Code.Signature} {code : List Instr} {call : Instr}
    (h : CalleeCode c final floor callee sig code call) : call = callInstr c.module callee sig := by
  cases h with
  | direct named => rw [callInstr, named]
  | indirect unknown => rw [callInstr, unknown]

section Running

variable {V S : Type} {μ : Machine V S} {Ω : Viewing V S} {c : Context} {final : Storage}
  {good : S → Prop} {value : Nat → V} {operands : List Nat} (laws : Views μ Ω final)
  (eval : Evaluates μ Ω c final good value operands)

include laws eval

/-- The values stand on the stack at the end, the last one on top. -/
theorem ArgumentCode.runs {floor : Nat} {args : List Nat} {code : List Instr}
    (h : ArgumentCode c final floor args code) (known : ∀ a ∈ args, a ∈ operands) (stack : List V)
    {store : S} (fine : good store) :
    ∃ store', μ.Strides (HasPlace final .exceptionSlot) code stack store
        ((args.map value).reverse ++ stack) store' ∧
      good store' ∧ SameBelow μ final floor store store' := by
  induction h generalizing stack store with
  | nil => exact ⟨store, .nil, fine, fun _ _ _ => rfl⟩
  | @cons a args code rest pushed later ih =>
    obtain ⟨here, others⟩ := List.forall_mem_cons.1 known
    obtain ⟨store₁, strides, fine₁, same⟩ := eval.push laws here pushed stack fine
    obtain ⟨store₂, strides', fine₂, same'⟩ := ih others (value a :: stack) fine₁
    refine ⟨store₂, ?_, fine₂, same.trans same'⟩
    rw [List.map_cons, List.reverse_cons, List.append_assoc]
    exact strides.append strides'

/-- The callee is pushed, if it has to be, with its value. -/
theorem CalleeCode.runs {floor callee : Nat} {sig : Code.Signature} {code : List Instr}
    {call : Instr} (h : CalleeCode c final floor callee sig code call)
    (known : ∀ a ∈ calleeOperand c.module callee, a ∈ operands) (stack : List V) {store : S}
    (fine : good store) :
    ∃ store', μ.Strides (HasPlace final .exceptionSlot) code stack store
        ((calleeOperand c.module callee).map value ++ stack) store' ∧
      good store' ∧ SameBelow μ final floor store store' := by
  cases h with
  | direct named =>
    rw [calleeOperand, named]
    exact ⟨store, .nil, fine, fun _ _ _ => rfl⟩
  | indirect unknown pushed =>
    rw [calleeOperand, unknown] at known ⊢
    exact eval.push laws (known callee List.mem_cons_self) pushed stack fine

/-- At a call with a pack, the view of the trailing arguments stands above the fixed ones. -/
theorem VariadicCode.runs {floor callee : Nat} {sig : Code.Signature} {fixed trailing : List Nat}
    {code : List Instr} {call : Instr}
    (h : VariadicCode c final floor callee sig fixed trailing code call)
    (knownCallee : ∀ a ∈ calleeOperand c.module callee, a ∈ operands)
    (knownFixed : ∀ a ∈ fixed, a ∈ operands) (knownTrailing : ∀ a ∈ trailing, a ∈ operands)
    (stack : List V) {store : S} (fine : good store) :
    ∃ store' view, μ.Strides (HasPlace final .exceptionSlot) code stack store
        ((calleeOperand c.module callee).map value ++
          view :: ((fixed.map value).reverse ++ stack)) store' ∧
      good store' ∧ Packs μ Ω floor value trailing store' view := by
  cases h with
  | @intro pack top packed pushed last _ packs pushes calls =>
    obtain ⟨store₁, strides₁, fine₁, holds⟩ := packs.runs laws eval knownTrailing stack fine
    obtain ⟨store₂, strides₂, fine₂, same₂⟩ := pushes.runs laws eval knownFixed stack fine₁
    obtain ⟨store₃, strides₃, fine₃, same₃⟩ := calls.runs laws eval knownCallee
      (μ.read store₂ pack :: ((fixed.map value).reverse ++ stack)) fine₂
    refine ⟨store₃, μ.read store₂ pack, ?_, fine₃, ?_⟩
    · exact strides₁.append (strides₂.append ((Machine.Strides.load pack _ store₂).append strides₃))
    · obtain ⟨isTemporary, below⟩ := packs.isTemporary
      rw [← same₃ pack below isTemporary]
      exact holds store₃ (same₂.trans same₃)

end Running

/-! ## Calls -/

/-- The function type, the arguments and the callee of a call, with an unwind destination or
without. -/
def callOf? (i : Instruction) : Option (Nat × List Nat × Nat) :=
  match i.opcode with
  | .call functionType => (i.operands.mapM Operand.value?).bind fun operands =>
    operands.getLast?.map (functionType, operands.dropLast, ·)
  | .invoke functionType =>
    (readInvoke? i.operands).map fun (args, _, _, callee) => (functionType, args, callee)
  | _ => none

section Continuing

variable {c : Context} {source : SourceBlock} {d : Draft}

theorem edge_emits_edgeTo (target : Nat) : Lower.Ensures c d (Lower.emit (edge source target))
    fun _ d' => d.Emits c.module d' (EdgeTo c source target) :=
  Lower.emit_writes (edge_writes_edgeTo d.storage source target)

/-- A branch on a condition keeps what is written. -/
theorem branchOn_continues (ifTrue ifFalse : Nat) :
    Lower.Ensures c d (branchOn source ifTrue ifFalse) fun _ d' => d.Continues c.module d' := by
  have forks {d : Draft} (i : Instr) (target : Nat) : Lower.Ensures c d (do
      Lower.instr i
      Lower.emit (edge source target)) fun _ d' => d.Continues c.module d' := by
    refine .bind (instr_emits d i) fun _ d₁ written => ?_
    intro _ d₂ run
    exact written.continues.trans (edge_emits_edgeTo target run).continues
  refine .read (hasPhis_finds ifTrue) fun _ _ => ?_
  split
  · exact forks _ _
  refine .read (hasPhis_finds ifFalse) fun _ _ => ?_
  split
  · exact forks _ _
  refine .bind (Lower.newBlock_ensures (Q := fun _ d' => d' = d.grow) rfl) ?_
  rintro detour _ rfl
  refine .bind (instr_emits d.grow _) fun _ d₁ written => ?_
  refine .bind (edge_emits_edgeTo ifFalse) fun _ d₂ written' => ?_
  refine .bind (Lower.positionAt_ensures
    (Q := fun _ d' => d' = { d₂ with current := detour }) rfl) ?_
  rintro _ _ rfl
  intro _ d₃ run
  have continued := written.continues.trans written'.continues
  exact (((d.continues_grow c.module).trans continued).trans
    (d₂.continues_positionAt c.module detour)).trans (edge_emits_edgeTo ifTrue run).continues

/-- The callee is declared, not defined, under the name of a routine that starts or finishes an
argument list, perhaps with a suffix that names a type. -/
def DeclaresListRoutine (m : Module) (callee : Nat) : Prop :=
  ∃ function f, m.calleeFunction? callee = some function ∧ m.function? function = some f ∧
    f.isDeclaration = true ∧
    (isOverload "llvm.va_start" f.name = true ∨ isOverload "llvm.va_end" f.name = true)

/-- What is lowered in place is declared as a routine for argument lists. -/
theorem declaresListRoutine_of_listRoutine? {m : Module} {callee : Nat} {routine : ListRoutine}
    (h : listRoutine? m callee = some routine) : DeclaresListRoutine m callee := by
  obtain ⟨function, named, h⟩ := Option.bind_eq_some_iff.1 h
  obtain ⟨f, found, h⟩ := Option.bind_eq_some_iff.1 h
  split at h
  · cases h
  rename_i declared
  refine ⟨function, f, named, found, by simpa using declared, ?_⟩
  split at h
  · rename_i starts
    exact .inl starts
  · split at h
    · rename_i finishes
      exact .inr finishes
    · cases h

/-- A call that starts or finishes an argument list is lowered in place: nothing is called. -/
def InPlace (m : Module) (i : Instruction) (functionType callee : Nat) (d d' : Draft) : Prop :=
  i.opcode = .call functionType ∧ DeclaresListRoutine m callee ∧
    d.Emits m d' fun _ code => ∀ x ∈ code, x.isLocal = true

/-- A variadic call that is lowered begins with the code of a call with a pack, unless it is lowered
in place. -/
theorem lowerInstruction_calls {id : Nat} {i : Instruction} {functionType callee : Nat}
    {args : List Nat} {parts : Source.TypePool.FunctionParts} {d' : Draft}
    (isCall : callOf? i = some (functionType, args, callee))
    (known : c.module.types.functionParts? functionType = some parts)
    (variadic : parts.variadic = true)
    (lowered : lowerInstruction source id i c d = .ok () d') :
    InPlace c.module i functionType callee d d' ∨ ∀ final, d'.Continues c.module final →
      VariadicCall c final.storage d.storage.size functionType callee parts.params.length args
        (final.rest d) := by
  have placed {step : Emit Unit} {d₁ : Draft} (lays : Emit.Lays c d.storage step
      fun final _ _ code => VariadicCall c final d.storage.size functionType callee
        parts.params.length args code) (run : Lower.emit step c d = .ok () d₁) :
      ∀ final, d₁.Continues c.module final → VariadicCall c final.storage d.storage.size
        functionType callee parts.params.length args (final.rest d) := by
    intro final later
    obtain ⟨code, rest, isCall⟩ := (Lower.emit_writes lays run).rest later
    rw [rest]
    exact isCall.append _
  unfold callOf? at isCall
  split at isCall
  · rename_i opcode
    obtain ⟨operands, read, isCall⟩ := Option.bind_eq_some_iff.1 isCall
    obtain ⟨_, last, same⟩ := Option.map_eq_some_iff.1 isCall
    cases same
    rw [lowerInstruction, opcode] at lowered
    cases called : listRoutine? c.module callee with
    | some routine =>
      have inPlace := lowerCall_inPlace d.storage id functionType read last called
      exact .inl ⟨opcode, declaresListRoutine_of_listRoutine? called,
        Lower.emit_writes inPlace lowered⟩
    | none =>
      have lays := lowerCall_lays d.storage id read last called known variadic
      exact .inr (placed lays lowered)
  · rename_i opcode
    obtain ⟨⟨_, normal, unwind, _⟩, read, same⟩ := Option.map_eq_some_iff.1 isCall
    cases same
    rw [lowerInstruction, opcode] at lowered
    have follows : Lower.Ensures c d (lowerInvoke source id i functionType) fun _ d' =>
        ∀ final, d'.Continues c.module final → VariadicCall c final.storage d.storage.size
          functionType callee parts.params.length args (final.rest d) := by
      unfold lowerInvoke
      rw [read]
      refine .bind (fun _ d₁ run => placed (invokeCall_lays d.storage id callee args known variadic)
        run) fun _ d₁ isCall => ?_
      intro _ d₂ run final later
      exact isCall final ((branchOn_continues unwind normal run).trans later)
    exact .inr (follows lowered)
  · cases isCall

end Continuing

/-! ## Tests of handlers -/

/-- The arguments of the first pad in a handler's block. -/
def padArguments? (m : Module) (function handler : Nat) : Option (List Nat) :=
  ((m.blockInstructions? function handler).bind
    (·.find? fun (_, i) => i.opcode == .catchPad)).map fun (_, pad) =>
      pad.operands.dropLast.filterMap Operand.value?

/-- The tests of handlers in a finished body, from where the first draft had come to up to where
the second had.  A test asks the personality routine, and the edge to the handler follows; the next
test stands in a block of its own. -/
inductive Chain (c : Context) (source : SourceBlock) (routine : Nat) (final : Draft) :
    Draft → List Nat → Draft → Prop
  | done {d : Draft} : Chain c source routine final d [] d
  | test {d next last : Draft} {handler pack top : Nat} {handlers args : List Nat}
      {packed edge more : List Instr} {b : DraftBlock}
      (known : padArguments? c.module source.function handler = some args)
      (packs : PackCode c final.storage d.storage.size args pack packed top)
      (edged : EdgeTo c source handler final.storage edge)
      (code : final.rest d = packed ++ .load pack ::
        .call (.function routine) personalitySignature :: .branchIfTrue next.current ::
        (edge ++ more))
      (there : final.blocks[next.current]? = some b) (same : final.rest next = b.code)
      (continues : d.Continues c.module next)
      (later : Chain c source routine final next handlers last) :
    Chain c source routine final d (handler :: handlers) last

/-- What happens when no handler is left: the edge to the unwind destination is taken, or the
function is left with the default value. -/
def UnwindTo (c : Context) (source : SourceBlock) (final : Storage) :
    Option Nat → List Instr → Prop
  | some target, code => EdgeTo c source target final code
  | none, code => code = leaving c (.retDefault c.returns)

/-- The code of a choice between handlers in a finished body, from where the draft `d` had come to:
the tests, and what stands behind them. -/
def Choice (c : Context) (source : SourceBlock) (routine : Nat) (d final : Draft)
    (handlers : List Nat) (unwind : Option Nat) : Prop :=
  ∃ last exit more, Chain c source routine final d handlers last ∧
    last.Continues c.module final ∧ final.rest last = exit ++ more ∧
    UnwindTo c source final.storage unwind exit

section Testing

variable {c : Context} {source : SourceBlock} {d : Draft}

/-- A chain of questions keeps what is written before it. -/
theorem Chain.continues {routine : Nat} {final last : Draft} {handlers : List Nat}
    (h : Chain c source routine final d handlers last) : d.Continues c.module last := by
  induction h with
  | done => exact (Draft.Advances.refl _ _).continues
  | test _ _ _ _ _ _ continues _ ih => exact continues.trans ih

theorem padArguments_finds (s : Ledger) (handler id : Nat) :
    Emit.Reads c s (padArguments source handler id)
      (padArguments? c.module source.function handler = some ·) := by
  refine .read Emit.module_reads fun m same => ?_
  rw [same]
  refine .read (Emit.required_reads _) fun code listed => ?_
  refine .read (Emit.supported_reads _ _ _ _) fun p found => ?_
  refine Emit.Ensures.pure ⟨rfl, rfl, ?_⟩
  rw [padArguments?, listed, Option.bind_some, found, Option.map_some]

/-- The question to the personality routine. -/
theorem ask_lays (s : Ledger) (handler id routine : Nat) :
    Emit.Lays c s (do
      let pack ← packArguments (← padArguments source handler id) id
      Emit.code [.load pack, .call (.function routine) personalitySignature]) fun final _ _ code =>
        ∃ args pack packed top, padArguments? c.module source.function handler = some args ∧
          PackCode c final s.size args pack packed top ∧
          code = packed ++ [.load pack, .call (.function routine) personalitySignature] := by
  refine .read (padArguments_finds s handler id) fun args known => ?_
  refine .bind (packArguments_lays s args id) fun pack s₁ packed _ => ?_
  refine Emit.code_writes (Q := fun final code => PackCode c final s.size args pack packed s₁.size →
    ∃ args pack' packed' top, padArguments? c.module source.function handler = some args ∧
      PackCode c final s.size args pack' packed' top ∧ packed ++ code = packed' ++
        [.load pack', .call (.function routine) personalitySignature]) fun final _ packs => ?_
  exact ⟨args, pack, packed, _, known, packs, rfl⟩

/-- Testing handlers writes a chain of blocks. -/
theorem testHandlers_chains (id routine : Nat) (handlers : List Nat) :
    Lower.Ensures c d (testHandlers source id routine personalitySignature handlers) fun _ d' =>
      ∀ final, d'.Continues c.module final → Chain c source routine final d handlers d' := by
  induction handlers generalizing d with
  | nil => exact .pure fun _ _ => .done
  | cons handler rest ih =>
    refine .bind (Lower.emit_writes (ask_lays d.storage handler id routine).writes) ?_
    intro _ d₁ asked
    refine .bind (Lower.newBlock_ensures (Q := fun label d' => label = d₁.blocks.size ∧
      d' = d₁.grow) ⟨rfl, rfl⟩) ?_
    rintro _ _ ⟨rfl, rfl⟩
    refine .bind (instr_emits d₁.grow (.branchIfTrue d₁.blocks.size)) fun _ d₂ refused => ?_
    refine .bind (edge_emits_edgeTo handler) fun _ d₃ edged => ?_
    refine .bind (Lower.positionAt_ensures
      (Q := fun _ d' => d' = { d₃ with current := d₁.blocks.size }) rfl) ?_
    intro _ d₄ same _ d' run final later
    have chain := ih run final later
    have moved : d₃.Continues c.module d₄ := by
      rw [same]
      exact d₃.continues_positionAt c.module _
    have later₃ := moved.trans (chain.continues.trans later)
    -- The new block is still empty when the next test is written.
    have inside : d₁.current < d₁.blocks.size := by
      obtain ⟨b, code, storage, there, rfl, -⟩ := asked
      rw [Draft.size_write]
      exact (Array.getElem?_eq_some_iff.1 there).1
    have advanced : d₁.grow.Advances c.module d₃ :=
      edged.advances (refused.advances (.refl _ _) refused.inside) refused.inside
    have blank : d₃.blocks[d₁.blocks.size]? = some { origin := none } := by
      have new : d₁.grow.blocks[d₁.blocks.size]? = some { origin := none } :=
        Array.getElem?_push_size
      rw [advanced.elsewhere (Array.getElem?_eq_some_iff.1 new).1 (Nat.ne_of_gt inside), new]
    have blank' : d₄.blocks[d₄.current]? = some { origin := none } := by
      rw [same]
      exact blank
    obtain ⟨more, there⟩ := (chain.continues.trans later).blocks blank'
    -- The code of the test stands in one piece.
    have later₁ := advanced.continues.trans later₃
    obtain ⟨_, rest₀, args, pack, packed, top, known, packs, rfl⟩ :=
      asked.rest ((d₁.continues_grow c.module).trans later₁)
    obtain ⟨_, rest₁, rfl⟩ := refused.rest (edged.continues.trans later₃)
    obtain ⟨edge, rest₂, isEdge⟩ := edged.rest later₃
    have isNext : d₄.current = d₁.blocks.size := by rw [same]
    have code : final.rest d = packed ++ .load pack ::
        .call (.function routine) personalitySignature :: .branchIfTrue d₄.current ::
        (edge ++ final.rest d₃) := by
      rw [rest₀, ← Draft.rest_grow final inside, rest₁, rest₂, isNext, List.append_assoc]
      rfl
    refine .test known packs isEdge code there (Draft.rest_blank blank' rfl there) ?_ chain
    exact ((asked.continues.trans (d₁.continues_grow c.module)).trans
      advanced.continues).trans moved

/-- A choice between handlers is a chain of tests, and what happens if all refuse. -/
theorem lowerCatchSwitch_chains (id : Nat) (i : Instruction) (hasUnwind : Bool) :
    Lower.Ensures c d (lowerCatchSwitch source id i hasUnwind) fun _ d' => ∃ f routine handlers,
      c.module.function? source.function = some f ∧ f.personality = some routine ∧
      handlers? i.operands hasUnwind = some handlers ∧
      (unwindOf? i.operands hasUnwind).isSome = hasUnwind ∧
      ∀ final, d'.Continues c.module final →
        Choice c source routine d final handlers (unwindOf? i.operands hasUnwind) := by
  refine .read (Lower.emit_reads (personality_finds _ id)) ?_
  rintro ⟨routine, _⟩ ⟨-, rfl, f, found, named⟩
  dsimp only
  split
  · exact Lower.emit_ensures fun _ _ => Emit.breach_ensures _ _
  rename_i handlers listed
  refine .bind (testHandlers_chains id routine handlers) fun _ last chain => ?_
  -- Whatever stands behind the tests is written in one go.
  have ends {step : Emit Unit} (unwind : Option Nat)
      (writes : Emit.Writes c last.storage step (UnwindTo c source · unwind)) :
      Lower.Ensures c last (Lower.emit step) fun _ d' => ∀ final, d'.Continues c.module final →
        Choice c source routine d final handlers unwind := by
    intro _ d' run final later
    have written := Lower.emit_writes writes run
    have later' := written.continues.trans later
    obtain ⟨exit, rest, isExit⟩ := written.rest later
    exact ⟨last, exit, _, chain final later', later', rest, isExit⟩
  split
  · rename_i unwinds
    split
    · rename_i target isLast
      have here : unwindOf? i.operands hasUnwind = some target := by
        rw [unwindOf?, if_pos unwinds, isLast]
        rfl
      rw [here, unwinds]
      intro _ d' run
      exact ⟨f, routine, handlers, found, named, unwinds ▸ listed, rfl,
        ends (some target) (edge_writes_edgeTo last.storage source target) run⟩
    · exact Lower.emit_ensures fun _ _ => Emit.breach_ensures _ _
  · rename_i leaves
    have out : unwindOf? i.operands hasUnwind = none := if_neg leaves
    rw [out, Bool.eq_false_iff.2 leaves]
    intro _ d' run
    exact ⟨f, routine, handlers, found, named, Bool.eq_false_iff.2 leaves ▸ listed, rfl,
      ends none returnDefault_shapes run⟩

end Testing

/-! ## The arguments of calls -/

section Passing

variable {V S : Type} {μ : Machine V S} {Ω : Viewing V S} {c : Context}

/-- The code before a call passes arguments: where operands have values, it leads to a stack with
the values of the fixed arguments in order, a view of the trailing ones on top of them, and what
stands above the arguments. -/
def Passes (μ : Machine V S) (Ω : Viewing V S) (c : Context) (final : Storage) (floor : Nat)
    (above fixed trailing : List Nat) (code : List Instr) : Prop :=
  ∀ ⦃good : S → Prop⦄ ⦃value : Nat → V⦄,
    Evaluates μ Ω c final good value (above ++ (fixed ++ trailing)) →
    ∀ (stack : List V) ⦃store : S⦄, good store → ∃ store' view,
      μ.Leads code stack store (above.map value ++ view :: ((fixed.map value).reverse ++ stack))
        store' ∧
      Packs μ Ω floor value trailing store' view

/-- The code before a variadic call brings its arguments and the pack onto the stack. -/
theorem VariadicCode.passes {final : Storage} (laws : Views μ Ω final) {floor callee : Nat}
    {sig : Code.Signature} {fixed trailing : List Nat} {code : List Instr} {call : Instr}
    (h : VariadicCode c final floor callee sig fixed trailing code call) :
    Passes μ Ω c final floor (calleeOperand c.module callee) fixed trailing code := by
  intro good value eval stack store fine
  obtain ⟨store', view, strides, -, packs⟩ := h.runs laws eval
    (fun a mem => List.mem_append_left _ mem)
    (fun a mem => List.mem_append_right _ (List.mem_append_left _ mem))
    (fun a mem => List.mem_append_right _ (List.mem_append_right _ mem)) stack fine
  exact ⟨store', view, strides.leads, packs⟩

/-- The code of a pack brings it onto the stack. -/
theorem PackCode.passes {final : Storage} (laws : Views μ Ω final) {floor pack top : Nat}
    {args : List Nat} {code : List Instr} (h : PackCode c final floor args pack code top) :
    Passes μ Ω c final floor [] [] args (code ++ [.load pack]) := by
  intro good value eval stack store fine
  obtain ⟨store', strides, -, holds⟩ := h.runs laws eval (fun _ => id) stack fine
  refine ⟨store', _, (strides.append (.load pack stack store')).leads, ?_⟩
  exact holds store' fun _ _ _ => rfl

/-- Every handler of a chain has its test. -/
theorem Chain.passes {source : SourceBlock} {routine : Nat} {d final last : Draft}
    (laws : Views μ Ω final.storage) {handlers : List Nat}
    (h : Chain c source routine final d handlers last) (later : last.Continues c.module final) :
    ∀ handler ∈ handlers, ∃ between args code more, d.Continues c.module between ∧
      between.Continues c.module final ∧
      padArguments? c.module source.function handler = some args ∧
      final.rest between = code ++ .call (.function routine) personalitySignature :: more ∧
      Passes μ Ω c final.storage between.storage.size [] [] args code := by
  induction h with
  | done => exact List.forall_mem_nil _
  | @test d next last handler pack top handlers args packed edge more b known packs edged code there
      same continues chain ih =>
    refine List.forall_mem_cons.2 ⟨?_, fun handler mem => ?_⟩
    · refine ⟨d, args, _, .branchIfTrue next.current :: (edge ++ more),
        (Draft.Advances.refl _ _).continues, (continues.trans chain.continues).trans later, known,
        ?_, packs.passes laws⟩
      rw [code, List.append_assoc]
      rfl
    · obtain ⟨between, args, code, more, continued, rest⟩ := ih later handler mem
      exact ⟨between, args, code, more, continues.trans continued, rest⟩

/-- Calls and tests of handlers are given the right arguments.  A variadic call that is lowered
finds a view of its trailing arguments on top of the fixed ones, unless it starts or finishes an
argument list and is lowered in place; so does every question that a choice between handlers asks
about the arguments of a pad.  The variables to which the view leads are new when the code of the
call begins. -/
theorem arguments_packed (c : Context) :
    (∀ ⦃source : SourceBlock⦄ ⦃id functionType callee : Nat⦄ ⦃i : Instruction⦄ ⦃args : List Nat⦄
      ⦃parts : Source.TypePool.FunctionParts⦄ ⦃d d' : Draft⦄,
      callOf? i = some (functionType, args, callee) →
      c.module.types.functionParts? functionType = some parts → parts.variadic = true →
      lowerInstruction source id i c d = .ok () d' →
      InPlace c.module i functionType callee d d' ∨
        ∀ final, d'.Continues c.module final → Views μ Ω final.storage →
          parts.params.length ≤ args.length ∧ ∃ sig code more,
          c.conventions.signature c.module functionType = some sig ∧
          final.rest d = code ++ callInstr c.module callee sig :: more ∧
          Passes μ Ω c final.storage d.storage.size (calleeOperand c.module callee)
            (args.take parts.params.length) (args.drop parts.params.length) code) ∧
    ∀ ⦃source : SourceBlock⦄ ⦃id : Nat⦄ ⦃hasUnwind : Bool⦄ ⦃i : Instruction⦄ ⦃d d' : Draft⦄,
      i.opcode = .catchSwitch hasUnwind → lowerInstruction source id i c d = .ok () d' →
      ∃ f routine handlers, c.module.function? source.function = some f ∧
        f.personality = some routine ∧ handlers? i.operands hasUnwind = some handlers ∧
        ∀ final, d'.Continues c.module final → Views μ Ω final.storage →
          ∀ handler ∈ handlers, ∃ between args code more, d.Continues c.module between ∧
            between.Continues c.module final ∧
            padArguments? c.module source.function handler = some args ∧
            final.rest between =
              code ++ .call (.function routine) personalitySignature :: more ∧
            Passes μ Ω c final.storage between.storage.size [] [] args code := by
  constructor
  · intro source id functionType callee i args parts d d' isCall known variadic lowered
    refine (lowerInstruction_calls isCall known variadic lowered).imp_right ?_
    intro called final later laws
    obtain ⟨enough, sig, code, call, more, signed, isCode, rest⟩ := called final later
    refine ⟨enough, sig, code, more, signed, ?_, isCode.passes laws⟩
    cases isCode with
    | intro _ _ calls => rw [rest, calls.call_eq]
  · intro source id hasUnwind i d d' opcode lowered
    rw [lowerInstruction, opcode] at lowered
    obtain ⟨f, routine, handlers, found, named, listed, -, lays⟩ :=
      lowerCatchSwitch_chains id i hasUnwind lowered
    refine ⟨f, routine, handlers, found, named, listed, fun final later laws => ?_⟩
    obtain ⟨last, exit, more, chain, continues, -, -⟩ := lays final later
    exact chain.passes laws continues

end Passing

/-! ## Functions that log -/

/-- Where all operands are arguments of the function or integer constants, code that passes them
runs on cells. -/
theorem Passes.cells {c : Context} {final : Storage} {floor : Nat}
    {fixed trailing : List Nat} {code : List Instr}
    (h : Passes (cellMachine final) cellViewing c final floor [] fixed trailing code)
    (args : Nat → Int)
    (simple : ∀ a ∈ fixed ++ trailing, (numeral? c.module args a).isSome = true) :
    ∃ store view, (cellMachine final).Leads code [] (startCells args final)
        (view :: (fixed.map (cellOf c.module args)).reverse) store ∧
      Packs (cellMachine final) cellViewing floor (cellOf c.module args) trailing store view := by
  obtain ⟨store, view, led, packs⟩ := h (cellMachine_evaluates simple) [] untouched_startCells
  rw [List.append_nil] at led
  exact ⟨store, view, led, packs⟩

/-- Two functions that log two numbers behind a third.  One offers the exceptions of that to two
handlers, one with arguments and one with a phi; the other calls plainly. -/
def guardingSteps : List Source.Step :=
  [.intern (.int 32), .intern (.function 0 [0] true), .intern (.function 0 [] true),
    .intern (.function 0 [0] false),
    .addFunction "log" 1, .addFunction "judge" 2, .addFunction "guard" 3, .setPersonality 2 1,
    .appendBlock 2 "entry", .appendBlock 2 "done", .appendBlock 2 "dispatch",
    .appendBlock 2 "picky", .appendBlock 2 "lenient",
    .constInt 0 5, .constInt 0 7, .noneToken,
    .positionAt 2 0, .invoke 1 0 [5, 4, 6] 1 2,
    .positionAt 2 1, .ret (some 4),
    .positionAt 2 2, .catchSwitch 7 [3, 4] none,
    .positionAt 2 3, .catchPad 10 [4, 6], .catchRet 11 1,
    .positionAt 2 4, .phi 0 [(6, 2)], .catchPad 10 [], .catchRet 14 1,
    .addFunction "relay" 3, .appendBlock 3 "entry",
    .positionAt 3 0, .call 1 0 [5, 17, 6], .ret (some 18)]

/-- The module that they build. -/
def guarding : Module := Source.build "guarding" guardingSteps

/-- The logging function is called by its name. -/
theorem calleeFunction?_log : guarding.calleeFunction? 0 = some 0 := by decide +kernel

/-- A call of the logging function is not lowered in place: it is no routine for argument lists. -/
theorem not_inPlace_log {m : Module} (same : m = guarding) {i : Instruction} {functionType : Nat}
    {d d' : Draft} : ¬ InPlace m i functionType 0 d d' := by
  rintro ⟨-, ⟨function, f, called, found, -, list⟩, -⟩
  have logs : (guarding.function? 0).map (·.name) = some "log" := by decide +kernel
  rw [same, calleeFunction?_log] at called
  rw [Option.some.inj called, ← same, found, Option.map_some] at logs
  rw [Option.some.inj logs] at list
  exact absurd list (by decide +kernel)

/-- The function that guards. -/
def guard : Source.Function := (guarding.function? 2).get (by decide +kernel)

/-- Its call. -/
def guardInvoke : Instruction := (guarding.instruction? 8).get (by decide +kernel)

/-- Its choice between handlers. -/
def guardChoice : Instruction := (guarding.instruction? 10).get (by decide +kernel)

/-- The context in which its body is lowered. -/
def guardContext : Context :=
  functionContext .natural guarding (Throwing.analyze .natural guarding).1 2 guard .int32

theorem guardContext_module : guardContext.module = guarding := by
  rw [guardContext, functionContext]

/-- The draft in which its choice is lowered. -/
def guardDraft : Draft := { startDraft guard with current := 2 }

/-- The function that calls plainly. -/
def relay : Source.Function := (guarding.function? 3).get (by decide +kernel)

/-- Its call. -/
def relayCall : Instruction := (guarding.instruction? 18).get (by decide +kernel)

/-- The context in which its body is lowered.  The first variable is for the result of the call. -/
def relayContext : Context :=
  functionContext .natural guarding (Throwing.analyze .natural guarding).1 3 relay .int32
    (Homes.addResult {} 18 0)

theorem relayContext_module : relayContext.module = guarding := by
  rw [relayContext, functionContext]

/-- The draft in which its call is lowered. -/
def relayDraft : Draft :=
  { startDraft relay with storage := (Ledger.empty.addSlot .int32 (some 18)).2 }

/-- The calls find 5 below a view of the argument, which is 9 here, and of 7; the question about the
first handler finds a view of the same two.  At the plain call the variable for its result is there
already. -/
theorem arguments_packed_guard :
    (∃ d' sig code more store view,
      lowerInstruction ⟨2, 0⟩ 8 guardInvoke guardContext (startDraft guard) = .ok () d' ∧
      d'.rest (startDraft guard) = code ++ .call (.function 0) sig :: more ∧
      (cellMachine d'.storage).Leads code [] (startCells (fun _ => 9) d'.storage)
        [view, .int 5] store ∧
      Packs (cellMachine d'.storage) cellViewing 0 (cellOf guarding fun _ => 9) [4, 6] store view) ∧
    (∃ d' sig code more store view,
      lowerInstruction ⟨3, 0⟩ 18 relayCall relayContext relayDraft = .ok () d' ∧
      d'.rest relayDraft = code ++ .call (.function 0) sig :: more ∧
      (cellMachine d'.storage).Leads code [] (startCells (fun _ => 9) d'.storage)
        [view, .int 5] store ∧
      Packs (cellMachine d'.storage) cellViewing 1 (cellOf guarding fun _ => 9) [17, 6] store
        view) ∧
    ∃ d' between code more store view,
      lowerInstruction ⟨2, 2⟩ 10 guardChoice guardContext guardDraft = .ok () d' ∧
      d'.rest between = code ++ .call (.function 1) personalitySignature :: more ∧
      (cellMachine d'.storage).Leads code [] (startCells (fun _ => 9) d'.storage) [view] store ∧
      Packs (cellMachine d'.storage) cellViewing between.storage.size (cellOf guarding fun _ => 9)
        [4, 6] store view := by
  have five : [5].map (cellOf guarding fun _ => 9) = [.int 5] := by
    have numeral : numeral? guarding (fun _ => 9) 5 = some 5 := by decide +kernel
    rw [List.map_singleton, cellOf, numeral]
    rfl
  have known : guarding.types.functionParts? 1 = some ⟨0, [0], true⟩ := by decide +kernel
  refine ⟨?_, ?_, ?_⟩
  · have done : ((lowerInstruction ⟨2, 0⟩ 8 guardInvoke).finish? guardContext
        (startDraft guard)).isSome = true := by decide +kernel
    obtain ⟨d', finished⟩ := Option.isSome_iff_exists.1 done
    have lowered := Lower.eq_ok_of_finish? finished
    have isCall : callOf? guardInvoke = some (1, [5, 4, 6], 0) := by decide +kernel
    obtain ⟨-, sig, code, more, -, rest, passes⟩ :=
      ((arguments_packed guardContext).1 isCall known rfl lowered).resolve_left
        (not_inPlace_log guardContext_module) d' (Draft.Advances.refl _ d').continues
        cellMachine_views
    rw [guardContext_module, callInstr, calleeFunction?_log] at rest
    rw [guardContext_module, calleeOperand, calleeFunction?_log] at passes
    obtain ⟨store, view, led, packs⟩ := passes.cells (fun _ => 9) (by decide +kernel)
    rw [guardContext_module] at led packs
    exact ⟨d', sig, code, more, store, view, lowered, rest, five ▸ led, packs⟩
  · have done : ((lowerInstruction ⟨3, 0⟩ 18 relayCall).finish? relayContext
        relayDraft).isSome = true := by decide +kernel
    obtain ⟨d', finished⟩ := Option.isSome_iff_exists.1 done
    have lowered := Lower.eq_ok_of_finish? finished
    have isCall : callOf? relayCall = some (1, [5, 17, 6], 0) := by decide +kernel
    obtain ⟨-, sig, code, more, -, rest, passes⟩ :=
      ((arguments_packed relayContext).1 isCall known rfl lowered).resolve_left
        (not_inPlace_log relayContext_module) d' (Draft.Advances.refl _ d').continues
        cellMachine_views
    rw [relayContext_module, callInstr, calleeFunction?_log] at rest
    rw [relayContext_module, calleeOperand, calleeFunction?_log] at passes
    obtain ⟨store, view, led, packs⟩ := passes.cells (fun _ => 9) (by decide +kernel)
    rw [relayContext_module] at led packs
    exact ⟨d', sig, code, more, store, view, lowered, rest, five ▸ led, packs⟩
  · have done : ((lowerInstruction ⟨2, 2⟩ 10 guardChoice).finish? guardContext
        guardDraft).isSome = true := by decide +kernel
    obtain ⟨d', finished⟩ := Option.isSome_iff_exists.1 done
    have lowered := Lower.eq_ok_of_finish? finished
    have opcode : guardChoice.opcode = .catchSwitch false := by decide +kernel
    obtain ⟨f, routine, handlers, found, named, listed, passes⟩ :=
      (arguments_packed guardContext).2 opcode lowered
    have judged : (guardContext.module.function? 2).bind (·.personality) = some 1 := by
      decide +kernel
    rw [found, Option.bind_some, named] at judged
    cases judged
    have listed' : handlers? guardChoice.operands false = some [3, 4] := by decide +kernel
    cases listed'.symm.trans listed
    obtain ⟨between, args, code, more, -, -, known, rest, passes⟩ :=
      passes d' (Draft.Advances.refl _ d').continues cellMachine_views 3 List.mem_cons_self
    have known' : padArguments? guardContext.module 2 3 = some [4, 6] := by decide +kernel
    cases known'.symm.trans known
    obtain ⟨store, view, led, packs⟩ := passes.cells (fun _ => 9) (by decide +kernel)
    rw [guardContext_module] at packs
    exact ⟨d', between, code, more, store, view, lowered, rest, led, packs⟩

end Stackwise.Lowering
