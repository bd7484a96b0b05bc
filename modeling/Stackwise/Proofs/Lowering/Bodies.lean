import Stackwise.Proofs.Lowering.Drafts
import Stackwise.Proofs.Source.Script

/-!
# Lowered bodies are accepted

Under which conditions the lowering of a function is accepted by `verify`, and what its blocks are.
-/

namespace Stackwise.Lowering

open Code (Storage)
open Emit (Climbs)
open Source (Function Instruction Module Opcode)

/-- The operations that end a block and can be lowered. -/
def isExit : Opcode → Bool
  | .ret | .br | .switch | .invoke _ | .unreachable => true
  | .catchSwitch _ | .catchRet | .cleanupRet => true
  | _ => false

/-- Whether instructions end in an exit and hold none before. -/
def endsAtExit (code : List (Nat × Instruction)) : Bool :=
  code.getLast?.any (fun p => isExit p.2.opcode) && code.dropLast.all fun p => !isExit p.2.opcode

/-- Instructions end at an exit if the last one is an exit and no other one is. -/
theorem endsAtExit_iff {code : List (Nat × Instruction)} :
    endsAtExit code = true ↔ ∃ front id i, code = front ++ [(id, i)] ∧
      isExit i.opcode = true ∧ ∀ p ∈ front, isExit p.2.opcode = false := by
  rcases List.eq_nil_or_concat code with rfl | ⟨front, ⟨id, i⟩, rfl⟩
  · simp [endsAtExit]
  · rw [endsAtExit, List.concat_eq_append, List.getLast?_concat, List.dropLast_concat,
      Bool.and_eq_true, Option.any_some, List.all_eq_true]
    constructor
    · rintro ⟨exits, goOn⟩
      exact ⟨front, id, i, rfl, exits, fun p mem => by simpa using goOn p mem⟩
    · rintro ⟨front', id', i', same, exits, goOn⟩
      obtain ⟨rfl, last⟩ := List.append_inj' same rfl
      cases last
      exact ⟨exits, fun p mem => by simpa using goOn p mem⟩

/-- Whether an instruction, if it is a call, has the type that its callee returns. -/
def hasReturnType (m : Module) (id : Nat) (i : Instruction) : Bool :=
  match i.opcode with
  | .call functionType | .invoke functionType =>
    (m.types.functionParts? functionType).all fun parts => m.typeOf? id == some parts.ret
  | _ => true

/-- A call has the type that its function type returns. -/
theorem typeOf?_of_hasReturnType {m : Module} {id functionType : Nat} {i : Instruction}
    (h : hasReturnType m id i = true)
    (isCall : i.opcode = .call functionType ∨ i.opcode = .invoke functionType)
    {parts : Source.TypePool.FunctionParts}
    (isFunction : m.types.functionParts? functionType = some parts) :
    m.typeOf? id = some parts.ret := by
  rcases isCall with call | invoke
  · simpa [hasReturnType, call, isFunction] using h
  · simpa [hasReturnType, invoke, isFunction] using h

/-- A function whose blocks end where they first exit, and whose calls have the type that their
callee returns. -/
structure Regular (m : Module) (f : Function) : Prop where
  exits : ∀ b ∈ f.blocks, endsAtExit (m.instructionsOf b) = true
  calls : ∀ p ∈ m.bodyOf f, hasReturnType m p.1 p.2 = true

variable {c : Context} {source : SourceBlock} {f : Function} {todo : Nat → Prop} {d : Draft}

/-! ## Branches -/

/-- Whether a block has phis is looked up in the source. -/
theorem hasPhis_finds (target : Nat) :
    Lower.Reads c d (hasPhis source target)
      (c.module.startsWithPhi? source.function target = some ·) := by
  refine .read Lower.module_reads fun _ same => ?_
  rw [same]
  exact Lower.required_reads _

/-- A block that is asked about exists. -/
theorem hasPhis_reads (found : c.module.function? source.function = some f) (target : Nat) :
    Lower.Reads c d (hasPhis source target) fun _ => target < f.blocks.size := by
  intro starts d' run
  obtain ⟨unchanged, known⟩ := hasPhis_finds target run
  exact ⟨unchanged, lt_of_startsWithPhi? found known⟩

section

variable (valued : c.Valued) (found : c.module.function? source.function = some f)

include valued found

/-- An edge closes the current block. -/
theorem edge_step_closes (h : d.Open c.module f todo 0) (target : Nat) :
    Lower.Ensures c d (Lower.emit (edge source target)) fun _ d' => d'.Closed c.module f todo :=
  h.emit_closes (edge_closes valued found h.size_le _ _)

/-- A branch on the truth value on top of the stack ends the block; a detour that it needs is
written at once. -/
theorem branchOn_closes (h : d.Open c.module f todo 1) (ifTrue ifFalse : Nat) :
    Lower.Ensures c d (branchOn source ifTrue ifFalse) fun _ d' => d'.Closed c.module f todo := by
  refine .read (hasPhis_reads found ifTrue) fun _ knownTrue => ?_
  split
  · have step := Emit.instr_settles (c := c) (s := d.storage) 0
      (step_jump (i := .branchIfTrue ifTrue) rfl rfl (Nat.lt_of_lt_of_le knownTrue h.size_le))
    exact .bind (h.emit step) fun _ _ h => edge_step_closes valued found h ifFalse
  refine .read (hasPhis_reads found ifFalse) fun _ knownFalse => ?_
  split
  · have step := Emit.instr_settles (c := c) (s := d.storage) 0
      (step_jump (i := .branchIfFalse ifFalse) rfl rfl (Nat.lt_of_lt_of_le knownFalse h.size_le))
    exact .bind (h.emit step) fun _ _ h => edge_step_closes valued found h ifTrue
  · refine .bind h.newBlock fun detour d ⟨h, fresh⟩ => ?_
    have step := Emit.instr_settles (c := c) (s := d.storage) 0
      (step_jump (i := .branchIfTrue detour) rfl rfl (h.inside (.inr rfl)))
    refine .bind (h.emit step) fun _ d h => ?_
    refine .bind (edge_step_closes valued found h ifFalse) fun _ d h => ?_
    refine .bind (h.positionAt_last fresh) fun _ d h => ?_
    exact edge_step_closes valued found h ifTrue

/-- A branch closes its block and the blocks that it adds. -/
theorem lowerBr_closes (h : d.Open c.module f todo 0) (id : Nat) (i : Instruction) :
    Lower.Ensures c d (lowerBr source id i) fun _ d' => d'.Closed c.module f todo := by
  unfold lowerBr
  split
  · exact edge_step_closes valued found h _
  · exact h.emit_closes (Emit.breach_ensures _ _)
  · refine .bind (h.emit (pushCondition_climbs valued _ _ id).settles) fun _ d h => ?_
    exact branchOn_closes valued found h _ _
  · exact h.emit_closes (Emit.breach_ensures _ _)
  · exact h.emit_closes (.read Emit.spot_reads fun _ _ => Emit.breachAt_ensures _ _)

end

/-! ## Switches -/

/-- The blocks made for the cases of a switch. -/
def detours (cases : List Case) : List Nat :=
  cases.filterMap fun k => k.detour.map fun _ => k.label

@[simp] theorem detours_nil : detours [] = [] := rfl

@[simp] theorem detours_cons_some (value : Int) (label target : Nat) (rest : List Case) :
    detours (⟨value, label, some target⟩ :: rest) = label :: detours rest := rfl

@[simp] theorem detours_cons_none (value : Int) (label : Nat) (rest : List Case) :
    detours (⟨value, label, none⟩ :: rest) = detours rest := rfl

/-- Reading the cases leaves the blocks made for them to be written, each once. -/
theorem readCases_opens (found : c.module.function? source.function = some f) (id : Nat)
    (operands : List Source.Operand) (h : d.Open c.module f todo 0) :
    Lower.Ensures c d (readCases source id operands) fun cases d' =>
      d'.Open c.module f (fun l => todo l ∨ l ∈ detours cases) 0 ∧
        (detours cases).Nodup ∧ (∀ l ∈ detours cases, ¬ todo l) ∧
        ∀ k ∈ cases, k.detour = none → k.label < f.blocks.size := by
  fun_induction readCases source id operands generalizing d todo with
  | case1 => exact .pure ⟨by simpa using h, by simp, by simp, by simp⟩
  | case2 value target rest ih =>
    have value_read : Emit.Reads c d.storage (do
        Emit.supported (← Emit.sourceValue value).int? "switch" .nonConstantCase id)
        fun _ => True :=
      .read (Emit.sourceValue_reads _) fun _ _ =>
        (Emit.supported_reads _ _ _ _).imp fun _ _ => trivial
    refine .bind (h.emit_read value_read) fun value d ⟨h, _⟩ => ?_
    refine .read (hasPhis_reads found target) fun starts known => ?_
    split
    · refine .bind h.newBlock fun label d ⟨h, fresh⟩ => ?_
      refine .bind (ih h) fun cases d ⟨h, nodup, apart, direct⟩ => ?_
      -- The new block was to be written when the other cases were read, so it is none of theirs.
      have unseen : label ∉ detours cases := fun mem => apart label mem (.inr rfl)
      refine .pure ⟨?_, ?_, ?_, ?_⟩
      · have same : (fun l => (todo l ∨ l = label) ∨ l ∈ detours cases) =
            fun l => todo l ∨ l ∈ detours (⟨value, label, some target⟩ :: cases) := by
          funext l
          rw [detours_cons_some, List.mem_cons, or_assoc]
        rwa [same] at h
      · rw [detours_cons_some, List.nodup_cons]
        exact ⟨unseen, nodup⟩
      · intro l mem
        rcases List.mem_cons.1 mem with rfl | later
        · exact fresh
        · exact fun waits => apart l later (.inl waits)
      · intro k mem isDirect
        rcases List.mem_cons.1 mem with rfl | later
        · cases isDirect
        · exact direct k later isDirect
    · refine .bind (ih h) fun cases d ⟨h, nodup, apart, direct⟩ => ?_
      refine .pure ⟨h, nodup, apart, ?_⟩
      intro k mem isDirect
      rcases List.mem_cons.1 mem with rfl | later
      · exact known
      · exact direct k later isDirect
  | case3 => exact Lower.emit_ensures fun _ _ => Emit.breach_ensures _ _

section

variable (valued : c.Valued) (found : c.module.function? source.function = some f)

include valued found

/-- Filling the blocks made for cases leaves only what was to be written before. -/
theorem fillDetours_closes (cases : List Case) (nodup : (detours cases).Nodup)
    (apart : ∀ l ∈ detours cases, ¬ todo l)
    (h : d.Closed c.module f fun l => todo l ∨ l ∈ detours cases) :
    Lower.Ensures c d (fillDetours source cases) fun _ d' => d'.Closed c.module f todo := by
  fun_induction fillDetours source cases generalizing d with
  | case1 => exact .pure (by simpa using h)
  | case2 value label target rest ih =>
    rw [detours_cons_some, List.nodup_cons] at nodup
    have before : (fun l => todo l ∨ l ∈ detours (⟨value, label, some target⟩ :: rest)) =
        fun l => (todo l ∨ l ∈ detours rest) ∨ l = label := by
      funext l
      rw [detours_cons_some, List.mem_cons, or_assoc, or_comm (a := l = label)]
    rw [before] at h
    have fresh : ¬ (todo label ∨ label ∈ detours rest) :=
      not_or.2 ⟨apart label (by simp), nodup.1⟩
    refine .bind (h.positionAt_last fresh) fun _ d h => ?_
    refine .bind (edge_step_closes valued found h target) fun _ d h => ?_
    exact ih nodup.2 (fun l mem => apart l (by simp [mem])) h
  | case3 value label rest ih => exact ih nodup apart h

theorem lowerSwitch_closes (h : d.Open c.module f todo 0) (id : Nat) (i : Instruction) :
    Lower.Ensures c d (lowerSwitch source id i) fun _ d' => d'.Closed c.module f todo := by
  unfold lowerSwitch
  split
  · rename_i index default rest _
    have index_read : Emit.Reads c d.storage (do
        let ty ← Emit.typeOf index
        let bits? := ((← Emit.module).types.intBits? ty).filter (· ≤ 64)
        return (ty, ← Emit.supported bits? "switch" .indexType id)) fun _ => True :=
      .read (Emit.typeOf_reads _) fun _ _ => .read Emit.module_reads fun _ _ =>
        .read (Emit.supported_reads _ _ _ _) fun _ _ => Emit.Ensures.pure ⟨rfl, rfl, trivial⟩
    refine .bind (h.emit_read index_read) fun (ty, bits) d ⟨h, _⟩ => ?_
    refine .bind (readCases_opens found id rest h) fun cases d ⟨h, nodup, apart, direct⟩ => ?_
    have known : ∀ k ∈ cases, k.label < d.blocks.size := by
      intro k mem
      cases made : k.detour with
      | none => exact Nat.lt_of_lt_of_le (direct k mem made) h.size_le
      | some target =>
        exact h.inside (.inr (List.mem_filterMap.2 ⟨k, mem, by rw [made]; rfl⟩))
    refine .bind (h.emit (dispatch_settles valued known _ index ty bits id)) fun _ d h => ?_
    refine .bind (edge_step_closes valued found h default) fun _ d h => ?_
    exact fillDetours_closes valued found cases nodup apart h
  · exact h.emit_closes (Emit.breach_ensures _ _)

end

/-! ## Handlers -/

/-- Personality routines have one signature. -/
theorem personality_reads (s : Ledger) (id : Nat) :
    Emit.Reads c s (personality source id) fun found => found.2 = personalitySignature := by
  refine .read Emit.context_reads fun _ _ => ?_
  refine .read (Emit.required_reads _) fun _ _ => ?_
  refine .read (Emit.supported_reads _ _ _ _) fun routine _ => ?_
  refine .read (Emit.required_reads _) fun _ _ => ?_
  refine .read (Emit.supported_reads _ _ _ _) fun sig answered => ?_
  have right : sig = personalitySignature := by
    simpa using (Option.filter_eq_some_iff.1 answered).2
  exact Emit.Ensures.pure ⟨rfl, rfl, right⟩

theorem padArguments_reads (s : Ledger) (handler id : Nat) :
    Emit.Reads c s (padArguments source handler id) fun _ => True := by
  refine .read Emit.module_reads fun _ _ => ?_
  refine .read (Emit.required_reads _) fun _ _ => ?_
  exact .read (Emit.supported_reads _ _ _ _) fun _ _ => Emit.Ensures.pure ⟨rfl, rfl, trivial⟩

section

variable (valued : c.Valued) (found : c.module.function? source.function = some f)

include valued found

/-- Every test of a handler ends its block and goes on in a new one. -/
theorem testHandlers_opens (id routine : Nat) (handlers : List Nat)
    (h : d.Open c.module f todo 0) :
    Lower.Ensures c d (testHandlers source id routine personalitySignature handlers) fun _ d' =>
      d'.Open c.module f todo 0 := by
  induction handlers generalizing d with
  | nil => exact .pure h
  | cons handler rest ih =>
    have asked : Climbs c d.storage (do
        let pack ← packArguments (← padArguments source handler id) id
        Emit.code [.load pack, .call (.function routine) personalitySignature]) 0 1 :=
      .read (padArguments_reads _ _ _) fun _ _ =>
        Climbs.bind (packArguments_climbs valued _ _ _) fun _ _ _ => Emit.code_climbs 1 rfl
    refine .bind (h.emit asked.settles) fun _ d h => ?_
    refine .bind h.newBlock fun next d ⟨h, fresh⟩ => ?_
    have refused := Emit.instr_settles (c := c) (s := d.storage) 0
      (step_jump (i := .branchIfTrue next) rfl rfl (h.inside (.inr rfl)))
    refine .bind (h.emit refused) fun _ d h => ?_
    refine .bind (edge_step_closes valued found h handler) fun _ d h => ?_
    exact .bind (h.positionAt_last fresh) fun _ d h => ih h

/-- A choice among handlers closes its block and the blocks that it adds. -/
theorem lowerCatchSwitch_closes (h : d.Open c.module f todo 0) (id : Nat) (i : Instruction)
    (hasUnwind : Bool) : Lower.Ensures c d (lowerCatchSwitch source id i hasUnwind) fun _ d' =>
      d'.Closed c.module f todo := by
  refine .bind (h.emit_read (personality_reads _ id)) ?_
  rintro ⟨routine, sig⟩ d ⟨h, rfl⟩
  dsimp only
  split
  · exact h.emit_closes (Emit.breach_ensures _ _)
  refine .bind (testHandlers_opens valued found id routine _ h) fun _ d h => ?_
  split
  · split
    · exact edge_step_closes valued found h _
    · exact h.emit_closes (Emit.breach_ensures _ _)
  · exact h.emit_closes (returnDefault_closes _)

end

/-! ## Instructions -/

/-- What lowering assumes about a body: values are pushed as one value, a type is lowered to `void`
exactly if it is `void`, the function is regular, and there are results for its instructions. -/
structure Setting (c : Context) (source : SourceBlock) (f : Function) : Prop where
  valued : c.Valued
  voids : ∀ ty, c.conventions.lowerType c.module ty = some .void ↔ c.module.types.isVoid ty = true
  found : c.module.function? source.function = some f
  regular : Regular c.module f
  results : HasResults c.module f c.homes

/-- There is a variable for the result of a call exactly if the callee gives one. -/
theorem Setting.hasResult (setting : Setting c source f) {id functionType : Nat}
    {i : Instruction} (mem : (id, i) ∈ c.module.bodyOf f)
    (isCall : i.opcode = .call functionType ∨ i.opcode = .invoke functionType)
    (parts : Source.TypePool.FunctionParts)
    (isFunction : c.module.types.functionParts? functionType = some parts) :
    (c.homes.results.find? id).isSome = true ↔
      c.conventions.lowerType c.module parts.ret ≠ some .void := by
  have plain : isPlain i.opcode = true := by rcases isCall with call | invoke <;> simp [*, isPlain]
  have typed := typeOf?_of_hasReturnType (setting.regular.calls _ mem) isCall isFunction
  rw [setting.results mem plain typed, ne_eq, setting.voids, Bool.not_eq_true]

theorem lowerInvoke_closes (setting : Setting c source f) (h : d.Open c.module f todo 0)
    {id functionType : Nat} {i : Instruction} (mem : (id, i) ∈ c.module.bodyOf f)
    (isInvoke : i.opcode = .invoke functionType) :
    Lower.Ensures c d (lowerInvoke source id i functionType) fun _ d' =>
      d'.Closed c.module f todo := by
  unfold lowerInvoke
  split
  · exact h.emit_closes (Emit.breach_ensures _ _)
  · rename_i args normal unwind callee _
    have called : Climbs c d.storage (do
        emitCall id callee args functionType
        Emit.instr (.load (← Emit.exceptionSlot))) 0 1 := by
      refine Climbs.bind (emitCall_climbs setting.valued _ _ _
        (setting.hasResult mem (.inr isInvoke))) fun _ _ _ => ?_
      exact Climbs.bind (Emit.shared_climbs rfl _ 0) fun _ _ _ => Emit.instr_climbs 1 rfl
    refine .bind (h.emit called.settles) fun _ d h => ?_
    exact branchOn_closes setting.valued setting.found h _ _

/-- An instruction that is no exit leaves the draft open where it was, or further on. -/
theorem lowerInstruction_opens (setting : Setting c source f) (h : d.Open c.module f todo 0)
    {id : Nat} {i : Instruction} (mem : (id, i) ∈ c.module.bodyOf f)
    (goesOn : isExit i.opcode = false) :
    Lower.Ensures c d (lowerInstruction source id i) fun _ d' => d'.Open c.module f todo 0 := by
  have hasValue (plain : isPlain i.opcode = true) : ∀ ty, c.module.typeOf? id = some ty →
      (c.homes.results.find? id).isSome = true →
        c.conventions.lowerType c.module ty ≠ some .void := by
    intro ty typed there lowered
    have solid := (setting.results mem plain typed).1 there
    rw [(setting.voids ty).1 lowered] at solid
    cases solid
  -- An operation needs the variable that `hasValue` speaks of; other instructions do not.
  have operated (plain : isPlain i.opcode = true) :=
    h.emit (lowerOperation_climbs setting.valued _ id i (hasValue plain)).settles
  unfold lowerInstruction
  cases opcode : i.opcode with
  | ret | br | switch | invoke | unreachable | catchSwitch | catchRet | cleanupRet =>
    simp [opcode, isExit] at goesOn
  | alloca => exact h.emit (lowerAlloca_climbs _ id).settles
  | load => exact h.emit (lowerLoad_climbs setting.valued _ id i).settles
  | store => exact h.emit (lowerStore_climbs setting.valued _ id i).settles
  | call functionType =>
    exact h.emit (lowerCall_settles setting.valued _ i (setting.hasResult mem (.inl opcode)))
  | catchPad | cleanupPad => exact h.emit (lowerPad_climbs _ id).settles
  | fence => exact .read Lower.context_reads fun _ _ => h.note
  | atomicRmw | cmpXchg =>
    refine .read Lower.context_reads fun _ _ => .bind h.note fun _ d h => ?_
    refine h.emit (.read (Emit.resultOf_reads _) fun _ _ => ?_)
    exact (Emit.instr_climbs 0 rfl).settles
  | phi | indirectBr | callBr | resume | landingPad =>
    exact h.emit (Emit.unsupported_ensures _ _ _)
  | binary | fneg | cast | icmp | fcmp | getElementPtr | select | freeze | extractValue
  | insertValue | vaArg | extractElement | insertElement | shuffleVector =>
    exact operated (by rw [opcode]; rfl)

/-- An exit leaves every block written that was not to be written before. -/
theorem lowerInstruction_closes (setting : Setting c source f) (h : d.Open c.module f todo 0)
    {id : Nat} {i : Instruction} (mem : (id, i) ∈ c.module.bodyOf f)
    (exits : isExit i.opcode = true) :
    Lower.Ensures c d (lowerInstruction source id i) fun _ d' => d'.Closed c.module f todo := by
  have valued := setting.valued
  have found := setting.found
  unfold lowerInstruction
  cases opcode : i.opcode with
  | ret => exact h.emit_closes (lowerRet_closes valued _ i)
  | br => exact lowerBr_closes valued found h id i
  | switch => exact lowerSwitch_closes valued found h id i
  | invoke functionType => exact lowerInvoke_closes setting h mem opcode
  | unreachable => exact h.emit_closes (Emit.instr_closes rfl rfl)
  | catchSwitch hasUnwind => exact lowerCatchSwitch_closes valued found h id i hasUnwind
  | catchRet => exact h.emit_closes (lowerCatchRet_closes valued found h.size_le _ id i)
  | cleanupRet => exact h.emit_closes (lowerCleanupRet_closes valued found h.size_le _ id i)
  | _ => simp [opcode, isExit] at exits

/-- Instructions up to the first exit, which is the last of them. -/
theorem lowerInstructions_closes (setting : Setting c source f) {front : List (Nat × Instruction)}
    {id : Nat} {i : Instruction} (mem : ∀ p ∈ front ++ [(id, i)], p ∈ c.module.bodyOf f)
    (goOn : ∀ p ∈ front, isExit p.2.opcode = false) (exits : isExit i.opcode = true)
    (h : d.Open c.module f todo 0) :
    Lower.Ensures c d (lowerInstructions source (front ++ [(id, i)])) fun _ d' =>
      d'.Closed c.module f todo := by
  induction front generalizing d with
  | nil =>
    refine .bind (lowerInstruction_closes setting h (mem _ (by simp)) exits) fun _ d h => ?_
    exact .pure h
  | cons first rest ih =>
    have step := lowerInstruction_opens setting h (mem first (by simp)) (goOn first (by simp))
    refine .bind step fun _ d h => ?_
    exact ih (fun p later => mem p (by simp [later])) (fun p later => goOn p (by simp [later])) h

/-! ## Blocks -/

/-- Behind its phis, a regular block still ends where it first exits. -/
theorem drop_takeWhile_phis {front : List (Nat × Instruction)} {id : Nat} {i : Instruction}
    (exits : isExit i.opcode = true) :
    (front ++ [(id, i)]).drop
        ((front ++ [(id, i)]).takeWhile fun p => p.2.opcode == .phi).length =
      front.drop ((front ++ [(id, i)]).takeWhile fun p => p.2.opcode == .phi).length ++
        [(id, i)] := by
  have notPhi : (i.opcode == .phi) = false := by
    cases opcode : i.opcode <;> simp [opcode, isExit] at exits ⊢
  apply List.drop_append_of_le_length
  induction front with
  | nil => simp [notPhi]
  | cons first rest ih =>
    rw [List.cons_append, List.takeWhile_cons]
    split
    · exact Nat.succ_le_succ ih
    · exact Nat.zero_le _

/-- The instructions of a block belong to the body. -/
theorem mem_bodyOf {m : Module} {position : Nat} {b : Source.Block}
    (there : f.blocks[position]? = some b) {p : Nat × Instruction} (mem : p ∈ m.instructionsOf b) :
    p ∈ m.bodyOf f :=
  List.mem_flatMap.2 ⟨b, Array.mem_toList_iff.2 (Array.mem_of_getElem? there), mem⟩

theorem mem_bodyOf_of_blockInstructions? {m : Module} {function block : Nat}
    {code : List (Nat × Instruction)} (found : m.function? function = some f)
    (listed : m.blockInstructions? function block = some code) : ∀ p ∈ code, p ∈ m.bodyOf f := by
  rw [Module.blockInstructions?, found, Option.bind_some, Option.map_eq_some_iff] at listed
  obtain ⟨b, there, rfl⟩ := listed
  exact fun p mem => mem_bodyOf there mem

theorem instruction?_of_blockInstructions? {m : Module} {function block : Nat}
    {code : List (Nat × Instruction)}
    (listed : m.blockInstructions? function block = some code) :
    ∀ p ∈ code, m.instruction? p.1 = some p.2 := by
  obtain ⟨f, found, -⟩ := Option.bind_eq_some_iff.1 listed
  exact fun p mem =>
    instruction?_of_mem_bodyOf (mem_bodyOf_of_blockInstructions? found listed p mem)

/-- The leading phis of a block are phis of the body. -/
theorem mem_bodyOf_of_leadingPhis? {m : Module} {function target phi : Nat} {phis : List Nat}
    (found : m.function? function = some f) (leading : m.leadingPhis? function target = some phis)
    (mem : phi ∈ phis) : ∃ i, (phi, i) ∈ m.bodyOf f ∧ i.opcode = .phi := by
  obtain ⟨code, listed, rfl⟩ := Option.map_eq_some_iff.1 leading
  obtain ⟨⟨id, i⟩, taken, rfl⟩ := List.mem_map.1 mem
  have isPhi := List.all_eq_true.1 List.all_takeWhile _ taken
  refine ⟨i, ?_, by simpa using isPhi⟩
  exact mem_bodyOf_of_blockInstructions? found listed _ (List.takeWhile_subset _ taken)

/-- What opens a block are phis. -/
theorem isPhi_of_leadingPhis? {m : Module} {function target : Nat} {phis : List Nat}
    (leading : m.leadingPhis? function target = some phis) :
    ∀ phi ∈ phis, ∃ i, m.instruction? phi = some i ∧ i.opcode = .phi := by
  intro phi mem
  obtain ⟨code, listed, -⟩ := Option.map_eq_some_iff.1 leading
  obtain ⟨f, found, -⟩ := Option.bind_eq_some_iff.1 listed
  obtain ⟨i, inBody, isPhi⟩ := mem_bodyOf_of_leadingPhis? found leading mem
  exact ⟨i, instruction?_of_mem_bodyOf inBody, isPhi⟩

/-- The leading phis of a block come before its other instructions. -/
theorem drop_length_leadingPhis {m : Module} {function block : Nat} {phis : List Nat}
    {code : List (Nat × Instruction)} (listed : m.blockInstructions? function block = some code)
    (leading : m.leadingPhis? function block = some phis) :
    code.drop phis.length = code.dropWhile fun p => p.2.opcode == .phi := by
  rw [Module.leadingPhis?, listed, Option.map_some, Option.some.injEq] at leading
  rw [← leading, List.length_map]
  conv =>
    lhs; arg 2
    rw [← List.takeWhile_append_dropWhile (p := fun p => p.2.opcode == .phi) (l := code)]
  exact List.drop_left

/-- Lowering a source block writes it, and whatever blocks it needs besides. -/
theorem lowerBlock_closes (setting : Setting c source f) (h : d.Closed c.module f todo)
    (waits : todo source.block) :
    Lower.Ensures c d (lowerBlock source) fun _ d' =>
      d'.Closed c.module f fun l => todo l ∧ l ≠ source.block := by
  -- The part that is the same whether or not the block enters the frame first.
  have body {d : Draft} (h : d.Open c.module f (fun l => todo l ∧ l ≠ source.block) 0) :
      Lower.Ensures c d (do
        let m ← Lower.module
        let phis ← Lower.required (m.leadingPhis? source.function source.block)
        Lower.emit (takeOver phis.reverse)
        let code ← Lower.required (m.blockInstructions? source.function source.block)
        lowerInstructions source (code.drop phis.length)) fun _ d' =>
          d'.Closed c.module f fun l => todo l ∧ l ≠ source.block := by
    refine .read Lower.module_reads fun _ same => ?_
    rw [same]
    refine .read (Lower.required_reads _) fun phis leading => ?_
    refine .bind (h.emit (takeOver_settles _ _)) fun _ d h => ?_
    refine .read (Lower.required_reads _) fun code listed => ?_
    rw [Module.leadingPhis?, listed, Option.map_some, Option.some.injEq] at leading
    rw [Module.blockInstructions?, setting.found, Option.bind_some,
      Option.map_eq_some_iff] at listed
    obtain ⟨b, there, rfl⟩ := listed
    obtain ⟨front, id, i, split, exits, goOn⟩ :=
      endsAtExit_iff.1 (setting.regular.exits b (Array.mem_of_getElem? there))
    rw [← leading, List.length_map, split, drop_takeWhile_phis exits]
    refine lowerInstructions_closes setting ?_ (fun p mem => goOn p (List.mem_of_mem_drop mem))
      exits h
    intro p mem
    apply mem_bodyOf there
    rw [split]
    rcases List.mem_append.1 mem with early | last
    · exact List.mem_append.2 (.inl (List.mem_of_mem_drop early))
    · exact List.mem_append.2 (.inr last)
  refine .bind (h.positionAt waits) fun _ d h => ?_
  refine .read Lower.context_reads fun _ _ => ?_
  split
  · exact .bind (h.emit (Emit.instr_climbs 0 rfl).settles) fun _ d h => body h
  · exact body h

/-- Lowering source blocks in order leaves those behind them to be written. -/
theorem lowerBlocks_closes {function : Nat} (setting : ∀ block, Setting c ⟨function, block⟩ f)
    (numbered : f.Numbered) {before blocks : List Source.Block}
    (split : f.blocks.toList = before ++ blocks)
    (h : d.Closed c.module f fun l => before.length ≤ l ∧ l < f.blocks.size) :
    Lower.Ensures c d (lowerBlocks function blocks) fun _ d' =>
      d'.Closed c.module f fun _ => False := by
  have total : f.blocks.size = before.length + blocks.length := by
    rw [← Array.length_toList, split, List.length_append]
  -- The blocks lowered so far are the first ones, since a block knows its own position.
  induction blocks generalizing d before with
  | nil =>
    have none : (fun l => before.length ≤ l ∧ l < f.blocks.size) = fun _ => False := by
      funext l
      simp only [total, List.length_nil, eq_iff_iff, iff_false]
      omega
    rw [none] at h
    exact .pure h
  | cons b rest ih =>
    have there : f.blocks[before.length]? = some b := by
      rw [← Array.getElem?_toList, split]
      simp
    have here : b.id = before.length := numbered there
    rw [List.length_cons] at total
    have waits : before.length ≤ b.id ∧ b.id < f.blocks.size := by omega
    refine .bind (lowerBlock_closes (setting b.id) h waits) fun _ d h => ?_
    have fewer : (fun l => (before.length ≤ l ∧ l < f.blocks.size) ∧ l ≠ b.id) =
        fun l => (before ++ [b]).length ≤ l ∧ l < f.blocks.size := by
      funext l
      rw [List.length_append, List.length_singleton, here]
      apply propext
      omega
    rw [fewer] at h
    refine ih (by rw [split, List.append_assoc]; rfl) h ?_
    rw [List.length_append, List.length_singleton]
    omega

/-! ## Functions -/

/-- What is fixed while the body of a function is lowered. -/
def functionContext (conventions : Conventions) (m : Module) (throwing : Throwing)
    (function : Nat) (f : Function) (returns : Code.Ty) (homes : Homes := {}) : Context :=
  { module := m, conventions, throwing, function := some function, name := f.name, returns, homes }

/-- The draft with which the body of a function starts. -/
def startDraft (f : Function) : Draft :=
  { blocks := f.blocks.map fun b => { origin := some b.id } }

/-- Before the blocks are lowered, they are empty, and the variables of instructions are there. -/
theorem allocated_starts (f : Function) :
    Lower.Ensures c (startDraft f) (Lower.emit (allocateAll {} (c.module.bodyOf f)))
      fun homes d => d = { startDraft f with storage := d.storage } ∧
        Housed c.module homes d.storage := by
  refine Lower.emit_ensures fun b there => .imp (allocated_housed f) ?_
  rintro ⟨_, s, _⟩ ⟨rfl, housed⟩
  rw [Draft.write_nil there]
  exact ⟨rfl, housed⟩

/-- A function that is lowered is defined, and its body is made from the draft that lowering ends
with. -/
theorem lowerFunction_eq_body {conventions : Conventions} {m : Module} {throwing : Throwing}
    {function : Nat} {body : Code.Body}
    (h : (lowerFunction conventions m throwing function).1 = .ok body) :
    ∃ f returns signature d, m.function? function = some f ∧ f.isDeclaration = false ∧
      lowerBody function f (functionContext conventions m throwing function f returns)
        (startDraft f) = .ok () d ∧
      body = {
        function, name := f.name, signature, storage := d.storage.toStorage, blocks := d.finish
        needsFrame := throwing.needsFrame function } := by
  unfold lowerFunction at h
  split at h
  · cases h
  · rename_i f found
    split at h
    · cases h
    · rename_i returns signature typed
      have defined : f.isDeclaration = false := by
        cases declared : f.isDeclaration with
        | false => rfl
        | true => simp [functionTypes, declared] at typed
      dsimp only at h
      split at h
      · cases h
      · rename_i draft events run
        cases h
        rw [runLower] at run
        split at run
        · rename_i ran
          cases run
          exact ⟨f, returns, signature, draft, found, defined, ran, rfl⟩
        · cases run

/-- The same, for the variables and the blocks alone. -/
theorem lowerFunction_eq_ok {conventions : Conventions} {m : Module} {throwing : Throwing}
    {function : Nat} {body : Code.Body}
    (h : (lowerFunction conventions m throwing function).1 = .ok body) :
    ∃ f returns d, m.function? function = some f ∧ f.isDeclaration = false ∧
      lowerBody function f (functionContext conventions m throwing function f returns)
        (startDraft f) = .ok () d ∧
      body.storage = d.storage.toStorage ∧ body.blocks = d.finish := by
  obtain ⟨f, returns, signature, d, found, defined, ran, rfl⟩ := lowerFunction_eq_body h
  exact ⟨f, returns, d, found, defined, ran, rfl, rfl⟩

end Stackwise.Lowering
