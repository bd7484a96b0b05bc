import Stackwise.Proofs.Lowering.Simulation
import Stackwise.Proofs.Lowering.Variables
import Stackwise.Proofs.Peephole.Frames

/-!
# What lowering does to a draft

Whatever the source, an instruction is lowered by a few kinds of moves: code is written at the end
of the current block, a block is added behind all others, and the place to write moves to a block
that was added on the way.  `Draft.Becomes` is the relation between the drafts before and after, and
`lowerInstruction_builds` shows that no step of lowering does anything else.  What is true of all
lowered code follows by induction over the moves, without going back to the steps.

The code of a single move is a *piece* (`Piece`): it uses the variables of the table as it may, and
it leaves the frame right before each return and nowhere else.
-/

namespace Stackwise.Lowering

open Code (Framed Instr Storage)
open Source (Function Instruction Module)

variable {c : Context}

/-! ## Framed shapes -/

section

variable {function : Nat} {s : Storage} {code : List Instr}

/-- An instruction that a quiet step writes neither returns nor starts or leaves the frame, so it
may stand anywhere in framed code. -/
theorem Quiet.standsAlone {m : Module} {i : Instr} (h : Quiet m s i) (framed : Bool) :
    i.standsAlone framed = true := by
  cases i with
  | ret | retDefault | retIfPending | enterFrame | leaveFrame => cases h
  | _ => rfl

/-- Quiet code is framed, in a body with a frame and in one without. -/
theorem AllQuiet.framed {m : Module} (h : AllQuiet m s code) (framed : Bool) :
    Framed framed code :=
  .of_forall fun i mem => (h i mem).standsAlone framed

/-- A return that lowering writes is preceded by the instruction that leaves the frame exactly if
the body has one. -/
theorem leaving_framed {i : Instr} (returns : i.isReturn = true) :
    Framed c.needsFrame (leaving c i) := by
  rw [leaving]
  split
  · rename_i framed
    exact .leave framed returns .nil
  · rename_i unframed
    rw [Bool.not_eq_true] at unframed
    rw [unframed]
    refine .singleton ?_
    cases i with
    | ret | retDefault => rfl
    | _ => cases returns

/-- Operands for phis are handed over by framed code. -/
theorem HandOverCode.framed {phis : List Nat} (h : HandOverCode c s phis code) (framed : Bool) :
    Framed framed code := by
  induction h with
  | nil => exact .nil
  | cons quiet _ _ ih => exact (quiet.framed framed).append (.step rfl ih)

/-- Phis take their operands over by framed code. -/
theorem TakeOverCode.framed {phis : List Nat} (h : TakeOverCode c s phis code) (framed : Bool) :
    Framed framed code := by
  induction h with
  | nil => exact .nil
  | cons _ _ _ ih => exact .step rfl (.step rfl ih)

/-- The code of an edge ends with a branch and is framed. -/
theorem EdgeCode.framed {target : Nat} (h : EdgeCode c function s target code) (framed : Bool) :
    Framed framed code := by
  obtain ⟨phis, front, -, hands, rfl⟩ := h
  exact (hands.framed framed).append (.singleton rfl)

/-- The code of a call is framed. -/
theorem CallCode.framed {callee : Nat} (h : CallCode c s callee code) (framed : Bool) :
    Framed framed code := by
  obtain ⟨before, call, after, quiet, calls, quiet', rfl⟩ := h
  refine (quiet.framed framed).append (.step ?_ (quiet'.framed framed))
  cases calls with
  | direct | indirect => rfl

/-- The code of one source instruction is framed, in the frame that the body has. -/
theorem StepCode.framed {id : Nat} {i : Instruction} (h : StepCode c s id i code) :
    Framed c.needsFrame code := by
  cases h with
  | quiet _ quiet => exact quiet.framed _
  | call _ _ called =>
    refine (called.framed _).append ?_
    rw [checkOf]
    split
    · exact .singleton (beq_self_eq_true _)
    · exact .nil
  | pad => exact .of_forall (by simp [Instr.standsAlone])

/-- Unwinding goes on in a block or leaves the body, and is framed in both cases. -/
theorem UnwindCode.framed {target? : Option Nat} (h : UnwindCode c function s target? code) :
    Framed c.needsFrame code := by
  cases target? with
  | some target => exact EdgeCode.framed h _
  | none =>
    obtain rfl : code = leaving c (.retDefault c.returns) := h
    exact leaving_framed rfl

end

/-! ## Pieces -/

/-- Code that is written in one go. -/
structure Piece (c : Context) (s : Storage) (code : List Instr) : Prop where
  tabled : AllTabled c.module s code
  framed : Framed c.needsFrame code

namespace Piece

variable {s : Storage} {code code' : List Instr}

theorem nil : Piece c s [] := ⟨allTabled_nil, .nil⟩

/-- Two pieces that are written one after another are a piece. -/
theorem append (h : Piece c s code) (h' : Piece c s code') : Piece c s (code ++ code') :=
  ⟨h.tabled.append h'.tabled, h.framed.append h'.framed⟩

/-- An instruction that names no variable and may stand alone is a piece. -/
theorem singleton {i : Instr} (none : i.var? = none)
    (alone : ∀ framed, i.standsAlone framed = true) : Piece c s [i] :=
  ⟨allTabled_nil.behind none, .singleton (alone _)⟩

/-- Quiet code is a piece. -/
theorem of_quiet (quiet : AllQuiet c.module s code) : Piece c s code :=
  ⟨quiet.tabled, quiet.framed _⟩

/-- The code of an edge is a piece. -/
theorem of_edge {function target : Nat} (edge : EdgeCode c function s target code) :
    Piece c s code :=
  ⟨edge.tabled, edge.framed _⟩

/-- A return with the frame left before it is a piece. -/
theorem of_leaving {i : Instr} (returns : i.isReturn = true) : Piece c s (leaving c i) := by
  refine ⟨leaving_tabled ?_, leaving_framed returns⟩
  cases i with
  | ret | retDefault => rfl
  | _ => cases returns

/-- Quiet code in front of a piece belongs to it. -/
theorem absorbs : Absorbs c.module (Piece c) :=
  fun _ _ _ quiet later => (of_quiet quiet).append later

end Piece

namespace Emit

/-- A step whose code is a piece, from every table in which the variables of instructions have their
homes. -/
def Pieces {α : Type} (c : Context) (step : Emit α) : Prop :=
  ∀ ⦃s : Ledger⦄, Housed c.module c.homes s → Writes c s step (Piece c)

variable {α β : Type}

/-- A step writes a piece if its code has a shape all of whose instances are pieces. -/
theorem Pieces.of_shapes {step : Emit α} {Q : Storage → List Instr → Prop}
    (h : ∀ ⦃s : Ledger⦄, Housed c.module c.homes s → Writes c s step Q)
    (piece : ∀ ⦃s : Storage⦄, Housed c.module c.homes s → ∀ ⦃code : List Instr⦄, Q s code →
      Piece c s code) : Pieces c step :=
  fun _ housed => (h housed).imp fun _ _ grown shaped => piece (housed.grows grown) shaped

/-- A quiet step writes a piece. -/
theorem Pieces.of_quietly {step : Emit α} {P : α → Storage → Prop}
    (h : ∀ ⦃s : Ledger⦄, Housed c.module c.homes s → Yields c s step P) : Pieces c step :=
  .of_shapes (fun _ housed => (h housed).writes) fun _ _ _ quiet => .of_quiet quiet

/-- A step that writes nothing writes a piece. -/
theorem Pieces.of_reads {step : Emit α} {P : α → Prop} (h : ∀ s, Reads c s step P) :
    Pieces c step := by
  intro s _ spot e run
  obtain ⟨nothing, same, -⟩ := h s run
  rw [nothing, same]
  exact ⟨.refl _ _, fun _ _ => .nil⟩

/-- Steps that write pieces can be chained. -/
theorem Pieces.bind {x : Emit α} {f : α → Emit β} (first : Pieces c x)
    (second : ∀ a, Pieces c (f a)) : Pieces c (x >>= f) :=
  fun _ housed => (first housed).bind (fun a _ grown => second a (housed.grows grown))
    fun _ _ _ _ here later => here.append later

/-- A single instruction that names no variable and may stand alone is written as a piece. -/
theorem instr_pieces {i : Instr} (none : i.var? = none)
    (alone : ∀ framed, i.standsAlone framed = true) : Pieces c (instr i) :=
  fun _ _ => instr_writes fun _ _ => .singleton none alone

end Emit

open Emit (Pieces)

/-- An edge is written as a piece. -/
theorem edge_pieces (source : SourceBlock) (target : Nat) : Pieces c (edge source target) :=
  .of_shapes (fun _ housed => edge_shapes housed source target) fun _ _ _ edge => .of_edge edge

/-- Phis take their operands over by a piece. -/
theorem takeOver_pieces {phis : List Nat}
    (arePhis : ∀ phi ∈ phis, ∃ i, c.module.instruction? phi = some i ∧ i.opcode = .phi) :
    Pieces c (takeOver phis) :=
  .of_shapes (fun _ housed => takeOver_shapes housed arePhis) fun _ _ _ takes =>
    ⟨takes.tabled, takes.framed _⟩

/-- The default return is written as a piece. -/
theorem returnDefault_pieces : Pieces c returnDefault := by
  refine .of_shapes (fun _ _ => returnDefault_shapes) ?_
  rintro s _ _ rfl
  exact .of_leaving rfl

/-- A return is lowered to a piece. -/
theorem lowerRet_pieces (i : Instruction) : Pieces c (lowerRet i) := by
  refine .of_shapes (fun _ housed => lowerRet_shapes housed i) ?_
  rintro s _ _ ⟨pushed, hasValue, quiet, rfl⟩
  exact (Piece.of_quiet quiet).append (.of_leaving rfl)

/-- The comparisons and branches of a switch are a piece. -/
theorem dispatch_pieces (index ty bits id : Nat) (cases : List Case) :
    Pieces c (dispatch index ty bits id cases) := by
  refine .of_shapes (fun _ housed => dispatch_shapes housed index ty bits id cases) ?_
  intro s _ code dispatches
  have each {i : Instr} (mem : i ∈ code) :
      Tabled c.module s i ∧ i.standsAlone c.needsFrame = true := by
    rcases dispatches i mem with quiet | ⟨conditional, -⟩
    · exact ⟨quiet.tabled, quiet.standsAlone _⟩
    · cases i with
      | branchIfTrue | branchIfFalse | branchIfEqual | switch => exact ⟨tabled_unnamed rfl, rfl⟩
      | _ => cases conditional
  exact ⟨fun i mem => (each mem).1, .of_forall fun i mem => (each mem).2⟩

/-- Leaving a handler is lowered to a piece. -/
theorem lowerCatchRet_pieces (source : SourceBlock) (id : Nat) (i : Instruction) :
    Pieces c (lowerCatchRet source id i) := by
  refine .of_shapes (fun _ housed => lowerCatchRet_shapes housed source id i) ?_
  rintro s _ _ ⟨front, target, last, rfl, quiet, edge⟩
  exact (Piece.of_quiet quiet).append (.of_edge edge)

/-- Leaving a cleanup is lowered to a piece. -/
theorem lowerCleanupRet_pieces (source : SourceBlock) (id : Nat) {i : Instruction}
    (opcode : i.opcode = .cleanupRet) : Pieces c (lowerCleanupRet source id i) := by
  refine .of_shapes (fun _ housed => lowerCleanupRet_shapes housed source id i opcode) ?_
  intro s _ code exits
  refine ⟨(exits []).tabled, ?_⟩
  cases exits [] with
  | cleanupRet _ _ quiet _ _ unwinds => exact (quiet.framed _).append (.step rfl unwinds.framed)
  | ret opcode' | unreachable opcode' | invoke opcode' | catchSwitch opcode' =>
    rw [opcode] at opcode'
    cases opcode'
  | jump branches =>
    rw [opcode] at branches
    cases branches

/-- A pad is lowered to a piece. -/
theorem lowerPad_pieces {id : Nat} {i : Instruction} (pad : isPad i.opcode = true) :
    Pieces c (lowerPad id) :=
  .of_shapes (fun _ _ => lowerPad_shapes pad) fun _ housed _ step =>
    ⟨step.tabled housed, step.framed⟩

section

variable {id : Nat} {i : Instruction} (isInstruction : c.module.instruction? id = some i)

include isInstruction

/-- A call is lowered to a piece. -/
theorem lowerCall_pieces {functionType : Nat} (opcode : i.opcode = .call functionType) :
    Pieces c (lowerCall id i functionType) :=
  .of_shapes (fun _ housed => lowerCall_shapes housed isInstruction opcode)
    fun _ housed _ step => ⟨step.tabled housed, step.framed⟩

/-- The call of an `invoke`, with the exception in flight pushed behind it. -/
theorem invokeCall_pieces {functionType : Nat} (opcode : i.opcode = .invoke functionType)
    (callee : Nat) (args : List Nat) :
    Pieces c (do
      emitCall id callee args functionType
      Emit.instr (.load (← Emit.exceptionSlot))) := by
  have notPad : isPad i.opcode = false := by
    rw [opcode]
    rfl
  refine .bind (.of_shapes (fun _ housed =>
    emitCall_shapes isInstruction notPad housed callee args functionType) ?_) fun _ => ?_
  · exact fun _ _ _ call => ⟨call.tabled, call.framed _⟩
  · exact .of_quietly fun _ _ => Emit.loadShared_quietly rfl _

end

/-- The question to the personality routine about a handler. -/
theorem askHandler_pieces (source : SourceBlock) (handler id routine : Nat)
    (sig : Code.Signature) : Pieces c (do
      let pack ← packArguments (← padArguments source handler id) id
      Emit.code [.load pack, .call (.function routine) sig]) := by
  intro s housed
  refine .read (padArguments_reads s handler id) fun args _ => ?_
  refine Piece.absorbs.bind (packArguments_yields housed args id) fun pack s' _ writable => ?_
  refine Emit.code_writes fun final grown => ?_
  obtain ⟨v, there, -⟩ := writable.grows grown
  exact ⟨(allTabled_nil.behind rfl).load there, .of_forall (by simp [Instr.standsAlone])⟩

/-! ## Moves -/

/-- The second draft comes from the first by moves of lowering. -/
inductive Draft.Becomes (c : Context) (start : Draft) : Draft → Prop
  | refl : Becomes c start start
  | write {d : Draft} {b : DraftBlock} {code : List Instr} {storage : Ledger}
      (before : Becomes c start d) (there : d.blocks[d.current]? = some b)
      (grown : d.storage.Grows c.module storage) (piece : Piece c storage code) :
    Becomes c start (d.write b code storage)
  | grow {d : Draft} (before : Becomes c start d) : Becomes c start d.grow
  | positionAt {d : Draft} {label : Nat} (before : Becomes c start d)
      (new : start.blocks.size ≤ label) (inside : label < d.blocks.size) :
    Becomes c start { d with current := label }
  | note {d : Draft} (before : Becomes c start d) (event : Event) :
    Becomes c start { d with events := d.events ++ [event] }

namespace Draft

variable {start d d' : Draft}

/-- Moves remove no block. -/
theorem Becomes.size_le (h : start.Becomes c d) : start.blocks.size ≤ d.blocks.size := by
  induction h with
  | refl => exact Nat.le_refl _
  | write _ _ _ _ ih => rwa [size_write]
  | grow _ ih => exact Nat.le_trans ih (size_le_size_grow _)
  | positionAt _ _ _ ih | note _ _ ih => exact ih

/-- Moves only add: code at the end of the current block, and blocks behind all others. -/
theorem Becomes.advances (h : start.Becomes c d) (inside : start.current < start.blocks.size) :
    start.Advances c.module d := by
  induction h with
  | refl => exact .refl _ _
  | write _ there grown _ ih => exact ih.trans (advances_write there _ grown) inside
  | grow _ ih => exact ih.trans (advances_grow (ih.inside inside)) inside
  | positionAt _ new there ih => exact ih.positionAt new there
  | note _ _ ih => exact ⟨ih.storage, ih.size, ih.position, ih.inside, ih.here, ih.elsewhere⟩

/-- A draft on the way from another one, with the labels of blocks made on the way. -/
structure Underway (c : Context) (start : Draft) (made : List Nat) (d : Draft) : Prop where
  housed : Housed c.module c.homes d.storage
  becomes : start.Becomes c d
  made : ∀ label ∈ made, start.blocks.size ≤ label ∧ label < d.blocks.size

/-- A draft with all homes in its table is on the way from itself. -/
theorem Underway.refl (housed : Housed c.module c.homes d.storage) : d.Underway c [] d :=
  ⟨housed, .refl, List.forall_mem_nil _⟩

/-- It is allowed to forget blocks that were made on the way. -/
theorem Underway.forget {made made' : List Nat} (h : start.Underway c made d)
    (fewer : made' ⊆ made) : start.Underway c made' d :=
  ⟨h.housed, h.becomes, fun label mem => h.made label (fewer mem)⟩

/-- Writing a piece in the current block is a move. -/
theorem Underway.emit {α : Type} {made : List Nat} (h : start.Underway c made d) {step : Emit α}
    (pieces : Pieces c step) :
    Lower.Ensures c d (Lower.emit step) fun _ d' => start.Underway c made d' := by
  refine Lower.emit_ensures fun b there => ?_
  refine Emit.Ensures.imp (pieces h.housed) fun e ⟨grown, piece⟩ => ?_
  refine ⟨h.housed.grows grown, .write h.becomes there grown (piece _ (.refl _ _)), ?_⟩
  rw [size_write]
  exact h.made

/-- Adding a block is a move, and its label is one of those made on the way. -/
theorem Underway.newBlock {made : List Nat} (h : start.Underway c made d) :
    Lower.Ensures c d Lower.newBlock fun label d' => start.Underway c (label :: made) d' := by
  refine Lower.newBlock_ensures ⟨h.housed, .grow h.becomes, ?_⟩
  rw [List.forall_mem_cons, Array.size_push]
  refine ⟨⟨h.becomes.size_le, Nat.lt_succ_self _⟩, fun label mem => ?_⟩
  exact ⟨(h.made label mem).1, Nat.lt_succ_of_lt (h.made label mem).2⟩

/-- Going on to write in a block that was made on the way is a move. -/
theorem Underway.positionAt {made : List Nat} {label : Nat} (h : start.Underway c made d)
    (mem : label ∈ made) :
    Lower.Ensures c d (Lower.positionAt label) fun _ d' => start.Underway c made d' :=
  Lower.positionAt_ensures
    ⟨h.housed, .positionAt h.becomes (h.made label mem).1 (h.made label mem).2, h.made⟩

end Draft

namespace Lower

variable {α β : Type}

/-- A step that makes moves of lowering only. -/
def Builds (c : Context) (step : Lower α) : Prop :=
  ∀ ⦃start d : Draft⦄ ⦃made : List Nat⦄, start.Underway c made d →
    Ensures c d step fun _ d' => start.Underway c made d'

theorem Builds.pure (a : α) : Builds c (pure a : Lower α) := fun _ _ _ h => Ensures.pure h

/-- Steps that make moves only can be chained. -/
theorem Builds.bind {x : Lower α} {f : α → Lower β} (first : Builds c x)
    (second : ∀ a, Builds c (f a)) : Builds c (x >>= f) :=
  fun _ _ _ h => Ensures.bind (first h) fun a _ h' => second a h'

/-- After a step that only looks something up, what it found may be used. -/
theorem Builds.read {x : Lower α} {f : α → Lower β} {P : α → Prop}
    (first : ∀ d, Reads c d x P) (second : ∀ a, P a → Builds c (f a)) : Builds c (x >>= f) :=
  fun _ d _ h => Ensures.read (first d) fun a found => second a found h

/-- Writing a piece makes moves only. -/
theorem emit_builds {step : Emit α} (pieces : Pieces c step) : Builds c (emit step) :=
  fun _ _ _ h => h.emit pieces

/-- A step that never ends but in a fault. -/
theorem emit_fails_builds {step : Emit α}
    (fails : ∀ s, Emit.Ensures c s step fun _ => False) : Builds c (emit step) := by
  intro start d made h
  refine emit_ensures fun b there => ?_
  exact Emit.Ensures.imp (fails d.storage) fun _ absurd => absurd.elim

theorem instr_builds {i : Instr} (none : i.var? = none)
    (alone : ∀ framed, i.standsAlone framed = true) : Builds c (instr i) :=
  emit_builds (Emit.instr_pieces none alone)

/-- Telling an event changes nothing but the trace. -/
theorem note_builds (event : Event) : Builds c (note event) :=
  fun _ _ _ h => note_ensures ⟨h.housed, .note h.becomes event, h.made⟩

end Lower

open Lower (Builds)

/-! ## Branches and switches -/

/-- A branch on a condition adds blocks for the edges that move something, and goes on to write in
them. -/
theorem branchOn_builds (source : SourceBlock) (ifTrue ifFalse : Nat) :
    Builds c (branchOn source ifTrue ifFalse) := by
  refine .read (fun _ => hasPhis_finds ifTrue) fun phis _ => ?_
  split
  · refine .bind (Lower.instr_builds rfl fun _ => rfl) fun _ => ?_
    exact Lower.emit_builds (edge_pieces _ _)
  · refine .read (fun _ => hasPhis_finds ifFalse) fun phis _ => ?_
    split
    · refine .bind (Lower.instr_builds rfl fun _ => rfl) fun _ => ?_
      exact Lower.emit_builds (edge_pieces _ _)
    · intro start d made h
      refine .bind h.newBlock fun detour d₁ h₁ => ?_
      refine .bind (Lower.instr_builds rfl (fun _ => rfl) h₁) fun _ d₂ h₂ => ?_
      refine .bind (h₂.emit (edge_pieces _ _)) fun _ d₃ h₃ => ?_
      refine .bind (h₃.positionAt List.mem_cons_self) fun _ d₄ h₄ => ?_
      exact (h₄.forget (List.subset_cons_self _ _)).emit (edge_pieces _ _)

/-- Both kinds of branches make moves only. -/
theorem lowerBr_builds (source : SourceBlock) (id : Nat) (i : Instruction) :
    Builds c (lowerBr source id i) := by
  unfold lowerBr
  split
  · exact Lower.emit_builds (edge_pieces _ _)
  · exact Lower.emit_fails_builds fun _ => Emit.breach_ensures _ _
  · refine .bind (Lower.emit_builds ?_) fun _ => branchOn_builds _ _ _
    exact .of_quietly fun _ housed => pushCondition_quietly housed _ _
  · exact Lower.emit_fails_builds fun _ => Emit.breach_ensures _ _
  · exact Lower.emit_fails_builds fun _ =>
      .read Emit.spot_reads fun _ _ => Emit.breachAt_ensures _ _

/-- Reading the cases of a switch adds a block for each case whose edge moves something, and
remembers their labels. -/
theorem readCases_builds (source : SourceBlock) (id : Nat) (operands : List Source.Operand)
    {start d : Draft} {made : List Nat} (h : start.Underway c made d) :
    Lower.Ensures c d (readCases source id operands) fun cases d' =>
      start.Underway c (detours cases ++ made) d' := by
  fun_induction readCases source id operands generalizing d made with
  | case1 => exact .pure h
  | case2 value target rest ih =>
    refine .bind (h.emit (.of_reads (P := fun _ => True) fun s => ?_)) fun value d h => ?_
    · exact .read (Emit.sourceValue_reads _) fun _ _ =>
        (Emit.supported_reads _ _ _ _).imp fun _ _ => trivial
    refine .read (hasPhis_finds target) fun phis _ => ?_
    split
    · refine .bind h.newBlock fun label d h => ?_
      refine .bind (ih h) fun cases d h => .pure (h.forget ?_)
      exact List.perm_middle.symm.subset
    · exact .bind (ih h) fun cases d h => .pure h
  | case3 => exact Lower.emit_ensures fun _ _ => Emit.breach_ensures _ _

/-- The blocks of such cases are filled afterwards: their labels are still known. -/
theorem fillDetours_builds (source : SourceBlock) (cases : List Case) {start d : Draft}
    {made : List Nat} (h : start.Underway c made d) (known : detours cases ⊆ made) :
    Lower.Ensures c d (fillDetours source cases) fun _ d' => start.Underway c made d' := by
  fun_induction fillDetours source cases generalizing d with
  | case1 => exact .pure h
  | case2 value label target rest ih =>
    rw [detours_cons_some, List.cons_subset] at known
    refine .bind (h.positionAt known.1) fun _ d h => ?_
    exact .bind (h.emit (edge_pieces _ _)) fun _ d h => ih h known.2
  | case3 value label rest ih => exact ih h known

/-- A switch makes moves only. -/
theorem lowerSwitch_builds (source : SourceBlock) (id : Nat) (i : Instruction) :
    Builds c (lowerSwitch source id i) := by
  unfold lowerSwitch
  split
  · rename_i index default rest operands
    intro start d made h
    refine .bind (h.emit (.of_reads (P := fun _ => True) fun s => ?_)) fun found d h => ?_
    · refine .read (Emit.typeOf_reads _) fun ty _ => ?_
      refine .read Emit.module_reads fun _ _ => ?_
      exact .read (Emit.supported_reads _ _ _ _) fun bits _ =>
        Emit.Ensures.pure ⟨rfl, rfl, trivial⟩
    refine .bind (readCases_builds _ _ _ h) fun cases d h => ?_
    refine .bind (h.emit (dispatch_pieces _ _ _ _ _)) fun _ d h => ?_
    refine .bind (h.emit (edge_pieces _ _)) fun _ d h => ?_
    intro _ d' run
    exact (fillDetours_builds _ _ h (List.subset_append_left _ _) run).forget
      (List.subset_append_right _ _)
  · exact Lower.emit_fails_builds fun _ => Emit.breach_ensures _ _

/-! ## Calls and handlers -/

/-- An invoke makes moves only: its call, the blocks behind its check, and their edges. -/
theorem lowerInvoke_builds (source : SourceBlock) {id : Nat} {i : Instruction}
    (isInstruction : c.module.instruction? id = some i) {functionType : Nat}
    (opcode : i.opcode = .invoke functionType) :
    Builds c (lowerInvoke source id i functionType) := by
  unfold lowerInvoke
  split
  · exact Lower.emit_fails_builds fun _ => Emit.breach_ensures _ _
  · refine .bind (Lower.emit_builds (invokeCall_pieces isInstruction opcode _ _)) fun _ => ?_
    exact branchOn_builds _ _ _

/-- Asking the handlers one after another makes moves only. -/
theorem testHandlers_builds (source : SourceBlock) (id routine : Nat) (sig : Code.Signature)
    (handlers : List Nat) : Builds c (testHandlers source id routine sig handlers) := by
  induction handlers with
  | nil => exact .pure _
  | cons handler rest ih =>
    intro start d made h
    refine .bind (h.emit (askHandler_pieces _ _ _ _ _)) fun _ d h => ?_
    refine .bind h.newBlock fun next d h => ?_
    refine .bind (Lower.instr_builds rfl (fun _ => rfl) h) fun _ d h => ?_
    refine .bind (h.emit (edge_pieces _ _)) fun _ d h => ?_
    refine .bind (h.positionAt List.mem_cons_self) fun _ d h => ?_
    exact ih (h.forget (List.subset_cons_self _ _))

/-- A choice among handlers makes moves only. -/
theorem lowerCatchSwitch_builds (source : SourceBlock) (id : Nat) (i : Instruction)
    (hasUnwind : Bool) : Builds c (lowerCatchSwitch source id i hasUnwind) := by
  refine .bind (Lower.emit_builds (.of_reads fun s => personality_reads s id)) fun found => ?_
  dsimp only
  split
  · exact Lower.emit_fails_builds fun _ => Emit.breach_ensures _ _
  · refine .bind (testHandlers_builds _ _ _ _ _) fun _ => ?_
    split
    · split
      · exact Lower.emit_builds (edge_pieces _ _)
      · exact Lower.emit_fails_builds fun _ => Emit.breach_ensures _ _
    · exact Lower.emit_builds returnDefault_pieces

/-! ## Instructions -/

/-- Whatever the instruction is, lowering it makes moves only. -/
theorem lowerInstruction_builds (source : SourceBlock) {id : Nat} {i : Instruction}
    (isInstruction : c.module.instruction? id = some i) :
    Builds c (lowerInstruction source id i) := by
  unfold lowerInstruction
  cases opcode : i.opcode with
  | alloca =>
    have notPad : isPad i.opcode = false := by rw [opcode]; rfl
    exact Lower.emit_builds (.of_quietly fun _ housed =>
      lowerAlloca_quietly housed)
  | load =>
    have notPad : isPad i.opcode = false := by rw [opcode]; rfl
    exact Lower.emit_builds (.of_quietly fun _ housed =>
      lowerLoad_quietly housed isInstruction notPad)
  | store => exact Lower.emit_builds (.of_quietly fun _ housed => lowerStore_quietly housed id i)
  | br => exact lowerBr_builds source id i
  | switch => exact lowerSwitch_builds source id i
  | ret => exact Lower.emit_builds (lowerRet_pieces i)
  | unreachable => exact Lower.instr_builds rfl fun _ => rfl
  | call functionType => exact Lower.emit_builds (lowerCall_pieces isInstruction opcode)
  | invoke functionType => exact lowerInvoke_builds source isInstruction opcode
  | catchSwitch hasUnwind => exact lowerCatchSwitch_builds source id i hasUnwind
  | catchPad | cleanupPad =>
    exact Lower.emit_builds (lowerPad_pieces (by rw [opcode]; rfl))
  | catchRet => exact Lower.emit_builds (lowerCatchRet_pieces source id i)
  | cleanupRet => exact Lower.emit_builds (lowerCleanupRet_pieces source id opcode)
  | fence => exact .read (fun _ => Lower.context_reads) fun _ _ => Lower.note_builds _
  | atomicRmw | cmpXchg =>
    have notPad : isPad i.opcode = false := by rw [opcode]; rfl
    refine .read (fun _ => Lower.context_reads) fun _ _ => ?_
    refine .bind (Lower.note_builds _) fun _ => ?_
    exact Lower.emit_builds (.of_quietly fun _ housed =>
      clearResult_quietly housed isInstruction notPad)
  | phi | indirectBr | callBr | resume | landingPad =>
    exact Lower.emit_fails_builds fun _ => Emit.unsupported_ensures _ _ _
  | binary | fneg | cast | icmp | fcmp | getElementPtr | select | freeze | extractValue
  | insertValue | vaArg | extractElement | insertElement | shuffleVector =>
    have notPad : isPad i.opcode = false := by rw [opcode]; rfl
    exact Lower.emit_builds (.of_quietly fun _ housed =>
      lowerOperation_quietly housed isInstruction notPad)

theorem lowerInstructions_builds (source : SourceBlock) {code : List (Nat × Instruction)}
    (listed : ∀ p ∈ code, c.module.instruction? p.1 = some p.2) :
    Builds c (lowerInstructions source code) := by
  induction code with
  | nil => exact .pure _
  | cons first rest ih =>
    rw [List.forall_mem_cons] at listed
    exact .bind (lowerInstruction_builds source listed.1) fun _ => ih listed.2

/-- What a block holds behind the start of the frame: its phis and its instructions. -/
def lowerBlockBody (source : SourceBlock) : Lower Unit := do
  let m ← Lower.module
  let phis ← Lower.required (m.leadingPhis? source.function source.block)
  Lower.emit (takeOver phis.reverse)
  let code ← Lower.required (m.blockInstructions? source.function source.block)
  lowerInstructions source (code.drop phis.length)

theorem lowerBlock_eq (source : SourceBlock) :
    lowerBlock source = (do
      Lower.positionAt source.block
      if source.block == 0 && (← read).needsFrame then Lower.instr .enterFrame
      lowerBlockBody source) := rfl

theorem lowerBlockBody_builds (source : SourceBlock) : Builds c (lowerBlockBody source) := by
  refine .read (fun _ => Lower.module_reads) fun _ same => ?_
  rw [same]
  refine .read (fun _ => Lower.required_reads _) fun phis leading => ?_
  refine .bind (Lower.emit_builds (takeOver_pieces fun phi mem => ?_)) fun _ => ?_
  · exact isPhi_of_leadingPhis? leading phi (List.mem_reverse.1 mem)
  refine .read (fun _ => Lower.required_reads _) fun code listed => ?_
  refine lowerInstructions_builds source fun p mem => ?_
  exact instruction?_of_blockInstructions? listed p (List.drop_subset _ _ mem)

end Stackwise.Lowering
