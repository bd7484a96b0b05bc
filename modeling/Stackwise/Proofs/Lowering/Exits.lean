import Stackwise.Proofs.Lowering.Heights

/-!
# Code that jumps, returns or hands over operands

The remaining steps of lowering write anchors, so their code has to be judged as part of a body: a
jump must find its target, and a branch point must leave nothing on the stack.  `Emit.Settles` is an
accepted walk between two heights, `Emit.Closes` one that comes to an end.

A step never has to be told that a target exists.  Every edge asks the source for the phis of the
block it leads to, and there is no answer for a block that the function does not have
(`lt_of_leadingPhis?`).
-/

namespace Stackwise.Lowering

open Code (Instr Storage Reaches endsInTerminator)
open Source (Function Instruction Module)

/-! ## Blocks that the source knows -/

/-- A block whose instructions can be looked up exists. -/
theorem lt_of_blockInstructions? {m : Module} {function block : Nat} {f : Function}
    {code : List (Nat × Instruction)} (found : m.function? function = some f)
    (h : m.blockInstructions? function block = some code) : block < f.blocks.size := by
  rw [Module.blockInstructions?, found, Option.bind_some, Option.map_eq_some_iff] at h
  obtain ⟨b, there, -⟩ := h
  exact (Array.getElem?_eq_some_iff.1 there).1

theorem lt_of_leadingPhis? {m : Module} {function block : Nat} {f : Function} {phis : List Nat}
    (found : m.function? function = some f) (h : m.leadingPhis? function block = some phis) :
    block < f.blocks.size := by
  rw [Module.leadingPhis?, Option.map_eq_some_iff] at h
  obtain ⟨code, there, -⟩ := h
  exact lt_of_blockInstructions? found there

theorem lt_of_startsWithPhi? {m : Module} {function block : Nat} {f : Function} {starts : Bool}
    (found : m.function? function = some f) (h : m.startsWithPhi? function block = some starts) :
    block < f.blocks.size := by
  rw [Module.startsWithPhi?, Option.map_eq_some_iff] at h
  obtain ⟨phis, there, -⟩ := h
  exact lt_of_leadingPhis? found there

namespace Emit

variable {α β : Type} {c : Context} {s : Ledger} {count : Nat}

/-- A step whose code is accepted in a body of `count` blocks and leads from one height to
another. -/
def Settles (c : Context) (s : Ledger) (step : Emit α) (count low high : Nat) : Prop :=
  Ensures c s step fun e => Reaches count low e.code high ∧ s.Grows c.module e.storage

/-- A step whose code is accepted in a body of `count` blocks from a height on, leaves nothing on
the stack and lets control go no further. -/
def Closes (c : Context) (s : Ledger) (step : Emit α) (count low : Nat) : Prop :=
  Ensures c s step fun e =>
    (Reaches count low e.code 0 ∧ endsInTerminator e.code = true) ∧ s.Grows c.module e.storage

/-- Straight-line code is accepted in every body. -/
theorem Climbs.settles {step : Emit α} {low high : Nat} (h : Climbs c s step low high) :
    Settles c s step count low high :=
  Ensures.imp h fun _ ⟨climbs, grown⟩ => ⟨Code.reaches_of_climb climbs, grown⟩

theorem Settles.pure (a : α) (height : Nat) :
    Settles c s (pure a : Emit α) count height height :=
  Climbs.settles (Climbs.pure a height)

/-- Steps can be chained where the heights agree. -/
theorem Settles.bind {x : Emit α} {f : α → Emit β} {low middle high : Nat}
    (first : Settles c s x count low middle)
    (second : ∀ a (s' : Ledger), s.Grows c.module s' → Settles c s' (f a) count middle high) :
    Settles c s (x >>= f) count low high := by
  refine Ensures.bind first fun e ⟨below, grown⟩ => ?_
  exact Ensures.imp (second e.value e.storage grown) fun e' ⟨above, grown'⟩ =>
    ⟨below.append above, grown.trans grown'⟩

/-- A step that closes may stand behind one that settles. -/
theorem Settles.then_closes {x : Emit α} {f : α → Emit β} {low middle : Nat}
    (first : Settles c s x count low middle)
    (second : ∀ a (s' : Ledger), s.Grows c.module s' → Closes c s' (f a) count middle) :
    Closes c s (x >>= f) count low := by
  refine Ensures.bind first fun e ⟨below, grown⟩ => ?_
  refine Ensures.imp (second e.value e.storage grown) fun e' ⟨⟨above, ends⟩, grown'⟩ => ?_
  exact ⟨⟨below.append above, Code.endsInTerminator_append _ ends⟩, grown.trans grown'⟩

/-- One instruction that is accepted where it stands. -/
theorem instr_settles {i : Instr} {low : Nat} (high : Nat)
    (h : i.step count low = .ok high) : Settles c s (instr i) count low high := by
  intro spot e run
  cases run
  exact ⟨Code.reaches_cons.2 ⟨high, h, by simp⟩, .refl _ _⟩

/-- A terminator that leaves nothing on the stack closes. -/
theorem instr_closes {i : Instr} {low : Nat} (h : i.step count low = .ok 0)
    (ends : i.isTerminator = true) : Closes c s (instr i) count low := by
  intro spot e run
  cases run
  exact ⟨⟨Code.reaches_cons.2 ⟨0, h, by simp⟩, by simpa [endsInTerminator] using ends⟩,
    .refl _ _⟩

end Emit

open Emit (Climbs Closes Ensures Settles)

variable {c : Context} {count : Nat}

/-! ## Edges -/

/-- A jump that pops all that is on the stack is accepted if its target exists. -/
theorem step_jump {i : Instr} {target : Nat} (pushes : i.pushes = 0)
    (jumps : i.targets = [target]) (known : target < count) : i.step count i.pops = .ok 0 := by
  rw [Code.Instr.step_eq_ok_iff, pushes, jumps]
  exact ⟨Nat.le_refl _, (Nat.sub_self _).symm, fun _ => rfl, List.forall_mem_singleton.2 known⟩

/-- Phis leave the stack as it is, as the verifier counts. -/
theorem takeOver_settles (s : Ledger) (phis : List Nat) :
    Settles c s (takeOver phis) count 0 0 := by
  induction phis generalizing s with
  | nil => exact Settles.pure _ 0
  | cons phi rest ih =>
    refine .read (Emit.typeOf_reads _) fun _ _ => ?_
    refine .read (Emit.lowerType_reads _ _ _) fun ty _ => ?_
    refine .read (Emit.resultOf_reads _) fun result _ => ?_
    refine Settles.bind ?_ fun _ s _ => ih s
    intro spot e run
    cases run
    exact ⟨Code.reaches_cons.2 ⟨1, rfl, Code.reaches_cons.2 ⟨0, rfl, by simp⟩⟩, .refl _ _⟩

theorem handOver_settles (valued : c.Valued) (s : Ledger) (origin : Nat) (phis : List Nat) :
    Settles c s (handOver origin phis) count 0 0 := by
  induction phis generalizing s with
  | nil => exact Settles.pure _ 0
  | cons phi rest ih =>
    refine .read Emit.module_reads fun _ _ => ?_
    split
    · refine Settles.bind (push_climbs valued _ s).settles fun _ s _ => ?_
      refine .read (Emit.typeOf_reads _) fun _ _ => ?_
      refine .read (Emit.lowerType_reads _ _ _) fun ty _ => ?_
      exact Settles.bind (Emit.instr_settles 0 rfl) fun _ s _ => ih s
    · exact Emit.breach_ensures _ _

/-- An edge ends its block, and the block it leads to is one of the function. -/
theorem edge_closes (valued : c.Valued) {source : SourceBlock} {f : Function}
    (found : c.module.function? source.function = some f) (enough : f.blocks.size ≤ count)
    (s : Ledger) (target : Nat) : Closes c s (edge source target) count 0 := by
  refine .read Emit.module_reads fun m same => ?_
  -- The answer to the question for the phis shows that there is such a block.
  refine .read (Emit.required_reads _) fun phis known => ?_
  rw [same] at known
  refine Settles.then_closes (handOver_settles valued s _ _) fun _ s _ => ?_
  have inside := Nat.lt_of_lt_of_le (lt_of_leadingPhis? found known) enough
  exact Emit.instr_closes (step_jump (i := .branch target) rfl rfl inside) rfl

/-! ## Dispatch -/

/-- Each comparison takes what it has pushed. -/
theorem compareCases_settles {cases : List Case} (known : ∀ k ∈ cases, k.label < count)
    (s : Ledger) (index ty id : Nat) :
    Settles c s (compareCases index ty id cases) count 0 0 := by
  induction cases generalizing s with
  | nil => exact Settles.pure _ 0
  | cons first rest ih =>
    refine Settles.bind (Emit.instr_climbs 1 rfl).settles fun _ s _ => ?_
    refine Settles.bind ((pushInt_climbs s _ _ _).add 1).settles fun _ s _ => ?_
    have jump := step_jump (i := .branchIfEqual first.label) rfl rfl (known first (by simp))
    refine Settles.bind (Emit.instr_settles 0 jump) fun _ s _ => ?_
    exact ih (fun k mem => known k (by simp [mem])) s

/-- A dispatch leaves nothing on the stack. -/
theorem dispatch_settles (valued : c.Valued) {cases : List Case}
    (known : ∀ k ∈ cases, k.label < count) (s : Ledger) (index ty bits id : Nat) :
    Settles c s (dispatch index ty bits id cases) count 0 0 := by
  unfold dispatch
  split
  · refine Settles.bind (push_climbs valued _ s).settles fun _ s _ => ?_
    refine Emit.instr_settles 0 (Code.Instr.step_eq_ok_iff.2 ⟨Nat.le_refl _, rfl, fun _ => rfl, ?_⟩)
    simpa [Instr.targets] using known
  · refine .read (Emit.lowerType_reads _ _ _) fun _ _ => ?_
    refine Settles.bind (Emit.freshSlot_climbs _ 0 (by simp)).settles fun copy s _ => ?_
    refine Settles.bind (push_climbs valued _ s).settles fun _ s _ => ?_
    refine Settles.bind (Emit.instr_climbs 0 rfl).settles fun _ s _ => ?_
    exact compareCases_settles known s _ _ _

/-- A condition is one value. -/
theorem pushCondition_climbs (valued : c.Valued) (s : Ledger) (cond id : Nat) :
    Climbs c s (pushCondition cond id) 0 1 := by
  refine .read Emit.module_reads fun _ _ => ?_
  refine .read (Emit.typeOf_reads _) fun _ _ => ?_
  split
  · exact push_climbs valued _ s
  · exact Emit.unsupported_ensures _ _ _

/-! ## Returns -/

theorem leaveFrame_climbs (s : Ledger) (height : Nat) :
    Climbs c s leaveFrame height height := by
  refine .read Emit.context_reads fun _ _ => ?_
  split
  · exact Emit.instr_climbs _ rfl
  · exact Climbs.pure _ height

/-- The default return closes. -/
theorem returnDefault_closes (s : Ledger) : Closes c s returnDefault count 0 := by
  refine Settles.then_closes (leaveFrame_climbs s 0).settles fun _ s _ => ?_
  exact .read Emit.context_reads fun _ _ => Emit.instr_closes rfl rfl

theorem lowerRet_closes (valued : c.Valued) (s : Ledger) (i : Instruction) :
    Closes c s (lowerRet i) count 0 := by
  unfold lowerRet
  cases i.valueAt? 0 with
  | some value =>
    refine Settles.then_closes (push_climbs valued _ s).settles fun _ s _ => ?_
    refine Settles.then_closes (leaveFrame_climbs s 1).settles fun _ s _ => ?_
    exact Emit.instr_closes rfl rfl
  | none =>
    refine Settles.then_closes (leaveFrame_climbs s 0).settles fun _ s _ => ?_
    exact Emit.instr_closes rfl rfl

/-! ## Calls and the ends of handlers -/

/-- A plain call, with the check for an exception behind it. -/
theorem lowerCall_settles (valued : c.Valued) (s : Ledger) {id functionType : Nat}
    (i : Instruction)
    (hasResult : ∀ parts, c.module.types.functionParts? functionType = some parts →
      ((c.homes.results.find? id).isSome = true ↔
        c.conventions.lowerType c.module parts.ret ≠ some .void)) :
    Settles c s (lowerCall id i functionType) count 0 0 := by
  unfold lowerCall
  split
  · exact Emit.breach_ensures _ _
  · split
    · exact Emit.breach_ensures _ _
    · refine .read Emit.context_reads fun _ _ => ?_
      split
      · exact (startList_climbs valued s _ _).settles
      · exact Settles.pure _ 0
      · refine Settles.bind (emitCall_climbs valued s _ _ hasResult).settles fun _ s _ => ?_
        split
        · exact Emit.instr_settles 0 rfl
        · exact Settles.pure _ 0

/-- The end of a handler closes, with a jump to a block that exists. -/
theorem lowerCatchRet_closes (valued : c.Valued) {source : SourceBlock} {f : Function}
    (found : c.module.function? source.function = some f) (enough : f.blocks.size ≤ count)
    (s : Ledger) (id : Nat) (i : Instruction) :
    Closes c s (lowerCatchRet source id i) count 0 := by
  unfold lowerCatchRet
  split
  · refine Settles.then_closes (push_climbs valued _ s).settles fun _ s _ => ?_
    refine Settles.then_closes (Emit.instr_climbs 0 rfl).settles fun _ s _ => ?_
    exact edge_closes valued found enough s _
  · exact Emit.breach_ensures _ _

theorem lowerCleanupRet_closes (valued : c.Valued) {source : SourceBlock} {f : Function}
    (found : c.module.function? source.function = some f) (enough : f.blocks.size ≤ count)
    (s : Ledger) (id : Nat) (i : Instruction) :
    Closes c s (lowerCleanupRet source id i) count 0 := by
  unfold lowerCleanupRet
  split
  · refine Settles.then_closes (Emit.shared_climbs rfl _ 0).settles fun slot s _ => ?_
    refine Settles.then_closes (push_climbs valued _ s).settles fun _ s _ => ?_
    refine Settles.then_closes (Emit.instr_climbs 0 rfl).settles fun _ s _ => ?_
    split
    · exact edge_closes valued found enough s _
    · exact returnDefault_closes s
  · exact Emit.breach_ensures _ _

end Stackwise.Lowering
