import Stackwise.Lowering.Body
import Stackwise.Proofs.Lowering.Composition

/-!
# Heights of lowered code

How far each straight-line step of lowering moves the stack.  Changing the address on top of the
stack leaves the height alone, an operation uses up all that it pushes, and pushing a value leaves
exactly that value behind.

Three things could spoil this.  A routine that gives nothing pushes nothing: a constant expression
of a type that lowers to `void`, and a vector whose elements do.  And a call takes what its
signature says, which need not be what its function type says.  `Context.Valued` rules them out, and
`Context.Pushable` does so for the constants that can be met on the way into some of them.  An
operation that is an instruction of the body cannot be of such a type, since then there would be no
variable for its result.
-/

namespace Stackwise.Lowering

open Code (Instr Storage climb)
open Source (Opcode)

/-- No constant expression and no element of a vector lowers to `void`, and signatures are the usual
ones. -/
structure Context.Valued (c : Context) : Prop where
  usual : c.conventions.signature = usualSignature c.conventions.lowerType
  expr : ∀ {id : Nat} {v : Source.Value} {opcode : Opcode} {operands : List Nat},
    c.module.value? id = some v → v.kind = .expr opcode operands →
      c.conventions.lowerType c.module v.ty ≠ some .void
  element : ∀ {ty length : Nat} {element : Code.Ty},
    c.conventions.lowerType c.module ty = some (.inlineArray element length) → element ≠ .void

/-- A set of values with all the parts of its constants, in which no constant expression lowers to
`void` and none takes a `void` out of a vector. -/
structure Context.Pushable (c : Context) (P : Nat → Prop) : Prop where
  parts : ∀ {id part : Nat}, P id → part ∈ c.module.partsOf id → P part
  solid : ∀ {id : Nat}, P id → c.SolidAt id

open Emit (Climbs Composed Ensures)

variable {c : Context}

theorem Context.Valued.extracts (valued : c.Valued) (opcode : Opcode) (operands : List Nat) :
    c.Extracts opcode operands :=
  fun _ _ _ _ _ _ _ lowered => valued.element lowered

/-- If no constant expression and no element of a vector lowers to `void`, then every value may be
pushed. -/
theorem Context.Valued.pushable (valued : c.Valued) : c.Pushable fun _ => True where
  parts _ _ := trivial
  solid _ _ _ _ found kind := ⟨valued.expr found kind, valued.extracts _ _⟩

/-- A support routine takes its arguments and leaves its result, unless that is `void`. -/
theorem helper_climbs {s : Ledger} {routine : Code.Helper} (low : Nat)
    (solid : routine.signature.result ≠ .void) :
    Climbs c s (Emit.helper routine) (routine.signature.params.length + low) (low + 1) := by
  refine Emit.instr_climbs _ (Code.climb_cons_eq_some.2 ⟨rfl, Nat.le_add_right _ _, ?_⟩)
  have pushes : Instr.pushes (.call (.helper routine) routine.signature) = 1 := by
    simp only [Instr.pushes]
    cases result : routine.signature.result <;> first | rfl | exact absurd result solid
  rw [pushes]
  simp [Instr.pops]

/-! ## Composed steps -/

theorem globalVariable_climbs (s : Ledger) (id height : Nat) :
    Climbs c s (globalVariable id) height height := by
  refine .read Emit.module_reads fun _ _ => ?_
  refine .read (Emit.required_reads _) fun _ _ => ?_
  exact .read (Emit.lowerType_reads _ _ _) fun _ _ => Emit.shared_climbs rfl _ height

/-- A composed step takes the stack from the one marking to the other, if pushing a value leaves
that value behind and what is computed has a value. -/
theorem Emit.Composed.climbs {α : Type} {push push' : Nat → Emit Unit}
    {pushable own : Nat → Prop} {full : Prop} {x y : Emit α} {marks after : List (Option Nat)}
    (composed : Composed c push push' pushable full own x y marks after) (filled : full)
    (pushes : ∀ value s, pushable value → Climbs c s (push value) 0 1) (s : Ledger) :
    Climbs c s x marks.length after.length := by
  induction composed generalizing s with
  | pure a => exact Climbs.pure _ _
  | fault stops => exact Ensures.imp (stops s) fun _ => False.elim
  | read reads _ ih => exact .read (reads s) fun a found => ih a found s
  | bind _ _ first later => exact Climbs.bind (first s) fun a s' _ => later a s'
  | push allowed => exact (pushes _ s allowed).add _
  | code stays _ => exact Emit.code_climbs _ stays.climb_eq
  | helper popped height solid =>
    rw [List.length_append, height]
    exact helper_climbs _ (solid filled)
  | slot apart _ ih => exact Climbs.bind (Emit.freshSlot_climbs _ _ apart) fun var s' _ => ih var s'
  | loadShared unframed =>
    exact Climbs.bind (Emit.shared_climbs unframed _ _) fun _ _ _ => Emit.instr_climbs _ rfl
  | addressOfGlobal =>
    exact Climbs.bind (globalVariable_climbs s _ _) fun _ _ _ => Emit.instr_climbs _ rfl
  | result _ | allocation _ => exact Emit.instr_climbs _ rfl

/-- An operation uses up all that it pushes, if what it computes is not `void`. -/
theorem operation_climbs {push : Nat → Emit Unit} (pushes : ∀ id s, Climbs c s (push id) 0 1)
    {ty : Nat} (solid : c.conventions.lowerType c.module ty ≠ some .void) {opcode : Opcode}
    {operands : List Nat} (extracts : c.Extracts opcode operands) (s : Ledger)
    (result origin : Nat) :
    Climbs c s (operation push opcode operands ty result origin) 0 0 := by
  have composed : Composed c push push (fun _ => True) True (fun _ => True)
      (operation push opcode operands ty result origin)
      (operation push opcode operands ty result origin) [] [] :=
    operation_composed (fun _ _ => trivial) trivial (fun _ => solid) (fun _ => extracts) origin
  exact composed.climbs trivial (fun value s _ => pushes value s) s

/-- A number of an integer type is one value. -/
theorem pushInt_climbs (s : Ledger) (n : Int) (ty origin : Nat) :
    Climbs c s (pushInt n ty origin) 0 1 := by
  have composed : Composed c push push (fun _ => False) True (fun _ => False) (pushInt n ty origin)
      (pushInt n ty origin) [] [none] :=
    pushInt_composed n ty origin
  exact composed.climbs trivial (fun _ _ => False.elim) s

/-- Pushing a value leaves that value behind and nothing else. -/
theorem Context.Pushable.pushWithin_climbs {P : Nat → Prop} (pushable : c.Pushable P)
    (depth : Nat) {id : Nat} (mem : P id) (s : Ledger) :
    Climbs c s (pushWithin depth id) 0 1 := by
  induction depth generalizing id s with
  | zero => exact Ensures.fail
  | succ depth ih =>
    exact (pushWithin_composed depth id (fun _ => False) []).climbs (pushable.solid mem)
      (fun part s inside => ih (pushable.parts mem inside) s) s

theorem push_climbs (valued : c.Valued) (id : Nat) (s : Ledger) : Climbs c s (push id) 0 1 :=
  valued.pushable.pushWithin_climbs _ trivial s

/-! ## Memory -/

theorem lowerAlloca_climbs (s : Ledger) (id : Nat) : Climbs c s (lowerAlloca id) 0 0 := by
  refine .read Emit.context_reads fun _ _ => ?_
  split
  · exact Emit.instr_climbs _ rfl
  · exact Emit.breach_ensures _ _

/-- A load stores what it has loaded. -/
theorem lowerLoad_climbs (valued : c.Valued) (s : Ledger) (id : Nat) (i : Source.Instruction) :
    Climbs c s (lowerLoad id i) 0 0 := by
  unfold lowerLoad
  split
  · exact .read Emit.spot_reads fun _ _ => Emit.breachAt_ensures _ _
  · refine .read (Emit.typeOf_reads _) fun _ _ => ?_
    refine .read (Emit.lowerType_reads _ _ _) fun ty _ => ?_
    refine .read (Emit.resultOf_reads _) fun result _ => ?_
    refine .read Emit.context_reads fun _ _ => .read Emit.ledger_reads fun _ _ => ?_
    split
    · exact Climbs.bind (Emit.instr_climbs 1 rfl) fun _ _ _ => Emit.instr_climbs _ rfl
    · refine Climbs.bind (push_climbs valued _ s) fun _ s _ => ?_
      exact Climbs.bind (Emit.instr_climbs 1 rfl) fun _ _ _ => Emit.instr_climbs _ rfl

/-- A store takes the address and the value that it has pushed. -/
theorem lowerStore_climbs (valued : c.Valued) (s : Ledger) (id : Nat) (i : Source.Instruction) :
    Climbs c s (lowerStore id i) 0 0 := by
  unfold lowerStore
  split
  · refine .read (Emit.typeOf_reads _) fun _ _ => ?_
    refine .read (Emit.lowerType_reads _ _ _) fun ty _ => ?_
    refine .read Emit.context_reads fun _ _ => .read Emit.ledger_reads fun _ _ => ?_
    split
    · exact Climbs.bind (push_climbs valued _ s) fun _ _ _ => Emit.instr_climbs _ rfl
    · refine Climbs.bind (push_climbs valued _ s) fun _ s _ => ?_
      exact Climbs.bind ((push_climbs valued _ s).add 1) fun _ _ _ => Emit.instr_climbs _ rfl
  · exact Emit.breach_ensures _ _

/-- A pad leaves the stack as it is. -/
theorem lowerPad_climbs (s : Ledger) (id : Nat) : Climbs c s (lowerPad id) 0 0 := by
  refine Climbs.bind (Emit.shared_climbs rfl _ 0) fun slot s _ => ?_
  refine .read (Emit.resultOf_reads _) fun result _ => ?_
  refine Climbs.bind (Emit.code_climbs 0 rfl) fun _ s _ => ?_
  exact Climbs.bind (Emit.constant_climbs _ _ 0) fun _ _ _ => Emit.instr_climbs _ rfl

/-! ## Calls -/

/-- Storing arguments leaves nothing on the stack. -/
theorem storeArguments_climbs (valued : c.Valued) (s : Ledger) (origin : Nat) (args : List Nat) :
    Climbs c s (storeArguments origin args) 0 0 := by
  induction args generalizing s with
  | nil => exact Climbs.pure _ 0
  | cons arg rest ih =>
    refine .read (Emit.typeOf_reads _) fun _ _ => ?_
    refine .read (Emit.lowerType_reads _ _ _) fun _ _ => ?_
    refine Climbs.bind (Emit.freshPinned_climbs _ 0 nofun) fun slot s _ => ?_
    refine Climbs.bind (push_climbs valued _ s) fun _ s _ => ?_
    refine Climbs.bind (Emit.instr_climbs 0 rfl) fun _ s _ => ?_
    exact Climbs.bind (ih s) fun _ _ _ => Climbs.pure _ 0

theorem storeAddresses_climbs (s : Ledger) (span index : Nat) (slots : List Nat) :
    Climbs c s (storeAddresses span index slots) 0 0 := by
  induction slots generalizing s index with
  | nil => exact Climbs.pure _ 0
  | cons slot rest ih =>
    refine Climbs.bind (Emit.instr_climbs 1 rfl) fun _ s _ => ?_
    refine Climbs.bind (Emit.constant_climbs _ _ 1) fun _ s _ => ?_
    refine Climbs.bind (helper_climbs 0 nofun) fun _ s _ => ?_
    exact Climbs.bind (Emit.code_climbs 0 rfl) fun _ s _ => ih s _

/-- A pack is left in a variable, not on the stack. -/
theorem packArguments_climbs (valued : c.Valued) (s : Ledger) (args : List Nat) (origin : Nat) :
    Climbs c s (packArguments args origin) 0 0 := by
  unfold packArguments
  split
  · refine Climbs.bind (Emit.freshSlot_climbs _ 0 nofun) fun pack s _ => ?_
    exact Climbs.bind (Emit.instr_climbs 0 rfl) fun _ _ _ => Climbs.pure _ 0
  · refine Climbs.bind (Emit.freshPinned_climbs _ 0 nofun) fun buffer s _ => ?_
    refine Climbs.bind (Emit.freshSlot_climbs _ 0 nofun) fun span s _ => ?_
    refine Climbs.bind (Emit.freshSlot_climbs _ 0 nofun) fun pack s _ => ?_
    refine Climbs.bind (Emit.instr_climbs 0 rfl) fun _ s _ => ?_
    refine Climbs.bind (storeArguments_climbs valued s _ _) fun slots s _ => ?_
    refine Climbs.bind (Emit.instr_climbs 1 rfl) fun _ s _ => ?_
    refine Climbs.bind (helper_climbs 0 nofun) fun _ s _ => ?_
    refine Climbs.bind (Emit.instr_climbs 0 rfl) fun _ s _ => ?_
    refine Climbs.bind (storeAddresses_climbs s _ _ _) fun _ s _ => ?_
    refine Climbs.bind (Emit.instr_climbs 1 rfl) fun _ s _ => ?_
    refine Climbs.bind (helper_climbs 0 nofun) fun _ s _ => ?_
    exact Climbs.bind (Emit.instr_climbs 0 rfl) fun _ _ _ => Climbs.pure _ 0

/-- Pushing several values leaves as many on the stack. -/
theorem pushAll_climbs (valued : c.Valued) (s : Ledger) (values : List Nat) :
    Climbs c s (pushAll values) 0 values.length := by
  induction values generalizing s with
  | nil => exact Climbs.pure _ 0
  | cons value rest ih =>
    rw [List.length_cons, Nat.add_comm]
    exact Climbs.bind (push_climbs valued _ s) fun _ s _ => (ih s).add 1

theorem packParameter_climbs (s : Ledger) (origin height : Nat) :
    Climbs c s (packParameter origin) height height := by
  refine .read Emit.context_reads fun _ _ => ?_
  dsimp only
  split
  · exact Emit.shared_climbs rfl _ height
  · exact Emit.unsupported_ensures _ _ _

/-- Starting an argument list leaves nothing on the stack. -/
theorem startList_climbs (valued : c.Valued) (s : Ledger) (id : Nat) (args : List Nat) :
    Climbs c s (startList id args) 0 0 := by
  unfold startList
  split
  · refine Climbs.bind (packParameter_climbs s id 0) fun pack s _ => ?_
    refine Climbs.bind (push_climbs valued _ s) fun _ s _ => ?_
    exact Climbs.bind (Emit.instr_climbs 2 rfl) fun _ _ _ => Emit.instr_climbs _ rfl
  · exact Emit.breach_ensures _ _

/-- A usual signature has a place for every parameter, one more for a pack, and the lowered
result. -/
theorem usualSignature_eq_some {lowerType : Source.Module → Nat → Option Code.Ty}
    {m : Source.Module} {functionType : Nat} {parts : Source.TypePool.FunctionParts}
    {sig : Code.Signature} (hasParts : m.types.functionParts? functionType = some parts)
    (h : usualSignature lowerType m functionType = some sig) :
    sig.params.length = parts.params.length + parts.variadic.toNat ∧
      lowerType m parts.ret = some sig.result := by
  simp only [usualSignature, hasParts, Option.bind_eq_bind, Option.bind_some,
    Option.bind_eq_some_iff, Option.pure_def, Option.some.injEq] at h
  obtain ⟨params, lowered, result, returned, rfl⟩ := h
  refine ⟨?_, returned⟩
  have sameLength : params.length = parts.params.length := by
    simpa using (congrArg List.length (mapM_eq_some_iff.1 lowered)).symm
  cases parts.variadic <;> simp [sameLength]

/-- The result of a call is stored where there is a variable for it, and a call without one leaves
nothing. -/
theorem storeResult_climbs (s : Ledger) {id : Nat} {sig : Code.Signature}
    (hasResult : (c.homes.results.find? id).isSome = true ↔ sig.result ≠ .void) :
    Climbs c s
      (match c.homes.results.find? id with
        | some result => Emit.instr (.store result)
        | none => pure ()) (!sig.result.isVoid).toNat 0 := by
  cases found : c.homes.results.find? id with
  | some result =>
    rw [found] at hasResult
    have kept : sig.result ≠ .void := hasResult.1 rfl
    have one : (!sig.result.isVoid).toNat = 1 := by
      cases result : sig.result <;> first | rfl | exact absurd result kept
    rw [one]
    exact Emit.instr_climbs _ rfl
  | none =>
    rw [found] at hasResult
    have void : sig.result = .void :=
      Decidable.not_not.1 fun kept => by simpa using hasResult.2 kept
    rw [void]
    exact Climbs.pure _ 0

/-- A call takes its arguments, and its result is stored if it has one. -/
theorem emitCall_climbs (valued : c.Valued) (s : Ledger) {id functionType : Nat} (callee : Nat)
    (args : List Nat)
    (hasResult : ∀ parts, c.module.types.functionParts? functionType = some parts →
      ((c.homes.results.find? id).isSome = true ↔
        c.conventions.lowerType c.module parts.ret ≠ some .void)) :
    Climbs c s (emitCall id callee args functionType) 0 0 := by
  refine .read Emit.context_reads fun _ same => ?_
  rw [same]
  refine .read (Emit.supported_reads _ _ _ _) fun parts hasParts => ?_
  dsimp only
  split
  · exact Emit.breach_ensures _ _
  rename_i fits
  refine .read (Emit.supported_reads _ _ _ _) fun sig hasSig => ?_
  rw [valued.usual] at hasSig
  obtain ⟨arity, returned⟩ := usualSignature_eq_some hasParts hasSig
  have stored : (c.homes.results.find? id).isSome = true ↔ sig.result ≠ .void := by
    rw [hasResult parts hasParts, returned]
    simp
  -- What all calls have in common: with the arguments on the stack, the call and its result.
  have called (s' : Ledger) : Climbs c s' (do
      match c.module.calleeFunction? callee with
      | some function => Emit.instr (.call (.function function) sig)
      | none =>
        push callee
        Emit.instr (.callIndirect sig)
      match c.homes.results.find? id with
      | some result => Emit.instr (.store result)
      | none => return) sig.params.length 0 := by
    dsimp only
    split
    · refine Climbs.bind (Emit.instr_climbs (!sig.result.isVoid).toNat ?_) fun _ s'' _ => ?_
      · simp [climb, Instr.isAnchor, Instr.pops, Instr.pushes]
      · exact storeResult_climbs s'' stored
    · refine Climbs.bind ((push_climbs valued callee s').add sig.params.length) ?_
      intro _ s'' _
      refine Climbs.bind (Emit.instr_climbs (!sig.result.isVoid).toNat ?_) fun _ s'' _ => ?_
      · simp [climb, Instr.isAnchor, Instr.pops, Instr.pushes]
      · exact storeResult_climbs s'' stored
  have fixed : (args.take parts.params.length).length = parts.params.length := by
    rw [List.length_take]
    omega
  split
  · -- The pack of all further arguments comes last, in the place that the signature has for it.
    rename_i variadic
    rw [variadic] at arity
    refine Climbs.bind (packArguments_climbs valued s _ _) fun pack s _ => ?_
    refine Climbs.bind (pushAll_climbs valued s _) fun _ s _ => ?_
    refine Climbs.bind (Emit.instr_climbs sig.params.length ?_) fun _ s _ => called s
    rw [fixed, arity]
    rfl
  · rename_i plain
    rw [Bool.not_eq_true] at plain
    rw [plain] at arity
    refine Climbs.bind (pushAll_climbs valued s _) fun _ s _ => ?_
    rw [fixed, show parts.params.length = sig.params.length from arity.symm]
    exact called s

/-- An operation that is an instruction of the body: there is a variable for its result only if it
has a value. -/
theorem lowerOperation_climbs (valued : c.Valued) (s : Ledger) (id : Nat)
    (i : Source.Instruction)
    (hasValue : ∀ ty, c.module.typeOf? id = some ty → (c.homes.results.find? id).isSome = true →
      c.conventions.lowerType c.module ty ≠ some .void) :
    Climbs c s (lowerOperation id i) 0 0 := by
  unfold lowerOperation
  split
  · exact Emit.unsupported_ensures _ _ _
  · refine .read (Emit.resultOf_reads _) fun result found => ?_
    refine .read (Emit.typeOf_reads _) fun ty typed => ?_
    exact operation_climbs (fun id s => push_climbs valued id s)
      (hasValue ty typed (by rw [found]; rfl)) (valued.extracts _ _) s _ _

end Stackwise.Lowering
