import Stackwise.Lowering.Push
import Stackwise.Proofs.Code.Footprint
import Stackwise.Proofs.Source.Recursion

/-!
# How values are pushed

Pushing a value takes the steps of an operation, of the way to a member, or of building an aggregate
in a variable.  All of them are given a way to push the values they need, and are put together from
a few kinds of code: values that are pushed, code on variables of their own, calls of support
routines, and variables that stand for something outside of the body.  `Emit.Composed` says how, and
there is one lemma for each step; the opcodes are told apart in `operation_composed` and nowhere
else.

What holds of steps so composed is shown once, along the composition: two ways to push that agree on
the operands write the same code (`Emit.Composed.agree`), how far the stack moves
(`Emit.Composed.climbs`), that the code touches no frame of an exception handler
(`Emit.Composed.quietly`), and that it writes only to variables of its own
(`Emit.Composed.contained`).
-/

namespace Stackwise.Lowering

open Code (Instr Place)
open Source (Opcode)

namespace Emit

variable {α β : Type} {c : Context}

/-! ## Steps that agree in a context -/

/-- In the context, the two steps do the same. -/
def Agree (c : Context) (x y : Emit α) : Prop := x c = y c

theorem Agree.refl (x : Emit α) : Agree c x x := rfl

/-- Chains of steps that agree agree. -/
theorem Agree.bind {x y : Emit α} {f g : α → Emit β} (first : Agree c x y)
    (second : ∀ a, Agree c (f a) (g a)) : Agree c (x >>= f) (y >>= g) := by
  funext spot s
  show Emit.bind x f c spot s = Emit.bind y g c spot s
  rw [Emit.bind, Emit.bind, first]
  cases y c spot s with
  | error fault => rfl
  | ok e =>
    dsimp only
    rw [second e.value]

/-- What the first step finds may be used of the second. -/
theorem Agree.read {x : Emit α} {f g : α → Emit β} {P : α → Prop} (first : ∀ s, Reads c s x P)
    (second : ∀ a, P a → Agree c (f a) (g a)) : Agree c (x >>= f) (x >>= g) := by
  funext spot s
  show Emit.bind x f c spot s = Emit.bind x g c spot s
  rw [Emit.bind, Emit.bind]
  cases run : x c spot s with
  | error fault => rfl
  | ok e =>
    dsimp only
    rw [second e.value (first s run).2.2]

/-! ## Composed steps -/

/-- Two steps composed alike, from two ways to push values.  They push values that are `pushable`,
write to variables that they `own`, and take the stack from `marks` to `after`; a mark `some var`
stands for an address inside of the variable.  A support routine leaves its result on the stack if
what is computed is `full`, that is of a type with values. -/
inductive Composed (c : Context) (push push' : Nat → Emit Unit) (pushable : Nat → Prop)
    (full : Prop) : {α : Type} → (own : Nat → Prop) → (x y : Emit α) →
      (marks after : List (Option Nat)) → Prop
  | pure {α : Type} {own : Nat → Prop} {marks : List (Option Nat)} (a : α) :
    Composed c push push' pushable full own (Pure.pure a) (Pure.pure a) marks marks
  | fault {α : Type} {own : Nat → Prop} {marks after : List (Option Nat)} {x : Emit α}
      (stops : ∀ s, Ensures c s x fun _ => False) :
    Composed c push push' pushable full own x x marks after
  | read {α β : Type} {own : Nat → Prop} {marks after : List (Option Nat)} {x : Emit α}
      {f g : α → Emit β} {P : α → Prop} (reads : ∀ s, Reads c s x P)
      (later : ∀ a, P a → Composed c push push' pushable full own (f a) (g a) marks after) :
    Composed c push push' pushable full own (x >>= f) (x >>= g) marks after
  | bind {α β : Type} {own : Nat → Prop} {marks between after : List (Option Nat)} {x y : Emit α}
      {f g : α → Emit β} (first : Composed c push push' pushable full own x y marks between)
      (later : ∀ a, Composed c push push' pushable full own (f a) (g a) between after) :
    Composed c push push' pushable full own (x >>= f) (y >>= g) marks after
  | push {own : Nat → Prop} {marks : List (Option Nat)} {value : Nat} (allowed : pushable value) :
    Composed c push push' pushable full own (push value) (push' value) marks (none :: marks)
  /-- The code names variables of its own only. -/
  | code {own : Nat → Prop} {marks after : List (Option Nat)} {instrs : List Instr}
      (stays : Code.Stays own marks instrs after)
      (names : ∀ i ∈ instrs, ∀ var, i.var? = some var → own var) :
    Composed c push push' pushable full own (code instrs) (code instrs) marks after
  | helper {own : Nat → Prop} {marks : List (Option Nat)} {routine : Code.Helper}
      (popped : List (Option Nat)) (height : popped.length = routine.signature.params.length)
      (solid : full → routine.signature.result ≠ .void) :
    Composed c push push' pushable full own (helper routine) (helper routine) (popped ++ marks)
      (none :: marks)
  /-- A new slot is one of the step's own. -/
  | slot {α : Type} {own : Nat → Prop} {marks after : List (Option Nat)} {ty : Code.Ty}
      {origin : Option Nat} {f g : Nat → Emit α}
      (apart : ∀ id, origin = some id → c.module.instruction? id = none)
      (later : ∀ var, Composed c push push' pushable full (fun v => own v ∨ v = var) (f var) (g var)
        marks after) :
    Composed c push push' pushable full own (freshSlot ty origin >>= f) (freshSlot ty origin >>= g)
      marks after
  /-- The value of a variable that stands for something outside of the body. -/
  | loadShared {own : Nat → Prop} {marks : List (Option Nat)} {place : Place} {ty : Code.Ty}
      (unframed : place.isFrameField = false) :
    Composed c push push' pushable full own (do instr (.load (← shared place ty)))
      (do instr (.load (← shared place ty))) marks (none :: marks)
  | addressOfGlobal {own : Nat → Prop} {marks : List (Option Nat)} {id : Nat} :
    Composed c push push' pushable full own (do instr (.addressOf (← globalVariable id)))
      (do instr (.addressOf (← globalVariable id))) marks (none :: marks)
  | result {own : Nat → Prop} {marks : List (Option Nat)} {id var : Nat}
      (found : c.homes.results.find? id = some var) :
    Composed c push push' pushable full own (instr (.load var)) (instr (.load var)) marks
      (none :: marks)
  | allocation {own : Nat → Prop} {marks : List (Option Nat)} {id var : Nat}
      (found : c.homes.allocations.find? id = some var) :
    Composed c push push' pushable full own (instr (.addressOf var)) (instr (.addressOf var)) marks
      (none :: marks)

namespace Composed

variable {push push' : Nat → Emit Unit} {pushable own : Nat → Prop} {full : Prop}
  {marks after : List (Option Nat)}

/-- Ways to push that agree on the values pushed write the same code. -/
theorem agree {x y : Emit α} (same : ∀ value, pushable value → Agree c (push value) (push' value))
    (composed : Composed c push push' pushable full own x y marks after) : Agree c x y := by
  induction composed with
  | read reads _ ih => exact .read reads ih
  | bind _ _ first later => exact .bind first later
  | push allowed => exact same _ allowed
  | slot _ _ ih => exact .bind (.refl _) ih
  | _ => exact .refl _

/-- An instruction that stays within the variables of the step is composed. -/
theorem instr {i : Instr} (stays : i.Stays own marks after)
    (names : ∀ var, i.var? = some var → own var) :
    Composed c push push' pushable full own (instr i) (Emit.instr i) marks after :=
  .code (.singleton stays) (List.forall_mem_singleton.2 names)

/-- Storing to a variable of the step takes a value from the stack. -/
theorem store {var : Nat} {mark : Option Nat} (mine : own var) :
    Composed c push push' pushable full own (Emit.instr (.store var)) (Emit.instr (.store var))
      (mark :: marks) marks :=
  instr (.store mine) fun _ same => Option.some.inj same ▸ mine

theorem load {var : Nat} (mine : own var) :
    Composed c push push' pushable full own (Emit.instr (.load var)) (Emit.instr (.load var)) marks
      (none :: marks) :=
  instr (.pushes rfl rfl rfl) fun _ same => Option.some.inj same ▸ mine

/-- A constant puts a value on the stack. -/
theorem constant {value : Code.Constant} {ty : Code.Ty} :
    Composed c push push' pushable full own (Emit.constant value ty) (Emit.constant value ty) marks
      (none :: marks) :=
  .loadShared rfl

end Composed

end Emit

open Emit (Agree Composed Ensures)

variable {c : Context} {push push' : Nat → Emit Unit} {pushable own : Nat → Prop} {full : Prop}
  {mark : Option Nat} {marks : List (Option Nat)}

/-! ## Addresses -/

/-- Advancing an address leads to no other variable, and pushes the index if it is not known. -/
theorem advance_composed {index : Index}
    (allowed : ∀ value, index = .runtime value → pushable value) (element origin : Nat) :
    Composed c push push' pushable full own (advance push index element origin)
      (advance push' index element origin) (mark :: marks) (mark :: marks) := by
  have tail : Composed c push push' pushable full own
      (Emit.code [.convert .nativeInt false, .binary .add])
      (Emit.code [.convert .nativeInt false, .binary .add]) (none :: mark :: marks)
      (mark :: marks) :=
    .code (.cons (.replaces none rfl rfl rfl) (.singleton .add)) (by simp [Instr.var?])
  have measured (ty : Code.Ty) : Composed c push push' pushable full own
      (Emit.code [.convert .nativeInt false, .sizeOf ty, .binary .mul, .binary .add])
      (Emit.code [.convert .nativeInt false, .sizeOf ty, .binary .mul, .binary .add])
      (none :: mark :: marks) (mark :: marks) :=
    .code (.cons (.replaces none rfl rfl rfl) (.cons (.pushes rfl rfl rfl)
      (.cons (.joins none none rfl rfl rfl) (.singleton .add)))) (by simp [Instr.var?])
  refine .read (fun _ => Emit.sizeOf_reads element) fun _ _ => ?_
  dsimp only
  split
  case h_1 => exact .pure _
  case h_2 =>
    split
    · exact .bind .constant fun _ => tail
    · exact .fault fun _ => Emit.unsupported_ensures _ _ _
  case h_3 value => exact .bind (.push (allowed _ rfl)) fun _ => tail
  case h_4 =>
    split
    · refine .bind (.push (allowed _ rfl)) fun _ => ?_
      refine .bind (.instr (.replaces none rfl rfl rfl) nofun) fun _ => .bind .constant fun _ => ?_
      exact .code (.cons (.joins none none rfl rfl rfl) (.singleton .add)) (by simp [Instr.var?])
    · exact .fault fun _ => Emit.unsupported_ensures _ _ _
  case h_5 =>
    refine .read (fun _ => Emit.lowerType_reads _ _ _) fun _ _ => ?_
    exact .code (.cons (.pushes rfl rfl rfl) (.singleton .add)) (by simp [Instr.var?])
  case h_6 =>
    refine .read (fun _ => Emit.lowerType_reads _ _ _) fun ty _ => ?_
    split
    · exact .bind .constant fun _ => measured ty
    · exact .fault fun _ => Emit.unsupported_ensures _ _ _
  case h_7 =>
    refine .read (fun _ => Emit.lowerType_reads _ _ _) fun ty _ => ?_
    exact .bind (.push (allowed _ rfl)) fun _ => measured ty

/-- No value is pushed on the way to a member. -/
theorem memberAddress_composed (aggregate index origin : Nat) :
    Composed c push push' pushable full own (memberAddress push aggregate index origin)
      (memberAddress push' aggregate index origin) (mark :: marks) (mark :: marks) := by
  have stepped (element : Nat) : Composed c push push' pushable full own
      (advance push (.known index) element origin >>= fun _ => pure element)
      (advance push' (.known index) element origin >>= fun _ => pure element)
      (mark :: marks) (mark :: marks) :=
    .bind (advance_composed nofun _ _) fun _ => .pure _
  refine .read (fun _ => Emit.context_reads) fun _ _ => ?_
  split
  case h_1 =>
    refine .read (fun _ => Emit.supported_reads _ _ _ _) fun _ _ => ?_
    refine .read (fun _ => Emit.lowerType_reads _ _ _) fun _ _ => ?_
    refine .read (fun _ => Emit.lowerType_reads _ _ _) fun _ _ => ?_
    exact .bind (.instr .fieldAddress nofun) fun _ => .pure _
  case h_2 | h_3 => exact stepped _
  case h_4 => exact .fault fun _ => Emit.unsupported_ensures _ _ _

/-- Going along members keeps the mark: the address stays inside of the same variable. -/
theorem memberAddressAlong_composed (origin aggregate : Nat) (indices : List Nat) :
    Composed c push push' pushable full own (memberAddressAlong push origin aggregate indices)
      (memberAddressAlong push' origin aggregate indices) (mark :: marks) (mark :: marks) := by
  induction indices generalizing aggregate with
  | nil => exact .pure _
  | cons index rest ih => exact .bind (memberAddress_composed _ _ _) fun member => ih member

/-- An index that is not known is the value itself. -/
theorem Index.eq_of_ofValue {m : Source.Module} {value value' : Nat}
    (runtime : Index.ofValue m value = .runtime value') : value = value' := by
  rw [ofValue] at runtime
  split at runtime
  · cases runtime
  · injection runtime

theorem followIndices_composed {indices : List Nat} (allowed : ∀ value ∈ indices, pushable value)
    (origin ty : Nat) :
    Composed c push push' pushable full own (followIndices push origin ty indices)
      (followIndices push' origin ty indices) (mark :: marks) (mark :: marks) := by
  induction indices generalizing ty with
  | nil => exact .pure _
  | cons index rest ih =>
    obtain ⟨here, later⟩ := List.forall_mem_cons.1 allowed
    refine .read (fun _ => Emit.module_reads) fun m _ => ?_
    have walked (element : Nat) : Composed c push push' pushable full own
        (advance push (Index.ofValue m index) element origin)
        (advance push' (Index.ofValue m index) element origin) (mark :: marks) (mark :: marks) :=
      advance_composed (fun value runtime => Index.eq_of_ofValue runtime ▸ here) element origin
    split
    case h_1 | h_2 => exact .bind (walked _) fun _ => ih later _
    case h_3 =>
      split
      · exact .bind (memberAddress_composed _ _ _) fun member => ih later member
      · exact .fault fun _ => Emit.unsupported_ensures _ _ _
    case h_4 => exact .fault fun _ => Emit.unsupported_ensures _ _ _

/-- An address computed from a base is one of which nothing is known. -/
theorem elementAddress_composed {operands : List Nat} (allowed : ∀ value ∈ operands, pushable value)
    (element origin : Nat) :
    Composed c push push' pushable full own (elementAddress push operands element origin)
      (elementAddress push' operands element origin) marks (none :: marks) := by
  unfold elementAddress
  split
  · exact .fault fun _ => Emit.breach_ensures _ _
  · exact .push (allowed _ List.mem_cons_self)
  · obtain ⟨base, first, rest⟩ :=
      List.forall_mem_cons.1 allowed |>.imp id List.forall_mem_cons.1
    refine .bind (.push base) fun _ => .read (fun _ => Emit.module_reads) fun m _ => ?_
    refine .bind (advance_composed (fun value runtime => ?_) _ _) fun _ => ?_
    · exact Index.eq_of_ofValue runtime ▸ first
    · exact followIndices_composed rest _ _

/-! ## Operations -/

/-- A test makes one value of two. -/
theorem runTest_composed (test : Test) :
    Composed c push push' pushable full own (runTest test) (runTest test) (none :: none :: marks)
      (none :: marks) := by
  refine .bind (.instr (.joins none none rfl rfl rfl) nofun) fun _ => ?_
  split
  · exact .bind .constant fun _ => .instr (.joins none none rfl rfl rfl) nofun
  · exact .pure _

/-- A cast pushes its result, unless it is of type `void`. -/
theorem pushCast_composed {value ty : Nat} (allowed : pushable value)
    (solid : full → c.conventions.lowerType c.module ty ≠ some .void) (op : Source.CastOp)
    (origin : Nat) :
    Composed c push push' pushable full own (pushCast push op value ty origin)
      (pushCast push' op value ty origin) marks (none :: marks) := by
  refine .read (fun _ => Emit.typeOf_reads _) fun _ _ => ?_
  refine .read (fun _ => Emit.lowerType_reads _ _ _) fun source _ => ?_
  refine .read (fun _ => Emit.lowerType_reads _ _ _) fun target lowered => ?_
  refine .bind (.push allowed) fun _ => ?_
  split
  · split
    · exact .pure _
    · exact .helper [none] rfl fun filled void => solid filled (void ▸ lowered)
  · exact .instr (.replaces none rfl rfl rfl) nofun
  · exact .instr (.replaces none rfl rfl rfl) nofun

theorem vectorElement_reads (s : Ledger) (vector : Code.Ty) (origin : Nat) (site : String) :
    Emit.Reads c s (vectorElement vector origin site)
      fun element => ∃ length, vector = .inlineArray element length := by
  unfold vectorElement
  split
  · exact Ensures.pure ⟨rfl, rfl, _, rfl⟩
  · exact Emit.unsupported_ensures _ _ _

/-- The index of an element is pushed. -/
theorem pushElementIndex_composed {index : Nat} (allowed : pushable index) (origin : Nat)
    (site : String) :
    Composed c push push' pushable full own (pushElementIndex push index origin site)
      (pushElementIndex push' index origin site) marks (none :: marks) := by
  refine .read (fun _ => Emit.module_reads) fun _ _ => ?_
  refine .read (fun _ => Emit.typeOf_reads _) fun _ _ => ?_
  refine .read (fun _ => Emit.supported_reads _ _ _ _) fun _ _ => .bind (.push allowed) fun _ => ?_
  split
  · exact .instr (.replaces none rfl rfl rfl) nofun
  · exact .pure _

/-- A member is taken out of an aggregate by way of the variable of the result. -/
theorem extractMember_composed {aggregate result : Nat} (allowed : pushable aggregate)
    (mine : own result) (indices : List Nat) (origin : Nat) :
    Composed c push push' pushable full own (extractMember push aggregate indices result origin)
      (extractMember push' aggregate indices result origin) marks marks := by
  refine .read (fun _ => Emit.typeOf_reads _) fun _ _ => ?_
  refine .read (fun _ => Emit.lowerType_reads _ _ _) fun _ _ => ?_
  refine .slot nofun fun copy => .bind (.push allowed) fun _ => ?_
  refine .bind (.code (.cons (.store (.inr rfl)) (.singleton (.addressOf (.inr rfl)))) ?_) ?_
  · simp [Instr.var?]
  refine fun _ => .bind (memberAddressAlong_composed _ _ _) fun _ => ?_
  refine .read (fun _ => Emit.lowerType_reads _ _ _) fun _ _ => ?_
  exact .code (.cons (.replaces _ rfl rfl rfl) (.singleton (.store (.inl mine))))
    (by simp [Instr.var?, mine])

/-- A member is put into an aggregate that is in the variable of the result. -/
theorem insertMember_composed {aggregate value result : Nat} (allowed : pushable aggregate)
    (allowed' : pushable value) (mine : own result) (indices : List Nat) (origin : Nat) :
    Composed c push push' pushable full own
      (insertMember push aggregate value indices result origin)
      (insertMember push' aggregate value indices result origin) marks marks := by
  refine .read (fun _ => Emit.typeOf_reads _) fun _ _ => .bind (.push allowed) fun _ => ?_
  refine .bind (.code (.cons (.store mine) (.singleton (.addressOf mine))) ?_) fun _ => ?_
  · simp [Instr.var?, mine]
  refine .bind (memberAddressAlong_composed _ _ _) fun _ => .bind (.push allowed') fun _ => ?_
  exact .read (fun _ => Emit.lowerType_reads _ _ _) fun _ _ => .instr .storeIndirect nofun

/-- The element that an operation takes out of a vector, if it does, is not `void`. -/
def Context.Extracts (c : Context) (opcode : Opcode) (operands : List Nat) : Prop :=
  opcode = .extractElement → ∀ vector ty length element, operands[0]? = some vector →
    c.module.typeOf? vector = some ty →
    c.conventions.lowerType c.module ty = some (.inlineArray element length) → element ≠ .void

/-- An operation pushes its operands, uses up all that it pushes, and stores the outcome in its
result. -/
theorem operation_composed {opcode : Opcode} {operands : List Nat} {ty result : Nat}
    (allowed : ∀ value ∈ operands, pushable value) (mine : own result)
    (solid : full → c.conventions.lowerType c.module ty ≠ some .void)
    (extracts : full → c.Extracts opcode operands) (origin : Nat) :
    Composed c push push' pushable full own (operation push opcode operands ty result origin)
      (operation push' opcode operands ty result origin) marks marks := by
  unfold operation
  dsimp only
  refine .read (fun _ => Emit.spot_reads) fun start _ => ?_
  refine .read (fun _ => Emit.module_reads) fun m _ => ?_
  have operand (k : Nat) (broken : Breach) (s : Ledger) :=
    Emit.operandAt_reads (c := c) (s := s) start operands k broken
  have known {k value : Nat} (found : operands[k]? = some value) : pushable value :=
    allowed value (List.mem_of_getElem? found)
  have pushed {marks : List (Option Nat)} (k : Nat) (broken : Breach) :
      Composed c push push' pushable full own (Emit.operandAt start operands k broken >>= push)
        (Emit.operandAt start operands k broken >>= push') marks (none :: marks) :=
    .read (operand k broken) fun _ found => .push (known found)
  cases opcode with
  | binary op =>
    refine .bind (pushed _ _) fun _ => .bind (pushed _ _) fun _ => ?_
    exact .code (.cons (.joins none none rfl rfl rfl) (.singleton (.store mine)))
      (by simp [Instr.var?, mine])
  | fneg =>
    refine .bind (pushed _ _) fun _ => ?_
    exact .code (.cons (.replaces none rfl rfl rfl) (.singleton (.store mine)))
      (by simp [Instr.var?, mine])
  | icmp predicate =>
    refine .bind (pushed _ _) fun _ => .bind (pushed _ _) fun _ => ?_
    exact .bind (runTest_composed _) fun _ => .store mine
  | fcmp predicate =>
    refine .bind (pushed _ _) fun _ => .bind (pushed _ _) fun _ => ?_
    split
    · exact .bind (runTest_composed _) fun _ => .store mine
    · refine .bind (.code (.cons (.drops none) (.singleton (.drops none))) ?_) fun _ => ?_
      · simp [Instr.var?]
      · exact .bind .constant fun _ => .store mine
    · refine .fault fun _ => Ensures.bind (P := fun _ => False) ?_ nofun
      exact Emit.unsupported_ensures _ _ _
  | cast op =>
    refine .read (operand 0 _) fun value found => ?_
    exact .bind (pushCast_composed (known found) solid _ _) fun _ => .store mine
  | getElementPtr element =>
    exact .bind (elementAddress_composed allowed _ _) fun _ => .store mine
  | select =>
    refine .read (operand 0 _) fun cond found => .read (fun _ => Emit.typeOf_reads _) fun _ _ => ?_
    split
    · refine .read (fun _ => Emit.lowerType_reads _ _ _) fun target lowered => ?_
      refine .bind (.push (known found)) fun _ => ?_
      refine .bind (pushed _ _) fun _ => .bind (pushed _ _) fun _ => ?_
      refine .bind (.helper [none, none, none] rfl ?_) fun _ => .store mine
      exact fun filled void => solid filled (void ▸ lowered)
    · exact .fault fun _ => Emit.unsupported_ensures _ _ _
  | freeze => exact .bind (pushed _ _) fun _ => .store mine
  | extractValue indices =>
    refine .read (operand 0 _) fun value found => ?_
    exact extractMember_composed (known found) mine _ _
  | insertValue indices =>
    refine .read (operand 0 _) fun _ found => .read (operand 1 _) fun _ found' => ?_
    exact insertMember_composed (known found) (known found') mine _ _
  | vaArg =>
    refine .read (fun _ => Emit.lowerType_reads _ _ _) fun _ _ => .bind (pushed _ _) fun _ => ?_
    refine .bind (.helper [none] rfl fun _ => nofun) fun _ => ?_
    exact .code (.cons (.replaces none rfl rfl rfl) (.cons (.replaces none rfl rfl rfl)
      (.singleton (.store mine)))) (by simp [Instr.var?, mine])
  | extractElement =>
    refine .read (operand 0 _) fun value found => .read (fun _ => Emit.typeOf_reads _) ?_
    refine fun _ typed => .read (fun _ => Emit.lowerType_reads _ _ _) fun vector lowered => ?_
    refine .read (vectorElement_reads · _ _ _) fun element ⟨length, isArray⟩ => ?_
    have kept (filled : full) : element ≠ .void :=
      extracts filled rfl _ _ length _ found typed (isArray ▸ lowered)
    refine .bind (.push (known found)) fun _ => ?_
    refine .read (operand 1 _) fun _ found' => ?_
    refine .bind (pushElementIndex_composed (known found') _ _) fun _ => ?_
    exact .bind (.helper [none, none] rfl kept) fun _ => .store mine
  | insertElement =>
    refine .read (operand 0 _) fun value found => .read (fun _ => Emit.typeOf_reads _) fun _ _ => ?_
    refine .read (fun _ => Emit.lowerType_reads _ _ _) fun vector _ => ?_
    refine .read (vectorElement_reads · _ _ _) fun element ⟨length, isArray⟩ => ?_
    refine .bind (.push (known found)) fun _ => ?_
    refine .bind (pushed _ _) fun _ => .read (operand 2 _) fun _ found' => ?_
    refine .bind (pushElementIndex_composed (known found') _ _) fun _ => ?_
    exact .bind (.helper [none, none, none] rfl fun _ => isArray ▸ nofun) fun _ => .store mine
  | shuffleVector =>
    refine .read (operand 0 _) fun left found => .read (operand 1 _) fun right found' => ?_
    refine .read (operand 2 _) fun mask found'' => ?_
    refine .read (fun _ => Emit.typeOf_reads _) fun _ _ => ?_
    refine .read (fun _ => Emit.lowerType_reads _ _ _) fun vector _ => ?_
    refine .read (vectorElement_reads · _ _ _) fun _ _ => ?_
    refine .read (fun _ => Emit.typeOf_reads _) fun _ _ => ?_
    refine .read (fun _ => Emit.lowerType_reads _ _ _) fun maskTy _ => ?_
    refine .read (fun _ => Emit.lowerType_reads _ _ _) fun target lowered => ?_
    refine .bind (.push (known found)) fun _ => ?_
    refine .bind (.push (known found')) fun _ => ?_
    refine .bind (.push (known found'')) fun _ => ?_
    refine .bind (.helper [none, none, none] rfl ?_) fun _ => .store mine
    exact fun filled void => solid filled (void ▸ lowered)
  | _ => exact .fault fun _ => Emit.unsupported_ensures _ _ _

/-! ## Values -/

/-- A number of an integer type is pushed. -/
theorem pushInt_composed (n : Int) (ty origin : Nat) :
    Composed c push push' pushable full own (pushInt n ty origin) (pushInt n ty origin) marks
      (none :: marks) := by
  refine .read (fun _ => Emit.module_reads) fun _ _ => ?_
  refine .read (fun _ => Emit.supported_reads _ _ _ _) fun bits _ => ?_
  split
  · exact .constant
  split
  · exact .read (fun _ => Emit.lowerType_reads _ _ _) fun _ _ => .constant
  split
  · exact .read (fun _ => Emit.lowerType_reads _ _ _) fun _ _ => .constant
  split
  · split
    · exact .bind .constant fun _ => .instr (.replaces none rfl rfl rfl) nofun
    · exact .fault fun _ => Emit.unsupported_ensures _ _ _
  · exact .fault fun _ => Emit.unsupported_ensures _ _ _

theorem pushFloat_composed (bits : UInt64) (ty origin : Nat) :
    Composed c push push' pushable full own (pushFloat bits ty origin) (pushFloat bits ty origin)
      marks (none :: marks) := by
  refine .read (fun _ => Emit.module_reads) fun _ _ => ?_
  split
  · exact .constant
  · exact .constant
  · exact .fault fun _ => Emit.unsupported_ensures _ _ _

/-- The members of an aggregate are stored one after another through the address of its variable. -/
theorem storeMembers_composed {elements : List Nat} (allowed : ∀ value ∈ elements, pushable value)
    {target : Nat} (mine : own target) (ty origin index : Nat) :
    Composed c push push' pushable full own (storeMembers push target ty origin index elements)
      (storeMembers push' target ty origin index elements) marks marks := by
  induction elements generalizing index with
  | nil => exact .pure _
  | cons element rest ih =>
    obtain ⟨here, later⟩ := List.forall_mem_cons.1 allowed
    refine .read (fun _ => Emit.sourceValue_reads _) fun v _ => ?_
    split
    · exact ih later _
    · refine .bind (.instr (.addressOf mine) fun _ same => Option.some.inj same ▸ mine) fun _ => ?_
      refine .bind (memberAddress_composed _ _ _) fun _ => .bind (.push here) fun _ => ?_
      refine .read (fun _ => Emit.lowerType_reads _ _ _) fun _ _ => ?_
      exact .bind (.instr .storeIndirect nofun) fun _ => ih later _

/-- An aggregate is made in a new variable and loaded from there. -/
theorem pushAggregate_composed {elements : List Nat} {origin : Nat}
    (allowed : ∀ value ∈ elements, pushable value)
    (constant : c.module.instruction? origin = none) (ty : Nat) :
    Composed c push push' pushable full own (pushAggregate push ty elements origin)
      (pushAggregate push' ty elements origin) marks (none :: marks) := by
  refine .read (fun _ => Emit.lowerType_reads _ _ _) fun _ _ => ?_
  refine .slot (fun id same => Option.some.inj same ▸ constant) fun target => ?_
  have mine : own target ∨ target = target := .inr rfl
  refine .bind (.instr (.clear mine) fun _ same => .inr (Option.some.inj same).symm) fun _ => ?_
  exact .bind (storeMembers_composed allowed mine _ _ _) fun _ => .load mine

/-- An argument is pushed from its parameter. -/
theorem pushArgument_composed (v : Source.Value) (function index id : Nat) :
    Composed c push push' pushable full own (pushArgument v function index id)
      (pushArgument v function index id) marks (none :: marks) := by
  refine .read (fun _ => Emit.context_reads) fun _ _ => ?_
  split
  · exact .read (fun _ => Emit.lowerType_reads _ _ _) fun _ _ => .loadShared rfl
  · exact .fault fun _ => Emit.breach_ensures _ _

/-- The result of an instruction is pushed from its variable. -/
theorem pushResult_composed (id : Nat) :
    Composed c push push' pushable full own (pushResult id) (pushResult id) marks
      (none :: marks) := by
  refine .read (fun _ => Emit.context_reads) fun context same => ?_
  split
  · rename_i found
    exact .allocation (same ▸ found)
  · exact .read (fun _ => Emit.resultOf_reads _) fun _ found => .result found

/-- One level of pushing a value. -/
def pushLevel (push : Nat → Emit Unit) (id : Nat) : Emit Unit := do
  let v ← Emit.sourceValue id
  match v.kind with
  | .int n => pushInt n v.ty id
  | .float bits => pushFloat bits v.ty id
  | .null => Emit.constant .null .pointer
  | .zero | .unspecified | .poison =>
    let ty ← Emit.lowerType v.ty id "constant"
    Emit.constant (if ty.isPointer then .null else .allZero) ty
  | .aggregate elements => pushAggregate push v.ty elements id
  | .expr opcode operands =>
    let result ← Emit.freshSlot (← Emit.lowerType v.ty id opcode.name) (some id)
    operation push opcode operands v.ty result id
    Emit.instr (.load result)
  | .global g => Emit.instr (.addressOf (← globalVariable g))
  | .function f => Emit.instr (.load (← Emit.shared (.functionPointer f) .pointer))
  | .argument function index => pushArgument v function index id
  | .instruction _ => pushResult id
  | .metadata => Emit.constant .allZero .object

/-- The value, if it is a constant expression, does not lower to `void`, nor takes a `void` out of a
vector. -/
def Context.SolidAt (c : Context) (id : Nat) : Prop :=
  ∀ ⦃v : Source.Value⦄ ⦃opcode : Opcode⦄ ⦃operands : List Nat⦄, c.module.value? id = some v →
    v.kind = .expr opcode operands →
      c.conventions.lowerType c.module v.ty ≠ some .void ∧ c.Extracts opcode operands

/-- Pushing a value pushes its parts and leaves the value behind. -/
theorem pushLevel_composed {id : Nat} (allowed : ∀ part ∈ c.module.partsOf id, pushable part)
    (solid : full → c.SolidAt id) :
    Composed c push push' pushable full own (pushLevel push id) (pushLevel push' id) marks
      (none :: marks) := by
  refine .read (fun _ => Emit.sourceValue_reads id) fun v found => ?_
  rw [Source.Module.partsOf_eq found, Source.Value.parts] at allowed
  -- A slot made for a constant is not the variable of an instruction.
  have constant (h : v.instruction? = none) : c.module.instruction? id = none := by
    rw [Source.Module.instruction?, found, Option.bind_some, h]
  cases kind : v.kind with
  | int n => exact pushInt_composed _ _ _
  | float bits => exact pushFloat_composed _ _ _
  | null | metadata => exact .constant
  | zero | unspecified | poison =>
    exact .read (fun _ => Emit.lowerType_reads _ _ _) fun _ _ => .constant
  | aggregate elements =>
    rw [kind] at allowed
    exact pushAggregate_composed allowed (constant (by rw [Source.Value.instruction?, kind])) _
  | expr opcode operands =>
    rw [kind] at allowed
    have apart := constant (by rw [Source.Value.instruction?, kind])
    refine .read (fun _ => Emit.lowerType_reads _ _ _) fun _ _ => ?_
    refine .slot (fun _ same => Option.some.inj same ▸ apart) fun result => ?_
    refine .bind (operation_composed allowed (.inr rfl) (fun filled => (solid filled found kind).1)
      (fun filled => (solid filled found kind).2) _) fun _ => .load (.inr rfl)
  | global g => exact .addressOfGlobal
  | function f => exact .loadShared rfl
  | argument function index => exact pushArgument_composed _ _ _ _
  | instruction i => exact pushResult_composed _

/-- One level of pushing depends only on how the parts of the value are pushed. -/
theorem pushLevel_agree {id : Nat}
    (same : ∀ part ∈ c.module.partsOf id, Agree c (push part) (push' part)) :
    Agree c (pushLevel push id) (pushLevel push' id) :=
  (pushLevel_composed (fun _ mem => mem) False.elim : Composed c push push'
    (· ∈ c.module.partsOf id) False (fun _ => False) _ _ [] [none]).agree same

/-- Each level of pushing a value is composed from the level below. -/
theorem pushWithin_composed (depth id : Nat) (own : Nat → Prop) (marks : List (Option Nat)) :
    Composed c (pushWithin depth) (pushWithin depth) (· ∈ c.module.partsOf id) (c.SolidAt id) own
      (pushWithin (depth + 1) id) (pushWithin (depth + 1) id) marks (none :: marks) :=
  pushLevel_composed (fun _ mem => mem) fun solid => solid

end Stackwise.Lowering
