import Stackwise.Proofs.Lowering.Edges
import Stackwise.Proofs.Lowering.Footprint
import Stackwise.Proofs.Lowering.Refinement
import Stackwise.Proofs.Lowering.Selection

/-!
# Switches go where their index says

Behind the code that selects a case of a switch stands the edge to the default, and a target with
phis is reached through a block of its own, which hands the operands over.  So control arrives at
the target of the first case that equals the index, or at the default, directly or through one block
made for the purpose, and with the operands that the phis there take from the block of the switch.

* `Supplies.leads`: what an edge hands over, on the stack and in order.
* `lowerSwitch_lays`: where the code stands in the finished body (`SwitchLayout`), from what reading
  the cases opens (`readCases_opens_detours`) and what filling the detours leaves behind
  (`fillDetours_bridges`).
* `SwitchLayout.takesEdge`: from there on, where control goes.
-/

namespace Stackwise.Lowering

open Code (Constant Instr Machine Storage)
open Source (Instruction Module)

/-! ## Edges -/

section Edges

variable {V S : Type} {μ : Machine V S} {num : Nat → Int → V} {enqueue : Code.Ty → V → S → S}

/-- The code that pushing a value has written, if all its variables are in the finished table. -/
def PushCode (c : Context) (final : Storage) (value : Nat) (code : List Instr) : Prop :=
  ∃ spot s, ∃ e : Emitted Unit,
    push value c spot s = .ok e ∧ e.code = code ∧ e.storage.Grows c.module final

/-- Operands for phis on the edge from a block: the code that pushes what each phi takes on that
edge, and the type with which it is marked. -/
inductive Operands (c : Context) (origin : Nat) (final : Storage) :
    List Nat → List (List Instr × Code.Ty) → Prop
  | nil : Operands c origin final [] []
  | cons {phi value : Nat} {phis : List Nat} {code : List Instr} {ty : Code.Ty}
      {rest : List (List Instr × Code.Ty)}
      (incoming : c.module.phiIncoming? phi origin = some value)
      (pushed : PushCode c final value code) (typed : phiType? c phi = some ty)
      (later : Operands c origin final phis rest) :
    Operands c origin final (phi :: phis) ((code, ty) :: rest)

/-- The code that pushes operands and marks each. -/
def enqueueCode (operands : List (List Instr × Code.Ty)) : List Instr :=
  operands.flatMap fun p => p.1 ++ [.phiEnqueue p.2]

theorem enqueueCode_cons (code : List Instr) (ty : Code.Ty) (rest : List (List Instr × Code.Ty)) :
    enqueueCode ((code, ty) :: rest) = code ++ .phiEnqueue ty :: enqueueCode rest := by
  rw [enqueueCode, List.flatMap_cons, List.append_assoc]
  rfl

/-- The code of an edge from a source block to a block. -/
def EdgeTo (c : Context) (source : SourceBlock) (target : Nat) (final : Storage)
    (code : List Instr) : Prop :=
  ∃ phis operands, c.module.leadingPhis? source.function target = some phis ∧
    Operands c source.block final phis operands ∧ code = enqueueCode operands ++ [.branch target]

/-- Pushing the operands gives these values, in this order, and each is marked. -/
inductive Supplies (μ : Machine V S) (enqueue : Code.Ty → V → S → S) :
    List (List Instr × Code.Ty) → List V → S → List V → S → Prop
  | nil {stack : List V} {store : S} : Supplies μ enqueue [] stack store [] store
  | cons {code : List Instr} {ty : Code.Ty} {rest : List (List Instr × Code.Ty)} {stack xs : List V}
      {x : V} {store store₁ store' : S} (pushed : μ.Leads code stack store (x :: stack) store₁)
      (later : Supplies μ enqueue rest (x :: stack) (enqueue ty x store₁) xs store') :
    Supplies μ enqueue ((code, ty) :: rest) stack store (x :: xs) store'

/-- The operands stand on the stack at the end, the last one on top. -/
theorem Supplies.leads (laws : Dispatches μ num enqueue) {operands : List (List Instr × Code.Ty)}
    {stack xs : List V} {store store' : S} (h : Supplies μ enqueue operands stack store xs store') :
    μ.Leads (enqueueCode operands) stack store (xs.reverse ++ stack) store' := by
  induction h with
  | nil => exact Machine.Leads.refl _ _
  | @cons code ty rest stack xs x store store₁ store' pushed later ih =>
    have mark := Machine.leads_next (i := .phiEnqueue ty) rfl (Nat.le_add_left 1 _)
      (laws.phiEnqueue ty x stack store₁)
    rw [enqueueCode_cons, List.reverse_cons, List.append_assoc]
    exact pushed.append (mark.append ih)

/-- An edge whose operands are supplied arrives at its target. -/
theorem Supplies.ends (laws : Dispatches μ num enqueue) {operands : List (List Instr × Code.Ty)}
    {stack xs : List V} {store store' : S} (h : Supplies μ enqueue operands stack store xs store')
    (target : Nat) : μ.Ends (enqueueCode operands ++ [.branch target]) stack store
      (.jumped target (xs.reverse ++ stack) store') :=
  (h.leads laws).ends (Machine.ends_jump rfl (Nat.zero_le _) (laws.branch _ _ _))

end Edges

section Writing

open Emit (Writes)

variable {c : Context} {s : Ledger}

/-- Pushing a value writes the code for it. -/
theorem push_writes_pushCode (s : Ledger) (value : Nat) :
    Writes c s (push value) (PushCode c · value) := by
  intro spot e run
  exact ⟨push_adds value s run, fun final later => ⟨spot, s, e, run, rfl, later⟩⟩

/-- What is handed over on an edge are the operands that its phis take from the block it starts in.
-/
theorem handOver_writes_operands (s : Ledger) (origin : Nat) (phis : List Nat) :
    Writes c s (handOver origin phis) fun final code =>
      ∃ operands, Operands c origin final phis operands ∧ code = enqueueCode operands := by
  induction phis generalizing s with
  | nil => exact Writes.pure fun _ _ => ⟨[], .nil, rfl⟩
  | cons phi rest ih =>
    refine .read Emit.module_reads fun m same => ?_
    rw [same]
    cases incoming : c.module.phiIncoming? phi origin with
    | none => exact Emit.breach_ensures _ _
    | some value =>
      refine Writes.bind (push_writes_pushCode s value) (Q := fun final code => ∃ ty operands,
        phiType? c phi = some ty ∧ Operands c origin final rest operands ∧
          code = .phiEnqueue ty :: enqueueCode operands) (fun _ s' _ => ?_) ?_
      · refine .read (Emit.typeOf_reads _) fun sourceTy typed => ?_
        refine .read (Emit.lowerType_reads _ _ _) fun ty lowered => ?_
        refine Writes.bind (Emit.instr_writes (Q := fun _ code => code = [.phiEnqueue ty])
          fun _ _ => rfl) (fun _ s' _ => ih s') ?_
        rintro final _ _ _ rfl ⟨operands, later, rfl⟩
        exact ⟨ty, operands, phiType?_eq_some typed lowered, later, rfl⟩
      · rintro final code _ _ pushed ⟨ty, operands, typed, later, rfl⟩
        exact ⟨(code, ty) :: operands, .cons incoming pushed typed later,
          (enqueueCode_cons code ty operands).symm⟩

/-- The step for an edge writes the code of the edge. -/
theorem edge_writes_edgeTo (s : Ledger) (source : SourceBlock) (target : Nat) :
    Writes c s (edge source target) (EdgeTo c source target) := by
  refine .read Emit.module_reads fun m same => ?_
  rw [same]
  refine .read (Emit.required_reads _) fun phis leading => ?_
  refine Writes.bind (handOver_writes_operands s _ _) (fun _ _ _ =>
    Emit.instr_writes (Q := fun _ code => code = [.branch target]) fun _ _ => rfl) ?_
  rintro final _ _ _ ⟨operands, supplied, rfl⟩ rfl
  exact ⟨phis, operands, leading, supplied, rfl⟩

/-! ## Dispatch code -/

/-- A number of at most 64 bits is pushed as a constant. -/
theorem pushInt_writes_literal (s : Ledger) (n : Int) {ty bits : Nat} (origin : Nat)
    (width : c.module.types.intBits? ty = some bits) (narrow : bits ≤ 64) :
    Writes c s (pushInt n ty origin) fun final code =>
      ∃ var ty, code = [.load var] ∧ IsConstant final (literal bits n) ty var := by
  have loads (value : Constant) (ty : Code.Ty) (same : literal bits n = value) :
      Writes c s (Emit.constant value ty) fun final code =>
        ∃ var ty, code = [.load var] ∧ IsConstant final (literal bits n) ty var := by
    refine (constant_loads s value ty).imp fun final code _ ⟨var, load, isConstant⟩ => ?_
    exact ⟨var, ty, load, same ▸ isConstant⟩
  refine .read Emit.module_reads fun m same => ?_
  rw [same, width]
  refine .read (Emit.supported_reads _ _ _ _) fun bits' same => ?_
  cases same
  split
  · rename_i bit
    exact loads _ _ (if_pos bit)
  rename_i notBit
  split
  · rename_i short
    refine .read (Emit.lowerType_reads _ _ _) fun _ _ => loads _ _ ?_
    rw [literal, if_neg notBit, if_pos short.2]
  rename_i notShort
  split
  · rename_i long
    refine .read (Emit.lowerType_reads _ _ _) fun _ _ => loads _ _ ?_
    rw [literal, if_neg notBit, if_neg (by omega)]
  split
  · omega
  · exact Emit.unsupported_ensures _ _ _

/-- The cases are compared one after another with the copy of the index. -/
theorem compareCases_writes (s : Ledger) (copy : Nat) {ty bits : Nat} (id : Nat)
    (width : c.module.types.intBits? ty = some bits) (narrow : bits ≤ 64) (cases : List Case) :
    Writes c s (compareCases copy ty id cases) (Comparing · bits copy cases) := by
  induction cases generalizing s with
  | nil => exact Writes.pure fun _ _ => .nil
  | cons k rest ih =>
    refine Writes.bind (Emit.instr_writes (Q := fun _ code => code = [.load copy]) fun _ _ => rfl)
      (Q := fun final code => ∃ var ty more, IsConstant final (literal bits k.value) ty var ∧
        Comparing final bits copy rest more ∧
          code = .load var :: .branchIfEqual k.label :: more) (fun _ s' _ => ?_) ?_
    · refine Writes.bind (pushInt_writes_literal s' k.value id width narrow)
        (Q := fun final code => ∃ more, Comparing final bits copy rest more ∧
          code = .branchIfEqual k.label :: more) (fun _ s' _ => ?_) ?_
      · refine Writes.bind (Emit.instr_writes (Q := fun _ code => code = [.branchIfEqual k.label])
          fun _ _ => rfl) (fun _ s' _ => ih s') ?_
        rintro final _ more _ rfl later
        exact ⟨more, later, rfl⟩
      · rintro final _ _ _ ⟨var, ty, rfl, isLiteral⟩ ⟨more, later, rfl⟩
        exact ⟨var, ty, more, isLiteral, later, rfl⟩
    · rintro final _ _ _ rfl ⟨var, ty, more, isLiteral, later, rfl⟩
      exact .cons isLiteral later

theorem IsSlot.grows {s s' : Storage} {var : Nat} (h : IsSlot s var) (grown : s.Grows c.module s') :
    IsSlot s' var := by
  obtain ⟨v, there, place⟩ := h
  exact ⟨v, grown.get?_eq_some there, place⟩

/-- A step that makes a slot first. -/
theorem Emit.Writes.slot {α : Type} {origin : Option Nat} {f : Nat → Emit α}
    {Q : Storage → List Instr → Prop} (ty : Code.Ty)
    (apart : ∀ id, origin = some id → c.module.instruction? id = none)
    (later : ∀ s' : Ledger, s.Grows c.module s' → IsSlot s' s.size → Writes c s' (f s.size) Q) :
    Writes c s (Emit.freshSlot ty origin >>= f) Q :=
  .fresh rfl rfl ⟨apart, .inl rfl, rfl⟩ fun s' grown there => later s' grown ⟨_, there, rfl⟩

/-- Dispatching pushes the index and selects a case by it. -/
theorem dispatch_writes (s : Ledger) (index : Nat) {ty bits : Nat} (id : Nat)
    (width : c.module.types.intBits? ty = some bits) (narrow : bits ≤ 64) (cases : List Case) :
    Writes c s (dispatch index ty bits id cases) fun final code => ∃ pushed select,
      code = pushed ++ select ∧ PushCode c final index pushed ∧
        Selecting final bits s.size cases select := by
  unfold dispatch
  split
  · rename_i table
    simp only [Bool.and_eq_true] at table
    refine Writes.bind (push_writes_pushCode s index) (fun _ _ _ => Emit.instr_writes
      (Q := fun _ code => code = [.switch (cases.map (·.label))]) fun _ _ => rfl) ?_
    rintro final pushed _ _ isPush rfl
    exact ⟨pushed, _, rfl, isPush, .table table.2⟩
  · refine .read (Emit.lowerType_reads _ _ _) fun target _ => ?_
    refine Writes.slot target nofun fun s' _ slot => ?_
    refine Writes.bind (push_writes_pushCode s' index) (Q := fun final code =>
      Selecting final bits s.size cases code) (fun _ s'' grown => ?_) ?_
    · refine Writes.bind (Emit.instr_writes (Q := fun final code => code = [.store s.size] ∧
          s'.Grows c.module final) fun final later => ⟨rfl, grown.trans later⟩)
        (fun _ s'' _ => compareCases_writes s'' s.size id width narrow cases) ?_
      rintro final _ code _ ⟨rfl, later⟩ comparing
      exact .chain (Nat.le_refl _) (slot.grows later) comparing
    · intro final pushed select _ isPush selecting
      exact ⟨pushed, select, rfl, isPush, selecting⟩

end Writing

/-! ## Cases and their blocks -/

/-- The cases that the operands of a switch list: values, which must be constants, and targets. -/
def switchCases? (m : Module) : List Source.Operand → Option (List (Int × Nat))
  | [] => some []
  | .value value :: .block target :: rest =>
    ((m.value? value).bind (·.int?)).bind fun n => (switchCases? m rest).map ((n, target) :: ·)
  | _ => none

/-- The block of the source that a case leads to. -/
def Case.target (k : Case) : Nat := k.detour.getD k.label

/-- What reading cases does to a draft: it adds an empty block for every target with phis. -/
structure OpensDetours (d d' : Draft) (cases : List Case) : Prop where
  storage : d'.storage = d.storage
  current : d'.current = d.current
  size : d.blocks.size ≤ d'.blocks.size
  kept : ∀ ⦃label : Nat⦄, label < d.blocks.size → d'.blocks[label]? = d.blocks[label]?
  blank : ∀ label ∈ detours cases,
    d.blocks.size ≤ label ∧ d'.blocks[label]? = some { origin := none }
  nodup : (detours cases).Nodup

theorem OpensDetours.refl (d : Draft) : OpensDetours d d [] where
  storage := rfl
  current := rfl
  size := Nat.le_refl _
  kept _ _ := rfl
  blank _ mem := absurd mem List.not_mem_nil
  nodup := List.nodup_nil

/-- A case with a block of its own, made before those of the cases behind it. -/
theorem OpensDetours.cons {d d' : Draft} {cases : List Case} (h : OpensDetours d.grow d' cases)
    (value : Int) (target : Nat) :
    OpensDetours d d' (⟨value, d.blocks.size, some target⟩ :: cases) := by
  have grown : d.grow.blocks.size = d.blocks.size + 1 := Array.size_push _
  have new : d'.blocks[d.blocks.size]? = some { origin := none } := by
    rw [h.kept (by omega)]
    exact Array.getElem?_push_size
  refine ⟨h.storage, h.current, ?_, ?_, ?_, ?_⟩
  · have grew := h.size
    omega
  · intro label inside
    rw [h.kept (by omega), Draft.getElem?_grow inside]
  · intro label mem
    rcases List.mem_cons.1 mem with rfl | later
    · exact ⟨Nat.le_refl _, new⟩
    · obtain ⟨beyond, blank⟩ := h.blank label later
      exact ⟨by omega, blank⟩
  · rw [detours_cons_some, List.nodup_cons]
    refine ⟨fun mem => ?_, h.nodup⟩
    have beyond := (h.blank _ mem).1
    omega

/-- Reading cases writes no code. -/
theorem OpensDetours.rest_eq {d d' : Draft} {cases : List Case} (h : OpensDetours d d' cases)
    (inside : d.current < d.blocks.size) (final : Draft) : final.rest d' = final.rest d := by
  rw [Draft.rest, Draft.rest, h.current, Draft.codeAt, Draft.codeAt, Draft.codeAt, h.kept inside]

section Blocks

variable {c : Context} {source : SourceBlock} {d : Draft}

/-- A straight-line step that only looks something up leaves the draft as it is.  It needs a current
block all the same. -/
theorem Lower.emit_reads {α : Type} {step : Emit α} {P : α → Prop}
    (h : Emit.Reads c d.storage step P) :
    Lower.Reads c d (Lower.emit step) fun a => d.current < d.blocks.size ∧ P a := by
  refine Lower.emit_ensures fun b there => Emit.Ensures.imp h ?_
  rintro ⟨a, storage, code⟩ ⟨rfl, rfl, found⟩
  exact ⟨Draft.write_nil there _, (Array.getElem?_eq_some_iff.1 there).1, found⟩

/-- Reading the cases gives what the operands list, and a block for every target with phis. -/
theorem readCases_opens_detours (id : Nat) (operands : List Source.Operand) :
    Lower.Ensures c d (readCases source id operands) fun cases d' =>
      OpensDetours d d' cases ∧
        switchCases? c.module operands = some (cases.map fun k => (k.value, k.target)) ∧
        ∀ k ∈ cases, k.detour = none →
          c.module.startsWithPhi? source.function k.label = some false := by
  fun_induction readCases source id operands generalizing d with
  | case1 => exact .pure ⟨.refl d, rfl, fun _ mem => absurd mem List.not_mem_nil⟩
  | case2 value target rest ih =>
    have value_reads : Emit.Reads c d.storage (do
        Emit.supported (← Emit.sourceValue value).int? "switch" .nonConstantCase id)
        ((c.module.value? value).bind (·.int?) = some ·) :=
      .read (Emit.sourceValue_reads _) fun v found => by
        rw [found]
        exact Emit.supported_reads _ _ _ _
    refine .read (Lower.emit_reads value_reads) ?_
    rintro n ⟨-, found⟩
    refine .read (hasPhis_finds target) fun starts known => ?_
    have listed {cases : List Case}
        (later : switchCases? c.module rest = some (cases.map fun k => (k.value, k.target))) :
        switchCases? c.module (.value value :: .block target :: rest) =
          some ((n, target) :: cases.map fun k => (k.value, k.target)) := by
      rw [switchCases?, found, Option.bind_some, later, Option.map_some]
    cases starts with
    | true =>
      refine .bind (Lower.newBlock_ensures (Q := fun label d' => label = d.blocks.size ∧
        d' = d.grow) ⟨rfl, rfl⟩) ?_
      rintro _ _ ⟨rfl, rfl⟩
      refine .bind ih ?_
      rintro cases d' ⟨opened, later, direct⟩
      refine .pure ⟨opened.cons n target, listed later, ?_⟩
      intro k mem isDirect
      rcases List.mem_cons.1 mem with rfl | mem
      · cases isDirect
      · exact direct k mem isDirect
    | false =>
      refine .bind ih ?_
      rintro cases d' ⟨opened, later, direct⟩
      refine .pure ⟨?_, listed later, ?_⟩
      · exact ⟨opened.storage, opened.current, opened.size, opened.kept, opened.blank, opened.nodup⟩
      · intro k mem isDirect
        rcases List.mem_cons.1 mem with rfl | mem
        · exact known
        · exact direct k mem isDirect
  | case3 => exact Lower.emit_ensures fun _ _ => Emit.breach_ensures _ _

/-- A block that no source block stands behind holds the edge to a target. -/
def Bridge (c : Context) (source : SourceBlock) (final : Draft) (label target : Nat) : Prop :=
  ∃ b code more, final.blocks[label]? = some b ∧ b.origin = none ∧ b.code = code ++ more ∧
    EdgeTo c source target final.storage code

/-- Filling the empty blocks writes an edge into each. -/
theorem fillDetours_bridges (cases : List Case) (nodup : (detours cases).Nodup)
    (blank : ∀ label ∈ detours cases, d.blocks[label]? = some { origin := none }) :
    Lower.Ensures c d (fillDetours source cases) fun _ d' => d.Continues c.module d' ∧
      ∀ final, d'.Continues c.module final → ∀ k ∈ cases, ∀ target, k.detour = some target →
        Bridge c source final k.label target := by
  fun_induction fillDetours source cases generalizing d with
  | case1 =>
    exact .pure ⟨(Draft.Advances.refl _ d).continues, fun _ _ _ mem => absurd mem List.not_mem_nil⟩
  | case2 value label target rest ih =>
    rw [detours_cons_some, List.nodup_cons] at nodup
    have here := blank label List.mem_cons_self
    refine .bind (Lower.positionAt_ensures (Q := fun _ d' => d' = { d with current := label })
      rfl) ?_
    rintro _ d₁ same
    refine .bind (Lower.emit_writes (edge_writes_edgeTo d₁.storage source target)) ?_
    intro _ d₂ written
    have moved : d.Continues c.module d₁ := by
      rw [same]
      exact d.continues_positionAt c.module label
    have there : d₁.blocks[d₁.current]? = some { origin := none } := by rw [same]; exact here
    -- The blocks of the other cases are still empty, since each case has a block of its own.
    have blank' : ∀ other ∈ detours rest, d₂.blocks[other]? = some { origin := none } := by
      intro other mem
      obtain ⟨b, code, storage, at', rfl, -⟩ := written
      rw [Draft.getElem?_write at', if_neg]
      · rw [same]
        exact blank other (List.mem_cons_of_mem _ mem)
      · rw [same]
        rintro rfl
        exact nodup.1 mem
    intro _ d' run
    obtain ⟨continues, bridges⟩ := ih nodup.2 blank' run
    refine ⟨(moved.trans written.continues).trans continues, fun final later k mem => ?_⟩
    rcases List.mem_cons.1 mem with rfl | mem
    · rintro _ ⟨⟩
      have later₁ := continues.trans later
      obtain ⟨code, rest, isEdge⟩ := written.rest later₁
      obtain ⟨more, finally'⟩ := (written.continues.trans later₁).blocks there
      rw [Draft.rest_blank there rfl finally'] at rest
      rw [same] at finally'
      exact ⟨_, code, _, finally', rfl, rest, isEdge⟩
    · exact bridges final later k mem
  | case3 value label rest ih =>
    intro _ d' run
    obtain ⟨continues, bridges⟩ := ih nodup blank run
    refine ⟨continues, fun final later k mem target made => ?_⟩
    rcases List.mem_cons.1 mem with rfl | mem
    · cases made
    · exact bridges final later k mem target made

end Blocks

/-! ## Where the code stands -/

/-- The code of a switch in a finished body, from where the draft `d` had come to: it pushes the
index, selects a case, and takes the edge to the default. -/
structure SwitchLayout (c : Context) (source : SourceBlock) (d final : Draft)
    (index default bits : Nat) (cases : List Case) (pushed select edge : List Instr) : Prop where
  rest : ∃ more, final.rest d = pushed ++ (select ++ (edge ++ more))
  index : PushCode c final.storage index pushed
  selecting : Selecting final.storage bits d.storage.size cases select
  default : EdgeTo c source default final.storage edge
  direct : ∀ k ∈ cases, k.detour = none →
    c.module.startsWithPhi? source.function k.label = some false
  detour : ∀ k ∈ cases, ∀ target, k.detour = some target →
    d.blocks.size ≤ k.label ∧ Bridge c source final k.label target

/-- The label of a case with a detour is among the detours. -/
theorem mem_detours {cases : List Case} {k : Case} (mem : k ∈ cases) {target : Nat}
    (made : k.detour = some target) : k.label ∈ detours cases :=
  List.mem_filterMap.2 ⟨k, mem, by rw [made, Option.map_some]⟩

/-- Lowering a switch lays out its code. -/
theorem lowerSwitch_lays {c : Context} {source : SourceBlock} {d : Draft} (id : Nat)
    (i : Instruction) :
    Lower.Ensures c d (lowerSwitch source id i) fun _ d' => ∃ index default operands cases bits,
      i.operands = .value index :: .block default :: operands ∧
      switchCases? c.module operands = some (cases.map fun k => (k.value, k.target)) ∧
      (c.module.typeOf? index).bind c.module.types.intBits? = some bits ∧ bits ≤ 64 ∧
      ∀ final, d'.Continues c.module final → ∃ pushed select edge,
        SwitchLayout c source d final index default bits cases pushed select edge := by
  unfold lowerSwitch
  split
  · rename_i index default operands listed
    have index_reads : Emit.Reads c d.storage (do
        let ty ← Emit.typeOf index
        let bits? := ((← Emit.module).types.intBits? ty).filter (· ≤ 64)
        return (ty, ← Emit.supported bits? "switch" .indexType id)) fun p =>
          c.module.typeOf? index = some p.1 ∧ c.module.types.intBits? p.1 = some p.2 ∧
            p.2 ≤ 64 := by
      refine .read (Emit.typeOf_reads _) fun ty typed => ?_
      refine .read Emit.module_reads fun m same => ?_
      refine .read (Emit.supported_reads _ _ _ _) fun bits found => ?_
      rw [same, Option.filter_eq_some_iff, decide_eq_true_eq] at found
      exact Emit.Ensures.pure ⟨rfl, rfl, typed, found⟩
    refine .read (Lower.emit_reads index_reads) fun (ty, bits) ⟨inside, typed, width, narrow⟩ => ?_
    refine .bind (readCases_opens_detours id operands) fun cases d₁ ⟨opened, read, direct⟩ => ?_
    refine .bind (Lower.emit_writes (dispatch_writes d₁.storage index id width narrow cases)) ?_
    intro _ d₂ dispatched
    refine .bind (Lower.emit_writes (edge_writes_edgeTo d₂.storage source default)) ?_
    intro _ d₃ edged
    -- Up to here only the current block has been written to.
    have advanced : d₁.Advances c.module d₃ :=
      edged.advances (dispatched.advances (.refl _ _) dispatched.inside) dispatched.inside
    have blank : ∀ label ∈ detours cases, d₃.blocks[label]? = some { origin := none } := by
      intro label mem
      obtain ⟨new, empty⟩ := opened.blank label mem
      have other : label ≠ d₁.current := by
        rw [opened.current]
        exact Nat.ne_of_gt (Nat.lt_of_lt_of_le inside new)
      rw [advanced.elsewhere (Array.getElem?_eq_some_iff.1 empty).1 other, empty]
    intro _ d' run
    obtain ⟨continues, bridges⟩ := fillDetours_bridges cases opened.nodup blank run
    refine ⟨index, default, operands, cases, bits, listed, read, ?_, narrow, ?_⟩
    · rw [typed, Option.bind_some, width]
    intro final later
    have later₃ := continues.trans later
    obtain ⟨_, rest, pushed, select, rfl, isPush, selecting⟩ :=
      dispatched.rest (edged.continues.trans later₃)
    obtain ⟨edge, rest', isEdge⟩ := edged.rest later₃
    refine ⟨pushed, select, edge, ⟨final.rest d₃, ?_⟩, isPush, ?_, isEdge, direct, ?_⟩
    · rw [← opened.rest_eq inside, rest, rest', List.append_assoc]
    · rwa [opened.storage] at selecting
    · intro k mem target made
      exact ⟨(opened.blank _ (mem_detours mem made)).1, bridges final later k mem target made⟩
  · exact Lower.emit_ensures fun _ _ => Emit.breach_ensures _ _

/-! ## Where control goes -/

section Control

variable {V S : Type} {μ : Machine V S} {num : Nat → Int → V} {enqueue : Code.Ty → V → S → S}

/-- Control is transferred to a block, directly or through one block that is as new as `floor` says
and has no source block behind it. -/
def Transfers (μ : Machine V S) (final : Draft) (floor : Nat) (code : List Instr) (stack : List V)
    (store : S) (target : Nat) (stack' : List V) (store' : S) : Prop :=
  (μ.exec code stack store).ending = .jumped target stack' store' ∨
    ∃ detour b between, floor ≤ detour ∧ final.blocks[detour]? = some b ∧ b.origin = none ∧
      (μ.exec code stack store).ending = .jumped detour stack between ∧
      (μ.exec b.code stack between).ending = .jumped target stack' store'

/-- Control goes to a block along the edge from a source block: in the store `between`, the operands
for the phis of the target are pushed and marked, each what its phi takes from that block. -/
def TakesEdge (μ : Machine V S) (enqueue : Code.Ty → V → S → S) (c : Context)
    (source : SourceBlock) (final : Draft) (floor : Nat) (code : List Instr) (stack : List V)
    (store between : S) (target : Nat) : Prop :=
  ∃ phis operands, c.module.leadingPhis? source.function target = some phis ∧
    Operands c source.block final.storage phis operands ∧
    ∀ ⦃xs : List V⦄ ⦃store' : S⦄, Supplies μ enqueue operands stack between xs store' →
      Transfers μ final floor code stack store target (xs.reverse ++ stack) store'

variable {c : Context} {source : SourceBlock} {d final : Draft}

/-- From where its code stands, a switch goes to the target of the first case with the value of the
index, or to the default. -/
theorem SwitchLayout.takesEdge (laws : Dispatches μ num enqueue) {index default bits : Nat}
    {cases : List Case} {pushed select edge : List Instr}
    (h : SwitchLayout c source d final index default bits cases pushed select edge)
    (narrow : bits ≤ 64) (fits : ∀ k ∈ cases, Word.isSigned bits k.value = true) {n : Int}
    (small : Word.isSigned bits n = true) {stack : List V} {store store₁ : S}
    (holds : HoldsNumbers μ num final.storage store₁)
    (led : μ.Leads pushed stack store (onStack num bits n :: stack) store₁) :
    ∃ between, SameBut μ final.storage d.storage.size (onStack num bits n) store₁ between ∧
      TakesEdge μ enqueue c source final d.blocks.size (final.rest d) stack store between
        (((caseOf? cases n).map Case.target).getD default) := by
  obtain ⟨more, rest⟩ := h.rest
  obtain ⟨between, same, picked⟩ := h.selecting.picks laws holds narrow fits small stack
  refine ⟨between, same, ?_⟩
  rw [rest]
  cases found : caseOf? cases n with
  | none =>
    obtain ⟨phis, operands, leading, taken, rfl⟩ := h.default
    refine ⟨phis, operands, leading, taken, fun xs store' supplied => .inl ?_⟩
    rw [found] at picked
    rw [led, picked]
    exact supplied.ends laws default _
  | some k =>
    have mem : k ∈ cases := List.mem_of_find?_eq_some found
    rw [found] at picked
    have jumps : (μ.exec (pushed ++ (select ++ (edge ++ more))) stack store).ending =
        .jumped k.label stack between := by
      rw [led]
      exact picked _
    show TakesEdge μ enqueue c source final d.blocks.size _ stack store between k.target
    rw [Case.target]
    cases made : k.detour with
    | none =>
      refine ⟨[], [], leadingPhis?_eq_nil (h.direct k mem made), .nil, ?_⟩
      rintro _ _ ⟨⟩
      exact .inl jumps
    | some target =>
      obtain ⟨new, b, code, behind, there, made, layout, phis, operands, leading, taken, rfl⟩ :=
        h.detour k mem target made
      refine ⟨phis, operands, leading, taken, fun xs store' supplied => .inr ?_⟩
      refine ⟨k.label, b, between, new, there, made, jumps, ?_⟩
      rw [layout]
      exact supplied.ends laws target _

/-- Where a switch goes: to the target of the first case that equals the index, or else to the
default. -/
def switchTarget (cases : List (Int × Nat)) (default : Nat) (n : Int) : Nat :=
  ((cases.find? fun p => p.1 = n).map (·.2)).getD default

/-- The block that a switch goes to is the target of the first case that applies. -/
theorem switchTarget_map (cases : List Case) (default : Nat) (n : Int) :
    switchTarget (cases.map fun k => (k.value, k.target)) default n =
      ((caseOf? cases n).map Case.target).getD default := by
  rw [switchTarget, List.find?_map, Option.map_map]
  rfl

/-- Where both apply, a jump table and a chain of comparisons go to the same label, or control comes
out behind both. -/
def TableMatchesChain (μ : Machine V S) (num : Nat → Int → V) : Prop :=
  ∀ ⦃storage : Storage⦄ ⦃bits copy : Nat⦄ ⦃cases : List Case⦄ ⦃chain : List Instr⦄ ⦃n : Int⦄
    ⦃store : S⦄, bits ≤ 64 → isDense 0 cases = true → Comparing storage bits copy cases chain →
    IsSlot storage copy → (∀ k ∈ cases, Word.isSigned bits k.value = true) →
    Word.isSigned bits n = true → HoldsNumbers μ num storage store → ∀ stack, ∃ label?,
      Picks μ [.switch (cases.map (·.label))] (onStack num bits n :: stack) store stack store
        label? ∧
      Picks μ (.store copy :: chain) (onStack num bits n :: stack) store stack
        (μ.write store copy (onStack num bits n)) label?

/-- A switch that is lowered has an integer index of at most 64 bits, and wherever it stands in the
finished body, its code pushes the index and takes the edge to the target of the first case that
equals it, or to the default.  Only the copy of the index may have changed before that. -/
theorem switch_dispatches (laws : Dispatches μ num enqueue) {id : Nat} {i : Instruction}
    {d' : Draft} (lowered : lowerSwitch source id i c d = .ok () d') :
    (∃ index default operands cases bits,
      i.operands = .value index :: .block default :: operands ∧
      switchCases? c.module operands = some cases ∧
      (c.module.typeOf? index).bind c.module.types.intBits? = some bits ∧ bits ≤ 64 ∧
      ∀ final, d'.Continues c.module final → ∃ pushed more,
        final.rest d = pushed ++ more ∧ PushCode c final.storage index pushed ∧
        ∀ ⦃n : Int⦄ ⦃stack : List V⦄ ⦃store store₁ : S⦄, Word.isSigned bits n = true →
          (∀ p ∈ cases, Word.isSigned bits p.1 = true) →
          HoldsNumbers μ num final.storage store₁ →
          μ.Leads pushed stack store (onStack num bits n :: stack) store₁ →
          ∃ between, SameBut μ final.storage d.storage.size (onStack num bits n) store₁ between ∧
            TakesEdge μ enqueue c source final d.blocks.size (final.rest d) stack store between
              (switchTarget cases default n)) ∧
    TableMatchesChain μ num := by
  constructor
  · obtain ⟨index, default, operands, cases, bits, listed, read, width, narrow, lays⟩ :=
      lowerSwitch_lays id i lowered
    refine ⟨index, default, operands, _, bits, listed, read, width, narrow, ?_⟩
    intro final later
    obtain ⟨pushed, select, edge, layout⟩ := lays final later
    obtain ⟨more, rest⟩ := layout.rest
    refine ⟨pushed, _, rest, layout.index, ?_⟩
    intro n stack store store₁ small fits holds led
    rw [switchTarget_map]
    refine layout.takesEdge laws narrow (fun k mem => ?_) small holds led
    exact fits (k.value, k.target) (List.mem_map_of_mem mem)
  · intro storage bits copy cases chain n store narrow dense comparing slot fits small holds stack
    exact ⟨_, table_picks laws narrow dense fits small stack store,
      comparing.picks_stored laws holds narrow slot fits small stack⟩

end Control

/-! ## A switch over integers -/

section Pushed

variable {c : Context} {final : Storage} {value : Nat} {code : List Instr}

/-- What all code for a value has in common is true of the code that was written. -/
theorem PushCode.of_writes {Q : Storage → List Instr → Prop} (h : PushCode c final value code)
    (writes : ∀ s, Emit.Writes c s (push value) Q) : Q final code := by
  obtain ⟨spot, s, e, run, rfl, later⟩ := h
  exact (writes s run).2 final later

/-- An argument is loaded from its variable. -/
theorem PushCode.argument (h : PushCode c final value code) {v : Source.Value}
    {function index : Nat} (found : c.module.value? value = some v)
    (kind : v.kind = .argument function index) :
    ∃ var w, code = [.load var] ∧ final.get? var = some w ∧ w.place = .parameter index := by
  refine h.of_writes (Q := fun final code => ∃ var w, code = [.load var] ∧
    final.get? var = some w ∧ w.place = .parameter index) fun s => ?_
  refine .read (Emit.sourceValue_reads _) fun v' found' => ?_
  cases found.symm.trans found'
  rw [kind]
  refine .read Emit.context_reads fun _ _ => ?_
  split
  · refine .read (Emit.lowerType_reads _ _ _) fun ty _ => ?_
    refine (shared_loads s (.parameter index) rfl ty).imp ?_
    rintro final code _ ⟨var, w, load, there, hit⟩
    simp only [isShared, Bool.and_eq_true, beq_iff_eq] at hit
    exact ⟨var, w, load, there, hit.1⟩
  · exact Emit.breach_ensures _ _

/-- An integer constant is loaded from the variable of its literal. -/
theorem PushCode.int (h : PushCode c final value code) {v : Source.Value} {n : Int} {bits : Nat}
    (found : c.module.value? value = some v) (kind : v.kind = .int n)
    (width : c.module.types.intBits? v.ty = some bits) (narrow : bits ≤ 64) :
    ∃ var ty, code = [.load var] ∧ IsConstant final (literal bits n) ty var := by
  refine h.of_writes (Q := fun final code => ∃ var ty, code = [.load var] ∧
    IsConstant final (literal bits n) ty var) fun s => ?_
  refine .read (Emit.sourceValue_reads _) fun v' found' => ?_
  cases found.symm.trans found'
  rw [kind]
  exact pushInt_writes_literal s n value width narrow

end Pushed

/-- The integer machine with jumps on integers. -/
def switchingMachine : Machine Int (Nat → Int) :=
  { integerMachine with
    control
      | .switch labels, n :: stack, store =>
        (labelAt? labels n).elim (.next stack store) (.jump · stack store)
      | .branchIfEqual label, y :: x :: stack, store =>
        if x = y then .jump label stack store else .next stack store
      | i, stack, store => integerMachine.control i stack store }

/-- The machine jumps on integers as it should. -/
theorem switchingMachine_dispatches :
    Dispatches switchingMachine (fun _ n => n) (fun _ _ store => store) where
  read_write _ _ _ _ := rfl
  phiEnqueue _ _ _ _ := rfl
  branch _ _ _ := rfl
  branchIfEqual _ _ _ _ _ := rfl
  switch _ _ _ _ := rfl

/-- Its constants are in the store from the start. -/
theorem startStore_holdsNumbers (args : Nat → Int) (storage : Storage) :
    HoldsNumbers switchingMachine (fun _ n => n) storage
      (startStore (integerInterpretation args) storage 0) where
  narrow there place := (startStore_holds args storage).constant there place
  wide there place := (startStore_holds args storage).constant there place

/-- A function that tells -3, which it has two cases for, from all other numbers; the first of the
two leads to a phi. -/
def tellingSteps : List Source.Step :=
  [.intern (.int 32), .intern (.function 0 [0] false), .addFunction "tell" 1,
    .appendBlock 0 "entry", .appendBlock 0 "join", .appendBlock 0 "other",
    .constInt 0 (-3), .constInt 0 7,
    .positionAt 0 0, .switch 1 2 [(2, 1), (2, 2)],
    .positionAt 0 1, .phi 0 [(3, 0)], .ret (some 5),
    .positionAt 0 2, .ret (some 1)]

/-- The module that they build. -/
def telling : Module := Source.build "telling" tellingSteps

/-- Its function. -/
def tell : Source.Function := (telling.function? 0).get (by decide +kernel)

/-- The switch in it. -/
def tellSwitch : Instruction := (telling.instruction? 4).get (by decide +kernel)

/-- The context in which its body is lowered. -/
def tellContext : Context :=
  functionContext .natural telling (Throwing.analyze .natural telling).1 0 tell .int32

/-- The draft that a step leaves behind, unless it faults. -/
def Lower.finish? {α : Type} (step : Lower α) (c : Context) (d : Draft) : Option Draft :=
  match step c d with
  | .ok _ d' => some d'
  | .error _ _ => none

theorem Lower.eq_ok_of_finish? {step : Lower Unit} {c : Context} {d d' : Draft}
    (h : step.finish? c d = some d') : step c d = .ok () d' := by
  unfold Lower.finish? at h
  split at h
  · rename_i run
    cases h
    exact run
  · cases h

/-- The first of the two cases for -3 is taken, by way of the block that serves its phi. -/
theorem switch_dispatches_telling : ∃ d' after,
    lowerSwitch ⟨0, 0⟩ 4 tellSwitch tellContext (startDraft tell) = .ok () d' ∧
    Transfers switchingMachine d' 3 (d'.rest (startDraft tell)) []
      (startStore (integerInterpretation fun _ => -3) d'.storage 0) 1 [7] after := by
  have done : ((lowerSwitch ⟨0, 0⟩ 4 tellSwitch).finish? tellContext
      (startDraft tell)).isSome = true := by decide +kernel
  obtain ⟨d', finished⟩ := Option.isSome_iff_exists.1 done
  have lowered := Lower.eq_ok_of_finish? finished
  obtain ⟨⟨index, default, operands, cases, bits, listed, read, width, -, dispatches⟩, -⟩ :=
    switch_dispatches switchingMachine_dispatches lowered
  have listed' : tellSwitch.operands =
      [.value 1, .block 2, .value 2, .block 1, .value 2, .block 2] := by decide +kernel
  cases listed'.symm.trans listed
  have read' : switchCases? tellContext.module [.value 2, .block 1, .value 2, .block 2] =
      some [(-3, 1), (-3, 2)] := by decide +kernel
  cases read'.symm.trans read
  have width' : (tellContext.module.typeOf? 1).bind tellContext.module.types.intBits? =
      some 32 := by decide +kernel
  cases width'.symm.trans width
  obtain ⟨pushed, more, -, isPush, goes⟩ := dispatches d' (Draft.Advances.refl _ d').continues
  have holds := startStore_holdsNumbers (fun _ => -3) d'.storage
  -- The index is the argument, which is in its cell.
  have argument : (tellContext.module.value? 1).map (·.kind) = some (.argument 0 0) := by
    decide +kernel
  obtain ⟨v, found, kind⟩ := Option.map_eq_some_iff.1 argument
  obtain ⟨var, w, rfl, there, place⟩ := isPush.argument found kind
  have reads : switchingMachine.read
      (startStore (integerInterpretation fun _ => -3) d'.storage 0) var = -3 :=
    (startStore_holds (fun _ => -3) d'.storage).parameter there place
  have led := Machine.leads_load (μ := switchingMachine) var []
    (startStore (integerInterpretation fun _ => -3) d'.storage 0)
  rw [reads] at led
  obtain ⟨between, same, phis, taken, leading, operands, transfers⟩ :=
    goes (n := -3) (by decide) (by decide) holds led
  have blocks : (startDraft tell).blocks.size = 3 := by decide +kernel
  rw [blocks] at transfers
  have leading' : tellContext.module.leadingPhis? 0 1 = some [5] := by decide +kernel
  cases leading'.symm.trans leading
  -- The phi takes the constant 7.
  cases operands with
  | @cons _ value _ code ty _ incoming isPush' _ later =>
    cases later
    have incoming' : tellContext.module.phiIncoming? 5 0 = some 3 := by decide +kernel
    cases incoming'.symm.trans incoming
    have constant : (tellContext.module.value? 3).map (fun v =>
        (v.kind, tellContext.module.types.intBits? v.ty)) = some (.int 7, some 32) := by
      decide +kernel
    obtain ⟨u, found', kinds⟩ := Option.map_eq_some_iff.1 constant
    obtain ⟨kind', width⟩ := Prod.mk.injEq .. ▸ kinds
    obtain ⟨var', ty', rfl, isLiteral⟩ := isPush'.int found' kind' width (by decide)
    have reads' : switchingMachine.read between var' = 7 :=
      (same.holdsNumbers switchingMachine_dispatches holds).read_literal (by decide) (by decide)
        isLiteral
    have led' := Machine.leads_load (μ := switchingMachine) var' [] between
    rw [reads'] at led'
    exact ⟨d', between, lowered, transfers (.cons led' .nil)⟩

end Stackwise.Lowering
