import Stackwise.Proofs.Lowering.Exceptions
import Stackwise.Proofs.Lowering.Packs

/-!
# The first handler that accepts

A choice between handlers asks the personality routine about one after another, each time in a block
of its own.  Where a run goes depends on the answers only: the first handler that is accepted is
branched to, and none behind it is asked about.  If all are refused, control goes to the unwind
destination or out of the function.

* `Machine.Trail` is a run that lists the calls of functions on its way and shows that nothing else
  on it changes certain cells, here the slot of the exception in flight.
* `Tested` says what a list of calls has to do with a list of handlers, and `Concludes` where a
  choice ends.
* `Chain.runs` goes along the tests, by induction on the chain.
-/

namespace Stackwise

open Code (Block Instr Machine State Storage)

/-! ## Runs and the calls on them -/

namespace Lowering

/-- Whether the next instruction calls a function. -/
def atCall {V S : Type} (s : State V S) : Bool :=
  match s.code with
  | i :: _ => callsFunction i
  | [] => false

theorem not_calls_of_isLocal {i : Instr} (h : i.isLocal = true) : callsFunction i = false := by
  cases i with
  | call target =>
    cases target with
    | function => cases h
    | helper => rfl
  | callIndirect => cases h
  | _ => rfl

end Lowering

namespace Code.Machine

open Lowering (atCall)

variable {V S : Type} {μ : Machine V S}

/-- A run from one state to another, with the states in which functions are called.  All other steps
leave the cells that are `kept` as they are. -/
inductive Trail (μ : Machine V S) (blocks : List Block) (kept : Nat → Prop) :
    State V S → List (State V S) → State V S → Prop
  | refl {s : State V S} : Trail μ blocks kept s [] s
  | quiet {s s₁ s' : State V S} {calls : List (State V S)} (calm : atCall s = false)
      (moves : μ.Moves blocks s s₁)
      (same : ∀ var, kept var → μ.read s₁.store var = μ.read s.store var)
      (later : Trail μ blocks kept s₁ calls s') : Trail μ blocks kept s calls s'
  | call {s s₁ s' : State V S} {calls : List (State V S)} (called : atCall s = true)
      (moves : μ.Moves blocks s s₁) (later : Trail μ blocks kept s₁ calls s') :
    Trail μ blocks kept s (s :: calls) s'

variable {blocks : List Block} {kept : Nat → Prop}

theorem Trail.trans {s s₁ s' : State V S} {calls calls' : List (State V S)}
    (first : Trail μ blocks kept s calls s₁) (second : Trail μ blocks kept s₁ calls' s') :
    Trail μ blocks kept s (calls ++ calls') s' := by
  induction first with
  | refl => exact second
  | quiet calm moves same _ ih => exact .quiet calm moves same (ih second)
  | call called moves _ ih => exact .call called moves (ih second)

/-- A run through code without calls, whatever stands behind it. -/
theorem Strides.trail {code : List Instr} {stack stack' : List V} {store store' : S}
    (h : Strides μ kept code stack store stack' store') (blocks : List Block) (label : Nat)
    (rest : List Instr) :
    Trail μ blocks kept ⟨label, code ++ rest, stack, store⟩ [] ⟨label, rest, stack', store'⟩ := by
  induction h with
  | nil => exact .refl
  | cons isLocal runs same _ ih =>
    exact .quiet (Lowering.not_calls_of_isLocal isLocal) (.run runs) same ih

/-- An anchor behind which control goes on. -/
theorem Trail.next {i : Instr} {stack stack' : List V} {store store' : S}
    (anchor : i.isAnchor = true) (enough : i.pops ≤ stack.length)
    (control : μ.control i stack store = .next stack' store')
    (same : ∀ var, kept var → μ.read store' var = μ.read store var) (label : Nat)
    (rest : List Instr) :
    Trail μ blocks kept ⟨label, i :: rest, stack, store⟩ [] ⟨label, rest, stack', store'⟩ :=
  .quiet (Lowering.not_calls_of_anchor anchor) (.next anchor enough control) same .refl

end Code.Machine

namespace Lowering

open Source (Instruction Module)

/-! ## Machines that ask -/

section Semantics

variable {V S : Type}

/-- What is asked of a machine that runs a choice.  Marking an operand of a phi leaves it on the
stack, and may be recorded in the store, but in no variable; `default` gives what is returned by
default. -/
structure Chooses (μ : Machine V S) (Ω : Viewing V S) (enqueue : Code.Ty → V → S → S)
    (default : Code.Ty → Option V) : Prop where
  phiEnqueue : ∀ ty x stack store,
    μ.control (.phiEnqueue ty) (x :: stack) store = .next (x :: stack) (enqueue ty x store)
  read_enqueue : ∀ ty x store var, μ.read (enqueue ty x store) var = μ.read store var
  branchIfTrue : ∀ {n} label stack store, Word.isSigned 32 n = true →
    μ.control (.branchIfTrue label) (Ω.num 32 n :: stack) store =
      if n = 0 then .next stack store else .jump label stack store
  branch : ∀ label stack store, μ.control (.branch label) stack store = .jump label stack store
  /-- A heap frame goes without touching cells. -/
  leaveFrame : ∀ store, ∃ store', μ.plain .leaveFrame [] store = some ([], store') ∧
    ∀ var, μ.read store' var = μ.read store var
  retDefault : ∀ ty stack store, μ.control (.retDefault ty) stack store = .leave (default ty) store

/-- Asked about a view, a personality routine answers with a number, and it leaves a good store. -/
def Answers (μ : Machine V S) (Ω : Viewing V S) (good : S → Prop) (routine : Nat) : Prop :=
  ∀ ⦃store : S⦄ (view : V), good store → ∃ n after, Word.isSigned 32 n = true ∧
    μ.plain (.call (.function routine) personalitySignature) [view] store =
      some ([Ω.num 32 n], after) ∧ good after

/-- The values that phis of a block take on the edge from a source block. -/
def edgeOperands (m : Module) (source : SourceBlock) (target : Nat) : List Nat :=
  ((m.leadingPhis? source.function target).getD []).filterMap (m.phiIncoming? · source.block)

/-- The values that a choice between handlers may need: the arguments of the pads, and what the
edges hand over. -/
def choiceOperands (m : Module) (source : SourceBlock) (handlers : List Nat)
    (unwind : Option Nat) : List Nat :=
  handlers.flatMap (fun handler => (padArguments? m source.function handler).getD []) ++
    (handlers ++ unwind.toList).flatMap (edgeOperands m source)

theorem mem_choiceOperands_of_pad {m : Module} {source : SourceBlock} {handlers args : List Nat}
    {unwind : Option Nat} {handler a : Nat} (mem : handler ∈ handlers)
    (known : padArguments? m source.function handler = some args) (here : a ∈ args) :
    a ∈ choiceOperands m source handlers unwind := by
  refine List.mem_append_left _ (List.mem_flatMap.2 ⟨handler, mem, ?_⟩)
  rwa [known]

theorem mem_choiceOperands_of_edge {m : Module} {source : SourceBlock} {handlers : List Nat}
    {unwind : Option Nat} {target a : Nat} (mem : target ∈ handlers ∨ unwind = some target)
    (here : a ∈ edgeOperands m source target) : a ∈ choiceOperands m source handlers unwind := by
  refine List.mem_append_right _ (List.mem_flatMap.2 ⟨target, List.mem_append.2 ?_, here⟩)
  exact mem.imp_right Option.mem_toList.2

/-- The state is a question about a handler, which gets an answer: the personality routine is called
with a view of the arguments of the handler's pad. -/
def Asks (μ : Machine V S) (Ω : Viewing V S) (m : Module) (function routine : Nat)
    (value : Nat → V) (handler : Nat) (s : State V S) (answer : Int) : Prop :=
  ∃ args view stack more after, padArguments? m function handler = some args ∧
    s.code = .call (.function routine) personalitySignature :: more ∧ s.stack = view :: stack ∧
    Packs μ Ω 0 value args s.store view ∧ Word.isSigned 32 answer = true ∧
    μ.plain (.call (.function routine) personalitySignature) [view] s.store =
      some ([Ω.num 32 answer], after)

theorem Asks.isSigned {μ : Machine V S} {Ω : Viewing V S} {m : Module} {function routine : Nat}
    {value : Nat → V} {handler : Nat} {s : State V S} {answer : Int}
    (h : Asks μ Ω m function routine value handler s answer) : Word.isSigned 32 answer = true := by
  obtain ⟨_, _, _, _, _, -, -, -, -, small, -⟩ := h
  exact small

/-- The calls are questions about handlers in order, up to the first that is accepted; it is the one
that is chosen. -/
inductive Tested (μ : Machine V S) (Ω : Viewing V S) (m : Module) (function routine : Nat)
    (value : Nat → V) : (handlers : List Nat) → (calls : List (State V S)) →
      (chosen : Option Nat) → Prop
  | exhausted : Tested μ Ω m function routine value [] [] none
  | accepts {handler : Nat} {handlers : List Nat} {call : State V S}
      (asked : Asks μ Ω m function routine value handler call 0) :
    Tested μ Ω m function routine value (handler :: handlers) [call] (some handler)
  | declines {handler : Nat} {handlers : List Nat} {call : State V S} {calls : List (State V S)}
      {chosen : Option Nat} {answer : Int}
      (asked : Asks μ Ω m function routine value handler call answer) (refused : answer ≠ 0)
      (later : Tested μ Ω m function routine value handlers calls chosen) :
    Tested μ Ω m function routine value (handler :: handlers) (call :: calls) chosen

/-- The state is where a choice ends, on a stack: it branches to a block with the operands of the
phis there on the stack, or it leaves the frame, if there is one, and returns the default value. -/
def Concludes (μ : Machine V S) (default : Code.Ty → Option V) (c : Context) (source : SourceBlock)
    (final : Draft) (value : Nat → V) (stack : List V) : Option Nat → State V S → Prop
  | some target, s => ∃ more, s.code = .branch target :: more ∧
    μ.control (.branch target) s.stack s.store =
      .jump target (((edgeOperands c.module source target).map value).reverse ++ stack) s.store
  | none, s => ∃ more s', s.code = leaving c (.retDefault c.returns) ++ more ∧
    μ.Trail final.finish (HasPlace final.storage .exceptionSlot) s [] s' ∧
    μ.Leaves s' (default c.returns) s'.store

end Semantics

/-! ## Along the tests -/

section Running

variable {V S : Type} {μ : Machine V S} {Ω : Viewing V S} {enqueue : Code.Ty → V → S → S}
  {default : Code.Ty → Option V} {c : Context} {source : SourceBlock} {good : S → Prop}
  {value : Nat → V} {operands : List Nat}

theorem PushCode.pushedFrom {final : Storage} {a : Nat} {code : List Instr}
    (h : PushCode c final a code) : PushedFrom c final 0 a code := by
  obtain ⟨spot, s, e, run, rfl, later⟩ := h
  obtain ⟨-, contained⟩ := push_contained a s [] (Nat.zero_le _) run
  exact ⟨⟨spot, s, e, run, rfl, later⟩, contained.mono fun _ own => own.grows later⟩

/-- Where a function is left, the frame is left first, if there is one. -/
theorem leaving_concludes {final : Draft} (chooses : Chooses μ Ω enqueue default) (label : Nat)
    (more : List Instr) (stack : List V) (store : S) :
    Concludes μ default c source final value stack none
      ⟨label, leaving c (.retDefault c.returns) ++ more, stack, store⟩ := by
  have returns (store : S) : μ.Leaves ⟨label, .retDefault c.returns :: more, stack, store⟩
      (default c.returns) store :=
    ⟨.retDefault c.returns, more, rfl, rfl, Nat.zero_le _, chooses.retDefault _ _ _⟩
  by_cases framed : c.needsFrame = true
  · obtain ⟨store', left, same⟩ := chooses.leaveFrame store
    have out : μ.Strides (HasPlace final.storage .exceptionSlot) [.leaveFrame] stack store stack
        store' :=
      Machine.Strides.act .leaveFrame [] [] rfl rfl left (fun var _ => same var) stack
    refine ⟨more, ⟨label, .retDefault c.returns :: more, stack, store'⟩, rfl, ?_, returns store'⟩
    rw [leaving, if_pos framed]
    exact out.trail final.finish label _
  · refine ⟨more, ⟨label, .retDefault c.returns :: more, stack, store⟩, rfl, ?_, returns store⟩
    rw [leaving, if_neg framed]
    exact .refl

variable {final d last : Draft} {routine : Nat} (laws : Views μ Ω final.storage)
  (chooses : Chooses μ Ω enqueue default)
  (eval : Evaluates μ Ω c final.storage good value operands)

section Edges

include laws chooses eval

/-- The operands that phis take from a block stand on the stack at the end. -/
theorem Operands.trail {origin : Nat} {phis : List Nat} {pushes : List (List Instr × Code.Ty)}
    (h : Operands c origin final.storage phis pushes)
    (known : ∀ a ∈ phis.filterMap (c.module.phiIncoming? · origin), a ∈ operands) (label : Nat)
    (rest : List Instr) (stack : List V) {store : S} (fine : good store) :
    ∃ store', μ.Trail final.finish (HasPlace final.storage .exceptionSlot)
        ⟨label, enqueueCode pushes ++ rest, stack, store⟩ []
        ⟨label, rest,
          ((phis.filterMap (c.module.phiIncoming? · origin)).map value).reverse ++ stack,
          store'⟩ := by
  induction h generalizing stack store with
  | nil => exact ⟨store, .refl⟩
  | @cons phi a phis code ty pushes incoming pushed typed later ih =>
    have first : (phi :: phis).filterMap (c.module.phiIncoming? · origin) =
        a :: phis.filterMap (c.module.phiIncoming? · origin) := List.filterMap_cons_some incoming
    rw [first] at known ⊢
    obtain ⟨here, others⟩ := List.forall_mem_cons.1 known
    obtain ⟨store₁, strides, fine₁, -⟩ := eval.push laws here pushed.pushedFrom stack fine
    have same (var : Nat) := chooses.read_enqueue ty (value a) store₁ var
    obtain ⟨store', ahead⟩ := ih others (value a :: stack)
      (eval.temporary fine₁ fun var _ => same var)
    refine ⟨store', ?_⟩
    rw [enqueueCode_cons, List.append_assoc, List.map_cons, List.reverse_cons, List.append_assoc]
    have marked : μ.Trail final.finish (HasPlace final.storage .exceptionSlot)
        ⟨label, .phiEnqueue ty :: (enqueueCode pushes ++ rest), value a :: stack, store₁⟩ []
        ⟨label, enqueueCode pushes ++ rest, value a :: stack, enqueue ty (value a) store₁⟩ :=
      .next rfl (Nat.le_add_left 1 _) (chooses.phiEnqueue ty _ stack store₁) (fun var _ => same var)
        label _
    exact (strides.trail final.finish label _).trans (marked.trans ahead)

/-- An edge comes to its branch. -/
theorem EdgeTo.trail {target : Nat} {code : List Instr}
    (h : EdgeTo c source target final.storage code)
    (known : ∀ a ∈ edgeOperands c.module source target, a ∈ operands) (label : Nat)
    (more : List Instr) (stack : List V) {store : S} (fine : good store) :
    ∃ s, μ.Trail final.finish (HasPlace final.storage .exceptionSlot)
        ⟨label, code ++ more, stack, store⟩ [] s ∧
      Concludes μ default c source final value stack (some target) s := by
  obtain ⟨phis, pushes, leading, taken, rfl⟩ := h
  have same : edgeOperands c.module source target =
      phis.filterMap (c.module.phiIncoming? · source.block) := by
    rw [edgeOperands, leading, Option.getD_some]
  rw [same] at known
  obtain ⟨store', ahead⟩ := taken.trail laws chooses eval known label (.branch target :: more) stack
    fine
  rw [List.append_assoc]
  refine ⟨_, ahead, more, rfl, ?_⟩
  rw [chooses.branch, same]

/-- Behind the tests, a run comes to the unwind destination or to where the function is left. -/
theorem UnwindTo.trail {unwind : Option Nat} {code : List Instr}
    (h : UnwindTo c source final.storage unwind code)
    (known : ∀ target, unwind = some target →
      ∀ a ∈ edgeOperands c.module source target, a ∈ operands)
    (label : Nat) (more : List Instr) (stack : List V) {store : S} (fine : good store) :
    ∃ s, μ.Trail final.finish (HasPlace final.storage .exceptionSlot)
        ⟨label, code ++ more, stack, store⟩ [] s ∧
      Concludes μ default c source final value stack unwind s := by
  cases unwind with
  | none =>
    cases h
    exact ⟨_, .refl, leaving_concludes chooses label more stack store⟩
  | some target => exact EdgeTo.trail laws chooses eval h (known target rfl) label more stack fine

end Edges

variable (answers : Answers μ Ω good routine)

include laws eval answers

/-- The code of a question packs the arguments of a pad and calls the routine once. -/
theorem PackCode.asks {floor pack top handler : Nat} {args : List Nat} {packed : List Instr}
    (h : PackCode c final.storage floor args pack packed top)
    (known : padArguments? c.module source.function handler = some args)
    (pads : ∀ a ∈ args, a ∈ operands) (label : Nat) (rest : List Instr) (stack : List V) {store : S}
    (fine : good store) :
    ∃ question answer after, μ.Trail final.finish (HasPlace final.storage .exceptionSlot)
        ⟨label, packed ++ .load pack :: .call (.function routine) personalitySignature :: rest,
          stack, store⟩ [question] ⟨label, rest, Ω.num 32 answer :: stack, after⟩ ∧
      Asks μ Ω c.module source.function routine value handler question answer ∧ good after := by
  obtain ⟨store₁, strides, fine₁, holds⟩ := h.runs laws eval pads stack fine
  have isPack := holds store₁ fun _ _ _ => rfl
  obtain ⟨answer, after, small, answered, fine₂⟩ := answers (μ.read store₁ pack) fine₁
  let question : State V S := ⟨label, .call (.function routine) personalitySignature :: rest,
    μ.read store₁ pack :: stack, store₁⟩
  refine ⟨question, answer, after, ?_, ?_, fine₂⟩
  · have loaded := (strides.append (.load pack stack store₁)).trail final.finish label question.code
    have acted : μ.act store₁ (.call (.function routine) personalitySignature)
        [μ.read store₁ pack] = some ([Ω.num 32 answer], after) := answered
    have stepped := Machine.step_of_act rfl acted stack
    rw [List.append_assoc] at loaded
    exact loaded.trans (.call rfl (.run ⟨rfl, Nat.le_add_left 1 _, stepped⟩) .refl)
  · exact ⟨args, _, stack, rest, after, known, rfl, rfl, isPack.mono (Nat.zero_le _), small,
      answered⟩

include chooses

/-- A run along the tests either concludes with a handler that is accepted, or comes to where no
handler is left. -/
theorem Chain.runs {handlers : List Nat} (h : Chain c source routine final d handlers last)
    (pads : ∀ handler ∈ handlers, ∀ args, padArguments? c.module source.function handler =
      some args → ∀ a ∈ args, a ∈ operands)
    (edges : ∀ handler ∈ handlers, ∀ a ∈ edgeOperands c.module source handler, a ∈ operands)
    (stack : List V) {store : S} (fine : good store) :
    ∃ calls chosen s, μ.Trail final.finish (HasPlace final.storage .exceptionSlot)
        ⟨d.current, final.rest d, stack, store⟩ calls s ∧
      Tested μ Ω c.module source.function routine value handlers calls chosen ∧
      ((∃ handler, chosen = some handler ∧
        Concludes μ default c source final value stack (some handler) s) ∨
        chosen = none ∧ ∃ store', good store' ∧
          s = ⟨last.current, final.rest last, stack, store'⟩) := by
  induction h generalizing store with
  | @done d => exact ⟨[], none, _, .refl, .exhausted, .inr ⟨rfl, store, fine, rfl⟩⟩
  | @test d next last handler pack top handlers args packed edge more b known packs edged code there
      same continues chain ih =>
    obtain ⟨padsHere, padsLater⟩ := List.forall_mem_cons.1 pads
    obtain ⟨edgeHere, edgesLater⟩ := List.forall_mem_cons.1 edges
    obtain ⟨question, answer, after, upTo, asked, fine'⟩ := packs.asks laws eval answers known
      (padsHere args known) d.current (.branchIfTrue next.current :: (edge ++ more)) stack fine
    rw [code]
    have branched := chooses.branchIfTrue next.current stack after asked.isSigned
    by_cases accepted : answer = 0
    · -- The handler is accepted: the edge behind the branch is taken.
      rw [if_pos accepted] at branched
      obtain ⟨s, ahead, concludes⟩ := edged.trail laws chooses eval edgeHere d.current more stack
        fine'
      refine ⟨[question], some handler, s, ?_, .accepts (accepted ▸ asked), .inl ⟨handler, rfl, ?_⟩⟩
      · exact upTo.trans (.trans (.next rfl (Nat.le_add_left 1 _) branched (fun _ _ => rfl) _ _)
          ahead)
      · exact concludes
    · -- It is refused: control goes on in the next block.
      rw [if_neg accepted] at branched
      obtain ⟨calls, chosen, s, ahead, tested, ends⟩ := ih padsLater edgesLater fine'
      refine ⟨question :: calls, chosen, s, ?_, .declines asked accepted tested, ends⟩
      have entered : final.finish[next.current]? =
          some { label := next.current, origin := b.origin, code := b.code } := by
        rw [Draft.getElem?_finish, there, Option.map_some]
      rw [same] at ahead
      exact upTo.trans (.quiet rfl (.jump rfl (Nat.le_add_left 1 _) branched entered)
        (fun _ _ => rfl) ahead)

end Running

/-- A choice between handlers that is lowered takes the first handler that is accepted.  Wherever
its code stands in the finished body, a run from there asks the personality routine about the
handlers in order, with a view of the arguments of each, and calls no other function.  It branches
to the first that is accepted, or else to the unwind destination, with the operands that the phis
there take from the block of the choice; if there is none, it leaves the frame and returns the
default value.  It does not change the slot of the exception in flight. -/
theorem first_accepted_handler {V S : Type} {μ : Machine V S} {Ω : Viewing V S}
    {enqueue : Code.Ty → V → S → S} {default : Code.Ty → Option V} {c : Context}
    {source : SourceBlock} {id : Nat} {i : Instruction} {hasUnwind : Bool} {d d' : Draft}
    (opcode : i.opcode = .catchSwitch hasUnwind)
    (lowered : lowerInstruction source id i c d = .ok () d') :
    ∃ f routine handlers, c.module.function? source.function = some f ∧
      f.personality = some routine ∧ handlers? i.operands hasUnwind = some handlers ∧
      (unwindOf? i.operands hasUnwind).isSome = hasUnwind ∧
      ∀ final, d'.Continues c.module final → Views μ Ω final.storage →
        Chooses μ Ω enqueue default →
        ∀ ⦃good : S → Prop⦄ ⦃value : Nat → V⦄,
          Evaluates μ Ω c final.storage good value
            (choiceOperands c.module source handlers (unwindOf? i.operands hasUnwind)) →
          Answers μ Ω good routine →
          ∀ (stack : List V) ⦃store : S⦄, good store → ∃ calls chosen s,
            μ.Trail final.finish (HasPlace final.storage .exceptionSlot)
              ⟨d.current, final.rest d, stack, store⟩ calls s ∧
            Tested μ Ω c.module source.function routine value handlers calls chosen ∧
            Concludes μ default c source final value stack
              (chosen.or (unwindOf? i.operands hasUnwind)) s := by
  rw [lowerInstruction, opcode] at lowered
  obtain ⟨f, routine, handlers, found, named, listed, unwinds, lays⟩ :=
    lowerCatchSwitch_chains id i hasUnwind lowered
  refine ⟨f, routine, handlers, found, named, listed, unwinds, ?_⟩
  intro final later laws chooses good value eval answers stack store fine
  obtain ⟨last, exit, more, chain, -, rest, isExit⟩ := lays final later
  obtain ⟨calls, chosen, s, ahead, tested, ends⟩ := chain.runs laws chooses eval answers
    (fun handler mem args known a => mem_choiceOperands_of_pad mem known)
    (fun handler mem a => mem_choiceOperands_of_edge (.inl mem)) stack fine
  rcases ends with ⟨handler, rfl, concludes⟩ | ⟨rfl, store', fine', rfl⟩
  · exact ⟨calls, _, s, ahead, tested, concludes⟩
  · -- No handler has been accepted: what stands behind the tests is run.
    rw [rest] at ahead
    obtain ⟨s, onwards, concludes⟩ := isExit.trail laws chooses eval
      (fun target unwinds a => mem_choiceOperands_of_edge (.inr unwinds)) last.current more stack
      fine'
    have whole := ahead.trans onwards
    rw [List.append_nil] at whole
    exact ⟨calls, none, s, whole, tested, concludes⟩

/-! ## Two handlers -/

theorem cellMachine_chooses (final : Storage) :
    Chooses (cellMachine final) cellViewing (fun _ _ store => store) fun _ => none where
  phiEnqueue _ _ _ _ := rfl
  read_enqueue _ _ _ _ := rfl
  branchIfTrue _ _ _ _ := rfl
  branch _ _ _ := rfl
  leaveFrame store := ⟨store, rfl, fun _ => rfl⟩
  retDefault _ _ _ := rfl

/-- The answer is 0 just if the view shows nothing. -/
theorem cellMachine_answers (good : (Nat → Cell) → Prop) (final : Storage) (routine : Nat) :
    Answers (cellMachine final) cellViewing good routine := by
  intro store view fine
  refine ⟨if (Cell.shown store view).isEmpty then 0 else 1, store, ?_, rfl, fine⟩
  split <;> decide

/-- The machine accepts just the handlers whose pad has no arguments. -/
theorem Asks.answer_eq {final : Storage} {m : Module} {function routine handler : Nat}
    {value : Nat → Cell} {s : State Cell (Nat → Cell)} {answer : Int} {args : List Nat}
    (h : Asks (cellMachine final) cellViewing m function routine value handler s answer)
    (known : padArguments? m function handler = some args) :
    answer = if args.isEmpty then 0 else 1 := by
  obtain ⟨args', view, _, _, after, known', -, -, ⟨slots, shown, values, -⟩, -, answered⟩ := h
  cases known.symm.trans known'
  have count : slots.length = args.length := by
    rw [← List.length_map (f := (cellMachine final).read s.store), values, List.length_map]
  have shows : (Cell.shown s.store view).isEmpty = args.isEmpty := by
    rw [show Cell.shown s.store view = slots.map Cell.address from shown, Bool.eq_iff_iff,
      List.isEmpty_iff_length_eq_zero, List.isEmpty_iff_length_eq_zero, List.length_map, count]
  have answered : some ([Cell.int (if (Cell.shown s.store view).isEmpty then 0 else 1)], s.store) =
      some ([Cell.int answer], after) := answered
  rw [shows] at answered
  cases answered
  rfl

/-- The first handler is refused and the second is accepted, whose phi takes 7. -/
theorem first_accepted_handler_guard : ∃ d' first second s,
    lowerInstruction ⟨2, 2⟩ 10 guardChoice guardContext guardDraft = .ok () d' ∧
    (cellMachine d'.storage).Trail d'.finish (HasPlace d'.storage .exceptionSlot)
      ⟨2, d'.rest guardDraft, [], startCells (fun _ => 9) d'.storage⟩ [first, second] s ∧
    Tested (cellMachine d'.storage) cellViewing guarding 2 1 (cellOf guarding fun _ => 9) [3, 4]
      [first, second] (some 4) ∧
    (cellMachine d'.storage).control (.branch 4) s.stack s.store = .jump 4 [.int 7] s.store := by
  have done : ((lowerInstruction ⟨2, 2⟩ 10 guardChoice).finish? guardContext
      guardDraft).isSome = true := by decide +kernel
  obtain ⟨d', finished⟩ := Option.isSome_iff_exists.1 done
  have lowered := Lower.eq_ok_of_finish? finished
  have opcode : guardChoice.opcode = .catchSwitch false := by decide +kernel
  obtain ⟨f, routine, handlers, found, named, listed, -, runs⟩ := first_accepted_handler
    (μ := cellMachine d'.storage) (Ω := cellViewing) opcode lowered
  have judged : (guardContext.module.function? 2).bind (·.personality) = some 1 := by
    decide +kernel
  rw [found, Option.bind_some, named] at judged
  cases judged
  have listed' : handlers? guardChoice.operands false = some [3, 4] := by decide +kernel
  cases listed'.symm.trans listed
  have eval : Evaluates (cellMachine d'.storage) cellViewing guardContext d'.storage
      (Untouched (fun _ => 9) d'.storage) (cellOf guarding fun _ => 9)
      (choiceOperands guardContext.module ⟨2, 2⟩ [3, 4]
        (unwindOf? guardChoice.operands false)) := by
    rw [← guardContext_module]
    exact cellMachine_evaluates (by decide +kernel)
  obtain ⟨calls, chosen, s, ahead, tested, concludes⟩ := runs d'
    (Draft.Advances.refl _ d').continues cellMachine_views (cellMachine_chooses _) eval
    (cellMachine_answers _ _ _) [] untouched_startCells
  rw [guardContext_module] at tested
  have picky : padArguments? guarding 2 3 = some [4, 6] := by decide +kernel
  have lenient : padArguments? guarding 2 4 = some [] := by decide +kernel
  cases tested with
  | accepts asked => exact absurd (asked.answer_eq picky) (by decide)
  | declines asked refused later =>
    cases later with
    | declines asked' refused' => exact absurd (asked'.answer_eq lenient) refused'
    | accepts asked' =>
      obtain ⟨more, code, jumps⟩ := concludes
      refine ⟨d', _, _, s, lowered, ahead, .declines asked refused (.accepts asked'), ?_⟩
      have taken : edgeOperands guardContext.module ⟨2, 2⟩ 4 = [6] := by decide +kernel
      have seven : numeral? guarding (fun _ => 9) 6 = some 7 := by decide +kernel
      rw [jumps, taken, List.map_singleton, cellOf, seven]
      rfl

end Lowering

end Stackwise
