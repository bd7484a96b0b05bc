import Stackwise.Proofs.Lowering.Exceptions

/-!
# Handing on the exception in flight

The blocks of a lowered body have a `Contract` about the exception in flight (`Host.contract`).  A
block may be entered with one if it begins by taking it, or by choosing who does; into all other
blocks control comes with none.  No function is called with one, except for the personality routine
that is asked about handlers, and where the function may not throw there is none at all.

That blocks keep to it rests on two things at once.  The code that an instruction is lowered to
moves the exception: pads take it, the end of a cleanup puts it back, a call is followed by a check.
And where there is no check, the analysis of the module has found that none is needed
(`Guarded.called_of_runs`).  Each shape of code is safe (`Guarded.edge_safe`, `Guarded.chain_safe`,
`Guarded.call_safe`, …), so every block is (`Guarded.block_safe`).
-/

namespace Stackwise.Lowering

open Code (Control Instr Machine Storage)
open Source (Function Instruction Module Opcode)

/-! ## Pads where they are expected -/

/-- Whether the first instruction of a block behind its phis has such an operation. -/
def startsWith (m : Module) (function : Nat) (test : Opcode → Bool) (block : Nat) : Bool :=
  (m.blockInstructions? function block).any fun instrs =>
    (instrs.dropWhile fun p => p.2.opcode == .phi).head?.any fun p => test p.2.opcode

/-- Whether unwinding may go on at an operation. -/
def isUnwindPad : Opcode → Bool
  | .catchSwitch _ | .cleanupPad => true
  | _ => false

/-- Whether the operation takes the exception in flight, or chooses who does. -/
def takesException : Opcode → Bool
  | .catchSwitch _ | .catchPad | .cleanupPad => true
  | _ => false

/-- Whether an instruction unwinds to pads only, has handlers that begin with their pad, and ends
the cleanup of a pad of the function. -/
def unwindsToPads (m : Module) (function : Nat) (f : Function) (i : Instruction) : Bool :=
  match i.opcode with
  | .invoke _ => (readInvoke? i.operands).all fun (_, _, unwind, _) =>
    startsWith m function isUnwindPad unwind
  | .catchSwitch hasUnwind =>
    (unwindOf? i.operands hasUnwind).all (startsWith m function isUnwindPad) &&
      (handlers? i.operands hasUnwind).all (·.all (startsWith m function (· == .catchPad)))
  | .cleanupRet =>
    (i.blockAt? 1).all (startsWith m function isUnwindPad) &&
      (i.valueAt? 0).all fun pad => (m.bodyOf f).any fun p => p.1 == pad && isPad p.2.opcode
  | _ => true

/-- The block may be entered with an exception in flight. -/
def Takes (m : Module) (function block : Nat) : Prop :=
  startsWith m function takesException block = true

theorem startsWith_mono {m : Module} {function block : Nat} {test test' : Opcode → Bool}
    (imp : ∀ opcode, test opcode = true → test' opcode = true)
    (h : startsWith m function test block = true) : startsWith m function test' block = true := by
  rw [startsWith, Option.any_eq_true] at h ⊢
  obtain ⟨instrs, there, first⟩ := h
  rw [Option.any_eq_true] at first
  obtain ⟨p, isFirst, passes⟩ := first
  exact ⟨instrs, there, (Option.any_eq_true _ _).2 ⟨p, isFirst, imp _ passes⟩⟩

/-- A pad that unwinding goes on at may be entered with an exception in flight. -/
theorem takes_of_unwindPad {m : Module} {function block : Nat}
    (h : startsWith m function isUnwindPad block = true) : Takes m function block := by
  refine startsWith_mono (fun opcode pad => ?_) h
  cases opcode with
  | catchSwitch | cleanupPad => rfl
  | _ => cases pad

/-- A branch takes no exception. -/
theorem not_takes_of_isBranch {opcode : Opcode} (h : isBranch opcode = true) :
    takesException opcode ≠ true := by
  cases opcode <;> simp_all [isBranch, takesException]

theorem not_takes_of_goesOn {opcode : Opcode} (notPad : isPad opcode = false)
    (goesOn : opcode.isTerminator = false) : takesException opcode ≠ true := by
  cases opcode <;> simp_all [isPad, takesException, Opcode.isTerminator]

/-- A handler may be entered with an exception in flight. -/
theorem takes_of_catchPad {m : Module} {function block : Nat}
    (h : startsWith m function (· == .catchPad) block = true) : Takes m function block := by
  refine startsWith_mono (fun opcode pad => ?_) h
  rw [beq_iff_eq.1 pad]
  rfl

theorem getLast?_of_readInvoke? {operands : List Source.Operand} {args : List Nat}
    {normal unwind callee : Nat} (h : readInvoke? operands = some (args, normal, unwind, callee)) :
    operands.getLast? = some (.value callee) := by
  rw [readInvoke?] at h
  split at h
  · rename_i last
    obtain ⟨_, -, same⟩ := Option.map_eq_some_iff.1 h
    cases same
    rw [List.getLast?_eq_head?_reverse, last]
    rfl
  · cases h

/-- A block that may be entered with an exception in flight begins by dealing with it. -/
theorem Takes.first {m : Module} {function block : Nat} (h : Takes m function block)
    {phis : List Nat} {instrs : List (Nat × Instruction)}
    (leading : m.leadingPhis? function block = some phis)
    (listed : m.blockInstructions? function block = some instrs) :
    ∃ p rest, instrs.drop phis.length = p :: rest ∧ takesException p.2.opcode = true := by
  rw [Takes, startsWith, listed, Option.any_some, Option.any_eq_true] at h
  obtain ⟨p, isFirst, takes⟩ := h
  rw [drop_length_leadingPhis listed leading]
  obtain ⟨rest, same⟩ := List.head?_eq_some_iff.1 isFirst
  exact ⟨p, rest, same, takes⟩

/-! ## The contract between blocks -/

section

variable {V S : Type} (H : Host V S) (c : Context) (function : Nat)

/-- A block with the role is fit for a store in which there may be an exception in flight. -/
def Host.Ready (store : S) : Role → Prop
  | .source block | .detour block => H.slot store = H.null ∨ Takes c.module function block
  | .retry handlers unwind => (∀ handler ∈ handlers, Takes c.module function handler) ∧
    ∀ target, unwind = some target → Takes c.module function target

/-- No function is called with an exception in flight, blocks are entered with one only if they are
fit for it, and a function that may not throw is not left with one. -/
def Host.contract (f : Function) (s : Storage) (roles : List Role) : Machine.Contract S where
  before label i rest store :=
    callsFunction i = true → H.slot store = H.null ∨ IsTest c.module f label i rest
  enter label store := H.Harmless c s store ∧
    ∀ role, roles[label]? = some role → H.Ready c function store role
  leave := H.Harmless c s

/-- A lowered body on a machine, with all that is asked of both. -/
structure Guarded (f : Function) (body : Code.Body) (roles : List Role) : Prop where
  built : c.module.Built
  found : c.module.function? function = some f
  named : c.function = some function
  analyzed : c.throwing = (Throwing.analyze c.conventions c.module).1
  padded : ∀ p ∈ c.module.bodyOf f, unwindsToPads c.module function f p.2 = true
  shaped : Shaped c function f body roles
  unwinds : H.Unwinds c.conventions c.module f body

end

namespace Guarded

variable {V S : Type} {H : Host V S} {c : Context} {function : Nat} {f : Function}
  {body : Code.Body} {roles : List Role} (g : Guarded H c function f body roles)
  {label : Nat} {stack : List V} {store : S}

/-- The contract between the blocks of the body. -/
abbrev contract (_ : Guarded H c function f body roles) : Machine.Contract S :=
  H.contract c function f body.storage roles

include g

theorem tabled : ∀ b ∈ body.blocks, AllTabled c.module body.storage b.code :=
  fun _ mem => g.shaped.tabled mem

/-! ## Where control passes to -/

/-- A source block may be entered if there is no exception in flight, or if the block takes it. -/
theorem enter_source {block : Nat} {phis : List Nat}
    (leading : c.module.leadingPhis? function block = some phis)
    (harmless : H.Harmless c body.storage store)
    (ready : H.slot store = H.null ∨ Takes c.module function block) :
    g.contract.enter block store := by
  refine ⟨harmless, fun role known => ?_⟩
  have source := g.shaped.role_source (lt_of_leadingPhis? g.found leading)
  cases source.symm.trans known
  exact ready

/-- The same holds where a jump leads to it by a detour. -/
theorem enter_leads {block : Nat} (leads : LeadsTo c function ⟨body.storage, roles⟩ label block)
    (harmless : H.Harmless c body.storage store)
    (ready : H.slot store = H.null ∨ Takes c.module function block) :
    g.contract.enter label store := by
  rcases leads with ⟨rfl, plain⟩ | detour
  · exact g.enter_source (leadingPhis?_eq_nil plain) harmless ready
  · refine ⟨harmless, fun role known => ?_⟩
    cases detour.symm.trans known
    exact ready

/-! ## Code that moves no exception

What is known of the exceptions before such code, a property `P`, is known behind it. -/

section

variable {P : S → Prop} (stable : H.Stable c.module body.storage P)

include stable

/-- Straight-line code that calls no function and moves no exception, before safe code. -/
theorem behind_same {front rest : List Instr}
    (plain : ∀ i ∈ front, i.isAnchor = false ∧ callsFunction i = false)
    (same : ∀ i ∈ front, ∀ {stack store stack' store'}, H.Runs i stack store stack' store' →
      H.Same c.module body.storage store store')
    (later : ∀ stack store, P store → H.Safe g.contract label rest stack store)
    (stack : List V) (store : S) (holds : P store) :
    H.Safe g.contract label (front ++ rest) stack store := by
  refine Machine.Safe.behind (fun i mem => (plain i mem).1) (fun i mem _ _ _ calls => ?_)
    (fun i mem _ _ _ _ runs holds => stable (same i mem runs) holds) later stack store holds
  rw [(plain i mem).2] at calls
  cases calls

/-- What is stable holds behind code that only computes. -/
theorem behind_quiet {front rest : List Instr} (quiet : AllQuiet c.module body.storage front)
    (later : ∀ stack store, P store → H.Safe g.contract label rest stack store)
    (stack : List V) (store : S) (holds : P store) :
    H.Safe g.contract label (front ++ rest) stack store :=
  g.behind_same stable (fun i mem => ⟨(quiet i mem).not_anchor, (quiet i mem).not_calls⟩)
    (fun i mem => g.unwinds.quiet_same g.shaped.housed.homed g.tabled (quiet i mem)) later stack
    store holds

/-- The start or the end of a frame, before safe code. -/
theorem behind_frame {i : Instr} {rest : List Instr} (frame : i = .enterFrame ∨ i = .leaveFrame)
    (later : ∀ stack store, P store → H.Safe g.contract label rest stack store)
    (stack : List V) (store : S) (holds : P store) :
    H.Safe g.contract label (i :: rest) stack store := by
  have plain : i.isAnchor = false ∧ callsFunction i = false ∧ i.var? = none := by
    rcases frame with rfl | rfl <;> exact ⟨rfl, rfl, rfl⟩
  have same {stack stack' : List V} {store store' : S} (runs : H.Runs i stack store stack' store') :
      H.Same c.module body.storage store store' := by
    refine g.unwinds.run_same g.shaped.housed.homed g.tabled runs plain.2.1 fun var named => ?_
    cases plain.2.2.symm.trans named
  have alone : ∀ j ∈ [i], j.isAnchor = false ∧ callsFunction j = false :=
    List.forall_mem_singleton.2 ⟨plain.1, plain.2.1⟩
  exact g.behind_same stable alone (List.forall_mem_singleton.2 same) later stack store holds

variable (harmless : ∀ store, P store → H.Harmless c body.storage store)

include harmless

/-- An anchor, whatever it decides. -/
theorem anchor {i : Instr} {rest : List Instr} (anchor : i.isAnchor = true) (holds : P store)
    (next : ∀ stack' store', H.control i stack store = .next stack' store' → P store' →
      H.Safe g.contract label rest stack' store')
    (jump : ∀ target ∈ i.targets, ∀ stack' store',
      H.control i stack store = .jump target stack' store' → P store' →
        g.contract.enter target store') :
    H.Safe g.contract label (i :: rest) stack store := by
  have kept {outcome : Control V S} (control : H.control i stack store = outcome) :
      P outcome.store := by
    have same : H.Same c.module body.storage store (H.control i stack store).store :=
      g.unwinds.control_same g.shaped.housed.homed g.tabled anchor
    rw [control] at same
    exact stable same holds
  refine ⟨fun calls => ?_, fun _ _ runs => ?_, fun _ _ => ⟨fun stack' store' control => ?_,
    fun target stack' store' control => ?_, fun value store' control => ?_⟩⟩
  · rw [not_calls_of_anchor anchor] at calls
    cases calls
  · rw [runs.plain] at anchor
    cases anchor
  · exact next stack' store' control (kept control)
  · exact jump target (g.unwinds.targets anchor control) stack' store' control (kept control)
  · exact harmless _ (kept control)

/-- An anchor that goes nowhere else, before safe code. -/
theorem behind_marker {i : Instr} {rest : List Instr} (isAnchor : i.isAnchor = true)
    (none : i.targets = [])
    (later : ∀ stack store, P store → H.Safe g.contract label rest stack store)
    (stack : List V) (store : S) (holds : P store) :
    H.Safe g.contract label (i :: rest) stack store := by
  refine g.anchor stable harmless isAnchor holds (fun _ _ _ => later _ _) fun target mem => ?_
  rw [none] at mem
  cases mem

/-- A return. -/
theorem leaving_safe {i : Instr} (last : i.isTerminator = true) (none : i.targets = [])
    (stack : List V) (store : S) (holds : P store) :
    H.Safe g.contract label (leaving c i) stack store := by
  have returns (stack : List V) (store : S) (holds : P store) :
      H.Safe g.contract label [i] stack store := by
    refine g.anchor stable harmless (Instr.isAnchor_of_isTerminator last) holds
      (fun _ _ control => absurd control (g.unwinds.terminator last)) fun target mem => ?_
    rw [none] at mem
    cases mem
  rw [leaving]
  split
  · exact g.behind_frame stable (.inr rfl) returns stack store holds
  · exact returns stack store holds

/-- What is stable holds behind the code that hands operands over. -/
theorem behind_handOver {phis : List Nat} {front rest : List Instr}
    (hands : HandOverCode c body.storage phis front)
    (later : ∀ stack store, P store → H.Safe g.contract label rest stack store)
    (stack : List V) (store : S) (holds : P store) :
    H.Safe g.contract label (front ++ rest) stack store := by
  induction hands generalizing stack store with
  | nil => exact later stack store holds
  | cons quiet _ _ ih =>
    rw [List.append_assoc, List.cons_append]
    exact g.behind_quiet stable quiet (g.behind_marker stable harmless rfl rfl ih) stack store holds

/-- What is stable holds behind the code that takes them over. -/
theorem behind_takeOver {phis : List Nat} {front rest : List Instr}
    (takes : TakeOverCode c body.storage phis front)
    (later : ∀ stack store, P store → H.Safe g.contract label rest stack store)
    (stack : List V) (store : S) (holds : P store) :
    H.Safe g.contract label (front ++ rest) stack store := by
  induction takes generalizing stack store with
  | nil => exact later stack store holds
  | @cons _ _ _ var rest' _ writable _ ih =>
    have quiet : AllQuiet c.module body.storage [.store var] :=
      List.forall_mem_singleton.2 writable
    exact g.behind_marker stable harmless rfl rfl (g.behind_quiet stable quiet ih) stack store holds

/-- An edge to a block that is fit for what is known. -/
theorem edge_safe {target : Nat} {code : List Instr}
    (edge : EdgeCode c function body.storage target code)
    (ready : ∀ store, P store → H.slot store = H.null ∨ Takes c.module function target)
    (stack : List V) (store : S) (holds : P store) :
    H.Safe g.contract label code stack store := by
  obtain ⟨phis, front, leading, hands, rfl⟩ := edge
  refine g.behind_handOver stable harmless hands (fun stack store holds => ?_) stack store holds
  refine g.anchor stable harmless rfl holds (fun _ _ control => ?_)
    fun block mem _ store' _ holds => ?_
  · exact absurd control (g.unwinds.terminator rfl)
  · obtain rfl : block = target := List.mem_singleton.1 mem
    exact g.enter_source leading (harmless _ holds) (ready _ holds)

end

/-! ## Jumps and returns with no exception in flight -/

/-- Jumps that are made with no exception in flight. -/
theorem jump_safe {code : List Instr} (jumps : JumpCode c function ⟨body.storage, roles⟩ code)
    (stack : List V) (store : S) (clear : H.Clear c body.storage store) :
    H.Safe g.contract label code stack store := by
  obtain ⟨front, target, last, rfl, turns, edge⟩ := jumps
  have stable := H.clear_stable c body.storage
  have isAnchor {i : Instr} (conditional : i.isConditional = true) : i.isAnchor = true :=
    Instr.isAnchor_of_isCheckpoint (Instr.isCheckpoint_of_isConditional conditional)
  induction front generalizing stack store with
  | nil =>
    exact g.edge_safe stable (fun _ => And.right) edge (fun _ clear => .inl clear.1) _ _ clear
  | cons i front ih =>
    rw [List.forall_mem_cons] at turns
    have later (stack : List V) (store : S) (clear : H.Clear c body.storage store) :=
      ih stack store clear turns.2
    rcases turns.1 with quiet | ⟨conditional, leads⟩
    · have alone : AllQuiet c.module body.storage [i] := List.forall_mem_singleton.2 quiet
      exact g.behind_quiet stable alone later _ _ clear
    · refine g.anchor stable (fun _ => And.right) (isAnchor conditional) clear
        (fun _ _ _ => later _ _) fun next mem _ store' _ clear => ?_
      obtain ⟨block, leads⟩ := leads next mem
      exact g.enter_leads leads clear.2 (.inl clear.1)

/-! ## Unwinding -/

/-- Unwinding keeps the contract if it goes on where the exception is taken. -/
theorem unwind_safe {target? : Option Nat} {code : List Instr}
    (unwinds : UnwindCode c function body.storage target? code)
    (ready : ∀ target, target? = some target → Takes c.module function target)
    (stack : List V) (store : S) (harmless : H.Harmless c body.storage store) :
    H.Safe g.contract label code stack store := by
  have stable := H.harmless_stable c body.storage
  cases target? with
  | some target =>
    exact g.edge_safe stable (fun _ => id) unwinds (fun _ _ => .inr (ready target rfl)) _ _ harmless
  | none =>
    obtain rfl : code = leaving c (.retDefault c.returns) := unwinds
    exact g.leaving_safe stable (fun _ => id) rfl rfl _ _ harmless

/-- Asking about handlers keeps the exception in flight for the one that accepts. -/
theorem chain_safe (asks : AsksHandlers c.module f label) {handlers : List Nat}
    {unwind : Option Nat} {code : List Instr}
    (chain : ChainCode c function ⟨body.storage, roles⟩ handlers unwind code)
    (accept : ∀ handler ∈ handlers, Takes c.module function handler)
    (ready : ∀ target, unwind = some target → Takes c.module function target)
    (stack : List V) (store : S) (harmless : H.Harmless c body.storage store) :
    H.Safe g.contract label code stack store := by
  have stable := H.harmless_stable c body.storage
  cases handlers with
  | nil => exact g.unwind_safe chain ready stack store harmless
  | cons handler rest =>
    obtain ⟨f', routine, before, next, last, found, asked, quiet, retries, edge, rfl⟩ := chain
    cases g.found.symm.trans found
    rw [List.forall_mem_cons] at accept
    refine g.behind_quiet stable quiet (fun stack store harmless => ?_) stack store harmless
    refine ⟨fun _ => .inr ⟨asks, ⟨routine, asked, rfl⟩, next, rfl⟩, fun stack' store' runs => ?_,
      nofun⟩
    have same : H.Same c.module body.storage store store' :=
      ⟨g.unwinds.personality asked runs, fun var pad =>
        g.unwinds.read_run runs (pad.isPrivate g.shaped.housed.homed g.tabled) nofun⟩
    refine g.anchor stable (fun _ => id) rfl (stable same harmless) (fun _ _ _ harmless => ?_)
      fun target mem _ _ _ harmless => ⟨harmless, fun role known => ?_⟩
    · exact g.edge_safe stable (fun _ => id) edge (fun _ _ => .inr accept.1) _ _ harmless
    · obtain rfl : target = next := List.mem_singleton.1 mem
      cases retries.symm.trans known
      exact ⟨accept.2, ready⟩

/-! ## Calls -/

/-- Behind a call there is an exception in flight only if the function may throw, and the call is
one that is checked. -/
def Called (_ : Guarded H c function f body roles) (callee : Nat) (store : S) : Prop :=
  H.Harmless c body.storage store ∧
    (H.slot store ≠ H.null → (c.mayThrow && calleeMayThrow c callee) = true)

omit g in
/-- What holds behind a call is stable, so it is still true at the check. -/
theorem called_stable (g : Guarded H c function f body roles) (callee : Nat) :
    H.Stable c.module body.storage (g.Called callee) := by
  intro store store' same called
  exact ⟨H.harmless_stable c body.storage same called.1, fun set => called.2 (same.1 ▸ set)⟩

/-- Whether the function may throw is what the analysis has answered. -/
theorem mayThrow_eq :
    c.mayThrow = (Throwing.analyze c.conventions c.module).1.mayThrow function := by
  rw [Context.mayThrow, g.named, Option.any_some, g.analyzed]

/-- What a call can do is what the analysis has found it can. -/
theorem called_of_runs {id callee : Nat} {i : Instruction} (mem : (id, i) ∈ c.module.bodyOf f)
    (calls : Throwing.Calls i callee) {call : Instr} (calling : CallInstr c callee call)
    {stack' : List V} {store' : S} (runs : H.Runs call stack store stack' store')
    (clear : H.Clear c body.storage store) : g.Called callee store' := by
  have pads (var : Nat) (pad : PadVariable c.module body.storage var) :
      H.read store' var = H.read store var := by
    refine g.unwinds.read_run runs (pad.isPrivate g.shaped.housed.homed g.tabled) ?_
    cases calling with
    | direct | indirect => nofun
  have throws (set : H.slot store' ≠ H.null) :
      c.mayThrow = true ∧ calleeMayThrow c callee = true := by
    cases outside : c.mayThrow with
    | true =>
      refine ⟨rfl, ?_⟩
      cases calling with
      | direct named sig =>
        simp only [calleeMayThrow, named, g.analyzed]
        exact g.unwinds.call runs clear.1 set
      | indirect unknown sig => simp only [calleeMayThrow, unknown]
    | false =>
      -- The function is outside of a closed set, so the call cannot throw.
      rw [g.mayThrow_eq] at outside
      cases calling with
      | direct named sig =>
        have safe := Throwing.mayThrow_callee g.built g.found outside mem calls named
        rw [g.unwinds.call runs clear.1 set] at safe
        cases safe
      | indirect unknown sig =>
        have quiescent := Throwing.quiescent_of_unknown g.built g.found outside mem calls unknown
        exact absurd quiescent (g.unwinds.callIndirect runs clear.1 set)
  refine ⟨fun outside => ⟨?_, fun var pad => (pads var pad).trans ((clear.2 outside).2 var pad)⟩,
    fun set => ?_⟩
  · by_cases set : H.slot store' = H.null
    · exact set
    · rw [(throws set).1] at outside
      cases outside
  · rw [(throws set).1, (throws set).2]
    rfl

/-- A call is made with no exception in flight. -/
theorem call_safe {id callee : Nat} {i : Instruction} (mem : (id, i) ∈ c.module.bodyOf f)
    (calls : Throwing.Calls i callee) {code rest : List Instr}
    (called : CallCode c body.storage callee code)
    (later : ∀ stack store, g.Called callee store → H.Safe g.contract label rest stack store)
    (stack : List V) (store : S) (clear : H.Clear c body.storage store) :
    H.Safe g.contract label (code ++ rest) stack store := by
  obtain ⟨before, call, after, quiet, calling, quiet', rfl⟩ := called
  rw [List.append_assoc, List.cons_append]
  refine g.behind_quiet (H.clear_stable c body.storage) quiet (fun stack store clear => ?_) _ _
    clear
  refine ⟨fun _ => .inl clear.1, fun stack' store' runs => ?_, fun anchor => ?_⟩
  · exact g.behind_quiet (g.called_stable callee) quiet' later _ _
      (g.called_of_runs mem calls calling runs clear)
  · cases calling with
    | direct | indirect => cases anchor

/-- Behind the check of a call no exception is in flight. -/
theorem behind_check {callee : Nat} {rest : List Instr}
    (later : ∀ stack store, H.Clear c body.storage store →
      H.Safe g.contract label rest stack store)
    (stack : List V) (store : S) (called : g.Called callee store) :
    H.Safe g.contract label (checkOf c callee ++ rest) stack store := by
  rw [checkOf]
  split
  · refine g.anchor (H.harmless_stable c body.storage) (fun _ => id) rfl called.1
      (fun _ store' control harmless => later _ _ ⟨?_, harmless⟩)
      fun _ mem => absurd mem List.not_mem_nil
    have same := g.unwinds.slot_control stack store (i := .retIfPending c.returns c.needsFrame) rfl
    rw [control] at same
    exact same.trans (g.unwinds.retIfPending control)
  · rename_i unchecked
    refine later _ _ ⟨?_, called.1⟩
    by_cases set : H.slot store = H.null
    · exact set
    · exact absurd (called.2 set) unchecked

/-! ## Code that moves the exception in flight -/

/-- Loading keeps the contract if the rest does. -/
theorem load_safe {var : Nat} {rest : List Instr}
    (later : H.Safe g.contract label rest (H.read store var :: stack) store) :
    H.Safe g.contract label (.load var :: rest) stack store := by
  refine ⟨nofun, fun stack' store' runs => ?_, nofun⟩
  cases runs.step
  exact later

theorem store_safe {var : Nat} {x : V} {rest : List Instr}
    (later : H.Safe g.contract label rest stack (H.write store var x)) :
    H.Safe g.contract label (.store var :: rest) (x :: stack) store := by
  refine ⟨nofun, fun stack' store' runs => ?_, nofun⟩
  cases runs.step
  exact later

/-- The variable of a pad is not the slot of the exception in flight. -/
theorem ne_slot {var slot : Nat} (pad : PadVariable c.module body.storage var)
    (isSlot : HasPlace body.storage .exceptionSlot slot) : var ≠ slot := by
  rintro rfl
  obtain ⟨v, there, place, -⟩ := pad.slot g.shaped.housed.homed
  obtain ⟨v', there', place'⟩ := isSlot
  cases there.symm.trans there'
  cases place.symm.trans place'

/-- Behind a pad no exception is in flight. -/
theorem behind_pad {slot var null : Nat} {rest : List Instr}
    (isSlot : HasPlace body.storage .exceptionSlot slot)
    (own : PadVariable c.module body.storage var) (isNull : IsNull body.storage null)
    (later : ∀ stack store, H.Clear c body.storage store →
      H.Safe g.contract label rest stack store)
    (stack : List V) (store : S) (harmless : H.Harmless c body.storage store) :
    H.Safe g.contract label ([.load slot, .store var, .load null, .store slot] ++ rest) stack
      store := by
  have isPrivate {var : Nat} (pad : PadVariable c.module body.storage var) : Private body var :=
    pad.isPrivate g.shaped.housed.homed g.tabled
  refine g.load_safe (g.store_safe (g.load_safe (g.store_safe (later _ _ ?_))))
  have cleared : H.slot (H.write (H.write store var (H.read store slot)) slot
      (H.read (H.write store var (H.read store slot)) null)) = H.null := by
    rw [g.unwinds.slot_write _ _ isSlot, g.unwinds.read_null _ isNull]
  refine ⟨cleared, fun outside => ⟨cleared, fun other pad => ?_⟩⟩
  rw [g.unwinds.read_write_of_ne (isPrivate pad) (g.ne_slot pad isSlot)]
  -- What the pad has taken is what was in flight.
  by_cases same : other = var
  · rw [same, g.unwinds.read_write _ _ (isPrivate own), g.unwinds.read_slot _ isSlot]
    exact (harmless outside).1
  · rw [g.unwinds.read_write_of_ne (isPrivate pad) same]
    exact (harmless outside).2 other pad

/-- A cleanup puts back what its pad has taken. -/
theorem restore_safe {slot var : Nat} {target? : Option Nat} {last : List Instr}
    (isSlot : HasPlace body.storage .exceptionSlot slot)
    (own : PadVariable c.module body.storage var)
    (unwinds : UnwindCode c function body.storage target? last)
    (ready : ∀ target, target? = some target → Takes c.module function target)
    (stack : List V) (store : S) (harmless : H.Harmless c body.storage store) :
    H.Safe g.contract label (.load var :: .store slot :: last) stack store := by
  refine g.load_safe (g.store_safe (g.unwind_safe unwinds ready _ _ fun outside => ⟨?_, ?_⟩))
  · rw [g.unwinds.slot_write _ _ isSlot]
    exact (harmless outside).2 var own
  · intro other pad
    have isPrivate := pad.isPrivate g.shaped.housed.homed g.tabled
    rw [g.unwinds.read_write_of_ne isPrivate (g.ne_slot pad isSlot)]
    exact (harmless outside).2 other pad

/-- Anchors do not touch the slot of the exception in flight. -/
theorem slot_of_control {i : Instr} (anchor : i.isAnchor = true) {outcome : Control V S}
    (control : H.control i stack store = outcome) : H.slot outcome.store = H.slot store := by
  rw [← control]
  exact g.unwinds.slot_control stack store anchor

/-- A branch on the exception in flight goes on normally only if there is none. -/
theorem fork_safe {unwind normal : Nat} {code : List Instr}
    (forks : ForkCode c function ⟨body.storage, roles⟩ unwind normal code)
    (takes : Takes c.module function unwind) (harmless : H.Harmless c body.storage store) :
    H.Safe g.contract label code (H.slot store :: stack) store := by
  have stable := H.harmless_stable c body.storage
  cases forks with
  | onTrue leads edge =>
    refine g.anchor stable (fun _ => id) rfl harmless (fun _ store' control harmless => ?_)
      fun target mem _ _ _ harmless => ?_
    · have clear : H.slot store' = H.null :=
        (g.slot_of_control rfl control).trans (g.unwinds.branchIfTrue control)
      exact g.edge_safe (H.clear_stable c body.storage) (fun _ => And.right) edge
        (fun _ clear => .inl clear.1) _ _ ⟨clear, harmless⟩
    · cases List.mem_singleton.1 mem
      exact g.enter_leads leads harmless (.inr takes)
  | onFalse plain edge =>
    refine g.anchor stable (fun _ => id) rfl harmless (fun _ _ _ harmless => ?_)
      fun target mem _ store' control harmless => ?_
    · exact g.edge_safe stable (fun _ => id) edge (fun _ _ => .inr takes) _ _ harmless
    · have clear : H.slot store' = H.null :=
        (g.slot_of_control rfl control).trans (g.unwinds.branchIfFalse control)
      cases List.mem_singleton.1 mem
      exact g.enter_source (leadingPhis?_eq_nil plain) harmless (.inl clear)

/-! ## Instructions -/

/-- A choice between handlers may be reached with an exception in flight. -/
theorem choice_safe {id : Nat} {i : Instruction} (mem : (id, i) ∈ c.module.bodyOf f)
    (asks : AsksHandlers c.module f label) {hasUnwind : Bool} {handlers : List Nat}
    {code : List Instr} (opcode : i.opcode = .catchSwitch hasUnwind)
    (operands : handlers? i.operands hasUnwind = some handlers)
    (chain : ChainCode c function ⟨body.storage, roles⟩ handlers (unwindOf? i.operands hasUnwind)
      code) (stack : List V) (store : S) (harmless : H.Harmless c body.storage store) :
    H.Safe g.contract label code stack store := by
  have padded := g.padded (id, i) mem
  simp only [unwindsToPads, opcode, operands, Option.all_some, Bool.and_eq_true,
    List.all_eq_true] at padded
  refine g.chain_safe asks chain (fun handler mem => takes_of_catchPad (padded.2 handler mem))
    (fun target unwinds => ?_) stack store harmless
  rw [unwinds, Option.all_some] at padded
  exact takes_of_unwindPad padded.1

/-- The last instruction of a block, reached with no exception in flight. -/
theorem exit_safe {id : Nat} {i : Instruction} (mem : (id, i) ∈ c.module.bodyOf f)
    (asks : ∀ hasUnwind, i.opcode = .catchSwitch hasUnwind → AsksHandlers c.module f label)
    {code : List Instr} (exits : ExitCode c function ⟨body.storage, roles⟩ i code)
    (stack : List V) (store : S) (clear : H.Clear c body.storage store) :
    H.Safe g.contract label code stack store := by
  have stable := H.clear_stable c body.storage
  have padded := g.padded (id, i) mem
  cases exits with
  | ret _ quiet hasValue =>
    exact g.behind_quiet stable quiet (g.leaving_safe stable (fun _ => And.right) rfl rfl) _ _ clear
  | unreachable =>
    exact g.anchor stable (fun _ => And.right) rfl clear
      (fun _ _ control => absurd control (g.unwinds.terminator rfl)) nofun
  | jump _ jumps => exact g.jump_safe jumps _ _ clear
  | @invoke functionType normal unwind callee slot args before last opcode operands called isSlot
      forks =>
    simp only [unwindsToPads, opcode, operands, Option.all_some] at padded
    have calls : Throwing.Calls i callee :=
      ⟨⟨functionType, .inr opcode⟩, getLast?_of_readInvoke? operands⟩
    refine g.call_safe mem calls called (fun stack store called => ?_) _ _ clear
    refine g.load_safe ?_
    rw [g.unwinds.read_slot _ isSlot]
    exact g.fork_safe forks (takes_of_unwindPad padded) called.1
  | catchSwitch opcode operands chain =>
    exact g.choice_safe mem (asks _ opcode) opcode operands chain _ _ clear.2
  | @cleanupRet pad slot before last opcode operand quiet restores isSlot unwinds =>
    simp only [unwindsToPads, opcode, operand, Option.all_some, Bool.and_eq_true, List.any_eq_true,
      beq_iff_eq] at padded
    obtain ⟨ready, ⟨_, j⟩, listed, rfl, isPad⟩ := padded
    have isInstruction := instruction?_of_mem_bodyOf listed
    obtain ⟨var, found, rfl⟩ := restores j isInstruction isPad
    have own := g.shaped.housed.padVariable isInstruction isPad found
    refine g.restore_safe isSlot own unwinds (fun target goes => ?_) _ _ clear.2
    rw [goes, Option.all_some] at ready
    exact takes_of_unwindPad ready

/-- Any other instruction, reached with no exception in flight. -/
theorem step_safe {id : Nat} {i : Instruction} (mem : (id, i) ∈ c.module.bodyOf f)
    {code rest : List Instr} (step : StepCode c body.storage id i code)
    (later : ∀ stack store, H.Clear c body.storage store →
      H.Safe g.contract label rest stack store)
    (stack : List V) (store : S) (clear : H.Clear c body.storage store) :
    H.Safe g.contract label (code ++ rest) stack store := by
  cases step with
  | quiet _ quiet => exact g.behind_quiet (H.clear_stable c body.storage) quiet later _ _ clear
  | call opcode last called =>
    rw [List.append_assoc]
    exact g.call_safe mem ⟨⟨_, .inl opcode⟩, last⟩ called (g.behind_check later) _ _ clear
  | pad isPad isSlot found isNull =>
    have own : PadVariable c.module body.storage _ :=
      g.shaped.housed.padVariable (instruction?_of_mem_bodyOf mem) isPad found
    exact g.behind_pad isSlot own isNull later _ _ clear.2

/-! ## Blocks -/

/-- All that follows the phis of a block keeps the contract, if the block is fit for an exception
that may be in flight. -/
theorem body_safe {instrs : List (Nat × Instruction)} {code : List Instr}
    (h : BodyCode c function ⟨body.storage, roles⟩ instrs code)
    (listed : ∀ p ∈ instrs, p ∈ c.module.bodyOf f)
    (asks : ∀ p hasUnwind, instrs.getLast? = some p → p.2.opcode = .catchSwitch hasUnwind →
      AsksHandlers c.module f label)
    (stack : List V) (store : S) (clear : H.Clear c body.storage store) :
    H.Safe g.contract label code stack store := by
  induction h generalizing stack store with
  | exit exits =>
    exact g.exit_safe (listed _ List.mem_cons_self) (fun _ => asks _ _ rfl) exits _ _ clear
  | @step id i rest here more goesOn step later ih =>
    rw [List.forall_mem_cons] at listed
    refine g.step_safe listed.1 step (ih listed.2 fun p hasUnwind last => ?_) _ _ clear
    refine asks p hasUnwind ?_
    rw [List.getLast?_cons, last]
    rfl

/-- A block that begins by dealing with the exception in flight. -/
theorem body_safe_of_takes {p : Nat × Instruction} {rest : List (Nat × Instruction)}
    {code : List Instr} (h : BodyCode c function ⟨body.storage, roles⟩ (p :: rest) code)
    (takes : takesException p.2.opcode = true)
    (listed : ∀ q ∈ p :: rest, q ∈ c.module.bodyOf f)
    (asks : ∀ q hasUnwind, (p :: rest).getLast? = some q → q.2.opcode = .catchSwitch hasUnwind →
      AsksHandlers c.module f label)
    (stack : List V) (store : S) (harmless : H.Harmless c body.storage store) :
    H.Safe g.contract label code stack store := by
  rw [List.forall_mem_cons] at listed
  cases h with
  | exit exits =>
    cases exits with
    | catchSwitch opcode operands chain =>
      exact g.choice_safe listed.1 (asks _ _ rfl opcode) opcode operands chain _ _ harmless
    | ret opcode | unreachable opcode | invoke opcode | cleanupRet opcode =>
      rw [opcode] at takes
      cases takes
    | jump opcode => exact absurd takes (not_takes_of_isBranch opcode)
  | @step id i _ here more goesOn step later =>
    cases step with
    | pad isPad isSlot found isNull =>
      have own : PadVariable c.module body.storage _ :=
        g.shaped.housed.padVariable (instruction?_of_mem_bodyOf listed.1) isPad found
      refine g.behind_pad isSlot own isNull (g.body_safe later listed.2 fun q hasUnwind last => ?_)
        _ _ harmless
      refine asks q hasUnwind ?_
      rw [List.getLast?_cons, last]
      rfl
    | quiet notPad => exact absurd takes (not_takes_of_goesOn notPad goesOn)
    | call opcode =>
      rw [opcode] at takes
      cases takes

/-- A source block that ends in a choice between handlers asks about them. -/
theorem asks_of_last {block : Nat} {instrs : List (Nat × Instruction)}
    (role : roles[label]? = some (.source block))
    (there : c.module.blockInstructions? function block = some instrs) {p : Nat × Instruction}
    (last : instrs.getLast? = some p) {hasUnwind : Bool}
    (opcode : p.2.opcode = .catchSwitch hasUnwind) : AsksHandlers c.module f label := by
  by_cases inside : label < f.blocks.size
  · have source := g.shaped.role_source inside
    cases source.symm.trans role
    rw [Module.blockInstructions?, g.found, Option.bind_some, Option.map_eq_some_iff] at there
    obtain ⟨b, there, rfl⟩ := there
    exact .inr ⟨b, p, hasUnwind, there, last, opcode⟩
  · exact .inl (Nat.le_of_not_lt inside)

/-- Phis and the start of the frame keep what is stable. -/
theorem opening_safe {P : S → Prop} (stable : H.Stable c.module body.storage P)
    (harmless : ∀ store, P store → H.Harmless c body.storage store) (block : Nat) {phis : List Nat}
    {front rest : List Instr} (takes : TakeOverCode c body.storage phis front)
    (later : ∀ stack store, P store → H.Safe g.contract label rest stack store)
    (stack : List V) (store : S) (holds : P store) :
    H.Safe g.contract label (entering c block ++ (front ++ rest)) stack store := by
  have phis := g.behind_takeOver stable harmless takes later
  rw [entering]
  split
  · exact g.behind_frame stable (.inl rfl) phis stack store holds
  · exact phis stack store holds

/-- The block of a source block keeps the contract. -/
theorem source_safe {block : Nat} {code : List Instr} (role : roles[label]? = some (.source block))
    (shape : BlockCode c function ⟨body.storage, roles⟩ (.source block) code) (stack : List V)
    (store : S) (harmless : H.Harmless c body.storage store)
    (ready : H.slot store = H.null ∨ Takes c.module function block) :
    H.Safe g.contract label code stack store := by
  obtain ⟨phis, instrs, front, rest, leading, there, takesOver, shape, rfl⟩ := shape
  have listed : ∀ p ∈ instrs.drop phis.length, p ∈ c.module.bodyOf f := fun p mem =>
    mem_bodyOf_of_blockInstructions? g.found there p (List.mem_of_mem_drop mem)
  have asks (p : Nat × Instruction) (hasUnwind : Bool)
      (last : (instrs.drop phis.length).getLast? = some p)
      (opcode : p.2.opcode = .catchSwitch hasUnwind) : AsksHandlers c.module f label := by
    rw [List.getLast?_drop] at last
    split at last
    · cases last
    · exact g.asks_of_last role there last opcode
  rcases ready with clear | takes
  · exact g.opening_safe (H.clear_stable c body.storage) (fun _ => And.right) block takesOver
      (g.body_safe shape listed asks) _ _ ⟨clear, harmless⟩
  · obtain ⟨p, others, first, isTaker⟩ := takes.first leading there
    rw [first] at shape listed asks
    exact g.opening_safe (H.harmless_stable c body.storage) (fun _ => id) block takesOver
      (g.body_safe_of_takes shape isTaker listed asks) _ _ harmless

/-- Every block keeps to the contract. -/
theorem block_safe {b : Code.Block} (there : body.blocks[label]? = some b) (stack : List V)
    (store : S) (enters : g.contract.enter label store) :
    H.Safe g.contract label b.code stack store := by
  obtain ⟨harmless, ready⟩ := enters
  obtain ⟨inside, -⟩ := List.getElem?_eq_some_iff.1 there
  rw [← g.shaped.covered] at inside
  have known := List.getElem?_eq_getElem inside
  have shape := g.shaped.code there known
  have ready := ready _ known
  generalize roles[label] = role at known shape ready
  cases role with
  | source block => exact g.source_safe known shape stack store harmless ready
  | detour target =>
    rcases ready with clear | takes
    · exact g.edge_safe (H.clear_stable c body.storage) (fun _ => And.right) shape
        (fun _ clear => .inl clear.1) _ _ ⟨clear, harmless⟩
    · exact g.edge_safe (H.harmless_stable c body.storage) (fun _ => id) shape
        (fun _ _ => .inr takes) _ _ harmless
  | retry handlers unwind =>
    have made : f.blocks.size ≤ label := by
      refine Nat.le_of_not_lt fun inside => ?_
      cases (g.shaped.role_source inside).symm.trans known
    exact g.chain_safe (.inl made) shape ready.1 ready.2 _ _ harmless

/-- Runs start as the contract asks, if there is no exception anywhere. -/
theorem enter_start (defined : f.isDeclaration = false) {start : S} (clear : H.slot start = H.null)
    (zeroed : ∀ var v, body.storage.get? var = some v → v.place = .slot →
      H.read start var = H.zero v.ty) : g.contract.enter 0 start := by
  refine ⟨fun _ => ⟨clear, fun var pad => ?_⟩, fun role known => ?_⟩
  · obtain ⟨v, there, place, ty⟩ := pad.slot g.shaped.housed.homed
    rw [zeroed var v there place, ty]
    rfl
  · have some : 0 < f.blocks.size := by
      refine Nat.pos_of_ne_zero fun none => ?_
      rw [Function.isDeclaration, Array.isEmpty_iff_size_eq_zero.2 none] at defined
      cases defined
    cases (g.shaped.role_source some).symm.trans known
    exact .inl clear

end Guarded

end Stackwise.Lowering
