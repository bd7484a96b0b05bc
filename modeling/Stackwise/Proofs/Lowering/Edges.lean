import Stackwise.Proofs.Lowering.Shaped

/-!
# Operands for phis match on every edge

A block of a lowered body takes over operands in pairs of `phiDequeue` and `store`, at its very
start and nowhere else.  What it hands over on an edge has the types that the target takes over, in
reverse order, so the last operand pushed is the first one taken.  Conditional jumps hand over
nothing and only lead to blocks that take over nothing.  Hence a block of a balanced body is always
entered with the same number of values on the stack.

All of this is read off the shapes of blocks.  What has to be known about the targets of jumps is
`Agrees`; it holds since a target that stands for a source block takes over the operands for the
phis of that block, and every other target takes over nothing.
-/

namespace Stackwise.Lowering

open Code (Entered Instr Passes Storage TakesOver handed opening opening_eq_nil
  sinceCheckpoint taken)
open Source (Function Instruction Module)

variable {c : Context} {function : Nat} {w : World} {Takes : Nat → List Code.Ty → Prop}

/-! ## What the targets of jumps take over -/

/-- The stack types of phis. -/
def PhiTypes (c : Context) (phis : List Nat) (types : List Code.Ty) : Prop :=
  phis.map (phiType? c) = types.map some

/-- What is assumed about the operands that blocks take over. -/
structure Agrees (c : Context) (function : Nat) (w : World) (Takes : Nat → List Code.Ty → Prop) :
    Prop where
  edge : ∀ {target phis types}, c.module.leadingPhis? function target = some phis →
    PhiTypes c phis types → Takes target types.reverse
  detour : ∀ {label target}, w.roles[label]? = some (.detour target) → Takes label []
  retry : ∀ {label handlers unwind}, w.roles[label]? = some (.retry handlers unwind) →
    Takes label []

/-- Nothing has to be known about targets to see what a block itself takes over. -/
theorem agrees_true : Agrees c function w fun _ _ => True :=
  ⟨fun _ _ => trivial, fun _ => trivial, fun _ => trivial⟩

/-- A block that does not start with a phi has no leading phis. -/
theorem leadingPhis?_eq_nil {m : Module} {target : Nat}
    (h : m.startsWithPhi? function target = some false) :
    m.leadingPhis? function target = some [] := by
  obtain ⟨phis, leading, none⟩ := Option.map_eq_some_iff.1 h
  have empty : phis = [] := by simpa using none
  rw [leading, empty]

/-- Where a jump goes over a detour or to a block without phis, nothing is taken over. -/
theorem Agrees.leads (agrees : Agrees c function w Takes) {label target : Nat}
    (h : LeadsTo c function w label target) : Takes label [] := by
  rcases h with ⟨rfl, plain⟩ | role
  · have none : PhiTypes c [] [] := rfl
    exact agrees.edge (leadingPhis?_eq_nil plain) none
  · exact agrees.detour role

/-- Code that passes and hands over nothing. -/
def Silent (Takes : Nat → List Code.Ty → Prop) (code : List Instr) : Prop :=
  Passes Takes [] code ∧ handed code = []

/-- Silent code in front hands over nothing. -/
theorem Silent.passes {front rest : List Instr} (h : Silent Takes front)
    (later : Passes Takes [] rest) : Passes Takes [] (front ++ rest) := by
  rw [Code.passes_append, h.2, List.append_nil]
  exact ⟨h.1, later⟩

/-- Silent code can be joined. -/
theorem Silent.append {front rest : List Instr} (h : Silent Takes front) (h' : Silent Takes rest) :
    Silent Takes (front ++ rest) :=
  ⟨h.passes h'.1, by rw [Code.handed_append, h.2, h'.2]; rfl⟩

/-- Code without anchors is silent. -/
theorem silent_of_not_anchor {code : List Instr} (plain : ∀ i ∈ code, i.isAnchor = false) :
    Silent Takes code :=
  ⟨Code.passes_of_not_anchor plain, Code.handed_of_not_anchor plain⟩

/-- Code that only computes is silent. -/
theorem AllQuiet.silent {s : Storage} {code : List Instr} (h : AllQuiet c.module s code) :
    Silent Takes code :=
  silent_of_not_anchor fun i mem => (h i mem).not_anchor

/-- A single instruction that hands over nothing and takes over nothing. -/
theorem silent_singleton {i : Instr} (taken : i.taken? = none) (handed : i.handed? = none)
    (targets : ∀ label ∈ i.targets, Takes label []) : Silent Takes [i] :=
  ⟨⟨taken, fun _ => rfl, targets, trivial⟩, by rw [Code.handed_cons, handed]; rfl⟩

/-! ## Edges and jumps -/

/-- Before an edge, one operand is handed over for each phi, of its type. -/
theorem HandOverCode.passes {s : Storage} {phis : List Nat} {code : List Instr}
    (h : HandOverCode c s phis code) (Takes : Nat → List Code.Ty → Prop) :
    PhiTypes c phis (handed code) ∧ ∀ operands, Passes Takes operands code := by
  induction h with
  | nil => exact ⟨rfl, fun _ => trivial⟩
  | @cons phi phis ty pushed rest quiet typed _ ih =>
    have plain := Code.handed_of_not_anchor fun i mem => (quiet i mem).not_anchor
    constructor
    · rw [Code.handed_append, plain, Code.handed_cons]
      simp only [PhiTypes, List.map_cons, typed, Instr.handed?, Option.toList_some,
        List.nil_append, List.singleton_append]
      rw [ih.1]
    · intro operands
      rw [Code.passes_append]
      refine ⟨Code.passes_of_not_anchor fun i mem => (quiet i mem).not_anchor, rfl, ?_,
        List.forall_mem_nil _, ih.2 _⟩
      rintro ⟨⟩

/-- An edge hands over what its target takes. -/
theorem EdgeCode.passes (agrees : Agrees c function w Takes) {s : Storage} {target : Nat}
    {code : List Instr} (h : EdgeCode c function s target code) : Passes Takes [] code := by
  obtain ⟨phis, front, leading, hands, rfl⟩ := h
  obtain ⟨typed, passes⟩ := hands.passes Takes
  rw [Code.passes_append]
  refine ⟨passes [], rfl, nofun, ?_, trivial⟩
  exact List.forall_mem_singleton.2 (agrees.edge leading typed)

/-- A conditional jump hands over nothing, as its targets take nothing. -/
theorem silent_of_conditional (agrees : Agrees c function w Takes) {i : Instr}
    (conditional : i.isConditional = true)
    (leads : ∀ label ∈ i.targets, ∃ block, LeadsTo c function w label block) :
    Silent Takes [i] := by
  obtain ⟨none, nothing⟩ :=
    Instr.unmarked_of_isCheckpoint (Instr.isCheckpoint_of_isConditional conditional)
  refine silent_singleton none nothing fun label mem => ?_
  obtain ⟨block, leads⟩ := leads label mem
  exact agrees.leads leads

/-- The jumps at the end of a block hand over what their targets take. -/
theorem JumpCode.passes (agrees : Agrees c function w Takes) {code : List Instr}
    (h : JumpCode c function w code) : Passes Takes [] code := by
  obtain ⟨front, target, last, rfl, turns, edge⟩ := h
  suffices Silent Takes front from this.passes (edge.passes agrees)
  clear edge
  induction front with
  | nil => exact silent_of_not_anchor (List.forall_mem_nil _)
  | cons i rest ih =>
    obtain ⟨here, later⟩ := List.forall_mem_cons.1 turns
    rw [← List.singleton_append]
    refine Silent.append ?_ (ih later)
    rcases here with quiet | ⟨conditional, leads⟩
    · exact silent_of_not_anchor (List.forall_mem_singleton.2 quiet.not_anchor)
    · exact silent_of_conditional agrees conditional leads

/-- A return hands over nothing to a block. -/
theorem leaving_passes {i : Instr} (silent : Silent Takes [i]) : Passes Takes [] (leaving c i) := by
  rw [leaving]
  split
  · exact Silent.passes (silent_of_not_anchor (List.forall_mem_singleton.2 rfl)) silent.1
  · exact silent.1

/-- Unwinding hands over what the unwind destination takes. -/
theorem UnwindCode.passes (agrees : Agrees c function w Takes) {s : Storage} {target? : Option Nat}
    {code : List Instr} (h : UnwindCode c function s target? code) : Passes Takes [] code := by
  cases target? with
  | some target => exact EdgeCode.passes agrees h
  | none =>
    obtain rfl : code = leaving c (.retDefault c.returns) := h
    exact leaving_passes (silent_singleton rfl rfl (List.forall_mem_nil _))

theorem ChainCode.passes (agrees : Agrees c function w Takes) {handlers : List Nat}
    {unwind : Option Nat} {code : List Instr} (h : ChainCode c function w handlers unwind code) :
    Passes Takes [] code := by
  cases handlers with
  | nil => exact UnwindCode.passes agrees h
  | cons handler rest =>
    obtain ⟨f, routine, before, next, last, -, -, quiet, role, edge, rfl⟩ := h
    refine quiet.silent.passes ?_
    rw [← List.singleton_append]
    refine Silent.passes (silent_of_not_anchor (List.forall_mem_singleton.2 rfl)) ?_
    rw [← List.singleton_append]
    refine Silent.passes (silent_singleton rfl rfl ?_) (edge.passes agrees)
    exact List.forall_mem_singleton.2 (agrees.retry role)

/-! ## Instructions and blocks -/

/-- The code of a call has no anchor. -/
theorem CallCode.not_anchor {s : Storage} {callee : Nat} {code : List Instr}
    (h : CallCode c s callee code) : ∀ i ∈ code, i.isAnchor = false := by
  obtain ⟨before, call, after, quiet, calls, quiet', rfl⟩ := h
  refine List.forall_mem_append.2 ⟨fun i mem => (quiet i mem).not_anchor,
    List.forall_mem_cons.2 ⟨?_, fun i mem => (quiet' i mem).not_anchor⟩⟩
  cases calls with
  | direct | indirect => rfl

/-- The code of an instruction within a block is silent: a check for an exception may return, but
goes to no block. -/
theorem StepCode.silent {s : Storage} {id : Nat} {i : Instruction} {code : List Instr}
    (h : StepCode c s id i code) : Silent Takes code := by
  cases h with
  | quiet _ quiet => exact quiet.silent
  | @call functionType callee code opcode last called =>
    refine Silent.append (silent_of_not_anchor called.not_anchor) ?_
    rw [checkOf]
    split
    · exact silent_singleton rfl rfl (List.forall_mem_nil _)
    · exact silent_of_not_anchor (List.forall_mem_nil _)
  | pad _ _ _ _ => exact silent_of_not_anchor (by simp [Instr.isAnchor])

/-- The end of a block hands over what its targets take, whichever terminator it is. -/
theorem ExitCode.passes (agrees : Agrees c function w Takes) {i : Instruction} {code : List Instr}
    (h : ExitCode c function w i code) : Passes Takes [] code := by
  cases h with
  | @ret pushed opcode quiet hasValue =>
    exact quiet.silent.passes (leaving_passes (silent_singleton rfl rfl (List.forall_mem_nil _)))
  | unreachable _ => exact (silent_singleton rfl rfl (List.forall_mem_nil _)).1
  | jump _ jumps => exact jumps.passes agrees
  | @invoke functionType normal unwind callee slot args before last opcode operands called isSlot
      forks =>
    refine Silent.passes (silent_of_not_anchor called.not_anchor) ?_
    rw [← List.singleton_append]
    exact Silent.passes (silent_of_not_anchor (List.forall_mem_singleton.2 rfl))
      (forks.jumps.passes agrees)
  | catchSwitch _ _ chain => exact chain.passes agrees
  | @cleanupRet pad slot before last opcode operand quiet restores isSlot unwinds =>
    refine quiet.silent.passes ?_
    rw [← List.singleton_append]
    exact Silent.passes (silent_of_not_anchor (List.forall_mem_singleton.2 rfl))
      (unwinds.passes agrees)

theorem BodyCode.passes (agrees : Agrees c function w Takes) {instrs : List (Nat × Instruction)}
    {code : List Instr} (h : BodyCode c function w instrs code) : Passes Takes [] code := by
  induction h with
  | exit exits => exact exits.passes agrees
  | step goesOn step _ ih => exact step.silent.passes ih

/-- Taking operands over is all that happens at the start of a block. -/
theorem TakeOverCode.takes {s : Storage} {phis : List Nat} {code : List Instr}
    (h : TakeOverCode c s phis code) : PhiTypes c phis (taken code) ∧
      (∀ i ∈ Code.anchors code, i.taken?.isSome = true) ∧
      ∀ rest, opening (code ++ rest) = taken code ++ opening rest := by
  induction h with
  | nil => exact ⟨rfl, List.forall_mem_nil _, fun _ => rfl⟩
  | @cons phi phis ty var rest typed writable _ ih =>
    obtain ⟨types, onlyTakes, opens⟩ := ih
    refine ⟨?_, ?_, fun rest' => ?_⟩
    · rw [PhiTypes, List.map_cons, typed, types]
      rfl
    · exact List.forall_mem_cons.2 ⟨rfl, onlyTakes⟩
    · exact congrArg (ty :: ·) (opens rest')

/-- No block takes anything over but what it opens with: the operands for the phis of its source
block, last phi first. -/
theorem BlockCode.taken_source {block : Nat} {code : List Instr}
    (h : BlockCode c function w (.source block) code)
    (entry : c.module.startsWithPhi? function 0 = some false) :
    ∃ phis types, c.module.leadingPhis? function block = some phis ∧ PhiTypes c phis types ∧
      taken code = types.reverse ∧ opening code = types.reverse := by
  obtain ⟨phis, instrs, front, rest, leading, -, takes, body, rfl⟩ := h
  obtain ⟨types, -, opens⟩ := takes.takes
  have none := (body.passes agrees_true).taken_eq_nil
  refine ⟨phis, (taken front).reverse, leading, ?_, ?_, ?_⟩
  · rw [PhiTypes, List.map_reverse, ← types, List.map_reverse, List.reverse_reverse]
  · rw [List.reverse_reverse, Code.taken_append, Code.taken_append, none, List.append_nil, entering]
    split <;> rfl
  · rw [List.reverse_reverse, entering]
    split
    · -- The first block has no phis, so there is nothing to take over behind the frame's start.
      rename_i first
      obtain rfl : block = 0 := by simpa using (Bool.and_eq_true_iff.1 first).1
      cases leading.symm.trans (leadingPhis?_eq_nil entry)
      cases takes
      exact opening_eq_nil (by rw [Code.taken_append]; exact none)
    · rw [List.nil_append, opens, opening_eq_nil none, List.append_nil]

/-- A block that was made on the way takes nothing. -/
theorem BlockCode.taken_made {role : Role} {code : List Instr}
    (h : BlockCode c function w role code)
    (made : ∀ block, role ≠ .source block) : taken code = [] := by
  cases role with
  | source block => exact absurd rfl (made block)
  | detour target => exact (EdgeCode.passes (agrees_true (w := w)) h).taken_eq_nil
  | retry handlers unwind => exact (ChainCode.passes agrees_true h).taken_eq_nil

/-- A lowered block hands over what its targets take, whatever it takes itself. -/
theorem BlockCode.hands (agrees : Agrees c function w Takes) {role : Role} {code : List Instr}
    (h : BlockCode c function w role code) : Code.Hands Takes code := by
  have made (passes : Passes Takes [] code) : Code.Hands Takes code :=
    ⟨[], Code.anchors code, rfl, List.forall_mem_nil _, Code.passes_anchors.2 passes⟩
  cases role with
  | source block =>
    obtain ⟨phis, instrs, front, rest, -, -, takes, body, rfl⟩ := h
    rw [← List.append_assoc]
    refine (body.passes agrees).hands ?_
    obtain ⟨-, opens, -⟩ := takes.takes
    rw [Code.anchors_append, entering]
    split
    · exact opens
    · exact opens
  | detour target => exact made (EdgeCode.passes agrees h)
  | retry handlers unwind => exact made (ChainCode.passes agrees h)

/-! ## Bodies -/

section

variable {f : Function} {body : Code.Body} {roles : List Role}

/-- The first blocks of a lowered body are those of the source. -/
theorem Shaped.role_source (shaped : Shaped c function f body roles) {block : Nat}
    (inside : block < f.blocks.size) : roles[block]? = some (.source block) := by
  obtain ⟨made, same⟩ := shaped.sources
  rw [← same, List.getElem?_append_left (by simpa using inside), List.getElem?_map,
    List.getElem?_range inside]
  rfl

/-- A block with a role has the code that the role asks for. -/
theorem Shaped.block_of_role (shaped : Shaped c function f body roles) {label : Nat} {role : Role}
    (known : roles[label]? = some role) : ∃ b, body.blocks[label]? = some b ∧
      BlockCode c function ⟨body.storage, roles⟩ role b.code := by
  obtain ⟨inside, -⟩ := List.getElem?_eq_some_iff.1 known
  rw [shaped.covered] at inside
  have there := List.getElem?_eq_getElem inside
  exact ⟨_, there, shaped.code there known⟩

/-- Every block has a role. -/
theorem Shaped.role_of_mem (shaped : Shaped c function f body roles) {b : Code.Block}
    (mem : b ∈ body.blocks) : ∃ role, BlockCode c function ⟨body.storage, roles⟩ role b.code := by
  obtain ⟨label, there⟩ := List.mem_iff_getElem?.1 mem
  obtain ⟨inside, -⟩ := List.getElem?_eq_some_iff.1 there
  rw [← shaped.covered] at inside
  exact ⟨_, shaped.code there (List.getElem?_eq_getElem inside)⟩

theorem Shaped.label_eq (shaped : Shaped c function f body roles) {label : Nat} {b : Code.Block}
    (there : body.blocks[label]? = some b) : b.label = label := by
  obtain ⟨inside, -⟩ := List.getElem?_eq_some_iff.1 there
  have same := congrArg (·[label]?) shaped.labels
  simp only [List.getElem?_map, there, Option.map_some, List.getElem?_range inside] at same
  exact Option.some.inj same

variable (found : c.module.function? function = some f)
  (entry : c.module.startsWithPhi? function 0 = some false)

include found entry

/-- The blocks of the source take over what their phis are, and those made on the way take nothing.
-/
theorem Shaped.agrees (shaped : Shaped c function f body roles) :
    Agrees c function ⟨body.storage, roles⟩ (TakesOver body.blocks) := by
  have made {label : Nat} {role : Role} (known : roles[label]? = some role)
      (made : ∀ block, role ≠ .source block) : TakesOver body.blocks label [] := by
    obtain ⟨b, there, code⟩ := shaped.block_of_role known
    rw [TakesOver, there, Option.map_some, code.taken_made made]
  refine ⟨fun {target phis types} leading typed => ?_, fun role => made role nofun,
    fun role => made role nofun⟩
  -- The target stands for a source block, whose phis are these.
  have role := shaped.role_source (lt_of_leadingPhis? found leading)
  obtain ⟨b, there, code⟩ := shaped.block_of_role role
  obtain ⟨phis', types', leading', typed', takes, -⟩ := code.taken_source entry
  cases leading.symm.trans leading'
  have same : types = types' :=
    (List.map_inj_right fun _ _ => Option.some.inj).1 (typed.symm.trans typed')
  rw [TakesOver, there, Option.map_some, takes, same]

/-- In a lowered body, every block hands over what its targets take. -/
theorem Shaped.hands (shaped : Shaped c function f body roles) {b : Code.Block}
    (mem : b ∈ body.blocks) : Code.Hands (TakesOver body.blocks) b.code := by
  obtain ⟨role, code⟩ := shaped.role_of_mem mem
  exact code.hands (shaped.agrees found entry)

omit found in
/-- A block takes over just the operands that its opening stores. -/
theorem Shaped.taken_eq_opening (shaped : Shaped c function f body roles) {b : Code.Block}
    (mem : b ∈ body.blocks) : taken b.code = opening b.code := by
  obtain ⟨role, code⟩ := shaped.role_of_mem mem
  cases role with
  | source block =>
    obtain ⟨phis, types, -, -, takes, opens⟩ := code.taken_source entry
    rw [takes, opens]
  | detour | retry =>
    have none := code.taken_made nofun
    rw [none, opening_eq_nil none]

/-- The first block takes nothing. -/
theorem Shaped.first_takes (shaped : Shaped c function f body roles) :
    ∃ b, body.blocks[0]? = some b ∧ taken b.code = [] := by
  have none := leadingPhis?_eq_nil entry
  obtain ⟨b, there, code⟩ :=
    shaped.block_of_role (shaped.role_source (lt_of_leadingPhis? found none))
  obtain ⟨phis, types, leading, typed, takes, -⟩ := code.taken_source entry
  cases none.symm.trans leading
  have empty : types = [] := List.map_eq_nil_iff.1 typed.symm
  exact ⟨b, there, by rw [takes, empty]; rfl⟩

/-- A lowered body that is balanced can be followed on the physical stack. -/
theorem Shaped.flows (shaped : Shaped c function f body roles)
    (verified : Code.verify body.name body.blocks = .ok ()) : Code.Flows body.blocks where
  labels := shaped.labels
  accepted := Code.verify_eq_ok_iff.1 verified
  opens _ mem := Code.opens_of_opening (shaped.taken_eq_opening entry mem)
  hands _ mem := shaped.hands found entry mem
  first := shaped.first_takes found entry

/-- Where control passes to a block, that block opens with what it is handed. -/
theorem Shaped.opens_target (shaped : Shaped c function f body roles) {b : Code.Block}
    (mem : b ∈ body.blocks) {front rest : List Instr} {i : Instr}
    (same : b.code = front ++ i :: rest) {label : Nat} (goes : label ∈ i.targets) :
    ∃ target, body.blocks[label]? = some target ∧ target.label = label ∧
      handed front = (opening target.code).reverse := by
  obtain ⟨none, -⟩ := Instr.jump_of_mem_targets goes
  obtain ⟨-, -, targets⟩ :=
    (shaped.hands found entry mem).split same (Instr.isAnchor_of_mem_targets goes) none
  obtain ⟨target, there, takes⟩ := Option.map_eq_some_iff.1 (targets label goes)
  refine ⟨target, there, shaped.label_eq there, ?_⟩
  rw [← shaped.taken_eq_opening entry (List.mem_of_getElem? there), takes, List.reverse_reverse]

end

/-- Operands for phis match on every edge of a lowered body.  All takeovers stand in the pairs that
blocks open with.  At a `branch`, what has been handed over since the last conditional jump, call
check or start of the block is what the target opens with, in reverse order.  A conditional jump
has nothing handed over in front of it in its block and leads to blocks that open with nothing.  So
in a balanced body every block is entered with one depth of the stack, on whatever way from the
first block. -/
theorem phi_operands_match {conventions : Conventions} {m : Module} {throwing : Throwing}
    {function : Nat} {f : Function} {body : Code.Body} (built : m.Built)
    (found : m.function? function = some f)
    (ends : ∀ b ∈ f.blocks, endsAtTerminator (m.instructionsOf b) = true)
    (entry : m.startsWithPhi? function 0 = some false)
    (lowered : (lowerFunction conventions m throwing function).1 = .ok body) :
    (∀ b ∈ body.blocks, taken b.code = opening b.code) ∧
    (∀ b ∈ body.blocks, ∀ front label rest, b.code = front ++ .branch label :: rest →
      ∃ target, body.blocks[label]? = some target ∧ target.label = label ∧
        handed (sinceCheckpoint front) = (opening target.code).reverse) ∧
    (∀ b ∈ body.blocks, ∀ front i rest, b.code = front ++ i :: rest → i.isConditional = true →
      handed front = [] ∧ ∀ label ∈ i.targets, ∃ target, body.blocks[label]? = some target ∧
        target.label = label ∧ opening target.code = []) ∧
    (Code.verify body.name body.blocks = .ok () → ∀ label depth b,
      Entered body.blocks label depth → body.blocks[label]? = some b →
        depth = (opening b.code).length) := by
  obtain ⟨returns, homes, roles, shaped⟩ := lowering_shapes built found ends lowered
  replace entry : (functionContext conventions m throwing function f returns
      homes).module.startsWithPhi? function 0 = some false := entry
  refine ⟨fun b mem => shaped.taken_eq_opening entry mem, ?_, ?_, ?_⟩
  · intro b mem front label rest same
    rw [(shaped.hands found entry mem).handed_sinceCheckpoint same]
    exact shaped.opens_target found entry mem same (List.mem_singleton_self label)
  · intro b mem front i rest same conditional
    have check : i.isCheckpoint = true := Instr.isCheckpoint_of_isConditional conditional
    obtain ⟨none, -⟩ := Instr.unmarked_of_isCheckpoint check
    obtain ⟨-, empty, -⟩ := (shaped.hands found entry mem).split same
      (Instr.isAnchor_of_isCheckpoint check) none
    refine ⟨empty check, fun label goes => ?_⟩
    obtain ⟨target, there, named, opens⟩ := shaped.opens_target found entry mem same goes
    rw [empty check] at opens
    exact ⟨target, there, named, List.reverse_eq_nil_iff.1 opens.symm⟩
  · intro verified label depth b entered there
    rw [← shaped.taken_eq_opening entry (List.mem_of_getElem? there)]
    exact (shaped.flows found entry verified).depth_of_entered entered there

/-- In the counting loop, the head of the loop and the block behind it take one number each. -/
theorem phi_operands_match_counting : ∃ body,
    (lowerFunction .natural counting (Throwing.analyze .natural counting).1 1).1 = .ok body ∧
    body.blocks.map (opening ·.code) = [[], [.int32], [.int32], []] ∧
    (∀ b ∈ body.blocks, taken b.code = opening b.code) ∧
    ∀ depth b, Entered body.blocks 2 depth → body.blocks[2]? = some b →
      depth = (opening b.code).length := by
  have found : counting.function? 1 = some count := (Option.some_get _).symm
  have opened : ((lowerFunction .natural counting
      (Throwing.analyze .natural counting).1 1).1.map fun body =>
        (body.blocks.map (opening ·.code), (Code.verify body.name body.blocks).toOption)).toOption =
      some ([[], [.int32], [.int32], []], some ()) := by
    decide +kernel
  cases lowered : (lowerFunction .natural counting (Throwing.analyze .natural counting).1 1).1 with
  | error fault =>
    rw [lowered] at opened
    cases opened
  | ok body =>
    rw [lowered] at opened
    obtain ⟨opens, verified⟩ := Prod.mk.inj (Option.some.inj opened)
    have verified : Code.verify body.name body.blocks = .ok () := by
      cases checked : Code.verify body.name body.blocks with
      | error fault =>
        rw [checked] at verified
        cases verified
      | ok _ => rfl
    have all := phi_operands_match ⟨_, countingSteps, rfl⟩ found (by decide +kernel)
      (by decide +kernel) lowered
    exact ⟨body, rfl, opens, all.1, fun depth b => all.2.2.2 verified 2 depth b⟩

/-- A module with a function that calls another one in a loop.  The call is declared to have no
result, although its callee returns one. -/
def spinningSteps : List Source.Step :=
  [.intern .void, .intern (.int 32), .intern (.function 1 [] false), .intern (.function 0 [] false),
    .addFunction "source" 2, .addFunction "spin" 3,
    .appendBlock 1 "entry", .appendBlock 1 "again",
    .positionAt 1 0, .br 1,
    .positionAt 1 1, .instruction (.call 2) 0 [.value 0], .br 1]

/-- The module that they build. -/
def spinning : Module := Source.build "spinning" spinningSteps

/-- The function that loops. -/
def spin : Function := (spinning.function? 1).get (by decide +kernel)

/-- What is called in the loop. -/
def spinCall : Instr := .call (.function 0) ⟨[], .int32⟩

/-- What the function is lowered to. -/
def spinBlocks : List Code.Block :=
  [⟨0, some 0, [.branch 1]⟩, ⟨1, some 1, [spinCall, .branch 1]⟩]

/-- Without balance the depth on entry may differ between edges: each round of the loop leaves one
more result on the stack. -/
theorem depths_differ_spinning : ∃ body,
    spinning.Built ∧ spinning.function? 1 = some spin ∧
    (∀ b ∈ spin.blocks, endsAtTerminator (spinning.instructionsOf b) = true) ∧
    spinning.startsWithPhi? 1 0 = some false ∧
    (lowerFunction .natural spinning (Throwing.analyze .natural spinning).1 1).1 = .ok body ∧
    ¬ ∀ label depth depth', Entered body.blocks label depth → Entered body.blocks label depth' →
      depth = depth' := by
  have ran : ((lowerFunction .natural spinning
      (Throwing.analyze .natural spinning).1 1).1.map (·.blocks)).toOption = some spinBlocks := by
    decide +kernel
  have entryCode : [Instr.branch 1] = [] ++ .branch 1 :: [] := rfl
  have loopCode : [spinCall, .branch 1] = [spinCall] ++ .branch 1 :: [] := rfl
  have once : Entered spinBlocks 1 (Instr.depthAfter 0 (.branch 1)) :=
    .jump .start rfl entryCode rfl (List.mem_singleton_self 1)
  have twice : Entered spinBlocks 1 (Instr.depthAfter 1 (.branch 1)) :=
    .jump once rfl loopCode rfl (List.mem_singleton_self 1)
  cases lowered : (lowerFunction .natural spinning (Throwing.analyze .natural spinning).1 1).1 with
  | error fault =>
    rw [lowered] at ran
    cases ran
  | ok body =>
    rw [lowered] at ran
    have blocks : body.blocks = spinBlocks := Option.some.inj ran
    refine ⟨body, ⟨_, spinningSteps, rfl⟩, (Option.some_get _).symm, by decide +kernel,
      by decide +kernel, rfl, fun same => ?_⟩
    rw [blocks] at same
    cases same 1 0 1 once twice

end Stackwise.Lowering
