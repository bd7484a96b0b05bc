import Stackwise.Proofs.Code.Height

/-!
# The physical stack

For the balance of a block, operands for phis are popped where they are enqueued and pushed where
they are dequeued.  Physically they stay on the stack across the jump.  `sink` follows the physical
depth; on the way through a block it is the height that balance sees, and on top of that the
operands that the block has enqueued so far and those that it has still to dequeue
(`sink_of_reaches`).

So the depth with which a block is entered is the same on all ways to it as soon as operands match
along every jump.  `Hands` says this of the code of a block: it dequeues first, and at each jump it
has enqueued what the target dequeues, in reverse order.  Only the anchors of the code matter for
it.
-/

namespace Stackwise.Code

namespace Instr

/-- The type of the operand that the instruction leaves for the next block. -/
def handed? : Instr → Option Ty
  | phiEnqueue ty => some ty
  | _ => none

/-- The type of the operand that the instruction takes over. -/
def taken? : Instr → Option Ty
  | phiDequeue ty => some ty
  | _ => none

/-- Whether the instruction jumps or goes on to the next one. -/
def isConditional : Instr → Bool
  | branchIfTrue _ | branchIfFalse _ | branchIfEqual _ | switch _ => true
  | _ => false

/-- Whether the instruction is a conditional jump or the check behind a call. -/
def isCheckpoint : Instr → Bool
  | retIfPending _ _ => true
  | i => i.isConditional

/-- How many values the instruction finds on the stack at least. -/
def needs : Instr → Nat
  | phiEnqueue _ | phiDequeue _ => 1
  | i => i.pops

/-- How many values are on the stack after the instruction.  Operands for phis stay. -/
def depthAfter (depth : Nat) : Instr → Nat
  | phiEnqueue _ | phiDequeue _ => depth
  | i => depth - i.pops + i.pushes

theorem isCheckpoint_of_isConditional {i : Instr} (h : i.isConditional = true) :
    i.isCheckpoint = true := by
  cases i <;> simp_all [isCheckpoint, isConditional]

/-- Checkpoints are anchors. -/
theorem isAnchor_of_isCheckpoint {i : Instr} (h : i.isCheckpoint = true) : i.isAnchor = true := by
  cases i <;> simp_all [isCheckpoint, isConditional, isAnchor]

/-- A checkpoint neither takes an operand over nor hands one over. -/
theorem unmarked_of_isCheckpoint {i : Instr} (h : i.isCheckpoint = true) :
    i.taken? = none ∧ i.handed? = none := by
  cases i <;> simp_all [isCheckpoint, isConditional, taken?, handed?]

/-- Only anchors jump. -/
theorem isAnchor_of_mem_targets {i : Instr} {label : Nat} (h : label ∈ i.targets) :
    i.isAnchor = true := by
  cases anchor : i.isAnchor with
  | true => rfl
  | false =>
    rw [targets_eq_nil_of_not_anchor anchor] at h
    cases h

/-- A jump is no phi marker, and leaves nothing behind. -/
theorem jump_of_mem_targets {i : Instr} {label : Nat} (h : label ∈ i.targets) :
    i.taken? = none ∧ i.handed? = none ∧ i.isBranchPoint = true ∧ i.pushes = 0 ∧
      i.needs = i.pops := by
  cases i <;> simp_all [targets, taken?, handed?, isBranchPoint, isAnchor, pushes, needs]

/-- Only anchors take operands over, and only anchors hand them over. -/
theorem taken?_of_not_anchor {i : Instr} (h : i.isAnchor = false) : i.taken? = none := by
  cases i <;> simp_all [isAnchor, taken?]

theorem handed?_of_not_anchor {i : Instr} (h : i.isAnchor = false) : i.handed? = none := by
  cases i <;> simp_all [isAnchor, handed?]

end Instr

/-! ## Markers -/

/-- The types of the operands that code takes over, in order. -/
def taken (code : List Instr) : List Ty := code.filterMap Instr.taken?

/-- The types of the operands that code leaves for the next block, in order. -/
def handed (code : List Instr) : List Ty := code.filterMap Instr.handed?

@[simp] theorem taken_append (code code' : List Instr) :
    taken (code ++ code') = taken code ++ taken code' :=
  List.filterMap_append

@[simp] theorem handed_append (code code' : List Instr) :
    handed (code ++ code') = handed code ++ handed code' :=
  List.filterMap_append

theorem taken_cons (i : Instr) (code : List Instr) :
    taken (i :: code) = i.taken?.toList ++ taken code := by
  rw [taken, List.filterMap_cons]
  cases i.taken? <;> rfl

theorem handed_cons (i : Instr) (code : List Instr) :
    handed (i :: code) = i.handed?.toList ++ handed code := by
  rw [handed, List.filterMap_cons]
  cases i.handed? <;> rfl

/-- The anchors of code. -/
def anchors (code : List Instr) : List Instr := code.filter Instr.isAnchor

theorem anchors_append (code code' : List Instr) :
    anchors (code ++ code') = anchors code ++ anchors code' :=
  List.filter_append _ _

/-- Code without anchors has none. -/
theorem anchors_eq_nil {code : List Instr} (h : ∀ i ∈ code, i.isAnchor = false) :
    anchors code = [] :=
  List.filter_eq_nil_iff.2 fun i mem => by simp [h i mem]

/-- What code takes over is up to its anchors. -/
theorem taken_anchors (code : List Instr) : taken (anchors code) = taken code := by
  induction code with
  | nil => rfl
  | cons i rest ih =>
    rw [taken_cons, ← ih, anchors, List.filter_cons]
    split
    · rw [taken_cons]
      rfl
    · rename_i plain
      rw [Instr.taken?_of_not_anchor (by simpa using plain)]
      rfl

theorem handed_anchors (code : List Instr) : handed (anchors code) = handed code := by
  induction code with
  | nil => rfl
  | cons i rest ih =>
    rw [handed_cons, ← ih, anchors, List.filter_cons]
    split
    · rw [handed_cons]
      rfl
    · rename_i plain
      rw [Instr.handed?_of_not_anchor (by simpa using plain)]
      rfl

/-! ## Depth -/

/-- The physical depth after code; none where an instruction finds too little on the stack. -/
def sink : (depth : Nat) → List Instr → Option Nat
  | depth, [] => some depth
  | depth, i :: rest => if depth < i.needs then none else sink (i.depthAfter depth) rest

/-- What an instruction does to the physical depth, if the height is enough for it. -/
theorem Instr.depthAfter_eq {i : Instr} {height : Nat} (enough : i.pops ≤ height)
    (enqueued left : Nat) :
    i.needs ≤ height + enqueued + (i.taken?.toList.length + left) ∧
      i.depthAfter (height + enqueued + (i.taken?.toList.length + left)) =
        height - i.pops + i.pushes + (enqueued + i.handed?.toList.length) + left := by
  cases i <;> simp [needs, depthAfter, taken?, handed?, pops, pushes] at enough ⊢ <;> omega

/-- The physical depth is the height, and the operands enqueued so far, and those that are still to
be dequeued. -/
theorem sink_of_reaches {count height after : Nat} {front : List Instr} (enqueued : Nat)
    (rest : List Instr) (h : Reaches count height front after) :
    sink (height + enqueued + (taken (front ++ rest)).length) front =
      some (after + (enqueued + (handed front).length) + (taken rest).length) := by
  induction front generalizing height enqueued with
  | nil =>
    rw [reaches_nil] at h
    rw [h]
    rfl
  | cons i front ih =>
    obtain ⟨between, stepped, later⟩ := reaches_cons.1 h
    obtain ⟨enough, rfl, -⟩ := Instr.step_eq_ok_iff.1 stepped
    obtain ⟨found, after⟩ := Instr.depthAfter_eq enough enqueued (taken (front ++ rest)).length
    rw [sink, List.cons_append, taken_cons, handed_cons, List.length_append, List.length_append,
      if_neg (Nat.not_lt.2 found), after, ih (enqueued + i.handed?.toList.length) later,
      Nat.add_assoc enqueued]

/-! ## Operands along jumps -/

/-- Code that takes nothing over, with the types of the operands handed over so far.  At each jump
they are what the target takes over, in reverse order, and there are none at a checkpoint. -/
def Passes (Takes : Nat → List Ty → Prop) : List Ty → List Instr → Prop
  | _, [] => True
  | operands, i :: rest =>
    i.taken? = none ∧ (i.isCheckpoint = true → operands = []) ∧
      (∀ label ∈ i.targets, Takes label operands.reverse) ∧
        Passes Takes (operands ++ i.handed?.toList) rest

/-- Code that first takes operands over, and then hands over what its jumps ask for. -/
def Hands (Takes : Nat → List Ty → Prop) (code : List Instr) : Prop :=
  ∃ first others, anchors code = first ++ others ∧ (∀ i ∈ first, i.taken?.isSome = true) ∧
    Passes Takes [] others

variable {Takes : Nat → List Ty → Prop} {operands : List Ty}

/-- Joined code passes operands on if its parts do, the second one with all that the first has
handed over. -/
theorem passes_append {code code' : List Instr} :
    Passes Takes operands (code ++ code') ↔
      Passes Takes operands code ∧ Passes Takes (operands ++ handed code) code' := by
  induction code generalizing operands with
  | nil => simp [Passes, handed]
  | cons i rest ih =>
    rw [List.cons_append, Passes, Passes, ih, handed_cons, List.append_assoc]
    simp only [and_assoc]

/-- Code without anchors can be passed with any operands. -/
theorem passes_of_not_anchor {code : List Instr} (plain : ∀ i ∈ code, i.isAnchor = false) :
    Passes Takes operands code := by
  induction code generalizing operands with
  | nil => trivial
  | cons i rest ih =>
    obtain ⟨here, later⟩ := List.forall_mem_cons.1 plain
    refine ⟨Instr.taken?_of_not_anchor here, fun check => ?_, ?_, ih later⟩
    · rw [Instr.isAnchor_of_isCheckpoint check] at here
      cases here
    · rw [Instr.targets_eq_nil_of_not_anchor here]
      exact List.forall_mem_nil _

theorem handed_of_not_anchor {code : List Instr} (plain : ∀ i ∈ code, i.isAnchor = false) :
    handed code = [] := by
  rw [← handed_anchors, anchors_eq_nil plain]
  rfl

/-- Code that passes operands on takes none over. -/
theorem Passes.taken_eq_nil {code : List Instr} (h : Passes Takes operands code) :
    taken code = [] := by
  induction code generalizing operands with
  | nil => rfl
  | cons i rest ih =>
    obtain ⟨none, -, -, later⟩ := h
    rw [taken_cons, none, ih later]
    rfl

/-- Whether operands are passed on is up to the anchors of code. -/
theorem passes_anchors {code : List Instr} :
    Passes Takes operands (anchors code) ↔ Passes Takes operands code := by
  induction code generalizing operands with
  | nil => rfl
  | cons i rest ih =>
    have alone : anchors (i :: rest) = anchors [i] ++ anchors rest := anchors_append [i] rest
    rw [alone, passes_append, ih, handed_anchors]
    conv => rhs; rw [← List.singleton_append, passes_append]
    refine and_congr_left fun _ => ?_
    cases plain : i.isAnchor with
    | true => simp [anchors, plain]
    | false =>
      have single : ∀ j ∈ [i], j.isAnchor = false := List.forall_mem_singleton.2 plain
      rw [anchors_eq_nil single]
      exact ⟨fun _ => passes_of_not_anchor single, fun _ => trivial⟩

/-- Code that starts with takeovers. -/
theorem Passes.hands {opening rest : List Instr}
    (opens : ∀ i ∈ anchors opening, i.taken?.isSome = true) (h : Passes Takes [] rest) :
    Hands Takes (opening ++ rest) :=
  ⟨anchors opening, anchors rest, anchors_append _ _, opens, passes_anchors.2 h⟩

/-- At an anchor that takes nothing over, all takeovers are done. -/
theorem Hands.split {code front rest : List Instr} {i : Instr} (h : Hands Takes code)
    (same : code = front ++ i :: rest) (anchor : i.isAnchor = true) (none : i.taken? = none) :
    taken rest = [] ∧ (i.isCheckpoint = true → handed front = []) ∧
      ∀ label ∈ i.targets, Takes label (handed front).reverse := by
  obtain ⟨first, others, parts, opens, passes⟩ := h
  have parts : first ++ others = anchors front ++ i :: anchors rest := by
    rw [← parts, same, anchors_append, anchors, anchors, anchors, List.filter_cons, if_pos anchor]
  -- The anchor is none of the takeovers, so these stand in front of it.
  obtain ⟨between, before, behind⟩ : ∃ between, anchors front = first ++ between ∧
      others = between ++ i :: anchors rest := by
    rcases List.append_eq_append_iff.1 parts with ⟨between, before, behind⟩ | ⟨more, before, behind⟩
    · exact ⟨between, before, behind⟩
    · cases more with
      | nil => exact ⟨[], by simpa using before.symm, by simpa using behind.symm⟩
      | cons j more =>
        obtain ⟨rfl, -⟩ := List.cons.inj behind
        have taken := opens i (by rw [before]; simp)
        rw [none] at taken
        cases taken
  have handedFirst : handed first = [] := by
    rw [handed, List.filterMap_eq_nil_iff]
    intro j mem
    have taken := opens j mem
    cases j with
    | phiDequeue ty => rfl
    | _ => cases taken
  have sofar : handed front = handed between := by
    rw [← handed_anchors, before, handed_append, handedFirst, List.nil_append]
  rw [behind, passes_append, List.nil_append, ← sofar] at passes
  obtain ⟨-, -, check, targets, later⟩ := passes
  exact ⟨by rw [← taken_anchors]; exact later.taken_eq_nil, check, targets⟩

/-- Before the last takeover nothing is handed over. -/
theorem Hands.handed_eq_nil {code front rest : List Instr} (h : Hands Takes code)
    (same : code = front ++ rest) (more : taken rest ≠ []) : handed front = [] := by
  rw [handed, List.filterMap_eq_nil_iff]
  intro i mem
  obtain ⟨before, after, rfl⟩ := List.append_of_mem mem
  cases i with
  | phiEnqueue ty =>
    have same : code = before ++ .phiEnqueue ty :: (after ++ rest) := by simpa using same
    obtain ⟨none, -⟩ := h.split same rfl rfl
    rw [taken_append, List.append_eq_nil_iff] at none
    exact absurd none.2 more
  | _ => rfl

/-! ## Opening pairs -/

/-- The types of the operands that code takes over and stores at its very start. -/
def opening : List Instr → List Ty
  | .phiDequeue ty :: .store _ :: rest => ty :: opening rest
  | _ => []

/-- The code behind its last conditional jump or call check. -/
def sinceCheckpoint (code : List Instr) : List Instr :=
  (code.reverse.takeWhile fun i => !i.isCheckpoint).reverse

/-- Code has no checkpoint, or its last one stands right before what follows it. -/
theorem sinceCheckpoint_cases (code : List Instr) :
    sinceCheckpoint code = code ∨ ∃ front i, i.isCheckpoint = true ∧
      code = front ++ i :: sinceCheckpoint code := by
  have parts := List.takeWhile_append_dropWhile (p := fun i : Instr => !i.isCheckpoint)
    (l := code.reverse)
  have whole : code = (code.reverse.dropWhile fun i => !i.isCheckpoint).reverse ++
      sinceCheckpoint code := by
    rw [sinceCheckpoint, ← List.reverse_append, parts, List.reverse_reverse]
  cases rest : code.reverse.dropWhile fun i => !i.isCheckpoint with
  | nil =>
    rw [rest] at whole
    exact .inl whole.symm
  | cons i before =>
    have check := List.head?_dropWhile_not (fun i : Instr => !i.isCheckpoint) code.reverse
    rw [rest] at whole check
    exact .inr ⟨before.reverse, i, by simpa using check, by simpa using whole⟩

/-- What is handed over at a jump is handed over behind the last checkpoint. -/
theorem Hands.handed_sinceCheckpoint {code front rest : List Instr} {i : Instr}
    (h : Hands Takes code) (same : code = front ++ i :: rest) :
    handed (sinceCheckpoint front) = handed front := by
  rcases sinceCheckpoint_cases front with all | ⟨before, check, isCheckpoint, parts⟩
  · rw [all]
  · generalize sinceCheckpoint front = since at parts ⊢
    subst parts
    obtain ⟨none, nothing⟩ := Instr.unmarked_of_isCheckpoint isCheckpoint
    have whole : code = before ++ check :: (since ++ i :: rest) := by simpa using same
    obtain ⟨-, empty, -⟩ := h.split whole (Instr.isAnchor_of_isCheckpoint isCheckpoint) none
    rw [handed_append, handed_cons, empty isCheckpoint, nothing]
    rfl

theorem opening_eq_nil {code : List Instr} (h : taken code = []) : opening code = [] := by
  unfold opening
  split
  · cases h
  · rfl

/-- Code in which, up to its last takeover, nothing but takeovers pushes values. -/
def Opens : List Instr → Prop
  | [] => True
  | i :: rest => (taken rest = [] ∨ i.pushes ≤ i.taken?.toList.length) ∧ Opens rest

theorem opens_of_taken_eq_nil {code : List Instr} (h : taken code = []) : Opens code := by
  induction code with
  | nil => trivial
  | cons i rest ih =>
    rw [taken_cons, List.append_eq_nil_iff] at h
    exact ⟨.inl h.2, ih h.2⟩

/-- Code that takes over just what its opening stores has nothing else in front. -/
theorem opens_of_opening {code : List Instr} (h : taken code = opening code) : Opens code := by
  fun_induction opening code with
  | case1 ty var rest ih =>
    have later : taken rest = opening rest := (List.cons.inj h).2
    exact ⟨.inr (Nat.le_refl 1), .inr (Nat.zero_le _), ih later⟩
  | case2 => exact opens_of_taken_eq_nil h

/-- When takeovers follow, nothing in front may push but takeovers. -/
theorem opens_append {front rest : List Instr} :
    Opens (front ++ rest) ↔ (if taken rest = [] then Opens front
      else ∀ i ∈ front, i.pushes ≤ i.taken?.toList.length) ∧ Opens rest := by
  induction front with
  | nil =>
    rw [List.nil_append]
    split <;> simp [Opens]
  | cons i front ih =>
    rw [List.cons_append, Opens, ih, taken_append, List.append_eq_nil_iff]
    split
    · rename_i done
      simp only [done, and_true, Opens, and_assoc]
    · rename_i more
      simp only [more, and_false, false_or, List.forall_mem_cons, and_assoc]

/-- Up to the last takeover, the height is no more than what was taken over. -/
theorem height_le_of_opens {count height after : Nat} {front rest : List Instr}
    (opens : Opens (front ++ rest)) (more : taken rest ≠ [])
    (h : Reaches count height front after) : after ≤ height + (taken front).length := by
  rw [opens_append, if_neg more] at opens
  replace opens := opens.1
  induction front generalizing height with
  | nil => rw [← reaches_nil.1 h]; exact Nat.le_refl _
  | cons i front ih =>
    obtain ⟨between, stepped, later⟩ := reaches_cons.1 h
    obtain ⟨enough, rfl, -⟩ := Instr.step_eq_ok_iff.1 stepped
    obtain ⟨modest, others⟩ := List.forall_mem_cons.1 opens
    have bound := ih later others
    rw [taken_cons, List.length_append]
    omega

/-! ## Ways through a body -/

/-- What a block of a body takes over. -/
def TakesOver (blocks : List Block) (label : Nat) (types : List Ty) : Prop :=
  blocks[label]?.map (taken ·.code) = some types

/-- A body that can be followed on the physical stack: a label is a position, every block balances
by itself, takeovers come first, and operands match along all jumps. -/
structure Flows (blocks : List Block) : Prop where
  labels : blocks.map (·.label) = List.range blocks.length
  accepted : ∀ b ∈ blocks, Accepted blocks.length b.code
  opens : ∀ b ∈ blocks, Opens b.code
  hands : ∀ b ∈ blocks, Hands (TakesOver blocks) b.code
  first : ∃ b, blocks[0]? = some b ∧ taken b.code = []

/-- What is true where a block of such a body jumps. -/
structure Jumps (blocks : List Block) (b : Block) (front : List Instr) (i : Instr) (label : Nat) :
    Prop where
  height : Reaches blocks.length 0 front i.pops
  target : ∃ t, blocks[label]? = some t ∧ (taken t.code).length = (handed front).length
  after : ∀ depth, i.depthAfter (i.pops + depth) = depth

/-- Where a block of such a body jumps, it has handed over what the target takes over, and takes
nothing over behind that. -/
theorem Flows.jumps {blocks : List Block} (flows : Flows blocks) {b : Block} (mem : b ∈ blocks)
    {front rest : List Instr} {i : Instr} (same : b.code = front ++ i :: rest) {label : Nat}
    (goes : label ∈ i.targets) : Jumps blocks b front i label ∧ taken (i :: rest) = [] := by
  obtain ⟨none, -, empties, nothing, finds⟩ := Instr.jump_of_mem_targets goes
  obtain ⟨done, -, targets⟩ :=
    (flows.hands b mem).split same (Instr.isAnchor_of_mem_targets goes) none
  have balanced := (flows.accepted b mem).balanced
  rw [same] at balanced
  obtain ⟨height, before, -⟩ := reaches_append.1 balanced
  obtain ⟨enough, -, empty⟩ := (flows.accepted b mem).step same before
  obtain rfl : height = i.pops := by
    have := empty empties
    omega
  obtain ⟨t, there, takes⟩ := Option.map_eq_some_iff.1 (targets label goes)
  refine ⟨⟨before, ⟨t, there, by rw [takes, List.length_reverse]⟩, fun depth => ?_⟩, ?_⟩
  · cases i <;> simp_all [Instr.targets, Instr.depthAfter, Instr.pops, Instr.pushes]
  · rw [taken_cons, none, done]
    rfl

/-- The blocks that can be entered from the first one, with the physical depth on entry. -/
inductive Entered (blocks : List Block) : Nat → Nat → Prop
  | start : Entered blocks 0 0
  | jump {label depth before target : Nat} {b : Block} {front rest : List Instr} {i : Instr}
      (entered : Entered blocks label depth) (there : blocks[label]? = some b)
      (code : b.code = front ++ i :: rest) (sunk : sink depth front = some before)
      (goes : target ∈ i.targets) : Entered blocks target (i.depthAfter before)

/-- A block is entered with the operands that it takes over and nothing else. -/
theorem Flows.depth_of_entered {blocks : List Block} (flows : Flows blocks) {label depth : Nat}
    (entered : Entered blocks label depth) {b : Block} (there : blocks[label]? = some b) :
    depth = (taken b.code).length := by
  induction entered generalizing b with
  | start =>
    obtain ⟨b', first, none⟩ := flows.first
    cases there.symm.trans first
    rw [none, List.length_nil]
  | @jump label depth before target b' front rest i _ there' code sunk goes ih =>
    obtain ⟨⟨height, ⟨t, there'', takes⟩, after⟩, done⟩ :=
      flows.jumps (List.mem_of_getElem? there') code goes
    cases there.symm.trans there''
    have depth := sink_of_reaches 0 (i :: rest) height
    rw [← code, Nat.zero_add, Nat.zero_add, ← ih there', sunk, done] at depth
    obtain rfl : before = i.pops + (handed front).length := by simpa using depth
    rw [after, takes]

end Stackwise.Code
