import Stackwise.Code.Listing
import Stackwise.Proofs.Code.Depth

/-!
# Listings never exceed their greatest depth

A listing is run from its first instruction: on to the next one, or to the offset of a label.
`Listing.Reached` gives the offsets that can be reached, with the physical depth of the stack there.

If the blocks of a body can be followed on the physical stack (`Flows`), the listing of the body
exists, and whatever offset is reached, there is an instruction, it finds its operands, and the
stack is not deeper than the listing says (`Flows.bounded`).  While a block still has takeovers
before it, the stack holds no more than the operands that the block before has left, and these were
counted there; from then on the listing counts what is on the stack.
-/

namespace Stackwise.Code

/-! ## Offsets -/

/-- Notes the offset of a block. -/
def place (sofar : List Nat × Nat) (b : Block) : List Nat × Nat :=
  (sofar.1.set b.label sofar.2, sofar.2 + b.stream.length)

theorem labelOffsets_eq (blocks : List Block) :
    labelOffsets blocks = (blocks.foldl place (List.replicate blocks.length 0, 0)).1 := rfl

/-- Placing blocks moves the offset by the length of their streams. -/
theorem foldl_place_offset (blocks : List Block) (sofar : List Nat × Nat) :
    (blocks.foldl place sofar).2 = sofar.2 + (blocks.flatMap Block.stream).length := by
  induction blocks generalizing sofar with
  | nil => rfl
  | cons b rest ih =>
    rw [List.foldl_cons, ih, List.flatMap_cons, List.length_append, place, Nat.add_assoc]

theorem foldl_place_length (blocks : List Block) (sofar : List Nat × Nat) :
    (blocks.foldl place sofar).1.length = sofar.1.length := by
  induction blocks generalizing sofar with
  | nil => rfl
  | cons b rest ih => rw [List.foldl_cons, ih, place, List.length_set]

/-- Only the offsets of placed blocks are set. -/
theorem foldl_place_other {blocks : List Block} {label : Nat}
    (other : label ∉ blocks.map (·.label)) (sofar : List Nat × Nat) :
    (blocks.foldl place sofar).1[label]? = sofar.1[label]? := by
  induction blocks generalizing sofar with
  | nil => rfl
  | cons b rest ih =>
    rw [List.map_cons, List.mem_cons, not_or] at other
    rw [List.foldl_cons, ih other.2, place, List.getElem?_set_ne (Ne.symm other.1)]

theorem split_of_getElem? {blocks : List Block} {position : Nat} {b : Block}
    (here : blocks[position]? = some b) :
    blocks = blocks.take position ++ b :: blocks.drop (position + 1) := by
  obtain ⟨inside, rfl⟩ := List.getElem?_eq_some_iff.1 here
  rw [List.getElem_cons_drop, List.take_append_drop]

/-- If labels are positions, then that of each block is its own. -/
theorem label_eq_position {blocks : List Block} {position : Nat} {b : Block}
    (labels : blocks.map (·.label) = List.range blocks.length)
    (here : blocks[position]? = some b) : b.label = position := by
  obtain ⟨inside, -⟩ := List.getElem?_eq_some_iff.1 here
  have listed := congrArg (·[position]?) labels
  simp only [List.getElem?_map, here, Option.map_some, List.getElem?_range inside] at listed
  exact Option.some.inj listed

/-- A block starts where those before it end. -/
theorem labelOffsets_of_split {blocks before after : List Block} {b : Block}
    (labels : blocks.map (·.label) = List.range blocks.length)
    (split : blocks = before ++ b :: after) :
    (labelOffsets blocks)[b.label]? = some (before.flatMap Block.stream).length := by
  have distinct : (blocks.map (·.label)).Nodup := labels ▸ List.nodup_range
  have inside : b.label < blocks.length := by
    rw [← List.mem_range, ← labels]
    exact List.mem_map_of_mem (by rw [split]; simp)
  have later : b.label ∉ after.map (·.label) := by
    rw [split, List.map_append, List.map_cons, List.nodup_append] at distinct
    exact (List.nodup_cons.1 distinct.2.1).1
  rw [labelOffsets_eq]
  generalize table : List.replicate blocks.length 0 = empty
  have room : b.label < empty.length := by rwa [← table, List.length_replicate]
  rw [split, List.foldl_append, List.foldl_cons, foldl_place_other later, place,
    List.getElem?_set_self (by rwa [foldl_place_length]), foldl_place_offset, Nat.zero_add]

/-! ## The greatest depth -/

theorem peakDepth_cons (height pending peak position : Nat) (i : Instr) (rest : List Instr) :
    peakDepth height pending peak position (i :: rest) =
      if height < i.pops then .error (position, .underflow i height)
      else peakDepth (height - i.pops + i.pushes) (pending + i.handed?.toList.length)
        (max peak (height - i.pops + i.pushes + (pending + i.handed?.toList.length)))
        (position + 1) rest := by
  cases i <;> rfl

/-- The heights of code and what it has handed over stay below a number. -/
def Below (count height pending : Nat) (code : List Instr) (top : Nat) : Prop :=
  ∀ front rest after, code = front ++ rest → Reaches count height front after →
    after + (pending + (handed front).length) ≤ top

/-- In accepted code, the search for the peak goes through, and nothing on the way is above it. -/
theorem peakDepth_eq_ok {count height after pending peak : Nat} (position : Nat)
    {code : List Instr} (h : Reaches count height code after) (low : height + pending ≤ peak) :
    ∃ top, peakDepth height pending peak position code = .ok top ∧ peak ≤ top ∧
      Below count height pending code top := by
  induction code generalizing height pending peak position with
  | nil =>
    refine ⟨peak, rfl, Nat.le_refl _, fun front rest after none reached => ?_⟩
    obtain ⟨rfl, -⟩ := List.append_eq_nil_iff.1 none.symm
    rw [← reaches_nil.1 reached]
    exact low
  | cons i code ih =>
    obtain ⟨between, stepped, later⟩ := reaches_cons.1 h
    obtain ⟨enough, rfl, -⟩ := Instr.step_eq_ok_iff.1 stepped
    obtain ⟨top, ran, above, below⟩ := ih (position + 1) later (Nat.le_max_right peak _)
    refine ⟨top, ?_, Nat.le_trans (Nat.le_max_left _ _) above, ?_⟩
    · rw [peakDepth_cons, if_neg (Nat.not_lt.2 enough), ran]
    · intro front rest after same reached
      cases front with
      | nil =>
        rw [← reaches_nil.1 reached]
        exact Nat.le_trans low (Nat.le_trans (Nat.le_max_left _ _) above)
      | cons j front =>
        obtain ⟨rfl, tail⟩ := List.cons.inj same
        obtain ⟨between, stepped', reached⟩ := reaches_cons.1 reached
        obtain ⟨-, rfl, -⟩ := Instr.step_eq_ok_iff.1 stepped'
        have bound := below front rest after tail reached
        rw [handed_cons, List.length_append]
        omega

theorem foldlM_peakDepth {count : Nat} (name : String) {blocks : List Block}
    (accepted : ∀ b ∈ blocks, Accepted count b.code) (peak : Nat) :
    ∃ top, blocks.foldlM (fun peak b => (peakDepth 0 0 peak 0 b.code).mapError (b.fault name))
        peak = .ok top ∧ peak ≤ top ∧ ∀ b ∈ blocks, Below count 0 0 b.code top := by
  induction blocks generalizing peak with
  | nil => exact ⟨peak, rfl, Nat.le_refl _, List.forall_mem_nil _⟩
  | cons b rest ih =>
    obtain ⟨here, others⟩ := List.forall_mem_cons.1 accepted
    obtain ⟨top, ran, above, below⟩ := peakDepth_eq_ok 0 here.balanced
      (Nat.le_trans (Nat.le_of_eq (Nat.zero_add 0)) (Nat.zero_le peak))
    obtain ⟨top', ran', above', below'⟩ := ih others top
    refine ⟨top', ?_, Nat.le_trans above above', List.forall_mem_cons.2 ⟨?_, below'⟩⟩
    · rw [List.foldlM_cons, ran]
      exact ran'
    · intro front rest after same reached
      exact Nat.le_trans (below front rest after same reached) above'

/-! ## Runs of a listing -/

/-- The offsets that can be reached from the first one, with the physical depth there. -/
inductive Listing.Reached (l : Listing) : Nat → Nat → Prop
  | start : Reached l 0 0
  | next {offset depth : Nat} {i : Instr} (reached : Reached l offset depth)
      (there : l.code[offset]? = some i) (goesOn : i.isTerminator = false) :
    Reached l (offset + 1) (i.depthAfter depth)
  | jump {offset depth label target : Nat} {i : Instr} (reached : Reached l offset depth)
      (there : l.code[offset]? = some i) (goes : label ∈ i.targets)
      (found : l.offset? label = some target) : Reached l target (i.depthAfter depth)

/-- An instruction of a block in the listing, with its offset and the depth in front of it. -/
inductive Located (blocks : List Block) (bound : Nat) : Nat → Nat → Instr → Prop
  | intro {before after : List Block} {b : Block} {front rest : List Instr} {i : Instr}
      {height : Nat} (split : blocks = before ++ b :: after) (same : b.code = front ++ i :: rest)
      (reaches : Reaches blocks.length 0 front height) (opened : (taken b.code).length ≤ bound) :
    Located blocks bound ((before.flatMap Block.stream).length + front.length)
      (height + (handed front).length + (taken (i :: rest)).length) i

section

variable {blocks : List Block} {bound offset depth : Nat} {i : Instr}

theorem Block.stream_of_ne_nil {b : Block} (some : b.code ≠ []) : b.stream = b.code := by
  rw [Block.stream, if_neg (by simpa using some)]

theorem Located.getElem? (h : Located blocks bound offset depth i) :
    (blocks.flatMap Block.stream)[offset]? = some i := by
  cases h with
  | @intro before after b front rest i height split same reaches opened =>
    rw [split, List.flatMap_append, List.getElem?_append_right (Nat.le_add_right _ _),
      Nat.add_sub_cancel_left, List.flatMap_cons, Block.stream_of_ne_nil (by rw [same]; simp), same]
    simp

/-- At its start, a block stands with what it takes over. -/
theorem located_block {before after : List Block} {b : Block} (flows : Flows blocks)
    (split : blocks = before ++ b :: after) (opened : (taken b.code).length ≤ bound) :
    ∃ j, Located blocks bound (before.flatMap Block.stream).length (taken b.code).length j := by
  have ends := (flows.accepted b (by rw [split]; simp)).ends
  cases code : b.code with
  | nil =>
    rw [code] at ends
    cases ends
  | cons j rest =>
    have here := Located.intro split (show b.code = [] ++ j :: rest from code)
      (reaches_nil.2 rfl) opened
    refine ⟨j, ?_⟩
    simpa [handed] using here

variable (flows : Flows blocks)

include flows

/-- An instruction finds what it needs where it is located. -/
theorem Located.needs_le (h : Located blocks bound offset depth i) : i.needs ≤ depth := by
  cases h with
  | @intro before after b front rest i height split same reaches opened =>
    obtain ⟨enough, -⟩ := (flows.accepted b (by rw [split]; simp)).step same reaches
    rw [taken_cons, List.length_append]
    exact (Instr.depthAfter_eq enough _ _).1

/-- While takeovers are to come, there is nothing on the stack but what the block takes over;
afterwards there is what the listing counts. -/
theorem Located.depth_le (below : ∀ b ∈ blocks, Below blocks.length 0 0 b.code bound)
    (h : Located blocks bound offset depth i) : depth ≤ bound := by
  cases h with
  | @intro before after b front rest i height split same reaches opened =>
    have mem : b ∈ blocks := by rw [split]; simp
    cases more : taken (i :: rest) with
    | nil =>
      have counted := below b mem front (i :: rest) height same reaches
      rw [Nat.zero_add] at counted
      exact counted
    | cons ty types =>
      have some : taken (i :: rest) ≠ [] := by rw [more]; exact nofun
      have nothing := (flows.hands b mem).handed_eq_nil same some
      have opens := flows.opens b mem
      rw [same] at opens
      have modest := height_le_of_opens opens some reaches
      rw [same, taken_append, List.length_append, more] at opened
      rw [nothing, List.length_nil]
      omega

/-- The next instruction of the block, unless this one ends it. -/
theorem Located.next (h : Located blocks bound offset depth i) (goesOn : i.isTerminator = false) :
    ∃ j, Located blocks bound (offset + 1) (i.depthAfter depth) j := by
  cases h with
  | @intro before after b front rest i height split same reaches opened =>
    have accepted := flows.accepted b (by rw [split]; simp)
    cases rest with
    | nil =>
      have ends := accepted.ends
      rw [same, endsInTerminator_append_of_ne_nil _ (List.cons_ne_nil _ _)] at ends
      have last : i.isTerminator = true := by simpa [endsInTerminator] using ends
      rw [goesOn] at last
      cases last
    | cons j rest =>
      obtain ⟨enough, reached, -⟩ := accepted.step same reaches
      have same' : b.code = (front ++ [i]) ++ j :: rest := by simpa using same
      have there := Located.intro split same' reached opened
      refine ⟨j, ?_⟩
      rw [taken_cons i, List.length_append, (Instr.depthAfter_eq enough _ _).2]
      rw [handed_append, List.length_append, handed_cons, List.length_append, List.length_append,
        ← Nat.add_assoc] at there
      exact there

/-- The block that a label names, if the instruction jumps there. -/
theorem Located.jump (below : ∀ b ∈ blocks, Below blocks.length 0 0 b.code bound)
    (h : Located blocks bound offset depth i) {label : Nat} (goes : label ∈ i.targets) :
    ∃ target j, (labelOffsets blocks)[label]? = some target ∧
      Located blocks bound target (i.depthAfter depth) j := by
  cases h with
  | @intro before after b front rest i height split same reaches opened =>
    have mem : b ∈ blocks := by rw [split]; simp
    obtain ⟨⟨height', ⟨t, there, takes⟩, after'⟩, done⟩ := flows.jumps mem same goes
    obtain rfl : height = i.pops := Except.ok.inj (reaches.symm.trans height')
    -- What the target takes over was on the stack in front of the jump.
    have counted := below b mem front (i :: rest) i.pops same reaches
    have opened' : (taken t.code).length ≤ bound := by omega
    have split' := split_of_getElem? there
    have named := label_eq_position flows.labels there
    obtain ⟨j, located⟩ := located_block flows split' opened'
    refine ⟨_, j, named ▸ labelOffsets_of_split flows.labels split', ?_⟩
    rw [done, List.length_nil, Nat.add_zero, after', ← takes]
    exact located

/-- The listing of such a body exists, and its greatest depth is never exceeded: whatever is reached
from the first instruction is an instruction that finds its operands on the stack, and jumps to
offsets of the listing. -/
theorem Flows.bounded (name : String) : ∃ l, Listing.ofBlocks name blocks = .ok l ∧
    ∀ offset depth, l.Reached offset depth → depth ≤ l.maxStack ∧ ∃ i, l.code[offset]? = some i ∧
      i.needs ≤ depth ∧ ∀ label ∈ i.targets, ∃ target, l.offset? label = some target := by
  obtain ⟨top, ran, -, below⟩ := foldlM_peakDepth name flows.accepted 0
  refine ⟨⟨name, blocks.flatMap Block.stream, labelOffsets blocks, top⟩, ?_, ?_⟩
  · rw [Listing.ofBlocks, ran]
    rfl
  · intro offset depth reached
    suffices ∃ i, Located blocks top offset depth i by
      obtain ⟨i, located⟩ := this
      refine ⟨located.depth_le flows below, i, located.getElem?, located.needs_le flows, ?_⟩
      intro label goes
      obtain ⟨target, -, found, -⟩ := located.jump flows below goes
      exact ⟨target, found⟩
    induction reached with
    | start =>
      obtain ⟨b, first, none⟩ := flows.first
      obtain ⟨rest, split⟩ : ∃ rest, blocks = b :: rest := by
        cases all : blocks with
        | nil =>
          rw [all] at first
          cases first
        | cons b' rest =>
          rw [all] at first
          cases first
          exact ⟨rest, rfl⟩
      have located := located_block flows (show blocks = [] ++ b :: rest from split)
        (show (taken b.code).length ≤ top by rw [none]; exact Nat.zero_le _)
      rwa [none] at located
    | next _ there goesOn ih =>
      obtain ⟨i, located⟩ := ih
      cases there.symm.trans located.getElem?
      exact located.next flows goesOn
    | jump _ there goes found ih =>
      obtain ⟨i, located⟩ := ih
      cases there.symm.trans located.getElem?
      obtain ⟨target, j, known, next⟩ := located.jump flows below goes
      cases found.symm.trans known
      exact ⟨j, next⟩

end

end Stackwise.Code
