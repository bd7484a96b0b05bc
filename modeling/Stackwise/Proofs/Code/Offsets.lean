import Stackwise.Proofs.Code.Listing

/-!
# Listings lay blocks out faithfully

A listing is made by a walk of its own over the blocks, which stops only where an instruction finds
too few values.  A body that `verify` accepts has no such place, so its listing exists.

In a listing every block occupies the stretch of code from `streamStart blocks k` to
`streamStart blocks (k + 1)`: behind the blocks before it, and never empty, because a block without
code holds its place with a `nop`.  Where every label is the position of its block, the table of
offsets is the list of these starts (`getElem?_labelOffsets`), so jumps lead to the first
instruction of the block that they name.
-/

namespace Stackwise.Code

/-- Where the block at a position starts in the stream: behind all that the blocks before it
contribute. -/
def streamStart (blocks : List Block) (position : Nat) : Nat :=
  ((blocks.take position).flatMap Block.stream).length

/-- Every block takes at least one place in the stream. -/
theorem Block.stream_ne_nil (b : Block) : b.stream ≠ [] := by
  rw [Block.stream]
  split
  · exact List.cons_ne_nil _ _
  · rename_i some
    simpa using some

section Positions

variable {blocks : List Block} {position : Nat} {b : Block}

/-- The next block starts where this one ends. -/
theorem streamStart_succ (here : blocks[position]? = some b) :
    streamStart blocks (position + 1) = streamStart blocks position + b.stream.length := by
  rw [streamStart, List.take_add_one, here, Option.toList_some, List.flatMap_append,
    List.length_append]
  simp [streamStart]

theorem streamStart_lt {later : Nat} (before : position < later) (inside : later ≤ blocks.length) :
    streamStart blocks position < streamStart blocks later := by
  induction later with
  | zero => omega
  | succ last ih =>
    have here := List.getElem?_eq_getElem (l := blocks) (i := last) (by omega)
    have some := List.length_pos_iff.2 (Block.stream_ne_nil blocks[last])
    rw [streamStart_succ here]
    by_cases same : position = last
    · rw [same]
      omega
    · have earlier := ih (by omega) (by omega)
      omega

/-- In front of the start of a block stands what the blocks before it contribute, and from there on
the block itself. -/
theorem stream_at_streamStart (here : blocks[position]? = some b) :
    (blocks.flatMap Block.stream).take (streamStart blocks position) =
        (blocks.take position).flatMap Block.stream ∧
      b.stream <+: (blocks.flatMap Block.stream).drop (streamStart blocks position) := by
  have code : blocks.flatMap Block.stream = (blocks.take position).flatMap Block.stream ++
      (b.stream ++ (blocks.drop (position + 1)).flatMap Block.stream) := by
    rw [← List.flatMap_cons, ← List.flatMap_append, ← split_of_getElem? here]
  rw [code, streamStart, List.take_left, List.drop_left]
  exact ⟨rfl, List.prefix_append _ _⟩

theorem length_labelOffsets (blocks : List Block) :
    (labelOffsets blocks).length = blocks.length := by
  rw [labelOffsets_eq, foldl_place_length, List.length_replicate]

variable (labels : blocks.map (·.label) = List.range blocks.length)

include labels

/-- The offset of a label is where the stream of its block starts. -/
theorem getElem?_labelOffsets (here : blocks[position]? = some b) :
    (labelOffsets blocks)[position]? = some (streamStart blocks position) := by
  have placed := labelOffsets_of_split labels (split_of_getElem? here)
  rwa [label_eq_position labels here] at placed

/-- Offsets increase with the labels. -/
theorem labelOffsets_increasing : (labelOffsets blocks).Pairwise (· < ·) := by
  rw [List.pairwise_iff_getElem]
  intro i j hi hj before
  rw [length_labelOffsets] at hi hj
  have first := getElem?_labelOffsets labels (List.getElem?_eq_getElem hi)
  have second := getElem?_labelOffsets labels (List.getElem?_eq_getElem hj)
  rw [(List.getElem?_eq_some_iff.1 first).2, (List.getElem?_eq_some_iff.1 second).2]
  exact streamStart_lt before (by omega)

end Positions

/-! ## Accepted bodies -/

/-- The listing of an accepted body exists. -/
theorem exists_listing {name : String} {blocks : List Block}
    (accepted : verify name blocks = .ok ()) : ∃ l, Listing.ofBlocks name blocks = .ok l := by
  obtain ⟨top, ran, -⟩ := foldlM_peakDepth name (verify_eq_ok_iff.1 accepted) 0
  refine ⟨⟨name, blocks.flatMap Block.stream, labelOffsets blocks, top⟩, ?_⟩
  rw [Listing.ofBlocks, ran]
  rfl

theorem ofBlocks_eq_ok {name : String} {blocks : List Block} {l : Listing}
    (h : Listing.ofBlocks name blocks = .ok l) :
    l.code = blocks.flatMap Block.stream ∧ l.offsets = labelOffsets blocks := by
  rw [Listing.ofBlocks] at h
  cases ran : blocks.foldlM
      (fun peak b => (peakDepth 0 0 peak 0 b.code).mapError (b.fault name)) 0 with
  | error fault =>
    rw [ran] at h
    cases h
  | ok top =>
    rw [ran] at h
    cases h
    exact ⟨rfl, rfl⟩

/-- Accepted code jumps to blocks that exist. -/
theorem Reaches.target_lt {count height after target : Nat} {code : List Instr} {i : Instr}
    (h : Reaches count height code after) (mem : i ∈ code) (goes : target ∈ i.targets) :
    target < count := by
  induction code generalizing height with
  | nil => cases mem
  | cons j rest ih =>
    obtain ⟨between, stepped, later⟩ := reaches_cons.1 h
    rcases List.mem_cons.1 mem with rfl | mem
    · obtain ⟨-, -, -, known⟩ := Instr.step_eq_ok_iff.1 stepped
      exact known target goes
    · exact ih later mem

/-- Jumps of an accepted body lead to the first instruction of the block that they name. -/
theorem exists_target {name : String} {blocks : List Block} {l : Listing}
    (labels : blocks.map (·.label) = List.range blocks.length)
    (accepted : ∀ b ∈ blocks, Accepted blocks.length b.code)
    (laidOut : Listing.ofBlocks name blocks = .ok l) {i : Instr} (there : i ∈ l.code)
    {target : Nat} (goes : target ∈ i.targets) :
    ∃ t first rest offset, blocks[target]? = some t ∧ t.code = first :: rest ∧
      l.offset? target = some offset ∧ l.code[offset]? = some first := by
  obtain ⟨code, offsets⟩ := ofBlocks_eq_ok laidOut
  rw [code] at there
  obtain ⟨b, mem, here⟩ := List.mem_flatMap.1 there
  -- An accepted block ends in an instruction, so it has a first one.
  have hasCode (b : Block) (mem : b ∈ blocks) : b.code ≠ [] := by
    have ends := (accepted b mem).ends
    intro none
    rw [none] at ends
    cases ends
  rw [Block.stream_of_ne_nil (hasCode b mem)] at here
  have inside := (accepted b mem).balanced.target_lt here goes
  have found := List.getElem?_eq_getElem inside
  obtain ⟨first, rest, starts⟩ := List.exists_cons_of_ne_nil (hasCode _ (List.getElem_mem inside))
  obtain ⟨-, behind, same⟩ := stream_at_streamStart found
  rw [Block.stream_of_ne_nil (hasCode _ (List.getElem_mem inside)), starts] at same
  refine ⟨_, first, rest, streamStart blocks target, found, starts, ?_, ?_⟩
  · rw [Listing.offset?, offsets]
    exact getElem?_labelOffsets labels found
  · rw [code, ← Nat.add_zero (streamStart blocks target), ← List.getElem?_drop, ← same]
    rfl

/-- Where every label is the position of its block, a listing is faithful to the blocks.

It exists for every accepted body, so where there is none, `verify` reports a fault too.  Its code
is the code of the blocks one after another, with a `nop` for a block without code.  Every block has
an offset, the offsets grow strictly, and the offset of a block is that of the first instruction
which the block contributes.  Every jump of an accepted body leads to the offset of the first
instruction of the block that it names. -/
theorem listing_faithful (name : String) (blocks : List Block)
    (labels : blocks.map (·.label) = List.range blocks.length) :
    (verify name blocks = .ok () → ∃ l, Listing.ofBlocks name blocks = .ok l) ∧
    (∀ fault, Listing.ofBlocks name blocks = .error fault →
      ∃ fault', verify name blocks = .error fault') ∧
    ∀ l, Listing.ofBlocks name blocks = .ok l →
      l.code = blocks.flatMap (fun b => if b.code = [] then [.nop] else b.code) ∧
      l.offsets.length = blocks.length ∧ l.offsets.Pairwise (· < ·) ∧
      (∀ k b, blocks[k]? = some b → ∃ offset, l.offsets[k]? = some offset ∧
        l.code.take offset = (blocks.take k).flatMap Block.stream ∧
        b.stream <+: l.code.drop offset) ∧
      (verify name blocks = .ok () → ∀ b ∈ blocks, ∀ i ∈ b.code, ∀ target ∈ i.targets,
        ∃ t first rest offset, blocks[target]? = some t ∧ t.code = first :: rest ∧
          l.offset? target = some offset ∧ l.code[offset]? = some first) := by
  refine ⟨exists_listing, fun fault stopped => ?_, fun l laidOut => ?_⟩
  · cases accepted : verify name blocks with
    | error fault' => exact ⟨fault', rfl⟩
    | ok =>
      obtain ⟨l, laidOut⟩ := exists_listing accepted
      rw [laidOut] at stopped
      cases stopped
  obtain ⟨code, offsets⟩ := ofBlocks_eq_ok laidOut
  have placed (k : Nat) (b : Block) (here : blocks[k]? = some b) :
      ∃ offset, l.offsets[k]? = some offset ∧
        l.code.take offset = (blocks.take k).flatMap Block.stream ∧
        b.stream <+: l.code.drop offset := by
    rw [code, offsets]
    exact ⟨streamStart blocks k, getElem?_labelOffsets labels here, stream_at_streamStart here⟩
  refine ⟨?_, ?_, ?_, placed, ?_⟩
  · rw [code]
    congr 1
    funext b
    simp [Block.stream]
  · rw [offsets, length_labelOffsets]
  · rw [offsets]
    exact labelOffsets_increasing labels
  · intro accepted b mem i there target goes
    refine exists_target labels (verify_eq_ok_iff.1 accepted) laidOut ?_ goes
    rw [code]
    refine List.mem_flatMap.2 ⟨b, mem, ?_⟩
    rwa [Block.stream_of_ne_nil (List.ne_nil_of_mem there)]

/-- Three blocks, the second one without code. -/
def hollow : List Block :=
  [⟨0, some 0, [.load 0, .branchIfTrue 2, .branch 1]⟩, ⟨1, some 1, []⟩,
    ⟨2, some 2, [.ret false]⟩]

/-- Here the second block goes back to the first one. -/
def filled : List Block :=
  [⟨0, some 0, [.load 0, .branchIfTrue 2, .branch 1]⟩, ⟨1, some 1, [.branch 0]⟩,
    ⟨2, some 2, [.ret false]⟩]

/-- The block without code keeps its place with a `nop`, the jump out of the loop is resolved, and
code that pops too much has neither a listing nor the approval of `verify`. -/
theorem listing_faithful_loops :
    (∃ l, Listing.ofBlocks "loop" hollow = .ok l ∧ l.offsets.length = 3 ∧
      l.offsets.Pairwise (· < ·) ∧ ∃ offset, l.offsets[1]? = some offset ∧
        [.nop] <+: l.code.drop offset) ∧
    (∃ l, Listing.ofBlocks "loop" filled = .ok l ∧
      ∃ offset, l.offset? 2 = some offset ∧ l.code[offset]? = some (.ret false)) ∧
    ∃ fault, verify "f" [⟨0, none, [.pop, .ret false]⟩] = .error fault := by
  obtain ⟨-, -, faithful⟩ := listing_faithful "loop" hollow rfl
  obtain ⟨exist, -, faithful'⟩ := listing_faithful "loop" filled rfl
  have laidOut : Listing.ofBlocks "loop" hollow = .ok ⟨"loop",
      [.load 0, .branchIfTrue 2, .branch 1, .nop, .ret false], [0, 3, 4], 1⟩ := rfl
  obtain ⟨-, length, increasing, placed, -⟩ := faithful _ laidOut
  obtain ⟨offset, found, -, stands⟩ := placed 1 _ rfl
  have accepted : verify "loop" filled = .ok () := rfl
  obtain ⟨l, laidOut'⟩ := exist accepted
  obtain ⟨-, -, -, -, jumps⟩ := faithful' l laidOut'
  obtain ⟨t, first, rest, offset', here, code, found', there⟩ :=
    jumps accepted _ (List.mem_cons_self ..) (.branchIfTrue 2) (by decide) 2 (by decide)
  cases here
  cases code
  exact ⟨⟨_, laidOut, length, increasing, offset, found, stands⟩,
    ⟨l, laidOut', offset', found', there⟩,
    (listing_faithful "f" [⟨0, none, [.pop, .ret false]⟩] rfl).2.1 _ rfl⟩

end Stackwise.Code
