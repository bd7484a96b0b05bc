import Stackwise.Proofs.Lowering.Access

/-!
# Every exit leaves the frame

The address of a variable that outlives a call may be known elsewhere, so a function that may raise
keeps such variables in a heap frame.  The frame is entered once, before anything else, and left on
every way out: by a return, by a choice between handlers that has run out of them, at the end of a
cleanup, or by the check behind a call.  Some of these stand in blocks that no source block stands
behind (`frames_balanced`).

Lowering visits each source block once, and what it adds meanwhile, there or in new blocks, is
framed (`Draft.Becomes.framed`).  So the start of the frame stands in the first block only, and the
optimizer keeps it that way (`Peephole.optimize_balanced`).
-/

namespace Stackwise.Lowering

open Code (Balanced Framed Instr Storage)
open Source (Function Module)

variable {c : Context}

namespace Draft

variable {start d d' d'' : Draft}

/-! ## Code by label -/

/-- Writing adds to the code of the current block only. -/
theorem codeAt_write {b : DraftBlock} (there : d.blocks[d.current]? = some b) (code : List Instr)
    (storage : Ledger) (label : Nat) : (d.write b code storage).codeAt label =
      if d.current = label then d.codeAt label ++ code else d.codeAt label := by
  rw [codeAt, codeAt, getElem?_write there]
  split
  · rename_i same
    rw [← same, there]
    rfl
  · rfl

/-- A new block has no code, like one that is not there. -/
theorem codeAt_grow (d : Draft) (label : Nat) : d.grow.codeAt label = d.codeAt label := by
  rw [codeAt, codeAt, grow, Array.getElem?_push]
  split
  · rename_i same
    rw [same, Array.getElem?_eq_none (Nat.le_refl _)]
    rfl
  · rfl

/-- A step changes the code of no other block that was there. -/
theorem Advances.codeAt_eq {m : Module} (h : d.Advances m d') {label : Nat}
    (old : label < d.blocks.size) (other : label ≠ d.current) :
    d'.codeAt label = d.codeAt label := by
  rw [codeAt, codeAt, h.elsewhere old other]

/-- What lowering adds is framed, behind the code of the current block and in new blocks. -/
theorem Becomes.framed (h : start.Becomes c d) :
    (∃ more, d.codeAt start.current = start.codeAt start.current ++ more ∧
      Framed c.needsFrame more) ∧
    ∀ label, start.blocks.size ≤ label → Framed c.needsFrame (d.codeAt label) := by
  induction h with
  | refl =>
    refine ⟨⟨[], (List.append_nil _).symm, .nil⟩, fun label beyond => ?_⟩
    rw [codeAt, Array.getElem?_eq_none beyond]
    exact .nil
  | @write d b code storage before there _ piece ih =>
    obtain ⟨⟨more, here, framed⟩, made⟩ := ih
    constructor
    · rw [codeAt_write there]
      split
      · exact ⟨more ++ code, by rw [here, List.append_assoc], framed.append piece.framed⟩
      · exact ⟨more, here, framed⟩
    · intro label beyond
      rw [codeAt_write there]
      split
      · exact (made label beyond).append piece.framed
      · exact made label beyond
  | grow _ ih => simpa only [codeAt_grow] using ih
  | positionAt _ _ _ ih | note _ _ ih => exact ih

/-! ## Blocks -/

/-- The second draft has the blocks with the given numbers written, which were blank in the first,
and framed blocks behind those of the first. -/
structure Frames (c : Context) (blocks : List Nat) (d d' : Draft) : Prop where
  housed : Housed c.module c.homes d'.storage
  size : d.blocks.size ≤ d'.blocks.size
  written : ∀ block ∈ blocks, ∃ rest, d'.codeAt block = entering c block ++ rest ∧
    Framed c.needsFrame rest
  others : ∀ label < d.blocks.size, label ∉ blocks → d'.codeAt label = d.codeAt label
  made : ∀ label, d.blocks.size ≤ label → Framed c.needsFrame (d'.codeAt label)

theorem frames_nil (housed : Housed c.module c.homes d.storage) : d.Frames c [] d where
  housed := housed
  size := Nat.le_refl _
  written _ mem := absurd mem List.not_mem_nil
  others _ _ _ := rfl
  made label beyond := by
    rw [codeAt, Array.getElem?_eq_none beyond]
    exact .nil

/-- Blocks are framed one after another, if none is visited twice. -/
theorem Frames.cons {block : Nat} {blocks : List Nat} (first : d.Frames c [block] d')
    (second : d'.Frames c blocks d'') (inside : ∀ b ∈ block :: blocks, b < d.blocks.size)
    (once : block ∉ blocks) : d.Frames c (block :: blocks) d'' where
  housed := second.housed
  size := Nat.le_trans first.size second.size
  written := by
    rw [List.forall_mem_cons]
    refine ⟨?_, second.written⟩
    have there := Nat.lt_of_lt_of_le (inside block List.mem_cons_self) first.size
    rw [second.others block there once]
    exact first.written block List.mem_cons_self
  others label old other := by
    rw [List.mem_cons, not_or] at other
    rw [second.others label (Nat.lt_of_lt_of_le old first.size) other.2,
      first.others label old fun mem => other.1 (List.mem_singleton.1 mem)]
  made label beyond := by
    by_cases old : label < d'.blocks.size
    · have other : label ∉ blocks := fun mem =>
        Nat.not_lt.2 beyond (inside label (List.mem_cons_of_mem _ mem))
      rw [second.others label old other]
      exact first.made label beyond
    · exact second.made label (Nat.not_lt.1 old)

end Draft

/-- Lowering a block gives it framed code, behind the start of the frame if it is the first. -/
theorem lowerBlock_frames (source : SourceBlock) {d : Draft}
    (housed : Housed c.module c.homes d.storage) (inside : source.block < d.blocks.size)
    (blank : d.codeAt source.block = []) :
    Lower.Ensures c d (lowerBlock source) fun _ d' => d.Frames c [source.block] d' := by
  have body {start : Draft} (housed : Housed c.module c.homes start.storage)
      (here : start.current = source.block) (size : start.blocks.size = d.blocks.size)
      (entered : start.codeAt source.block = entering c source.block)
      (others : ∀ label ≠ source.block, start.codeAt label = d.codeAt label) :
      Lower.Ensures c start (lowerBlockBody source) fun _ d' => d.Frames c [source.block] d' := by
    intro _ d' run
    have way := lowerBlockBody_builds source (.refl housed) run
    have there : start.current < start.blocks.size := by rwa [here, size]
    have advances := way.becomes.advances there
    obtain ⟨⟨more, added, framed⟩, made⟩ := way.becomes.framed
    rw [here, entered] at added
    refine ⟨way.housed, size ▸ way.becomes.size_le, ?_, ?_, size ▸ made⟩
    · exact List.forall_mem_singleton.2 ⟨more, added, framed⟩
    · intro label old other
      rw [List.mem_singleton] at other
      rw [advances.codeAt_eq (size ▸ old) (here ▸ other), others label other]
  rw [lowerBlock_eq]
  refine .bind (Lower.positionAt_ensures (Q := fun _ d' =>
    d' = { d with current := source.block }) rfl) ?_
  rintro _ d₁ rfl
  refine .read Lower.context_reads fun _ same => ?_
  rw [same]
  by_cases first : (source.block == 0 && c.needsFrame) = true
  · rw [if_pos first]
    refine .bind (instr_emits _ _) ?_
    rintro _ _ ⟨b, code, storage, there, rfl, grown, written⟩
    obtain rfl := written storage (.refl _ _)
    refine body (housed.grows grown) rfl (Draft.size_write ..) ?_ ?_
    · rw [Draft.codeAt_write there, if_pos rfl, entering, if_pos first]
      show d.codeAt source.block ++ _ = _
      rw [blank]
      rfl
    · intro label other
      rw [Draft.codeAt_write there, if_neg other.symm]
      rfl
  · rw [if_neg first]
    refine body housed rfl rfl ?_ fun _ _ => rfl
    rw [entering, if_neg first]
    exact blank

/-- Lowering all blocks gives each of them framed code. -/
theorem lowerBlocks_frames (function : Nat) (blocks : List Source.Block) {d : Draft}
    (housed : Housed c.module c.homes d.storage) (once : (blocks.map (·.id)).Nodup)
    (inside : ∀ block ∈ blocks.map (·.id), block < d.blocks.size)
    (blank : ∀ block ∈ blocks.map (·.id), d.codeAt block = []) :
    Lower.Ensures c d (lowerBlocks function blocks) fun _ d' =>
      d.Frames c (blocks.map (·.id)) d' := by
  induction blocks generalizing d with
  | nil => exact .pure (Draft.frames_nil housed)
  | cons b rest ih =>
    rw [List.map_cons, List.nodup_cons] at once
    rw [List.map_cons] at inside blank ⊢
    have insideRest := (List.forall_mem_cons.1 inside).2
    have first := lowerBlock_frames ⟨function, b.id⟩ housed (inside _ List.mem_cons_self)
      (blank _ List.mem_cons_self)
    refine .bind first fun _ d₁ here => ?_
    have later := ih here.housed once.2
      (fun block mem => Nat.lt_of_lt_of_le (insideRest block mem) here.size)
      fun block mem => by
        have other : block ∉ [b.id] := by
          rw [List.mem_singleton]
          rintro rfl
          exact once.1 mem
        rw [here.others block (insideRest block mem) other]
        exact blank block (List.mem_cons_of_mem _ mem)
    exact fun _ _ run => here.cons (later run) inside once.1

/-! ## Bodies -/

/-- A block of the finished body has the code that its label has in the draft. -/
theorem Draft.code_of_mem_finish {d : Draft} {b : Code.Block} {label : Nat}
    (there : d.finish[label]? = some b) : b.code = d.codeAt label ∧ b.label = label := by
  rw [Draft.getElem?_finish] at there
  obtain ⟨b', found, rfl⟩ := Option.map_eq_some_iff.1 there
  rw [Draft.codeAt, found]
  exact ⟨rfl, rfl⟩

/-- At the end of a lowering all source blocks are written, on a draft in which they were blank. -/
theorem lowering_frames {function : Nat} {f : Function} (numbered : f.Numbered) :
    Lower.Ensures c (startDraft f) (lowerBody function f) fun _ d => ∃ (homes : Homes) (d₀ : Draft),
      d₀.blocks.size = f.blocks.size ∧
        d₀.Frames { c with homes } (List.range f.blocks.size) d := by
  refine .read Lower.module_reads fun _ same => ?_
  rw [same]
  refine .bind (allocated_starts f) fun homes d₀ ⟨same, housed⟩ => ?_
  refine Lower.housed_ensures fun _ d run => ⟨homes, d₀, ?_⟩
  have blocks : d₀.blocks = (startDraft f).blocks := by rw [same]
  have size : d₀.blocks.size = f.blocks.size := by rw [blocks, startDraft, Array.size_map]
  refine ⟨size, ?_⟩
  rw [← numbered.map_id]
  refine lowerBlocks_frames (c := { c with homes }) function f.blocks.toList housed ?_ ?_ ?_ run
  · rw [numbered.map_id]
    exact List.nodup_range
  · rw [numbered.map_id, size]
    exact fun _ => List.mem_range.1
  · intro block _
    rw [Draft.codeAt, blocks, startDraft, Array.getElem?_map]
    cases f.blocks[block]? <;> rfl

/-- When all blocks are framed, the frame is started once, in the first of them. -/
theorem Draft.Frames.balanced {d₀ d : Draft} {size : Nat} (h : d₀.Frames c (List.range size) d)
    (positive : 0 < size) (same : d₀.blocks.size = size) : Balanced c.needsFrame d.finish := by
  have some : 0 < d.finish.length := by
    rw [Draft.finish, List.length_map, List.length_zipIdx, Array.length_toList]
    exact Nat.lt_of_lt_of_le (same ▸ positive) h.size
  obtain ⟨first, rest, listed⟩ := List.exists_cons_of_length_pos some
  have head : d.finish[0]? = Option.some first := by rw [listed]; rfl
  obtain ⟨code, zero⟩ := Draft.code_of_mem_finish head
  obtain ⟨more, written, framed⟩ := h.written 0 (List.mem_range.2 positive)
  refine ⟨first, rest, more, listed, zero, ?_, framed, ?_⟩
  · rw [code, written, entering]
    rfl
  · intro b mem
    obtain ⟨k, at'⟩ := List.mem_iff_getElem?.1 mem
    have there : d.finish[k + 1]? = Option.some b := by rw [listed]; exact at'
    rw [(Draft.code_of_mem_finish there).1]
    by_cases old : k + 1 < size
    · obtain ⟨more, written, framed⟩ := h.written (k + 1) (List.mem_range.2 old)
      rw [written]
      exact framed
    · exact h.made (k + 1) (same ▸ Nat.not_lt.1 old)

/-- So frames are balanced in a lowered function. -/
theorem lowerFunction_balanced {conventions : Conventions} {throwing : Throwing} {m : Module}
    (built : m.Built) {function : Nat} {body : Code.Body}
    (lowered : (lowerFunction conventions m throwing function).1 = .ok body) :
    Balanced body.needsFrame body.blocks := by
  obtain ⟨f, returns, signature, d, found, defined, ran, rfl⟩ := lowerFunction_eq_body lowered
  obtain ⟨homes, d₀, size, frames⟩ := lowering_frames (Source.numbered_of_built built found) ran
  have positive : 0 < f.blocks.size := by
    rw [Nat.pos_iff_ne_zero]
    intro none
    rw [Function.isDeclaration, Array.isEmpty, none] at defined
    cases defined
  exact frames.balanced positive size

/-- How a body uses its heap frame, if it has one: it enters the frame once, before all else, and
leaves it right before each return and nowhere else; a check for an exception in flight leaves it
itself.  A body without a frame knows nothing of one. -/
structure FrameBalance (framed : Bool) (s : Storage) (blocks : List Code.Block) : Prop where
  enters : framed = true → ∃ first rest code, blocks = first :: rest ∧ first.label = 0 ∧
    first.code = .enterFrame :: code ∧ .enterFrame ∉ code ∧ ∀ b ∈ rest, .enterFrame ∉ b.code
  returns : framed = true → ∀ b ∈ blocks, ∀ front i rest, b.code = front ++ i :: rest →
    i.isReturn = true → front.getLast? = some .leaveFrame
  leaves : ∀ b ∈ blocks, ∀ front rest, b.code = front ++ .leaveFrame :: rest →
    framed = true ∧ ∃ i more, rest = i :: more ∧ i.isReturn = true
  pending : ∀ b ∈ blocks, ∀ ty leaves, .retIfPending ty leaves ∈ b.code → leaves = framed
  unframed : framed = false → (∀ b ∈ blocks, .enterFrame ∉ b.code ∧ .leaveFrame ∉ b.code) ∧
    ∀ v ∈ s.entries, ∀ index, v.place ≠ .frameField index

/-- Balanced code with an orderly table has frame fields only with a frame. -/
theorem frameBalance_of_balanced {framed : Bool} {s : Storage} {blocks : List Code.Block}
    (h : Balanced framed blocks) (orderly : s.Orderly framed) : FrameBalance framed s blocks := by
  have leaves : ∀ b ∈ blocks, ∀ front rest, b.code = front ++ .leaveFrame :: rest →
      framed = true ∧ ∃ i more, rest = i :: more ∧ i.isReturn = true := by
    intro b mem front rest same
    obtain ⟨near, -, here⟩ := h.framed_around mem same nofun
    exact here.return_behind
  refine ⟨?_, ?_, leaves, ?_, ?_⟩
  · rintro rfl
    obtain ⟨first, rest, code, rfl, zero, enters, here, elsewhere⟩ := h
    exact ⟨first, rest, code, rfl, zero, enters, here.enterFrame_not_mem, fun b mem =>
      (elsewhere b mem).enterFrame_not_mem⟩
  · rintro rfl b mem front i rest same returns
    have other : i ≠ .enterFrame := by
      rintro rfl
      cases returns
    obtain ⟨near, ⟨before, rfl⟩, here⟩ := h.framed_around mem same other
    rw [List.getLast?_append, here.leave_before returns]
    rfl
  · intro b mem ty leaves there
    obtain ⟨front, rest, same⟩ := List.append_of_mem there
    obtain ⟨near, -, here⟩ := h.framed_around mem same nofun
    exact here.leaves_eq (List.mem_append_right _ List.mem_cons_self)
  · rintro rfl
    refine ⟨fun b mem => ⟨?_, fun there => ?_⟩, fun v mem index place => ?_⟩
    · obtain ⟨first, rest, code, rfl, -, enters, here, elsewhere⟩ := h
      rcases List.mem_cons.1 mem with rfl | later
      · rw [enters]
        exact here.enterFrame_not_mem
      · exact (elsewhere b later).enterFrame_not_mem
    · obtain ⟨front, rest, same⟩ := List.append_of_mem there
      exact Bool.false_ne_true (leaves b mem front rest same).1
    · exact Bool.false_ne_true (orderly.framed_of_frameField mem place)

/-- Every lowered body uses its frame as it should, and so it does after the optimizer, on every
level.  Nothing stands between the end of the frame and the return, so in particular no frame field
is named there. -/
theorem frames_balanced {m : Module} (built : m.Built) (conventions : Conventions)
    (throwing : Throwing) {function : Nat} {body : Code.Body}
    (lowered : (lowerFunction conventions m throwing function).1 = .ok body) :
    body.needsFrame = throwing.needsFrame function ∧
    FrameBalance body.needsFrame body.storage body.blocks ∧
    ∀ level, FrameBalance body.needsFrame (optimizeBody level body).1.storage
      (optimizeBody level body).1.blocks := by
  obtain ⟨frame, orderly, -⟩ := lowerFunction_permits lowered
  have balanced := lowerFunction_balanced built lowered
  refine ⟨frame, frameBalance_of_balanced balanced orderly, fun level => ?_⟩
  exact frameBalance_of_balanced (Peephole.optimize_balanced level balanced) orderly

/-- A function with a variable in its frame that offers an exception to one handler and returns if
that refuses. -/
def shelteringSteps : List Source.Step :=
  [.intern .void, .intern (.function 0 [] false), .intern (.int 32), .intern (.function 2 [] true),
    .addFunction "__cxa_throw" 1, .addFunction "__gxx_personality_v0" 3, .addFunction "shelter" 1,
    .setPersonality 2 1, .appendBlock 2 "entry", .appendBlock 2 "done", .appendBlock 2 "dispatch",
    .appendBlock 2 "handler", .noneToken,
    .positionAt 2 0, .alloca 2 none, .invoke 1 0 [] 1 2,
    .positionAt 2 1, .call 1 0 [], .ret none,
    .positionAt 2 2, .catchSwitch 3 [3] none,
    .positionAt 2 3, .catchPad 9 [], .catchRet 10 1]

/-- The module that they build. -/
def sheltering : Module := Source.build "sheltering" shelteringSteps

/-- The body has three ways out: a return, the check in front of it, and the return when the handler
has refused, in a block of its own. -/
theorem frames_balanced_sheltering : ∃ body,
    (lowerFunction .natural sheltering (Throwing.analyze .natural sheltering).1 2).1 = .ok body ∧
    body.needsFrame = true ∧
    body.blocks[1]?.map (·.code) = some [.call (.function 0) ⟨[], .void⟩,
      .retIfPending .void true, .leaveFrame, .ret false] ∧
    body.blocks[4]? = some ⟨4, none, [.leaveFrame, .retDefault .void]⟩ ∧
    FrameBalance true (optimizeBody .aggressive body).1.storage
      (optimizeBody .aggressive body).1.blocks := by
  have made : ((lowerFunction .natural sheltering (Throwing.analyze .natural sheltering).1 2).1.map
      fun body => (body.needsFrame, body.blocks[1]?.map (·.code), body.blocks[4]?)).toOption =
      some (true, some [.call (.function 0) ⟨[], .void⟩, .retIfPending .void true, .leaveFrame,
        .ret false], some ⟨4, none, [.leaveFrame, .retDefault .void]⟩) := by
    decide +kernel
  cases lowered :
      (lowerFunction .natural sheltering (Throwing.analyze .natural sheltering).1 2).1 with
  | error fault =>
    rw [lowered] at made
    cases made
  | ok body =>
    rw [lowered] at made
    obtain ⟨frame, exits⟩ := Prod.mk.inj (Option.some.inj made)
    obtain ⟨returns, refused⟩ := Prod.mk.inj exits
    obtain ⟨-, -, balanced⟩ := frames_balanced ⟨_, shelteringSteps, rfl⟩ .natural _ lowered
    refine ⟨body, rfl, frame, returns, refused, ?_⟩
    exact frame ▸ balanced .aggressive

end Stackwise.Lowering
