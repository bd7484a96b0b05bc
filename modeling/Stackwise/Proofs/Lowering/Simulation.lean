import Stackwise.Proofs.Lowering.Bodies
import Stackwise.Proofs.Lowering.Execution

/-!
# Lowered bodies do what the source does

A run of the source is followed block by block: where the source enters a block with certain values,
the lowered body enters the block of the same number, with the values for its phis on the stack and
all others in their cells.  Between two source blocks the lowered body may pass through a block made
for the purpose, which no source block stands behind.

The code of a block is scattered over the construction of the body, so every step of it is judged by
what the finished body does from the place where the step began to write (`Draft.rest`).

* `Draft.Advances`: what a step may do to a draft, namely write at the end of the current block and
  add blocks.
* `Lower.Follows`: the code of a step does what some instructions of the source mean.
* `lowerBlocks_follows`: in the finished body, every block does what its source block does.
-/

namespace Stackwise.Lowering

open Code (Instr Storage)
open Source (Env Flow Function Instruction Meaning Module)

/-! ## Finished bodies -/

/-- The second draft has all that the first one has, and perhaps more code behind it. -/
structure Draft.Continues (m : Module) (d final : Draft) : Prop where
  storage : d.storage.Grows m final.storage
  blocks : ∀ ⦃label : Nat⦄ ⦃b : DraftBlock⦄, d.blocks[label]? = some b →
    ∃ more, final.blocks[label]? = some { b with code := b.code ++ more }

/-- What a step may have done to a draft: it has added code at the end of the current block, and
blocks behind all others, and it has stayed in the current block or gone to one of those. -/
structure Draft.Advances (m : Module) (d d' : Draft) : Prop where
  storage : d.storage.Grows m d'.storage
  size : d.blocks.size ≤ d'.blocks.size
  position : d'.current = d.current ∨ d.blocks.size ≤ d'.current
  inside : d.current < d.blocks.size → d'.current < d'.blocks.size
  here : ∀ ⦃b : DraftBlock⦄, d.blocks[d.current]? = some b →
    ∃ more, d'.blocks[d.current]? = some { b with code := b.code ++ more }
  elsewhere : ∀ ⦃label : Nat⦄, label < d.blocks.size → label ≠ d.current →
    d'.blocks[label]? = d.blocks[label]?

namespace Draft

variable {m : Module} {d d' d'' final : Draft}

/-- A draft that continues one that continues another continues that as well. -/
theorem Continues.trans (h : d.Continues m d') (h' : d'.Continues m d'') :
    d.Continues m d'' := by
  refine ⟨h.storage.trans h'.storage, fun label b there => ?_⟩
  obtain ⟨more, there'⟩ := h.blocks there
  obtain ⟨still, there''⟩ := h'.blocks there'
  exact ⟨more ++ still, by rw [there'', List.append_assoc]⟩

theorem Advances.refl (m : Module) (d : Draft) : d.Advances m d where
  storage := .refl _ _
  size := Nat.le_refl _
  position := .inl rfl
  inside := id
  here b there := ⟨[], by rw [there, List.append_nil]⟩
  elsewhere _ _ _ := rfl

/-- Steps can be chained: code stands behind code, and new blocks behind new ones. -/
theorem Advances.trans (h : d.Advances m d') (h' : d'.Advances m d'')
    (inside : d.current < d.blocks.size) : d.Advances m d'' where
  storage := h.storage.trans h'.storage
  size := Nat.le_trans h.size h'.size
  position := by
    rcases h'.position with same | beyond
    · rw [same]
      exact h.position
    · exact .inr (Nat.le_trans h.size beyond)
  inside _ := h'.inside (h.inside inside)
  here b there := by
    obtain ⟨more, there'⟩ := h.here there
    rcases h.position with same | beyond
    · rw [← same] at there' ⊢
      obtain ⟨still, there''⟩ := h'.here there'
      exact ⟨more ++ still, by rw [there'', List.append_assoc]⟩
    · refine ⟨more, ?_⟩
      rw [h'.elsewhere (Nat.lt_of_lt_of_le inside h.size)
        (Nat.ne_of_lt (Nat.lt_of_lt_of_le inside beyond)), there']
  elsewhere label old other := by
    have away : label ≠ d'.current := by
      rcases h.position with same | beyond
      · rw [same]
        exact other
      · exact Nat.ne_of_lt (Nat.lt_of_lt_of_le old beyond)
    rw [h'.elsewhere (Nat.lt_of_lt_of_le old h.size) away, h.elsewhere old other]

/-- After a step, all that was there is still there. -/
theorem Advances.continues (h : d.Advances m d') : d.Continues m d' := by
  refine ⟨h.storage, fun label b there => ?_⟩
  by_cases same : label = d.current
  · subst same
    exact h.here there
  · refine ⟨[], ?_⟩
    rw [h.elsewhere (Array.getElem?_eq_some_iff.1 there).1 same, there, List.append_nil]

/-- Writing in the current block is such a step. -/
theorem advances_write {b : DraftBlock} (there : d.blocks[d.current]? = some b)
    (code : List Instr) {storage : Ledger} (grown : d.storage.Grows m storage) :
    d.Advances m (d.write b code storage) where
  storage := grown
  size := Nat.le_of_eq (size_write ..).symm
  position := .inl rfl
  inside := by
    rw [size_write]
    exact id
  here b' there' := by
    rw [there] at there'
    cases there'
    exact ⟨code, by rw [getElem?_write there, if_pos rfl]⟩
  elsewhere label _ other := by rw [getElem?_write there, if_neg (Ne.symm other)]

theorem getElem?_grow {label : Nat} (old : label < d.blocks.size) :
    d.grow.blocks[label]? = d.blocks[label]? := by
  rw [Draft.grow, Array.getElem?_push, if_neg (Nat.ne_of_lt old)]

theorem advances_grow (inside : d.current < d.blocks.size) : d.Advances m d.grow := by
  refine ⟨.refl _ _, d.size_le_size_grow, .inl rfl,
    fun inside => Nat.lt_of_lt_of_le inside d.size_le_size_grow, ?_, ?_⟩
  · intro b there
    exact ⟨[], by rw [getElem?_grow inside, there, List.append_nil]⟩
  · intro label old _
    exact getElem?_grow old

theorem continues_grow (m : Module) (d : Draft) : d.Continues m d.grow := by
  refine ⟨.refl _ _, fun label b there => ⟨[], ?_⟩⟩
  rw [getElem?_grow (Array.getElem?_eq_some_iff.1 there).1, there, List.append_nil]

theorem continues_positionAt (m : Module) (d : Draft) (label : Nat) :
    d.Continues m { d with current := label } :=
  ⟨.refl _ _, fun _ b there => ⟨[], by rw [there, List.append_nil]⟩⟩

theorem Advances.positionAt {label : Nat} (h : d.Advances m d') (new : d.blocks.size ≤ label)
    (inside : label < d'.blocks.size) : d.Advances m { d' with current := label } :=
  ⟨h.storage, h.size, .inr new, fun _ => inside, h.here, h.elsewhere⟩

/-- The code of a block, as far as it is written. -/
def codeAt (d : Draft) (label : Nat) : List Instr :=
  (d.blocks[label]?.map (·.code)).getD []

/-- What a finished draft has behind the code that another one has written in its current block. -/
def rest (final d : Draft) : List Instr :=
  (final.codeAt d.current).drop (d.codeAt d.current).length

/-- What a finished draft has behind the code before is the code that was written, and then the rest
behind it. -/
theorem rest_write {b : DraftBlock} {code : List Instr} {storage : Ledger}
    (there : d.blocks[d.current]? = some b)
    (h : (d.write b code storage).Continues m final) :
    final.rest d = code ++ final.rest (d.write b code storage) := by
  have there' : (d.write b code storage).blocks[d.current]? =
      some { b with code := b.code ++ code } := by
    rw [getElem?_write there, if_pos rfl]
  obtain ⟨more, finally'⟩ := h.blocks there'
  rw [rest, rest, current_write, codeAt, codeAt, codeAt, there, there', finally']
  simp only [Option.map_some, Option.getD_some, List.append_assoc, List.drop_left]
  rw [← List.append_assoc, List.drop_left]

/-- Adding a block does not change what is behind the current one. -/
theorem rest_grow (final : Draft) (inside : d.current < d.blocks.size) :
    final.rest d.grow = final.rest d := by
  have same : d.grow.codeAt d.current = d.codeAt d.current := by
    rw [codeAt, codeAt, getElem?_grow inside]
  show (final.codeAt d.current).drop (d.grow.codeAt d.current).length = _
  rw [same, rest]

end Draft

/-- Behind a block without code stands all that the finished block has. -/
theorem Draft.rest_blank {d final : Draft} {b b' : DraftBlock}
    (there : d.blocks[d.current]? = some b) (blank : b.code = [])
    (there' : final.blocks[d.current]? = some b') : final.rest d = b'.code := by
  rw [rest, codeAt, codeAt, there, there']
  simp [blank]

/-- The second draft has code with a certain property at the end of the block that is current in
both. -/
def Draft.Emits (m : Module) (d d' : Draft) (Q : Storage → List Instr → Prop) : Prop :=
  ∃ b code storage, d.blocks[d.current]? = some b ∧ d' = d.write b code storage ∧
    d.storage.Grows m storage ∧ ∀ final, storage.Grows m final → Q final code

/-- A step that writes code puts it at the end of the current block. -/
theorem Lower.emit_writes {α : Type} {c : Context} {d : Draft} {step : Emit α}
    {Q : Storage → List Instr → Prop} (h : Emit.Writes c d.storage step Q) :
    Lower.Ensures c d (Lower.emit step) fun _ d' => d.Emits c.module d' Q :=
  Lower.emit_ensures fun b there => Emit.Ensures.imp h fun e ⟨grown, holds⟩ =>
    ⟨b, e.code, e.storage, there, rfl, grown, holds⟩

namespace Draft.Emits

variable {m : Module} {d d' final : Draft} {Q : Storage → List Instr → Prop}

/-- Code can only have been written in a block that exists. -/
theorem inside (h : d.Emits m d' Q) : d.current < d.blocks.size := by
  obtain ⟨b, -, -, there, -⟩ := h
  exact (Array.getElem?_eq_some_iff.1 there).1

/-- Writing code goes on from steps that were done before. -/
theorem advances {start : Draft} (h : d.Emits m d' Q) (before : start.Advances m d)
    (inside : start.current < start.blocks.size) : start.Advances m d' := by
  obtain ⟨b, code, storage, there, rfl, grown, -⟩ := h
  exact before.trans (advances_write there code grown) inside

theorem continues (h : d.Emits m d' Q) : d.Continues m d' :=
  (h.advances (.refl m d) h.inside).continues

/-- The code stands where it was written, and the code of later steps behind it. -/
theorem rest (h : d.Emits m d' Q) (later : d'.Continues m final) :
    ∃ code, final.rest d = code ++ final.rest d' ∧ Q final.storage code := by
  obtain ⟨b, code, storage, there, rfl, -, holds⟩ := h
  exact ⟨code, rest_write there later, holds final.storage later.storage⟩

end Draft.Emits

/-! ## Following the source -/

section

variable {V S : Type} (I : Interpretation V S)

/-- The code jumps to a block, or to a block made for the purpose that jumps there. -/
def Arrives (final : Draft) (code : List Instr) (stack : List V) (store : S) (target : Nat)
    (stack' : List V) (store' : S) : Prop :=
  (I.exec code stack store).ending = .jumped target stack' store' ∨
    ∃ detour b, final.blocks[detour]? = some b ∧ b.origin = none ∧
      (I.exec code stack store).ending = .jumped detour [] store' ∧
      (I.exec b.code [] store').ending = .jumped target stack' store'

/-- Where the source goes from the block `origin`, the code goes too. -/
def Obeys (c : Context) (function origin : Nat) (final : Draft) (code : List Instr)
    (stack : List V) (store : S) : Flow V → Prop
  | .return value => ∃ store', (I.exec code stack store).ending = .left value store'
  | .goto target env => ∃ store', Matches I c final.storage env store' ∧
      ∀ ⦃phis : List Nat⦄ ⦃xs : List V⦄, c.module.leadingPhis? function target = some phis →
        phis.map (I.meaning.incoming c.module function I.args env origin) = xs.map some →
          Arrives I final code stack store target xs.reverse store'

/-- A step whose code, wherever it stands in the finished body, does what the source does. -/
def Lower.Follows {α : Type} (c : Context) (function origin : Nat) (d : Draft) (step : Lower α)
    (flow : Env V → Option (Flow V)) : Prop :=
  Lower.Ensures c d step fun _ d' => d.Advances c.module d' ∧
    ∀ final, d'.Continues c.module final → ∀ ⦃env : Env V⦄ ⦃store : S⦄ ⦃way : Flow V⦄,
      Matches I c final.storage env store → flow env = some way →
        Obeys I c function origin final (final.rest d) [] store way

variable {I}

/-- Where code arrives depends only on how it ends. -/
theorem Arrives.congr {final : Draft} {code code' : List Instr} {stack stack₁ stack₂ : List V}
    {store store₁ store₂ : S} {target : Nat}
    (h : Arrives I final code' stack₁ store₁ target stack store)
    (same : (I.exec code stack₂ store₂).ending = (I.exec code' stack₁ store₁).ending) :
    Arrives I final code stack₂ store₂ target stack store := by
  rwa [Arrives, same]

/-- Whether code goes where the source goes depends only on how it ends. -/
theorem Obeys.congr {c : Context} {function origin : Nat} {final : Draft} {code code' : List Instr}
    {stack stack' : List V} {store store' : S} {way : Flow V}
    (h : Obeys I c function origin final code' stack' store' way)
    (same : (I.exec code stack store).ending = (I.exec code' stack' store').ending) :
    Obeys I c function origin final code stack store way := by
  cases way with
  | «return» value =>
    obtain ⟨after, left⟩ := h
    exact ⟨after, by rw [same, left]⟩
  | goto target env =>
    obtain ⟨after, holds, arrives⟩ := h
    exact ⟨after, holds, fun phis xs leading values => (arrives leading values).congr same⟩

/-! ## Branches -/

/-- A function of the core is lowered, under a faithful interpretation. -/
structure Scene (I : Interpretation V S) (c : Context) (function : Nat) (f : Function) : Prop where
  here : c.function = some function
  found : c.module.function? function = some f
  core : c.module.isCore f = true
  faithful : Faithful I c.conventions c.module f

variable {c : Context} {function block : Nat} {f : Function} {d : Draft}

/-- What comes in from a block is an operand of the phi. -/
theorem mem_operands_of_incomingFrom? {origin v : Nat} {operands : List Source.Operand}
    (h : Module.incomingFrom? origin operands = some v) : .value v ∈ operands := by
  fun_induction Module.incomingFrom? origin operands with
  | case1 => simp_all
  | case2 | case3 => simp_all
  | case4 => cases h

/-- In a function of the core, what phis take is in the core. -/
theorem Scene.incoming_isCore (scene : Scene I c function f) {target origin : Nat} :
    ∀ phis, c.module.leadingPhis? function target = some phis → ∀ phi ∈ phis, ∀ v,
      c.module.phiIncoming? phi origin = some v →
        (Source.Operand.value v).isCore c.module = true := by
  intro phis leading phi mem v incoming
  obtain ⟨i, inBody, -⟩ := mem_bodyOf_of_leadingPhis? scene.found leading mem
  rw [Module.phiIncoming?, instruction?_of_mem_bodyOf inBody, Option.bind_some] at incoming
  exact (Module.isCore_iff.1 scene.core inBody).2 _ (mem_operands_of_incomingFrom? incoming)

/-- An edge, from wherever it is written. -/
theorem edge_emits (scene : Scene I c function f) (block : Nat) (d : Draft) (target : Nat) :
    Lower.Ensures c d (Lower.emit (edge ⟨function, block⟩ target)) fun _ d' =>
      d.Emits c.module d' fun final code =>
        ∀ ⦃env : Env V⦄ ⦃store : S⦄ ⦃phis : List Nat⦄ ⦃xs : List V⦄,
          Matches I c final env store →
          c.module.leadingPhis? function target = some phis →
          phis.map (I.meaning.incoming c.module function I.args env block) = xs.map some →
            I.Ends code [] store (.jumped target xs.reverse store) :=
  Lower.emit_writes (edge_writes scene.faithful scene.here d.storage scene.incoming_isCore)

theorem instr_emits (d : Draft) (i : Instr) :
    Lower.Ensures c d (Lower.instr i) fun _ d' =>
      d.Emits c.module d' fun _ code => code = [i] :=
  Lower.emit_writes (Emit.instr_writes fun _ _ => rfl)

/-- A target without phis takes nothing over. -/
theorem eq_nil_of_startsWithPhi? {m : Module} {target : Nat} {phis : List Nat} {xs : List V}
    {value : Nat → Option V} (starts : m.startsWithPhi? function target = some false)
    (leading : m.leadingPhis? function target = some phis) (values : phis.map value = xs.map some) :
    xs = [] := by
  rw [Module.startsWithPhi?, leading, Option.map_some] at starts
  have none : phis = [] := by simpa using starts
  rw [none, List.map_nil, eq_comm, List.map_eq_nil_iff] at values
  exact values

/-- With a value on top of the stack, the code goes where the truth of the value says. -/
def Decides (I : Interpretation V S) (c : Context) (function block : Nat) (final : Draft)
    (code : List Instr) (target : Bool → Nat) : Prop :=
  ∀ ⦃env : Env V⦄ ⦃store : S⦄ ⦃x : V⦄ ⦃outcome : Bool⦄ ⦃phis : List Nat⦄ ⦃xs : List V⦄,
    Matches I c final.storage env store → I.meaning.truth x = some outcome →
    c.module.leadingPhis? function (target outcome) = some phis →
    phis.map (I.meaning.incoming c.module function I.args env block) = xs.map some →
      Arrives I final code [x] store (target outcome) xs.reverse store

/-- A jump to a target without phis, if the value is as it should be, and the edge to the other
target behind it. -/
theorem jump_follows (scene : Scene I c function f) (inside : d.current < d.blocks.size)
    (target : Bool → Nat) (side : Bool) {jump : Instr}
    (plain : c.module.startsWithPhi? function (target side) = some false)
    (jumps : ∀ {x} store, I.meaning.truth x = some side →
      I.Ends [jump] [x] store (.jumped (target side) [] store))
    (passes : ∀ {x} store, I.meaning.truth x = some (!side) →
      I.Leads [jump] [x] store [] store) :
    Lower.Ensures c d (do
      Lower.instr jump
      Lower.emit (edge ⟨function, block⟩ (target !side))) fun _ d' =>
        d.Advances c.module d' ∧ ∀ final, d'.Continues c.module final →
          Decides I c function block final (final.rest d) target := by
  refine .bind (instr_emits d jump) fun _ d₁ written => ?_
  intro _ d₂ run
  have edge := edge_emits scene block d₁ (target !side) run
  have advanced := written.advances (.refl _ _) inside
  refine ⟨edge.advances advanced inside, fun final later => ?_⟩
  intro env store x outcome phis xs holds decided leading values
  obtain ⟨_, rest, rfl⟩ := written.rest (edge.continues.trans later)
  obtain ⟨code, rest', ends⟩ := edge.rest later
  rw [rest, rest']
  left
  by_cases same : outcome = side
  · subst same
    rw [eq_nil_of_startsWithPhi? plain leading values]
    exact jumps store decided _
  · have other : outcome = !side := Bool.eq_not.2 same
    subst other
    rw [passes store decided]
    exact ends holds leading values _

/-- A jump to a new block, which holds the edge for true, and the edge for false behind it. -/
theorem detour_follows (scene : Scene I c function f) (inside : d.current < d.blocks.size)
    (ifTrue ifFalse : Nat) :
    Lower.Ensures c d (do
      let detour ← Lower.newBlock
      Lower.instr (.branchIfTrue detour)
      Lower.emit (edge ⟨function, block⟩ ifFalse)
      Lower.positionAt detour
      Lower.emit (edge ⟨function, block⟩ ifTrue)) fun _ d' =>
        d.Advances c.module d' ∧ ∀ final, d'.Continues c.module final →
          Decides I c function block final (final.rest d)
            fun outcome => if outcome then ifTrue else ifFalse := by
  refine .bind (Lower.newBlock_ensures (Q := fun label d' => label = d.blocks.size ∧ d' = d.grow)
    ⟨rfl, rfl⟩) ?_
  rintro _ _ ⟨rfl, rfl⟩
  refine .bind (instr_emits d.grow _) fun _ d₁ jump => ?_
  refine .bind (edge_emits scene block d₁ ifFalse) fun _ d₂ edge => ?_
  refine .bind (Lower.positionAt_ensures (Q := fun _ d' =>
    d' = { d₂ with current := d.blocks.size }) rfl) ?_
  rintro _ d₃ same _ d₄ run
  have edge' := edge_emits scene block d₃ ifTrue run
  have written : d.grow.Advances c.module d₂ :=
    edge.advances (jump.advances (.refl _ _) jump.inside) jump.inside
  have new : d.blocks.size < d.grow.blocks.size := by
    rw [Draft.grow, Array.size_push]
    exact Nat.lt_succ_self _
  have advanced : d.Advances c.module d₃ := by
    rw [same]
    exact (edge.advances (jump.advances (Draft.advances_grow inside) inside)
      inside).positionAt (Nat.le_refl _) (Nat.lt_of_lt_of_le new written.size)
  refine ⟨edge'.advances advanced inside, fun final later => ?_⟩
  intro env store x outcome phis xs holds decided leading values
  have later₃ := edge'.continues.trans later
  have later₂ : d₂.Continues c.module final := by
    rw [same] at later₃
    exact ⟨later₃.storage, later₃.blocks⟩
  obtain ⟨_, rest, rfl⟩ := jump.rest (edge.continues.trans later₂)
  obtain ⟨code, rest', ends⟩ := edge.rest later₂
  rw [← Draft.rest_grow final inside, rest, rest']
  cases outcome with
  | false =>
    left
    rw [leads_branchIfTrue scene.faithful _ [] store decided]
    exact ends holds leading values _
  | true =>
    right
    -- Nothing is written in the new block before the edge.
    have blank : d₃.blocks[d₃.current]? = some { origin := none } := by
      have added : d.grow.blocks[d.blocks.size]? = some { origin := none } := by
        rw [Draft.grow, Array.getElem?_push_size]
      rw [same, ← added]
      exact written.elsewhere new (Nat.ne_of_gt inside)
    obtain ⟨more, there⟩ := later₃.blocks blank
    obtain ⟨code', rest'', ends'⟩ := edge'.rest later
    rw [Draft.rest_blank blank rfl there] at rest''
    rw [same] at there
    refine ⟨d.blocks.size, _, there, rfl, ?_, ?_⟩
    · exact ends_branchIfTrue scene.faithful _ [] store decided _
    · rw [rest'']
      exact ends' holds leading values _

/-- A branch on the value on top of the stack goes where the value says. -/
theorem branchOn_follows (scene : Scene I c function f) (inside : d.current < d.blocks.size)
    (ifTrue ifFalse : Nat) :
    Lower.Ensures c d (branchOn ⟨function, block⟩ ifTrue ifFalse) fun _ d' =>
      d.Advances c.module d' ∧ ∀ final, d'.Continues c.module final →
        Decides I c function block final (final.rest d)
          fun outcome => if outcome then ifTrue else ifFalse := by
  refine .read (hasPhis_finds ifTrue) fun trueStarts knownTrue => ?_
  split
  · rename_i plain
    have starts : trueStarts = false := by simpa using plain
    rw [starts] at knownTrue
    exact jump_follows scene inside (fun outcome => if outcome then ifTrue else ifFalse) true
      knownTrue (ends_branchIfTrue scene.faithful ifTrue [])
      (leads_branchIfTrue scene.faithful ifTrue [])
  refine .read (hasPhis_finds ifFalse) fun falseStarts knownFalse => ?_
  split
  · rename_i plain
    have starts : falseStarts = false := by simpa using plain
    rw [starts] at knownFalse
    exact jump_follows scene inside (fun outcome => if outcome then ifTrue else ifFalse) false
      knownFalse (ends_branchIfFalse scene.faithful ifFalse [])
      (leads_branchIfFalse scene.faithful ifFalse [])
  · exact detour_follows scene inside ifTrue ifFalse

/-- A branch goes where the source branches to. -/
theorem lowerBr_follows (scene : Scene I c function f) (inside : d.current < d.blocks.size)
    {id : Nat} {i : Instruction} (mem : (id, i) ∈ c.module.bodyOf f) :
    Lower.Follows I c function block d (lowerBr ⟨function, block⟩ id i)
      fun env => I.meaning.branch c.module function I.args env i := by
  have core := (Module.isCore_iff.1 scene.core mem).2
  unfold lowerBr
  split
  · rename_i target operands
    intro _ d' run
    have edge := edge_emits scene block d target run
    refine ⟨edge.advances (.refl _ _) inside, fun final later env store way holds goes => ?_⟩
    simp only [Meaning.branch, operands, Option.some.injEq] at goes
    subst goes
    refine ⟨store, holds, fun phis xs leading values => .inl ?_⟩
    obtain ⟨code, rest, ends⟩ := edge.rest later
    rw [rest]
    exact ends holds leading values _
  · exact Lower.emit_ensures fun _ _ => Emit.breach_ensures _ _
  · rename_i cond ifFalse ifTrue operands
    have isCore : (Source.Operand.value cond).isCore c.module = true := by
      apply core
      rw [operands]
      exact List.mem_cons_self
    have pushes : Emit.Writes c d.storage (pushCondition cond id) (Pushes I c fun env =>
        I.meaning.eval c.module function I.args env cond) :=
      pushCondition_writes scene.faithful scene.here _ id isCore
    refine .bind (Lower.emit_writes pushes) fun _ d₁ pushed => ?_
    intro _ d₂ run
    have advanced := pushed.advances (.refl _ _) inside
    obtain ⟨advanced', arrives⟩ :=
      branchOn_follows scene (advanced.inside inside) ifTrue ifFalse run
    refine ⟨advanced.trans advanced' inside, fun final later env store way holds goes => ?_⟩
    simp only [Meaning.branch, operands, Option.map_eq_some_iff, Option.bind_eq_some_iff] at goes
    obtain ⟨outcome, ⟨x, value, decided⟩, rfl⟩ := goes
    refine ⟨store, holds, fun phis xs leading values => ?_⟩
    obtain ⟨code, rest, led⟩ := pushed.rest (advanced'.continues.trans later)
    rw [rest]
    exact (arrives final later holds decided leading values).congr (led holds value [] _)
  · exact Lower.emit_ensures fun _ _ => Emit.breach_ensures _ _
  · exact Lower.emit_ensures fun _ _ => .read Emit.spot_reads fun _ _ => Emit.breachAt_ensures _ _

/-- A return returns what the source returns. -/
theorem lowerRet_follows (scene : Scene I c function f) (inside : d.current < d.blocks.size)
    {id : Nat} {i : Instruction} (mem : (id, i) ∈ c.module.bodyOf f) :
    Lower.Follows I c function block d (Lower.emit (lowerRet i))
      fun env => I.meaning.leave c.module function I.args env i := by
  have writes := lowerRet_writes scene.faithful scene.here d.storage
    (Module.isCore_iff.1 scene.core mem).2
  intro _ d' run
  have emits := Lower.emit_writes writes run
  refine ⟨emits.advances (.refl _ _) inside, fun final later env store way holds leaves => ?_⟩
  obtain ⟨code, rest, ends⟩ := emits.rest later
  rw [rest]
  -- A return goes nowhere else.
  obtain ⟨value, rfl⟩ : ∃ value, way = .return value := by
    unfold Meaning.leave at leaves
    split at leaves
    · obtain ⟨x, -, same⟩ := Option.map_eq_some_iff.1 leaves
      exact ⟨some x, same.symm⟩
    · exact ⟨none, (Option.some.inj leaves).symm⟩
  obtain ⟨store', ends⟩ := ends holds leaves
  exact ⟨store', ends _⟩

/-! ## Blocks -/

/-- What is written behind a branch or a return does not matter. -/
theorem Lower.Follows.bind {α β : Type} {step : Lower α} {next : α → Lower β}
    {flow flow' : Env V → Option (Flow V)} (first : Lower.Follows I c function block d step flow)
    (inside : d.current < d.blocks.size)
    (later : ∀ a d', d.Advances c.module d' →
      Lower.Follows I c function block d' (next a) flow') :
    Lower.Follows I c function block d (step >>= next) flow := by
  refine Lower.Ensures.bind first fun a d₁ ⟨advanced, obeys⟩ => ?_
  intro _ d₂ run
  obtain ⟨advanced', -⟩ := later a d₁ advanced run
  exact ⟨advanced.trans advanced' inside, fun final continues =>
    obeys final (advanced'.continues.trans continues)⟩

/-- An operation on values, and what follows it. -/
theorem lowerOperation_follows {α : Type} (scene : Scene I c function f)
    (inside : d.current < d.blocks.size) (housed : Housed c.module c.homes d.storage) {id : Nat}
    {i : Instruction} (mem : (id, i) ∈ c.module.bodyOf f) {next : Lower α}
    {flow : Env V → Option (Flow V)}
    (later : ∀ d', d.Advances c.module d' → Lower.Follows I c function block d' next flow) :
    Lower.Follows I c function block d (do Lower.emit (lowerOperation id i); next) fun env =>
      (I.meaning.compute c.module function I.args env i).bind fun x => flow (env.set id x) := by
  have computes := lowerOperation_writes scene.faithful scene.here scene.core d.storage mem
  refine Lower.Ensures.bind (Lower.emit_writes computes) fun _ d₁ emits => ?_
  intro _ d₂ run
  have advanced := emits.advances (.refl _ _) inside
  obtain ⟨advanced', obeys⟩ := later d₁ advanced run
  refine ⟨advanced.trans advanced' inside, fun final continues env store way holds goes => ?_⟩
  obtain ⟨x, computed, goes⟩ := Option.bind_eq_some_iff.1 goes
  obtain ⟨code, rest, var, found, led⟩ := emits.rest (advanced'.continues.trans continues)
  -- The value is in its cell, so the rest of the block starts from a state that matches.
  have holds' : Matches I c final.storage (env.set id x) (I.write store var x) :=
    holds.set scene.faithful
      (housed.grows ((advanced.trans advanced' inside).continues.trans continues).storage)
      (instruction?_of_mem_bodyOf mem) (Module.isCore_iff.1 scene.core mem).1 found x
  rw [rest]
  exact (obeys final continues holds' goes).congr (led holds computed [] _)

/-- The instructions of a block, one after another, do what the source does. -/
theorem lowerInstructions_follows (scene : Scene I c function f)
    {code : List (Nat × Instruction)} (mem : ∀ p ∈ code, p ∈ c.module.bodyOf f)
    (inside : d.current < d.blocks.size) (housed : Housed c.module c.homes d.storage) :
    Lower.Follows I c function block d (lowerInstructions ⟨function, block⟩ code)
      fun env => I.meaning.flow c.module function I.args env code := by
  -- Code behind the first branch or return is lowered too, so the induction covers it.
  induction code generalizing d with
  | nil => exact .pure ⟨.refl _ _, fun _ _ _ _ _ _ goes => by cases goes⟩
  | cons p rest ih =>
    obtain ⟨id, i⟩ := p
    have inBody := mem (id, i) List.mem_cons_self
    have later (d' : Draft) (advanced : d.Advances c.module d') :=
      ih (fun p h => mem p (List.mem_cons_of_mem _ h)) (advanced.inside inside)
        (housed.grows advanced.storage)
    simp only [lowerInstructions, lowerInstruction, Meaning.flow]
    cases opcode : i.opcode with
    | br => exact (lowerBr_follows scene inside inBody).bind inside fun _ => later
    | ret => exact (lowerRet_follows scene inside inBody).bind inside fun _ => later
    | binary | icmp | select | freeze =>
      exact lowerOperation_follows scene inside housed inBody later
    | phi =>
      exact Lower.Ensures.bind (P := fun _ _ => False)
        (Lower.emit_ensures fun _ _ => Emit.unsupported_ensures _ _ _) nofun
    | _ =>
      have core := (Module.isCore_iff.1 scene.core inBody).1
      rw [opcode] at core
      cases core

/-- Behind the leading phis come the instructions that the source goes on with. -/
theorem drop_leadingPhis {m : Module} {phis : List Nat} {code : List (Nat × Instruction)}
    (listed : m.blockInstructions? function block = some code)
    (leading : m.leadingPhis? function block = some phis) :
    code.drop phis.length = Meaning.afterPhis code :=
  drop_length_leadingPhis listed leading

/-- From this code on, a block that has the values for its phis on the stack does what the source
does. -/
def Carries (I : Interpretation V S) (c : Context) (function block : Nat) (final : Draft)
    (written : List Instr) : Prop :=
  ∀ ⦃env : Env V⦄ ⦃store : S⦄ ⦃phis : List Nat⦄ ⦃xs : List V⦄
    ⦃code : List (Nat × Instruction)⦄ ⦃way : Flow V⦄,
    Matches I c final.storage env store → c.module.leadingPhis? function block = some phis →
    xs.length = phis.length → c.module.blockInstructions? function block = some code →
    I.meaning.flow c.module function I.args (env.assign (phis.zip xs)) (Meaning.afterPhis code) =
      some way → Obeys I c function block final written xs.reverse store way

/-- The phis of a block take their values over, then the other instructions follow. -/
theorem takeOver_follows (scene : Scene I c function f) (block : Nat)
    (inside : d.current < d.blocks.size) (housed : Housed c.module c.homes d.storage) :
    Lower.Ensures c d (do
      let m ← Lower.module
      let phis ← Lower.required (m.leadingPhis? function block)
      Lower.emit (takeOver phis.reverse)
      let code ← Lower.required (m.blockInstructions? function block)
      lowerInstructions ⟨function, block⟩ (code.drop phis.length)) fun _ d' =>
        d.Advances c.module d' ∧ ∀ final, d'.Continues c.module final →
          Carries I c function block final (final.rest d) := by
  refine .read Lower.module_reads fun _ same => ?_
  rw [same]
  refine .read (Lower.required_reads _) fun phis leading => ?_
  have core : ∀ phi ∈ phis.reverse,
      ∃ i, c.module.instruction? phi = some i ∧ i.opcode.isCore = true := by
    intro phi mem
    obtain ⟨i, inBody, -⟩ :=
      mem_bodyOf_of_leadingPhis? scene.found leading (List.mem_reverse.1 mem)
    exact ⟨i, instruction?_of_mem_bodyOf inBody, (Module.isCore_iff.1 scene.core inBody).1⟩
  refine .bind (Lower.emit_writes (takeOver_writes scene.faithful d.storage core)) ?_
  intro _ d₁ takes
  refine .read (Lower.required_reads _) fun code listed => ?_
  rw [drop_leadingPhis listed leading]
  have advanced := takes.advances (.refl _ _) inside
  intro _ d₂ run
  have inBody := mem_bodyOf_of_blockInstructions? scene.found listed
  obtain ⟨advanced', obeys⟩ := lowerInstructions_follows scene
    (fun p mem => inBody p (List.dropWhile_subset _ mem)) (advanced.inside inside)
    (housed.grows advanced.storage) run
  refine ⟨advanced.trans advanced' inside, fun final later => ?_⟩
  intro env store phis' xs code' way holds leading' arity listed' goes
  rw [leading] at leading'
  rw [listed] at listed'
  cases leading'
  cases listed'
  obtain ⟨before, rest, taken⟩ := takes.rest (advanced'.continues.trans later)
  have slots := housed.grows (advanced.continues.trans (advanced'.continues.trans later)).storage
  have arity' : xs.reverse.length = phis.reverse.length := by simpa using arity
  obtain ⟨store', led, holds'⟩ := taken slots holds arity'
  -- The last phi takes its value first; in the source all take theirs at once.
  have order : (phis.reverse.zip xs.reverse) = (phis.zip xs).reverse := by
    rw [List.zip_eq_zipWith, List.zip_eq_zipWith, List.reverse_zipWith arity.symm]
  rw [order, ← Env.assign_eq_foldl] at holds'
  rw [rest]
  exact (obeys final later holds' goes).congr (led _)

/-- In the finished body, the block of a source block does what the source does there. -/
def BlockObeys (I : Interpretation V S) (c : Context) (function : Nat) (final : Draft)
    (block : Nat) : Prop :=
  ∃ b, final.blocks[block]? = some b ∧ b.origin = some block ∧
    Carries I c function block final b.code

/-- A lowered block does what its source block does, in every draft that continues it. -/
theorem lowerBlock_follows (scene : Scene I c function f)
    (housed : Housed c.module c.homes d.storage)
    (blank : d.blocks[block]? = some { origin := some block }) :
    Lower.Ensures c d (lowerBlock ⟨function, block⟩) fun _ d' =>
      ({ d with current := block } : Draft).Advances c.module d' ∧
        ∀ final, d'.Continues c.module final → BlockObeys I c function final block := by
  have inside : block < d.blocks.size := (Array.getElem?_eq_some_iff.1 blank).1
  refine .bind (Lower.positionAt_ensures (Q := fun _ d' => d' = { d with current := block })
    rfl) ?_
  rintro _ d₀ rfl
  -- What is behind the empty block is the whole block.
  have whole {final : Draft} (later : Draft.Continues c.module { d with current := block } final)
      (carries : Carries I c function block final
        (final.rest { d with current := block })) :
      BlockObeys I c function final block := by
    obtain ⟨more, there⟩ := later.blocks blank
    refine ⟨_, there, rfl, ?_⟩
    rwa [Draft.rest_blank (d := { d with current := block }) blank rfl there] at carries
  refine .read Lower.context_reads fun _ _ => ?_
  split
  · -- The frame is entered first, which changes no cell.
    refine .bind (instr_emits _ _) fun _ d₁ enters => ?_
    intro _ d₂ run
    have advanced := enters.advances (.refl _ _) inside
    obtain ⟨advanced', carries⟩ := takeOver_follows scene block
      (advanced.inside inside) (housed.grows advanced.storage) run
    refine ⟨advanced.trans advanced' inside, fun final later => ?_⟩
    have later₁ := advanced'.continues.trans later
    refine whole (advanced.continues.trans later₁) ?_
    intro env store phis xs code way holds leading arity listed goes
    obtain ⟨_, rest, rfl⟩ := enters.rest later₁
    obtain ⟨store', led, same⟩ := leads_frame scene.faithful (.inl rfl) xs.reverse store
    rw [rest]
    exact (carries final later (holds.congr same) leading arity listed goes).congr (led _)
  · intro _ d₂ run
    obtain ⟨advanced, carries⟩ :=
      takeOver_follows (d := { d with current := block }) scene block inside housed run
    exact ⟨advanced, fun final later =>
      whole (advanced.continues.trans later) (carries final later)⟩

/-- Each source block is written in a block of its own, and later ones leave it as it is. -/
theorem lowerBlocks_follows (scene : Scene I c function f) {blocks : List Source.Block}
    (distinct : (blocks.map (·.id)).Nodup) (housed : Housed c.module c.homes d.storage)
    (blank : ∀ b ∈ blocks, d.blocks[b.id]? = some { origin := some b.id }) :
    Lower.Ensures c d (lowerBlocks function blocks) fun _ d' =>
      d.Continues c.module d' ∧ ∀ final, d'.Continues c.module final →
        ∀ b ∈ blocks, BlockObeys I c function final b.id := by
  induction blocks generalizing d with
  | nil => exact .pure ⟨(Draft.Advances.refl _ _).continues, fun _ _ _ mem => by cases mem⟩
  | cons b rest ih =>
    obtain ⟨fresh, distinct⟩ := List.nodup_cons.1 distinct
    refine .bind (lowerBlock_follows scene housed (blank b List.mem_cons_self)) ?_
    intro _ d₁ ⟨advanced, obeys⟩ _ d₂ run
    have blank' : ∀ b' ∈ rest, d₁.blocks[b'.id]? = some { origin := some b'.id } := by
      intro b' mem
      have there := blank b' (List.mem_cons_of_mem _ mem)
      rw [← there]
      apply advanced.elsewhere (Array.getElem?_eq_some_iff.1 there).1
      intro same
      exact fresh (List.mem_map.2 ⟨b', mem, same⟩)
    obtain ⟨later, others⟩ := ih distinct (housed.grows advanced.storage) blank' run
    have first : d.Continues c.module d₁ := ⟨advanced.storage, advanced.continues.blocks⟩
    refine ⟨first.trans later, fun final done b' mem => ?_⟩
    rcases List.mem_cons.1 mem with rfl | mem
    · exact obeys final (later.trans done)
    · exact others final done b' mem

end

end Stackwise.Lowering
