import Stackwise.Proofs.Lowering.Allocation
import Stackwise.Proofs.Lowering.Exits

/-!
# Bodies in the making

A step of `Lower` jumps back and forth between the blocks of a draft, so what it keeps is a property
of all blocks at once.  A draft knows a set of labels that are still to be written (`todo`); of the
rest,

* every block is accepted as it stands (`Draft.Closed`), or
* every block is, except that the current one has only come so far, to some height (`Draft.Open`).

Writing straight-line code keeps a draft open, writing an exit closes it, a new block is a label
more to be written, and a closed draft opens again at one of these.  Along the way the blocks of the
source stay in front.
-/

namespace Stackwise.Lowering

open Code (Accepted Instr Reaches)
open Source (Function Instruction Module Opcode)

/-! ## Steps on drafts -/

/-- A draft with code written at the end of the current block, which is `b`. -/
def Draft.write (d : Draft) (b : DraftBlock) (code : List Instr) (storage : Ledger) : Draft :=
  { d with
    storage
    blocks := d.blocks.setIfInBounds d.current { b with code := b.code ++ code } }

/-- Writing changes the current block only. -/
theorem Draft.getElem?_write {d : Draft} {b : DraftBlock} (there : d.blocks[d.current]? = some b)
    (code : List Instr) (storage : Ledger) (label : Nat) :
    (d.write b code storage).blocks[label]? =
      if d.current = label then some { b with code := b.code ++ code } else d.blocks[label]? := by
  obtain ⟨inside, -⟩ := Array.getElem?_eq_some_iff.1 there
  rw [Draft.write, Array.getElem?_setIfInBounds, if_pos inside]

theorem Draft.write_nil {d : Draft} {b : DraftBlock} (there : d.blocks[d.current]? = some b)
    (storage : Ledger) : d.write b [] storage = { d with storage } := by
  obtain ⟨inside, rfl⟩ := Array.getElem?_eq_some_iff.1 there
  rw [Draft.write, List.append_nil, Array.setIfInBounds, dif_pos inside]
  show { d with storage, blocks := d.blocks.set d.current d.blocks[d.current] inside } = _
  rw [Array.set_getElem_self]

/-- A finished block has its position as its label. -/
theorem Draft.getElem?_finish (d : Draft) (label : Nat) :
    d.finish[label]? = d.blocks[label]?.map fun b =>
      { label, origin := b.origin, code := b.code } := by
  rw [Draft.finish, List.getElem?_map, List.getElem?_zipIdx, Array.getElem?_toList,
    Option.map_map, Nat.zero_add]
  rfl

/-- The finished blocks are numbered by their position, which is their label. -/
theorem Draft.map_label_finish (d : Draft) :
    d.finish.map (·.label) = List.range d.finish.length := by
  rw [Draft.finish, List.map_map, List.length_map, List.length_zipIdx, List.range_eq_range',
    ← List.zipIdx_map_snd 0 d.blocks.toList]
  rfl

/-- Finishing keeps where blocks come from. -/
theorem Draft.map_origin_finish (d : Draft) :
    d.finish.map (·.origin) = d.blocks.toList.map (·.origin) := by
  rw [Draft.finish, List.map_map]
  conv => rhs; rw [← List.zipIdx_map_fst 0 d.blocks.toList, List.map_map]
  rfl

namespace Lower

variable {α β : Type} {c : Context} {d : Draft}

/-- What holds of the result of a step and the draft it leaves behind, unless it faults. -/
def Ensures (c : Context) (d : Draft) (step : Lower α) (Q : α → Draft → Prop) : Prop :=
  ∀ ⦃a : α⦄ ⦃d' : Draft⦄, step c d = .ok a d' → Q a d'

/-- A step that only looks something up. -/
def Reads (c : Context) (d : Draft) (step : Lower α) (P : α → Prop) : Prop :=
  Ensures c d step fun a d' => d' = d ∧ P a

theorem Ensures.pure {Q : α → Draft → Prop} {a : α} (h : Q a d) :
    Ensures c d (pure a : Lower α) Q := by
  intro a' d' run
  cases run
  exact h

/-- The second step may rely on what the first one ensures. -/
theorem Ensures.bind {x : Lower α} {f : α → Lower β} {P : α → Draft → Prop} {Q : β → Draft → Prop}
    (first : Ensures c d x P) (second : ∀ a d', P a d' → Ensures c d' (f a) Q) :
    Ensures c d (x >>= f) Q := by
  intro b d'' run
  change EStateM.bind (x c) (fun a => f a c) d = .ok b d'' at run
  rw [EStateM.bind] at run
  cases start : x c d with
  | error fault d' => simp [start] at run
  | ok a d' =>
    rw [start] at run
    exact second a d' (first start) run

/-- Behind a step that only looks something up, the draft is the same as before it. -/
theorem Ensures.read {x : Lower α} {f : α → Lower β} {P : α → Prop} {Q : β → Draft → Prop}
    (first : Reads c d x P) (second : ∀ a, P a → Ensures c d (f a) Q) :
    Ensures c d (x >>= f) Q := by
  refine Ensures.bind first ?_
  rintro a d' ⟨rfl, found⟩
  exact second a found

theorem context_reads : Reads c d (read : Lower Context) (· = c) := by
  intro a d' run
  cases run
  exact ⟨rfl, rfl⟩

theorem module_reads : Reads c d module (· = c.module) :=
  Ensures.read context_reads fun _ same => same ▸ Ensures.pure ⟨rfl, rfl⟩

/-- What is required is found, or the step stops. -/
theorem required_reads (a? : Option α) : Reads c d (required a?) (a? = some ·) := by
  cases a? with
  | none =>
    intro a d' run
    cases run
  | some a => exact Ensures.pure ⟨rfl, rfl⟩

/-- What a straight-line step ensures, it ensures of the code at the end of the current block. -/
theorem emit_ensures {step : Emit α} {Q : α → Draft → Prop}
    (h : ∀ b, d.blocks[d.current]? = some b → Emit.Ensures c d.storage step fun e =>
      Q e.value (d.write b e.code e.storage)) : Ensures c d (emit step) Q := by
  intro a d' run
  rw [emit] at run
  cases there : d.blocks[d.current]? with
  | none => simp [there] at run
  | some b =>
    rw [there] at run
    dsimp only at run
    cases written : step c ⟨d.current, b.code.length⟩ d.storage with
    | error fault => simp [written] at run
    | ok e =>
      rw [written] at run
      cases run
      exact h b there written

/-- A new block is added at the end, and its label is its position. -/
theorem newBlock_ensures {Q : Nat → Draft → Prop}
    (h : Q d.blocks.size { d with blocks := d.blocks.push { origin := none } }) :
    Ensures c d newBlock Q := by
  intro a d' run
  cases run
  exact h

/-- Only the place to write is moved. -/
theorem positionAt_ensures {Q : Unit → Draft → Prop} {label : Nat}
    (h : Q () { d with current := label }) : Ensures c d (positionAt label) Q := by
  intro a d' run
  cases run
  exact h

/-- A step that knows the variables of instructions runs in the context that names them. -/
theorem housed_ensures {homes : Homes} {step : Lower α} {Q : α → Draft → Prop}
    (h : Ensures { c with homes } d step Q) : Ensures c d (housed homes step) Q :=
  h

/-- An event is told behind all others. -/
theorem note_ensures {Q : Unit → Draft → Prop} {event : Event}
    (h : Q () { d with events := d.events ++ [event] }) : Ensures c d (note event) Q := by
  intro a d' run
  cases run
  exact h

end Lower

/-! ## Open and closed drafts -/

/-- What holds of a draft of a function at all times, when the labels of `todo` are still to be
written. -/
structure Draft.Sound (m : Module) (f : Function) (todo : Nat → Prop) (d : Draft) : Prop where
  origins : ∃ made, d.blocks.toList.map (·.origin) =
    f.blocks.toList.map (fun b => some b.id) ++ List.replicate made none
  inside : ∀ ⦃label : Nat⦄, todo label → label < d.blocks.size
  waiting : ∀ ⦃label : Nat⦄ ⦃b : DraftBlock⦄, d.blocks[label]? = some b → todo label → b.code = []

/-- The current block has come to a height; all others are finished or to be written. -/
structure Draft.Open (m : Module) (f : Function) (todo : Nat → Prop) (height : Nat) (d : Draft) :
    Prop extends Draft.Sound m f todo d where
  here : d.current < d.blocks.size
  away : ¬ todo d.current
  active : ∀ ⦃b : DraftBlock⦄, d.blocks[d.current]? = some b →
    Reaches d.blocks.size 0 b.code height
  finished : ∀ ⦃label : Nat⦄ ⦃b : DraftBlock⦄, d.blocks[label]? = some b → ¬ todo label →
    label ≠ d.current → Accepted d.blocks.size b.code

/-- All blocks are finished or to be written. -/
structure Draft.Closed (m : Module) (f : Function) (todo : Nat → Prop) (d : Draft) : Prop
    extends Draft.Sound m f todo d where
  finished : ∀ ⦃label : Nat⦄ ⦃b : DraftBlock⦄, d.blocks[label]? = some b → ¬ todo label →
    Accepted d.blocks.size b.code

namespace Draft

variable {c : Context} {m : Module} {f : Function} {todo : Nat → Prop} {d : Draft}

/-- A draft has the blocks of its function, and perhaps more. -/
theorem Sound.size_le (h : d.Sound m f todo) : f.blocks.size ≤ d.blocks.size := by
  obtain ⟨made, origins⟩ := h.origins
  have same := congrArg List.length origins
  rw [List.length_map, List.length_append, List.length_map, Array.length_toList,
    Array.length_toList] at same
  omega

theorem current_write (d : Draft) (b : DraftBlock) (code : List Instr) (storage : Ledger) :
    (d.write b code storage).current = d.current := rfl

theorem size_write (d : Draft) (b : DraftBlock) (code : List Instr) (storage : Ledger) :
    (d.write b code storage).blocks.size = d.blocks.size := by
  rw [write, Array.size_setIfInBounds]

/-- Writing changes no origin. -/
theorem origins_write {b : DraftBlock} (there : d.blocks[d.current]? = some b) (code : List Instr)
    (storage : Ledger) : (d.write b code storage).blocks.toList.map (·.origin) =
      d.blocks.toList.map (·.origin) := by
  apply List.ext_getElem?
  intro label
  rw [List.getElem?_map, List.getElem?_map, Array.getElem?_toList, Array.getElem?_toList,
    getElem?_write there]
  split
  · rename_i same
    rw [← same, there]
    rfl
  · rfl

/-- Writing in a block that is not to be written later. -/
theorem Sound.write {b : DraftBlock} (h : d.Sound m f todo)
    (there : d.blocks[d.current]? = some b) (away : ¬ todo d.current) (code : List Instr)
    (storage : Ledger) : (d.write b code storage).Sound m f todo where
  origins := by rw [origins_write there]; exact h.origins
  inside label waits := by rw [size_write]; exact h.inside waits
  waiting label b' there' waits := by
    rw [getElem?_write there] at there'
    split at there'
    · rename_i same
      exact absurd (same ▸ waits) away
    · exact h.waiting there' waits

/-- Code that climbs from the height of the current block goes on with it. -/
theorem Open.write {b : DraftBlock} {low high : Nat} {code : List Instr}
    (h : d.Open m f todo low) (there : d.blocks[d.current]? = some b)
    (reaches : Reaches d.blocks.size low code high) (storage : Ledger) :
    (d.write b code storage).Open m f todo high where
  toSound := h.toSound.write there h.away code storage
  here := by rw [size_write]; exact h.here
  away := h.away
  active b' there' := by
    rw [current_write, getElem?_write there, if_pos rfl] at there'
    cases there'
    rw [size_write]
    exact (h.active there).append reaches
  finished label b' there' done other := by
    rw [current_write] at other
    rw [getElem?_write there, if_neg (Ne.symm other)] at there'
    rw [size_write]
    exact h.finished there' done other

/-- Code that ends in a terminator with an empty stack closes the current block. -/
theorem Open.close {b : DraftBlock} {low : Nat} {code : List Instr}
    (h : d.Open m f todo low) (there : d.blocks[d.current]? = some b)
    (reaches : Reaches d.blocks.size low code 0) (ends : Code.endsInTerminator code = true)
    (storage : Ledger) : (d.write b code storage).Closed m f todo where
  toSound := h.toSound.write there h.away code storage
  finished label b' there' done := by
    rw [size_write]
    rw [getElem?_write there] at there'
    split at there'
    · -- The current block, which the new code brings to its end.
      cases there'
      exact ⟨(h.active there).append reaches, Code.endsInTerminator_append _ ends⟩
    · rename_i other
      exact h.finished there' done (Ne.symm other)

/-! ## Steps between them -/

/-- A step that settles goes on with the current block. -/
theorem Open.emit {α : Type} {step : Emit α} {low high : Nat} (h : d.Open c.module f todo low)
    (settles : Emit.Settles c d.storage step d.blocks.size low high) :
    Lower.Ensures c d (Lower.emit step) fun _ d' => d'.Open c.module f todo high :=
  Lower.emit_ensures fun _ there => Emit.Ensures.imp settles fun _ ⟨reaches, _⟩ =>
    h.write there reaches _

/-- A step that closes leaves no block open. -/
theorem Open.emit_closes {α : Type} {step : Emit α} {low : Nat} (h : d.Open c.module f todo low)
    (closes : Emit.Closes c d.storage step d.blocks.size low) :
    Lower.Ensures c d (Lower.emit step) fun _ d' => d'.Closed c.module f todo :=
  Lower.emit_ensures fun _ there => Emit.Ensures.imp closes fun _ ⟨⟨reaches, ends⟩, _⟩ =>
    h.close there reaches ends _

/-- A step that only looks something up leaves the block open at its height. -/
theorem Open.emit_read {α : Type} {step : Emit α} {P : α → Prop} {height : Nat}
    (h : d.Open c.module f todo height) (reads : Emit.Reads c d.storage step P) :
    Lower.Ensures c d (Lower.emit step) fun a d' => d'.Open c.module f todo height ∧ P a := by
  refine Lower.emit_ensures fun _ there => Emit.Ensures.imp reads ?_
  rintro ⟨a, s, code⟩ ⟨rfl, rfl, found⟩
  exact ⟨h.write there (by simp) _, found⟩

theorem Open.note {event : Event} {height : Nat} (h : d.Open c.module f todo height) :
    Lower.Ensures c d (Lower.note event) fun _ d' => d'.Open c.module f todo height :=
  Lower.note_ensures
    ⟨⟨h.origins, h.inside, h.waiting⟩, h.here, h.away, h.active, h.finished⟩

/-- A draft with a new block at its end. -/
def grow (d : Draft) : Draft := { d with blocks := d.blocks.push { origin := none } }

theorem size_le_size_grow (d : Draft) : d.blocks.size ≤ d.grow.blocks.size := by
  rw [grow, Array.size_push]
  exact Nat.le_succ _

/-- Only the last block is new. -/
theorem getElem?_of_grow {label : Nat} {b : DraftBlock} (there : d.grow.blocks[label]? = some b)
    (other : label ≠ d.blocks.size) : d.blocks[label]? = some b := by
  rwa [grow, Array.getElem?_push, if_neg other] at there

/-- The label of the next block is not waited for. -/
theorem Sound.fresh (h : d.Sound m f todo) : ¬ todo d.blocks.size :=
  fun waits => Nat.lt_irrefl _ (h.inside waits)

/-- A new block is to be written. -/
theorem Sound.grow (h : d.Sound m f todo) :
    d.grow.Sound m f (fun label => todo label ∨ label = d.blocks.size) where
  origins := by
    obtain ⟨made, origins⟩ := h.origins
    refine ⟨made + 1, ?_⟩
    rw [Draft.grow, Array.toList_push, List.map_append, origins, List.append_assoc,
      List.replicate_succ']
    rfl
  inside := by
    rintro label (waits | rfl)
    · exact Nat.lt_of_lt_of_le (h.inside waits) d.size_le_size_grow
    · rw [Draft.grow, Array.size_push]
      exact Nat.lt_succ_self _
  waiting := by
    rintro label b there (waits | rfl)
    · exact h.waiting (getElem?_of_grow there (Nat.ne_of_lt (h.inside waits))) waits
    · rw [Draft.grow, Array.getElem?_push_size] at there
      cases there
      rfl

/-- The current block stays open when a block is added. -/
theorem Open.grow {height : Nat} (h : d.Open m f todo height) :
    d.grow.Open m f (fun label => todo label ∨ label = d.blocks.size) height where
  toSound := h.toSound.grow
  here := Nat.lt_of_lt_of_le h.here d.size_le_size_grow
  away := by
    rintro (waits | last)
    · exact h.away waits
    · exact Nat.ne_of_lt h.here last
  active b there :=
    (h.active (getElem?_of_grow there (Nat.ne_of_lt h.here))).mono d.size_le_size_grow
  finished label b there done other := by
    obtain ⟨notTodo, notLast⟩ := not_or.1 done
    exact (h.finished (getElem?_of_grow there notLast) notTodo other).mono d.size_le_size_grow

/-- A new block is one more to be written. -/
theorem Open.newBlock {height : Nat} (h : d.Open c.module f todo height) :
    Lower.Ensures c d Lower.newBlock fun label d' =>
      d'.Open c.module f (fun l => todo l ∨ l = label) height ∧ ¬ todo label :=
  Lower.newBlock_ensures ⟨h.grow, h.fresh⟩

/-- A finished draft goes on at one of the blocks to be written. -/
theorem Closed.positionAt {label : Nat} (h : d.Closed c.module f todo) (waits : todo label) :
    Lower.Ensures c d (Lower.positionAt label) fun _ d' =>
      d'.Open c.module f (fun l => todo l ∧ l ≠ label) 0 := by
  have sound : Sound c.module f (fun l => todo l ∧ l ≠ label) { d with current := label } :=
    { origins := h.origins
      inside := fun _ still => h.inside still.1
      waiting := fun _ _ there still => h.waiting there still.1 }
  refine Lower.positionAt_ensures ⟨sound, h.inside waits, fun still => still.2 rfl, ?_, ?_⟩
  · intro b there
    rw [h.waiting there waits]
    simp
  · intro l b there done other
    exact h.finished there fun waits => done ⟨waits, other⟩

/-- The same for the block made last. -/
theorem Closed.positionAt_last {label : Nat}
    (h : d.Closed c.module f fun l => todo l ∨ l = label) (fresh : ¬ todo label) :
    Lower.Ensures c d (Lower.positionAt label) fun _ d' => d'.Open c.module f todo 0 := by
  have rest : (fun l => (todo l ∨ l = label) ∧ l ≠ label) = todo := by
    funext l
    apply propext
    constructor
    · rintro ⟨waits | same, other⟩
      · exact waits
      · exact absurd same other
    · intro waits
      exact ⟨.inl waits, fun same => fresh (same ▸ waits)⟩
  have step := h.positionAt (.inr rfl)
  rwa [rest] at step

end Draft

end Stackwise.Lowering
