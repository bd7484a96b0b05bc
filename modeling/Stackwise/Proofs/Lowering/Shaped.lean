import Stackwise.Proofs.Lowering.Shape
import Stackwise.Proofs.Lowering.Verified

/-!
# Lowered bodies have their shapes

`lowering_shapes` says that every block of a lowered body has the code that its role asks for.

The argument runs along drafts, like the one for balance.  A draft is *shaped* if all blocks but
those to be written have their code (`Draft.Shaped`), and it is being written if this is so of all
others, and the current block has it as soon as the right rest is written behind it
(`Draft.Writing`).  What the right rest is, the caller says; so a step is told what is to come, and
says what is still to come behind it.

Roles are not part of a draft: the judgement `Lower.Shapes` carries them along.  A block gets its
role when it is made, and all that is said about code holds in every later world, so that what is
written early may mention blocks written late.
-/

namespace Stackwise.Lowering

open Code (Instr Storage)
open Source (Function Instruction Module Opcode)

/-! ## Shaped drafts -/

/-- A draft with the roles of its blocks, in which the labels of `todo` are still to be written. -/
structure Draft.Charted (c : Context) (todo : Nat → Prop) (roles : List Role) (d : Draft) :
    Prop where
  housed : Housed c.module c.homes d.storage
  covered : roles.length = d.blocks.size
  inside : ∀ ⦃label : Nat⦄, todo label → label < d.blocks.size
  waiting : ∀ ⦃label : Nat⦄ ⦃b : DraftBlock⦄, d.blocks[label]? = some b → todo label → b.code = []

/-- The world in which a draft is judged. -/
def Draft.world (d : Draft) (roles : List Role) : World := ⟨d.storage, roles⟩

/-- A world after one with more variables comes after the draft. -/
theorem Draft.world_later {m : Module} {d : Draft} {roles : List Role} {storage : Ledger}
    {w : World} (grown : d.storage.Grows m storage)
    (later : World.Later m ⟨storage, roles⟩ w) : (d.world roles).Later m w :=
  ⟨grown.trans later.storage, later.roles⟩

/-- Code has a property now and in every later world. -/
def Settled (m : Module) (w : World) (P : World → Prop) : Prop := ∀ w', w.Later m w' → P w'

/-- All blocks but those to be written have the code that their role asks for. -/
structure Draft.Shaped (c : Context) (function : Nat) (todo : Nat → Prop) (roles : List Role)
    (d : Draft) : Prop extends Draft.Charted c todo roles d where
  written : ∀ ⦃label : Nat⦄ ⦃b : DraftBlock⦄ ⦃role : Role⦄, d.blocks[label]? = some b →
    ¬ todo label → roles[label]? = some role →
      Settled c.module (d.world roles) fun w => BlockCode c function w role b.code

/-- The same of all but the current block, which lacks a rest of the given shape. -/
structure Draft.Writing (c : Context) (function : Nat) (todo : Nat → Prop)
    (Rest : World → List Instr → Prop) (roles : List Role) (d : Draft) : Prop
    extends Draft.Charted c todo roles d where
  here : d.current < d.blocks.size
  away : ¬ todo d.current
  active : ∀ ⦃b : DraftBlock⦄ ⦃role : Role⦄, d.blocks[d.current]? = some b →
    roles[d.current]? = some role → Settled c.module (d.world roles) fun w =>
      ∀ rest, Rest w rest → BlockCode c function w role (b.code ++ rest)
  written : ∀ ⦃label : Nat⦄ ⦃b : DraftBlock⦄ ⦃role : Role⦄, d.blocks[label]? = some b →
    ¬ todo label → label ≠ d.current → roles[label]? = some role →
      Settled c.module (d.world roles) fun w => BlockCode c function w role b.code

namespace Draft

variable {c : Context} {function : Nat} {todo : Nat → Prop} {roles : List Role} {d : Draft}
  {Rest Rest' : World → List Instr → Prop}

/-- Writing code changes no role and no label that is still to be written. -/
theorem Charted.write {b : DraftBlock} (h : d.Charted c todo roles)
    (there : d.blocks[d.current]? = some b) (away : ¬ todo d.current) (code : List Instr)
    {storage : Ledger} (grown : d.storage.Grows c.module storage) :
    (d.write b code storage).Charted c todo roles where
  housed := h.housed.grows grown
  covered := by rw [size_write]; exact h.covered
  inside label waits := by rw [size_write]; exact h.inside waits
  waiting label b' there' waits := by
    rw [getElem?_write there] at there'
    split at there'
    · rename_i same
      exact absurd (same ▸ waits) away
    · exact h.waiting there' waits

/-- What is settled stays so when code is written. -/
theorem Settled.write {P : World → Prop} (h : Settled c.module (d.world roles) P) (b : DraftBlock)
    (code : List Instr) {storage : Ledger} (grown : d.storage.Grows c.module storage) :
    Settled c.module ((d.write b code storage).world roles) P :=
  fun w later => h w (world_later grown later)

/-- Code that is written in the current block leaves less of the rest to be written. -/
theorem Writing.write {b : DraftBlock} {code : List Instr} {storage : Ledger}
    (h : d.Writing c function todo Rest roles) (there : d.blocks[d.current]? = some b)
    (grown : d.storage.Grows c.module storage)
    (next : Settled c.module ⟨storage, roles⟩ fun w =>
      ∀ rest, Rest' w rest → Rest w (code ++ rest)) :
    (d.write b code storage).Writing c function todo Rest' roles where
  toCharted := h.toCharted.write there h.away code grown
  here := by rw [size_write]; exact h.here
  away := h.away
  active b' role there' known := by
    rw [current_write, getElem?_write there, if_pos rfl] at there'
    cases there'
    intro w later rest follows
    rw [List.append_assoc]
    exact h.active there known w (world_later grown later) _ (next w later rest follows)
  written label b' role there' done other known := by
    rw [current_write] at other
    rw [getElem?_write there, if_neg (Ne.symm other)] at there'
    exact Settled.write (h.written there' done other known) b code grown

/-- A rest may be replaced by one that says more. -/
theorem Writing.imp (h : d.Writing c function todo Rest roles)
    (imp : Settled c.module (d.world roles) fun w => ∀ rest, Rest' w rest → Rest w rest) :
    d.Writing c function todo Rest' roles :=
  { h with active := fun _ _ there known w later rest follows =>
      h.active there known w later rest (imp w later rest follows) }

/-- When nothing needs to be added, the block is written. -/
theorem Writing.close (h : d.Writing c function todo Rest roles)
    (done : Settled c.module (d.world roles) fun w => Rest w []) :
    d.Shaped c function todo roles where
  toCharted := h.toCharted
  written label b role there done' known := by
    by_cases here : label = d.current
    · subst here
      intro w later
      have all := h.active there known w later [] (done w later)
      rwa [List.append_nil] at all
    · exact h.written there done' here known

/-- A new block takes a role, and is still to be written. -/
theorem Charted.grow (h : d.Charted c todo roles) (role : Role) :
    d.grow.Charted c (fun label => todo label ∨ label = d.blocks.size) (roles ++ [role]) where
  housed := h.housed
  covered := by rw [List.length_append, h.covered, Draft.grow, Array.size_push]; rfl
  inside := by
    rintro label (waits | rfl)
    · exact Nat.lt_of_lt_of_le (h.inside waits) d.size_le_size_grow
    · rw [Draft.grow, Array.size_push]
      exact Nat.lt_succ_self _
  waiting := by
    rintro label b there (waits | rfl)
    · exact h.waiting (getElem?_of_grow there (Nat.ne_of_lt (h.inside waits))) waits
    · rw [Draft.grow, Array.getElem?_push_size] at there
      cases there
      rfl

/-- What is settled stays so when a block is added. -/
theorem Settled.grow {P : World → Prop} (h : Settled c.module (d.world roles) P) (role : Role) :
    Settled c.module (d.grow.world (roles ++ [role])) P :=
  fun w later => h w ⟨later.storage, (List.prefix_append roles [role]).trans later.roles⟩

/-- A new block does not change what the current one lacks. -/
theorem Writing.grow (h : d.Writing c function todo Rest roles) (role : Role) :
    d.grow.Writing c function (fun label => todo label ∨ label = d.blocks.size) Rest
      (roles ++ [role]) := by
  -- Which labels had a role before, and the same one.
  have old {label : Nat} {role' : Role} (inside : label < d.blocks.size)
      (known : (roles ++ [role])[label]? = some role') : roles[label]? = some role' := by
    rwa [List.getElem?_append_left (by rw [h.covered]; exact inside)] at known
  exact {
    toCharted := h.toCharted.grow role
    here := Nat.lt_of_lt_of_le h.here d.size_le_size_grow
    away := by
      rintro (waits | last)
      · exact h.away waits
      · exact Nat.ne_of_lt h.here last
    active := fun b role' there known =>
      Settled.grow (h.active (getElem?_of_grow there (Nat.ne_of_lt h.here)) (old h.here known)) role
    written := fun label b role' there done other known => by
      obtain ⟨notTodo, notLast⟩ := not_or.1 done
      have there := getElem?_of_grow there notLast
      have inside := (Array.getElem?_eq_some_iff.1 there).1
      exact Settled.grow (h.written there notTodo other (old inside known)) role }

/-- A shaped draft goes on at one of the blocks to be written. -/
theorem Shaped.positionAt {label : Nat} {role : Role} (h : d.Shaped c function todo roles)
    (waits : todo label) (known : roles[label]? = some role) :
    Writing c function (fun l => todo l ∧ l ≠ label) (BlockCode c function · role) roles
      { d with current := label } where
  housed := h.housed
  covered := h.covered
  inside _ still := h.inside still.1
  waiting _ _ there still := h.waiting there still.1
  here := h.inside waits
  away still := still.2 rfl
  active b role' there known' := by
    cases known.symm.trans known'
    rw [h.waiting there waits]
    exact fun w _ rest follows => follows
  written l b role' there done other known' :=
    h.written there (fun waits => done ⟨waits, other⟩) known'

/-- Only which labels are to be written matters. -/
theorem Shaped.congr {todo' : Nat → Prop} (h : d.Shaped c function todo roles)
    (same : ∀ label, todo label ↔ todo' label) : d.Shaped c function todo' roles := by
  obtain rfl : todo = todo' := funext fun label => propext (same label)
  exact h

/-- The same while a block is being written. -/
theorem Writing.congr {todo' : Nat → Prop} (h : d.Writing c function todo Rest roles)
    (same : ∀ label, todo label ↔ todo' label) : d.Writing c function todo' Rest roles := by
  obtain rfl : todo = todo' := funext fun label => propext (same label)
  exact h

end Draft

/-! ## Steps -/

namespace Lower

variable {α β : Type} {c : Context} {function : Nat} {todo : Nat → Prop} {roles : List Role}
  {d : Draft} {Rest N : World → List Instr → Prop}

/-- What holds of a step's result and the draft it leaves behind, for some roles of the blocks that
it makes. -/
def Shapes (c : Context) (roles : List Role) (d : Draft) (step : Lower α)
    (Q : α → List Role → Draft → Prop) : Prop :=
  Ensures c d step fun a d' => ∃ roles', roles <+: roles' ∧ Q a roles' d'

theorem Shapes.pure {Q : α → List Role → Draft → Prop} {a : α} (h : Q a roles d) :
    Shapes c roles d (pure a : Lower α) Q :=
  Ensures.pure ⟨roles, List.prefix_rfl, h⟩

/-- Steps can be chained; the second one finds the roles of the first and perhaps more. -/
theorem Shapes.bind {x : Lower α} {f : α → Lower β} {P : α → List Role → Draft → Prop}
    {Q : β → List Role → Draft → Prop} (first : Shapes c roles d x P)
    (second : ∀ a roles' d', roles <+: roles' → P a roles' d' → Shapes c roles' d' (f a) Q) :
    Shapes c roles d (x >>= f) Q := by
  refine Ensures.bind first ?_
  rintro a d' ⟨roles', more, found⟩ b d'' run
  obtain ⟨roles'', more', found'⟩ := second a roles' d' more found run
  exact ⟨roles'', more.trans more', found'⟩

/-- Behind a step that only looks something up, roles and draft are the same as before it. -/
theorem Shapes.read {x : Lower α} {f : α → Lower β} {P : α → Prop}
    {Q : β → List Role → Draft → Prop} (first : Reads c d x P)
    (second : ∀ a, P a → Shapes c roles d (f a) Q) : Shapes c roles d (x >>= f) Q :=
  Ensures.read first second

theorem Shapes.imp {step : Lower α} {P Q : α → List Role → Draft → Prop}
    (h : Shapes c roles d step P) (imp : ∀ a roles' d', P a roles' d' → Q a roles' d') :
    Shapes c roles d step Q := by
  intro a d' run
  obtain ⟨roles', more, found⟩ := h run
  exact ⟨roles', more, imp a roles' d' found⟩

/-- The roles are of no concern to what follows. -/
theorem Shapes.shaped {step : Lower α} (h : Shapes c roles d step fun _ roles' d' =>
      roles' = roles ∧ d'.Shaped c function todo roles) :
    Shapes c roles d step fun _ roles' d' => d'.Shaped c function todo roles' :=
  h.imp fun _ _ _ ⟨same, shaped⟩ => same ▸ shaped

/-- A step that fails. -/
theorem emit_fails {step : Emit α} {Q : α → List Role → Draft → Prop}
    (fails : Emit.Ensures c d.storage step fun _ => False) : Shapes c roles d (emit step) Q :=
  emit_ensures fun _ _ => Emit.Ensures.imp fails fun _ => False.elim

/-- Code is written, and what is still to come changes accordingly. -/
theorem emit_shapes {step : Emit α} {P : Storage → List Instr → Prop}
    (h : d.Writing c function todo Rest roles) (writes : Emit.Writes c d.storage step P)
    (next : Settled c.module (d.world roles) fun w => ∀ code rest, P w.storage code →
      N w rest → Rest w (code ++ rest)) :
    Shapes c roles d (emit step) fun _ roles' d' =>
      roles' = roles ∧ d'.Writing c function todo N roles := by
  refine emit_ensures fun b there => Emit.Ensures.imp writes fun e ⟨grown, written⟩ => ?_
  refine ⟨roles, List.prefix_rfl, rfl, h.write there grown fun w later rest follows => ?_⟩
  exact next w (Draft.world_later grown later) e.code rest
    (written w.storage later.storage) follows

/-- Code is written that completes the block. -/
theorem emit_completes {step : Emit α} {P : Storage → List Instr → Prop}
    (h : d.Writing c function todo Rest roles) (writes : Emit.Writes c d.storage step P)
    (done : Settled c.module (d.world roles) fun w => ∀ code, P w.storage code → Rest w code) :
    Shapes c roles d (emit step) fun _ roles' d' =>
      roles' = roles ∧ d'.Shaped c function todo roles := by
  have emitted := emit_shapes h writes (N := fun _ rest => rest = []) ?_
  · intro a d' run
    obtain ⟨roles', more, rfl, h'⟩ := emitted run
    exact ⟨roles', more, rfl, h'.close fun _ _ => rfl⟩
  · rintro w later code _ holds rfl
    rw [List.append_nil]
    exact done w later code holds

/-- Looking something up in the middle of a block changes nothing. -/
theorem emit_looks {step : Emit α} {P : α → Prop} (h : d.Writing c function todo Rest roles)
    (reads : Emit.Reads c d.storage step P) :
    Shapes c roles d (emit step) fun a roles' d' =>
      roles' = roles ∧ d'.Writing c function todo Rest roles ∧ P a := by
  refine emit_ensures fun _ there => Emit.Ensures.imp reads ?_
  rintro ⟨a, s, code⟩ ⟨rfl, rfl, found⟩
  exact ⟨roles, List.prefix_rfl, rfl, h.write there (.refl _ _) fun _ _ _ follows => follows, found⟩

/-- A block is made, for a purpose. -/
theorem newBlock_shapes (h : d.Writing c function todo Rest roles) (role : Role) :
    Shapes c roles d newBlock fun label roles' d' =>
      d'.Writing c function (fun l => todo l ∨ l = label) Rest roles' ∧ ¬ todo label ∧
        roles'[label]? = some role := by
  refine newBlock_ensures ⟨roles ++ [role], List.prefix_append _ _, h.grow role, ?_, ?_⟩
  · exact fun waits => Nat.lt_irrefl _ (h.inside waits)
  · rw [← h.covered, List.getElem?_concat_length]

/-- Going on in a block that is to be written, one has to write what its role asks for. -/
theorem positionAt_shapes {label : Nat} {role : Role} (h : d.Shaped c function todo roles)
    (waits : todo label) (known : roles[label]? = some role) :
    Shapes c roles d (positionAt label) fun _ roles' d' => roles' = roles ∧
      d'.Writing c function (fun l => todo l ∧ l ≠ label) (BlockCode c function · role) roles :=
  positionAt_ensures ⟨roles, List.prefix_rfl, rfl, h.positionAt waits known⟩

/-- The same for the block made last. -/
theorem positionAt_last_shapes {label : Nat} {role : Role}
    (h : d.Shaped c function (fun l => todo l ∨ l = label) roles) (fresh : ¬ todo label)
    (known : roles[label]? = some role) :
    Shapes c roles d (positionAt label) fun _ roles' d' => roles' = roles ∧
      d'.Writing c function todo (BlockCode c function · role) roles := by
  intro a d' run
  obtain ⟨roles', more, same, h'⟩ := positionAt_shapes h (.inr rfl) known run
  refine ⟨roles', more, same, h'.congr fun l => ⟨?_, fun waits => ⟨.inl waits, ?_⟩⟩⟩
  · rintro ⟨waits | here, other⟩
    · exact waits
    · exact absurd here other
  · rintro rfl
    exact fresh waits

end Lower

variable {c : Context} {source : SourceBlock} {todo : Nat → Prop} {roles : List Role} {d : Draft}
  {Rest N : World → List Instr → Prop}

/-! ## Branches -/

/-- An edge completes a block that lacks nothing else. -/
theorem edge_completes (h : d.Writing c source.function todo Rest roles) {target : Nat}
    (done : Settled c.module (d.world roles) fun w => ∀ code,
      EdgeCode c source.function w.storage target code → Rest w code) :
    Lower.Shapes c roles d (Lower.emit (edge source target)) fun _ roles' d' =>
      roles' = roles ∧ d'.Shaped c source.function todo roles :=
  Lower.emit_completes h (edge_shapes h.housed source target) done

/-- An instruction is written in front of the rest. -/
theorem instr_shapes (h : d.Writing c source.function todo Rest roles) {i : Instr}
    (next : Settled c.module (d.world roles) fun w => ∀ rest, N w rest → Rest w (i :: rest)) :
    Lower.Shapes c roles d (Lower.instr i) fun _ roles' d' =>
      roles' = roles ∧ d'.Writing c source.function todo N roles := by
  refine Lower.emit_shapes h (Emit.instr_writes (Q := fun _ code => code = [i]) fun _ _ => rfl) ?_
  rintro w later _ rest rfl follows
  exact next w later rest follows

/-- An edge that is all that is to come. -/
theorem edge_finishes {target : Nat} (h : d.Writing c source.function todo
      (fun w => EdgeCode c source.function w.storage target) roles) :
    Lower.Shapes c roles d (Lower.emit (edge source target)) fun _ roles' d' =>
      roles' = roles ∧ d'.Shaped c source.function todo roles :=
  edge_completes h fun _ _ _ code => code

/-- A branch on the value on top of the stack completes the block, together with the detour that it
may need. -/
theorem branchOn_shapes (h : d.Writing c source.function todo Rest roles) {ifTrue ifFalse : Nat}
    (done : ∀ w code, ForkCode c source.function w ifTrue ifFalse code → Rest w code) :
    Lower.Shapes c roles d (branchOn source ifTrue ifFalse) fun _ roles' d' =>
      d'.Shaped c source.function todo roles' := by
  refine .read (hasPhis_finds ifTrue) fun starts known => ?_
  split
  · rename_i plain
    obtain rfl : starts = false := by simpa using plain
    refine .bind (instr_shapes h fun w _ rest edge =>
      done w _ (.onTrue (.inl ⟨rfl, known⟩) edge)) ?_
    rintro _ _ d _ ⟨rfl, h⟩
    exact (edge_finishes h).shaped
  refine .read (hasPhis_finds ifFalse) fun starts' known' => ?_
  split
  · rename_i plain
    obtain rfl : starts' = false := by simpa using plain
    refine .bind (instr_shapes h fun w _ rest edge => done w _ (.onFalse known' edge)) ?_
    rintro _ _ d _ ⟨rfl, h⟩
    exact (edge_finishes h).shaped
  · refine .bind (Lower.newBlock_shapes h (.detour ifTrue)) ?_
    rintro detour roles d _ ⟨h, fresh, role⟩
    refine .bind (instr_shapes h fun w later rest edge =>
      done w _ (.onTrue (.inr (later.role role)) edge)) ?_
    rintro _ _ d _ ⟨rfl, h⟩
    refine .bind (edge_finishes h) ?_
    rintro _ _ d _ ⟨rfl, h⟩
    refine .bind (Lower.positionAt_last_shapes h fresh role) ?_
    rintro _ _ d _ ⟨rfl, h⟩
    exact (edge_finishes h).shaped

/-- Quiet code in front of a jump belongs to it. -/
theorem JumpCode.behind {c : Context} {function : Nat} {w : World} {front code : List Instr}
    (quiet : AllQuiet c.module w.storage front) (jumps : JumpCode c function w code) :
    JumpCode c function w (front ++ code) := by
  obtain ⟨front', target, last, rfl, turns, edge⟩ := jumps
  refine ⟨front ++ front', target, last, by rw [List.append_assoc], ?_, edge⟩
  exact List.forall_mem_append.2 ⟨fun i mem => .inl (quiet i mem), turns⟩

/-- An edge is a way to leave a block by jumps. -/
theorem EdgeCode.jumps {c : Context} {function target : Nat} {w : World} {code : List Instr}
    (edge : EdgeCode c function w.storage target code) : JumpCode c function w code :=
  ⟨[], target, code, rfl, List.forall_mem_nil _, edge⟩

theorem ForkCode.jumps {c : Context} {function ifTrue ifFalse : Nat} {w : World}
    {code : List Instr} (fork : ForkCode c function w ifTrue ifFalse code) :
    JumpCode c function w code := by
  cases fork with
  | @onTrue label last leads edge =>
    exact ⟨[.branchIfTrue label], ifFalse, last, rfl, List.forall_mem_singleton.2 <| .inr
      ⟨rfl, List.forall_mem_singleton.2 ⟨ifTrue, leads⟩⟩, edge⟩
  | @onFalse last plain edge =>
    exact ⟨[.branchIfFalse ifFalse], ifTrue, last, rfl, List.forall_mem_singleton.2 <| .inr
      ⟨rfl, List.forall_mem_singleton.2 ⟨ifFalse, .inl ⟨rfl, plain⟩⟩⟩, edge⟩

/-- A branch completes its block and writes the blocks it adds. -/
theorem lowerBr_shapes (h : d.Writing c source.function todo Rest roles) (id : Nat)
    (i : Instruction) (done : ∀ w code, JumpCode c source.function w code → Rest w code) :
    Lower.Shapes c roles d (lowerBr source id i) fun _ roles' d' =>
      d'.Shaped c source.function todo roles' := by
  unfold lowerBr
  split
  · exact (edge_completes h fun w _ code edge => done w code edge.jumps).shaped
  · exact Lower.emit_fails (Emit.breach_ensures _ _)
  · refine .bind (Lower.emit_shapes h (pushCondition_quietly h.housed _ id).writes
      fun w _ code rest quiet follows => done w _ (JumpCode.behind quiet follows)) ?_
    rintro _ _ d _ ⟨rfl, h⟩
    exact branchOn_shapes h fun w code fork => fork.jumps
  · exact Lower.emit_fails (Emit.breach_ensures _ _)
  · exact Lower.emit_fails (.read Emit.spot_reads fun _ _ => Emit.breachAt_ensures _ _)

/-! ## Switches -/

/-- Every case goes to a block without phis or to a detour of its own, to be written. -/
structure CasesLead (c : Context) (function : Nat) (roles : List Role) (cases : List Case) :
    Prop where
  direct : ∀ k ∈ cases, k.detour = none → c.module.startsWithPhi? function k.label = some false
  around : ∀ k ∈ cases, ∀ target, k.detour = some target → roles[k.label]? = some (.detour target)

/-- A case leads to a block, directly or by its detour, also when more roles are known. -/
theorem CasesLead.leads {c : Context} {function : Nat} {roles : List Role} {cases : List Case}
    (h : CasesLead c function roles cases) {w : World} (later : roles <+: w.roles) {k : Case}
    (mem : k ∈ cases) : ∃ block, LeadsTo c function w k.label block := by
  cases made : k.detour with
  | none => exact ⟨k.label, .inl ⟨rfl, h.direct k mem made⟩⟩
  | some target =>
    have known := h.around k mem target made
    obtain ⟨more, same⟩ := later
    refine ⟨target, .inr ?_⟩
    rw [← same, List.getElem?_append_left (List.getElem?_eq_some_iff.1 known).1]
    exact known

/-- Reading the cases of a switch adds the detours, each only once, and leaves them to be written.
-/
theorem readCases_shapes (id : Nat) (operands : List Source.Operand)
    (h : d.Writing c source.function todo Rest roles) :
    Lower.Shapes c roles d (readCases source id operands) fun cases roles' d' =>
      d'.Writing c source.function (fun l => todo l ∨ l ∈ detours cases) Rest roles' ∧
        (detours cases).Nodup ∧ (∀ l ∈ detours cases, ¬ todo l) ∧
        CasesLead c source.function roles' cases := by
  fun_induction readCases source id operands generalizing d todo roles with
  | case1 =>
    exact .pure ⟨h.congr fun l => by simp, List.nodup_nil, List.forall_mem_nil _,
      List.forall_mem_nil _, List.forall_mem_nil _⟩
  | case2 value target rest ih =>
    have value_read : Emit.Reads c d.storage (do
        Emit.supported (← Emit.sourceValue value).int? "switch" .nonConstantCase id)
        fun _ => True :=
      .read (Emit.sourceValue_reads _) fun _ _ =>
        (Emit.supported_reads _ _ _ _).imp fun _ _ => trivial
    refine .bind (Lower.emit_looks h value_read) ?_
    rintro value _ d _ ⟨rfl, h, -⟩
    refine .read (hasPhis_finds target) fun starts known => ?_
    split
    · refine .bind (Lower.newBlock_shapes h (.detour target)) ?_
      rintro label roles d _ ⟨h, fresh, role⟩
      refine .bind (ih h) ?_
      rintro cases roles' d more ⟨h, nodup, apart, lead⟩
      -- The new block was to be written when the other cases were read, so it is none of theirs.
      have unseen : label ∉ detours cases := fun mem => apart label mem (.inr rfl)
      refine .pure ⟨h.congr fun l => ?_, ?_, ?_, ?_, ?_⟩
      · rw [detours_cons_some, List.mem_cons, or_assoc]
      · rw [detours_cons_some, List.nodup_cons]
        exact ⟨unseen, nodup⟩
      · intro l mem
        rcases List.mem_cons.1 mem with rfl | later
        · exact fresh
        · exact fun waits => apart l later (.inl waits)
      · refine List.forall_mem_cons.2 ⟨?_, lead.direct⟩
        rintro ⟨⟩
      · refine List.forall_mem_cons.2 ⟨?_, lead.around⟩
        rintro target' ⟨⟩
        obtain ⟨later, same⟩ := more
        rw [← same, List.getElem?_append_left (List.getElem?_eq_some_iff.1 role).1]
        exact role
    · rename_i plain
      obtain rfl : starts = false := by simpa using plain
      refine .bind (ih h) ?_
      rintro cases roles' d _ ⟨h, nodup, apart, lead⟩
      refine .pure ⟨h, nodup, apart, List.forall_mem_cons.2 ⟨fun _ => known, lead.direct⟩, ?_⟩
      refine List.forall_mem_cons.2 ⟨?_, lead.around⟩
      rintro target' ⟨⟩
  | case3 => exact Lower.emit_fails (Emit.breach_ensures _ _)

/-- Filling the detours writes each of them. -/
theorem fillDetours_shapes (cases : List Case) (nodup : (detours cases).Nodup)
    (apart : ∀ l ∈ detours cases, ¬ todo l) (lead : CasesLead c source.function roles cases)
    (h : d.Shaped c source.function (fun l => todo l ∨ l ∈ detours cases) roles) :
    Lower.Shapes c roles d (fillDetours source cases) fun _ roles' d' =>
      d'.Shaped c source.function todo roles' := by
  fun_induction fillDetours source cases generalizing d with
  | case1 => exact .pure (h.congr fun l => by simp)
  | case2 value label target rest ih =>
    rw [detours_cons_some, List.nodup_cons] at nodup
    have fresh : ¬ (todo label ∨ label ∈ detours rest) :=
      not_or.2 ⟨apart label (by simp), nodup.1⟩
    have role := lead.around _ List.mem_cons_self target rfl
    have h : d.Shaped c source.function (fun l => (todo l ∨ l ∈ detours rest) ∨ l = label) roles :=
      h.congr fun l => by rw [detours_cons_some, List.mem_cons, or_assoc, or_comm (a := l = label)]
    refine .bind (Lower.positionAt_last_shapes h fresh role) ?_
    rintro _ _ d _ ⟨rfl, h⟩
    refine .bind (edge_finishes h) ?_
    rintro _ _ d _ ⟨rfl, h⟩
    exact ih nodup.2 (fun l mem => apart l (by simp [mem]))
      ⟨fun k mem => lead.direct k (List.mem_cons_of_mem _ mem),
        fun k mem => lead.around k (List.mem_cons_of_mem _ mem)⟩ h
  | case3 value label rest ih =>
    exact ih nodup apart ⟨fun k mem => lead.direct k (List.mem_cons_of_mem _ mem),
      fun k mem => lead.around k (List.mem_cons_of_mem _ mem)⟩ h

/-- A switch completes its block and writes its detours. -/
theorem lowerSwitch_shapes (h : d.Writing c source.function todo Rest roles) (id : Nat)
    (i : Instruction) (done : ∀ w code, JumpCode c source.function w code → Rest w code) :
    Lower.Shapes c roles d (lowerSwitch source id i) fun _ roles' d' =>
      d'.Shaped c source.function todo roles' := by
  unfold lowerSwitch
  split
  · rename_i index default rest _
    have index_read : Emit.Reads c d.storage (do
        let ty ← Emit.typeOf index
        let bits? := ((← Emit.module).types.intBits? ty).filter (· ≤ 64)
        return (ty, ← Emit.supported bits? "switch" .indexType id)) fun _ => True :=
      .read (Emit.typeOf_reads _) fun _ _ => .read Emit.module_reads fun _ _ =>
        .read (Emit.supported_reads _ _ _ _) fun _ _ => Emit.Ensures.pure ⟨rfl, rfl, trivial⟩
    refine .bind (Lower.emit_looks h index_read) ?_
    rintro ⟨ty, bits⟩ _ d _ ⟨rfl, h, -⟩
    refine .bind (readCases_shapes id rest h) ?_
    rintro cases roles d _ ⟨h, nodup, apart, lead⟩
    refine .bind (Lower.emit_shapes h (dispatch_shapes h.housed index ty bits id cases)
      (N := fun w => EdgeCode c source.function w.storage default) ?_) ?_
    · intro w later front last dispatch edge
      refine done w _ ⟨front, default, last, rfl, fun i mem => ?_, edge⟩
      refine (dispatch i mem).imp_right fun ⟨conditional, targets⟩ => ⟨conditional, ?_⟩
      intro label there
      obtain ⟨k, known, rfl⟩ := targets label there
      exact lead.leads later.roles known
    rintro _ _ d _ ⟨rfl, h⟩
    refine .bind (edge_finishes h) ?_
    rintro _ _ d _ ⟨rfl, h⟩
    exact fillDetours_shapes cases nodup apart lead h
  · exact Lower.emit_fails (Emit.breach_ensures _ _)

/-! ## Handlers -/

/-- The personality routine that is found is that of the function, with the signature that all of
them have. -/
theorem personality_finds (s : Ledger) (id : Nat) :
    Emit.Reads c s (personality source id) fun found => found.2 = personalitySignature ∧
      ∃ f, c.module.function? source.function = some f ∧ f.personality = some found.1 := by
  refine .read Emit.context_reads fun _ same => ?_
  rw [same]
  refine .read (Emit.required_reads _) fun f found => ?_
  refine .read (Emit.supported_reads _ _ _ _) fun routine named => ?_
  refine .read (Emit.required_reads _) fun _ _ => ?_
  refine .read (Emit.supported_reads _ _ _ _) fun sig answered => ?_
  have right : sig = personalitySignature := by
    simpa using (Option.filter_eq_some_iff.1 answered).2
  exact Emit.Ensures.pure ⟨rfl, rfl, right, f, found, named⟩

/-- The tests write a chain of blocks, each of which goes on in the next. -/
theorem testHandlers_shapes {f : Function} (found : c.module.function? source.function = some f)
    {routine : Nat} (named : f.personality = some routine) (id : Nat) (handlers : List Nat)
    (unwind : Option Nat) (h : d.Writing c source.function todo Rest roles)
    (next : ∀ w code, ChainCode c source.function w handlers unwind code → Rest w code) :
    Lower.Shapes c roles d (testHandlers source id routine personalitySignature handlers)
      fun _ roles' d' => d'.Writing c source.function todo
        (fun w => UnwindCode c source.function w.storage unwind) roles' := by
  induction handlers generalizing d roles Rest with
  | nil => exact .pure (h.imp fun w _ rest unwinds => next w rest unwinds)
  | cons handler rest ih =>
    have asked : Emit.Writes c d.storage (do
        let pack ← packArguments (← padArguments source handler id) id
        Emit.code [.load pack, .call (.function routine) personalitySignature])
        fun final code => ∃ before, AllQuiet c.module final before ∧
          code = before ++ [.call (.function routine) personalitySignature] := by
      have absorbs : Absorbs c.module fun final code => ∃ before, AllQuiet c.module final before ∧
          code = before ++ [.call (.function routine) personalitySignature] := by
        rintro final front _ quiet ⟨before, quiet', rfl⟩
        exact ⟨front ++ before, quiet.append quiet', by rw [List.append_assoc]⟩
      refine .read (padArguments_reads _ _ _) fun args _ => ?_
      refine absorbs.bind (packArguments_yields h.housed _ _) fun pack s _ ⟨v, there, _⟩ => ?_
      exact Emit.code_writes fun final grown => ⟨[.load pack],
        List.forall_mem_singleton.2 ⟨v, grown.get?_eq_some there⟩, rfl⟩
    refine .bind (Lower.emit_shapes h asked (N := fun w code => ∃ label last,
      w.roles[label]? = some (.retry rest unwind) ∧
      EdgeCode c source.function w.storage handler last ∧ code = .branchIfTrue label :: last) ?_) ?_
    · rintro w _ _ _ ⟨before, quiet, rfl⟩ ⟨label, last, role, edge, rfl⟩
      exact next w _ ⟨f, routine, before, label, last, found, named, quiet, role, edge, by simp⟩
    rintro _ _ d _ ⟨rfl, h⟩
    refine .bind (Lower.newBlock_shapes h (.retry rest unwind)) ?_
    rintro label roles d _ ⟨h, fresh, role⟩
    refine .bind (instr_shapes h fun w later last edge =>
      ⟨label, last, later.role role, edge, rfl⟩) ?_
    rintro _ _ d _ ⟨rfl, h⟩
    refine .bind (edge_finishes h) ?_
    rintro _ _ d _ ⟨rfl, h⟩
    refine .bind (Lower.positionAt_last_shapes h fresh role) ?_
    rintro _ _ d _ ⟨rfl, h⟩
    exact ih h fun _ _ chain => chain

/-- A choice among handlers completes its block, and each handler is asked in a block that is
written. -/
theorem lowerCatchSwitch_shapes (h : d.Writing c source.function todo Rest roles) (id : Nat)
    {i : Instruction} {hasUnwind : Bool} (opcode : i.opcode = .catchSwitch hasUnwind)
    (done : ∀ w code, ExitCode c source.function w i code → Rest w code) :
    Lower.Shapes c roles d (lowerCatchSwitch source id i hasUnwind) fun _ roles' d' =>
      d'.Shaped c source.function todo roles' := by
  refine .bind (Lower.emit_looks h (personality_finds _ id)) ?_
  rintro ⟨routine, _⟩ _ d _ ⟨rfl, h, rfl, f, found, named⟩
  dsimp only
  split
  · exact Lower.emit_fails (Emit.breach_ensures _ _)
  rename_i handlers listed
  refine .bind (testHandlers_shapes found named id handlers (unwindOf? i.operands hasUnwind) h
    fun w code chain => done w code (.catchSwitch opcode listed chain)) ?_
  intro _ roles d _ h
  unfold unwindOf? at h
  split
  · rename_i unwinds
    rw [if_pos unwinds] at h
    split
    · rename_i target last
      rw [last] at h
      exact (edge_finishes h).shaped
    · exact Lower.emit_fails (Emit.breach_ensures _ _)
  · rename_i leaves
    rw [if_neg leaves] at h
    exact (Lower.emit_completes h returnDefault_shapes fun _ _ _ same => same).shaped

/-- An invoke completes its block and writes the two blocks behind its check. -/
theorem lowerInvoke_shapes (h : d.Writing c source.function todo Rest roles) {id : Nat}
    {i : Instruction} (isInstruction : c.module.instruction? id = some i) {functionType : Nat}
    (opcode : i.opcode = .invoke functionType)
    (done : ∀ w code, ExitCode c source.function w i code → Rest w code) :
    Lower.Shapes c roles d (lowerInvoke source id i functionType) fun _ roles' d' =>
      d'.Shaped c source.function todo roles' := by
  unfold lowerInvoke
  split
  · exact Lower.emit_fails (Emit.breach_ensures _ _)
  rename_i args normal unwind callee operands
  have called : Emit.Writes c d.storage (do
      emitCall id callee args functionType
      Emit.instr (.load (← Emit.exceptionSlot))) fun final code => ∃ before slot,
        CallCode c final callee before ∧ HasPlace final .exceptionSlot slot ∧
        code = before ++ [.load slot] := by
    refine Emit.Writes.bind (emitCall_shapes isInstruction (by rw [opcode]; rfl) h.housed callee
      args functionType) (Q := fun final code => ∃ slot, HasPlace final .exceptionSlot slot ∧
        code = [.load slot]) (fun _ _ _ => ?_) ?_
    · exact behindSlot_shapes fun slot _ _ isSlot =>
        Emit.instr_writes fun final grown => ⟨slot, isSlot.grows grown, rfl⟩
    · rintro final before _ _ called ⟨slot, isSlot, rfl⟩
      exact ⟨before, slot, called, isSlot, rfl⟩
  refine .bind (Lower.emit_shapes h called (N := fun w =>
    ForkCode c source.function w unwind normal) ?_) ?_
  · rintro w _ _ last ⟨before, slot, called, isSlot, rfl⟩ forks
    rw [List.append_assoc]
    exact done w _ (.invoke opcode operands called isSlot forks)
  rintro _ _ d _ ⟨rfl, h⟩
  exact branchOn_shapes h fun _ _ forks => forks

/-! ## Instructions -/

/-- Telling an event writes nothing. -/
theorem note_shapes {event : Event} (h : d.Writing c source.function todo Rest roles) :
    Lower.Shapes c roles d (Lower.note event) fun _ roles' d' =>
      roles' = roles ∧ d'.Writing c source.function todo Rest roles :=
  Lower.note_ensures ⟨roles, List.prefix_rfl, rfl, ⟨h.housed, h.covered, h.inside, h.waiting⟩,
    h.here, h.away, h.active, h.written⟩

/-- An instruction that does not end its block. -/
theorem lowerInstruction_shapes (h : d.Writing c source.function todo Rest roles) {id : Nat}
    {i : Instruction} (isInstruction : c.module.instruction? id = some i)
    (goesOn : i.opcode.isTerminator = false)
    (next : ∀ w code rest, StepCode c w.storage id i code → N w rest → Rest w (code ++ rest)) :
    Lower.Shapes c roles d (lowerInstruction source id i) fun _ roles' d' =>
      roles' = roles ∧ d'.Writing c source.function todo N roles := by
  have quietly {step : Emit Unit} (notPad : isPad i.opcode = false)
      (quiet : Emit.Quietly c d.storage step) :=
    Lower.emit_shapes h quiet.writes fun w _ code rest quiet =>
      next w code rest (.quiet notPad quiet)
  unfold lowerInstruction
  cases opcode : i.opcode with
  | ret | br | switch | invoke | unreachable | catchSwitch | catchRet | cleanupRet | indirectBr
  | callBr | resume => simp [opcode, Opcode.isTerminator] at goesOn
  | alloca =>
    have notPad : isPad i.opcode = false := by rw [opcode]; rfl
    exact quietly notPad (lowerAlloca_quietly h.housed)
  | load =>
    have notPad : isPad i.opcode = false := by rw [opcode]; rfl
    exact quietly notPad (lowerLoad_quietly h.housed isInstruction notPad)
  | store => exact quietly (by rw [opcode]; rfl) (lowerStore_quietly h.housed id i)
  | call functionType =>
    exact Lower.emit_shapes h (lowerCall_shapes h.housed isInstruction opcode) fun w _ => next w
  | catchPad | cleanupPad =>
    exact Lower.emit_shapes h (lowerPad_shapes (by rw [opcode]; rfl)) fun w _ => next w
  | fence =>
    refine .read Lower.context_reads fun _ _ => (note_shapes (h.imp ?_))
    exact fun w _ rest follows => next w [] rest (.quiet (by rw [opcode]; rfl) allQuiet_nil) follows
  | atomicRmw | cmpXchg =>
    have notPad : isPad i.opcode = false := by rw [opcode]; rfl
    refine .read Lower.context_reads fun _ _ => .bind (note_shapes h) ?_
    rintro _ _ d _ ⟨rfl, h⟩
    exact Lower.emit_shapes h (clearResult_quietly h.housed isInstruction notPad).writes
      fun w _ code rest quiet => next w code rest (.quiet notPad quiet)
  | phi | landingPad => exact Lower.emit_fails (Emit.unsupported_ensures _ _ _)
  | binary | fneg | cast | icmp | fcmp | getElementPtr | select | freeze | extractValue
  | insertValue | vaArg | extractElement | insertElement | shuffleVector =>
    have notPad : isPad i.opcode = false := by rw [opcode]; rfl
    exact quietly notPad (lowerOperation_quietly h.housed isInstruction notPad)

/-- An instruction that ends its block. -/
theorem lowerInstruction_completes (h : d.Writing c source.function todo Rest roles) {id : Nat}
    {i : Instruction} (isInstruction : c.module.instruction? id = some i)
    (ends : i.opcode.isTerminator = true)
    (done : ∀ w code, ExitCode c source.function w i code → Rest w code) :
    Lower.Shapes c roles d (lowerInstruction source id i) fun _ roles' d' =>
      d'.Shaped c source.function todo roles' := by
  unfold lowerInstruction
  cases opcode : i.opcode with
  | ret =>
    refine (Lower.emit_completes h (lowerRet_shapes h.housed i) ?_).shaped
    rintro w _ _ ⟨pushed, hasValue, quiet, rfl⟩
    exact done w _ (.ret opcode quiet hasValue)
  | unreachable =>
    refine (Lower.emit_completes h (Emit.instr_writes (Q := fun _ code => code = [.unreachable])
      fun _ _ => rfl) ?_).shaped
    rintro w _ _ rfl
    exact done w _ (.unreachable opcode)
  | br =>
    exact lowerBr_shapes h id i fun w code jumps =>
      done w code (.jump (by rw [opcode]; rfl) jumps)
  | switch =>
    exact lowerSwitch_shapes h id i fun w code jumps =>
      done w code (.jump (by rw [opcode]; rfl) jumps)
  | invoke functionType => exact lowerInvoke_shapes h isInstruction opcode done
  | catchSwitch hasUnwind => exact lowerCatchSwitch_shapes h id opcode done
  | catchRet =>
    refine (Lower.emit_completes h (lowerCatchRet_shapes h.housed source id i) ?_).shaped
    rintro w _ _ ⟨front, target, last, rfl, quiet, edge⟩
    exact done w _ (.jump (by rw [opcode]; rfl) (JumpCode.behind quiet edge.jumps))
  | cleanupRet =>
    exact (Lower.emit_completes h (lowerCleanupRet_shapes h.housed source id i opcode)
      fun w _ code exits => done w code (exits w.roles)).shaped
  | indirectBr | callBr | resume => exact Lower.emit_fails (Emit.unsupported_ensures _ _ _)
  | _ => simp [opcode, Opcode.isTerminator] at ends

/-! ## Blocks -/

/-- Whether instructions end in a terminator and hold none before. -/
def endsAtTerminator (code : List (Nat × Instruction)) : Bool :=
  code.getLast?.any (fun p => p.2.opcode.isTerminator) &&
    code.dropLast.all fun p => !p.2.opcode.isTerminator

theorem endsAtTerminator_singleton {id : Nat} {i : Instruction}
    (h : endsAtTerminator [(id, i)] = true) : i.opcode.isTerminator = true := by
  simpa [endsAtTerminator] using h

/-- An instruction before the last is no terminator. -/
theorem endsAtTerminator_cons {p q : Nat × Instruction} {rest : List (Nat × Instruction)}
    (h : endsAtTerminator (p :: q :: rest) = true) :
    p.2.opcode.isTerminator = false ∧ endsAtTerminator (q :: rest) = true := by
  simp only [endsAtTerminator, List.getLast?_cons_cons, List.dropLast_cons_cons, List.all_cons,
    Bool.and_eq_true, Bool.not_eq_true'] at h ⊢
  exact ⟨h.2.1, h.1, h.2.2⟩

/-- Behind its phis a block still ends in its only terminator, as a phi is none. -/
theorem endsAtTerminator_dropWhile {code : List (Nat × Instruction)}
    (h : endsAtTerminator code = true) :
    endsAtTerminator (code.dropWhile fun p => p.2.opcode == .phi) = true := by
  induction code with
  | nil => exact h
  | cons p rest ih =>
    rw [List.dropWhile_cons]
    split
    · rename_i isPhi
      cases rest with
      | nil =>
        have ends := endsAtTerminator_singleton h
        rw [eq_of_beq isPhi] at ends
        cases ends
      | cons q rest => exact ih (endsAtTerminator_cons h).2
    · exact h

/-- Instructions up to the terminator, which is the last of them. -/
theorem lowerInstructions_shapes {code : List (Nat × Instruction)}
    (listed : ∀ p ∈ code, c.module.instruction? p.1 = some p.2)
    (ends : endsAtTerminator code = true) (h : d.Writing c source.function todo Rest roles)
    (done : ∀ w written, BodyCode c source.function w code written → Rest w written) :
    Lower.Shapes c roles d (lowerInstructions source code) fun _ roles' d' =>
      d'.Shaped c source.function todo roles' := by
  induction code generalizing d roles Rest with
  | nil => cases ends
  | cons p rest ih =>
    obtain ⟨id, i⟩ := p
    have isInstruction := listed (id, i) List.mem_cons_self
    cases rest with
    | nil =>
      refine .bind (lowerInstruction_completes h isInstruction (endsAtTerminator_singleton ends)
        fun w code exits => done w code (.exit exits)) fun _ _ d _ h => .pure h
    | cons q rest =>
      obtain ⟨goesOn, ends⟩ := endsAtTerminator_cons ends
      refine .bind (lowerInstruction_shapes h isInstruction goesOn fun w code rest step later =>
        done w _ (.step goesOn step later)) ?_
      rintro _ _ d _ ⟨rfl, h⟩
      exact ih (fun p mem => listed p (List.mem_cons_of_mem _ mem)) ends h fun _ _ body => body

/-- Lowering a source block writes it, and whatever blocks it needs besides. -/
theorem lowerBlock_shapes (source : SourceBlock) {f : Function}
    (found : c.module.function? source.function = some f)
    (ends : ∀ b ∈ f.blocks, endsAtTerminator (c.module.instructionsOf b) = true)
    (h : d.Shaped c source.function todo roles) (waits : todo source.block)
    (known : roles[source.block]? = some (.source source.block)) :
    Lower.Shapes c roles d (lowerBlock source) fun _ roles' d' =>
      d'.Shaped c source.function (fun l => todo l ∧ l ≠ source.block) roles' := by
  have body {roles : List Role} {d : Draft}
      (h : d.Writing c source.function (fun l => todo l ∧ l ≠ source.block)
        (fun w code => BlockCode c source.function w (.source source.block)
          (entering c source.block ++ code)) roles) :
      Lower.Shapes c roles d (do
        let m ← Lower.module
        let phis ← Lower.required (m.leadingPhis? source.function source.block)
        Lower.emit (takeOver phis.reverse)
        let code ← Lower.required (m.blockInstructions? source.function source.block)
        lowerInstructions source (code.drop phis.length)) fun _ roles' d' =>
          d'.Shaped c source.function (fun l => todo l ∧ l ≠ source.block) roles' := by
    refine .read Lower.module_reads fun _ same => ?_
    rw [same]
    refine .read (Lower.required_reads _) fun phis leading => ?_
    have arePhis : ∀ phi ∈ phis.reverse, ∃ i, c.module.instruction? phi = some i ∧
        i.opcode = .phi := by
      intro phi mem
      exact isPhi_of_leadingPhis? leading phi (List.mem_reverse.1 mem)
    refine .bind (Lower.emit_shapes h (takeOver_shapes h.housed arePhis) (N := fun w code =>
      ∃ instrs, c.module.blockInstructions? source.function source.block = some instrs ∧
        BodyCode c source.function w (instrs.drop phis.length) code) ?_) ?_
    · rintro w _ opening rest takes ⟨instrs, listed, body⟩
      exact ⟨phis, instrs, opening, rest, leading, listed, takes, body, rfl⟩
    rintro _ _ d _ ⟨rfl, h⟩
    refine .read (Lower.required_reads _) fun instrs listed => ?_
    have inBody := mem_bodyOf_of_blockInstructions? found listed
    have isTerminated : endsAtTerminator instrs = true := by
      rw [Module.blockInstructions?, found, Option.bind_some, Option.map_eq_some_iff] at listed
      obtain ⟨b, there, rfl⟩ := listed
      exact ends b (Array.mem_of_getElem? there)
    refine lowerInstructions_shapes (fun p mem => ?_) ?_ h
      fun w written body => ⟨instrs, listed, body⟩
    · exact instruction?_of_mem_bodyOf (inBody p (List.mem_of_mem_drop mem))
    · rw [drop_length_leadingPhis listed leading]
      exact endsAtTerminator_dropWhile isTerminated
  refine .bind (Lower.positionAt_shapes h waits known) ?_
  rintro _ _ d _ ⟨rfl, h⟩
  refine .read Lower.context_reads fun _ same => ?_
  rw [same]
  split
  · rename_i enters
    refine .bind (instr_shapes h (N := fun w code => BlockCode c source.function w
      (.source source.block) (entering c source.block ++ code)) fun w _ rest follows => ?_) ?_
    · rwa [entering, if_pos enters] at follows
    · rintro _ _ d _ ⟨rfl, h⟩
      exact body h
  · rename_i stays
    refine body (h.imp fun w _ rest follows => ?_)
    rwa [entering, if_neg stays] at follows

/-- Lowering source blocks in order leaves those behind them to be written. -/
theorem lowerBlocks_shapes {function : Nat} {f : Function}
    (found : c.module.function? function = some f)
    (ends : ∀ b ∈ f.blocks, endsAtTerminator (c.module.instructionsOf b) = true)
    (numbered : f.Numbered) {before blocks : List Source.Block}
    (split : f.blocks.toList = before ++ blocks)
    (sources : (List.range f.blocks.size).map Role.source <+: roles)
    (h : d.Shaped c function (fun l => before.length ≤ l ∧ l < f.blocks.size) roles) :
    Lower.Shapes c roles d (lowerBlocks function blocks) fun _ roles' d' =>
      d'.Shaped c function (fun _ => False) roles' := by
  have total : f.blocks.size = before.length + blocks.length := by
    rw [← Array.length_toList, split, List.length_append]
  induction blocks generalizing d roles before with
  | nil =>
    have all : f.blocks.size = before.length := total
    exact .pure (h.congr fun l => ⟨fun ⟨low, high⟩ => by omega, False.elim⟩)
  | cons b rest ih =>
    have there : f.blocks[before.length]? = some b := by
      rw [← Array.getElem?_toList, split]
      simp
    have here : b.id = before.length := numbered there
    rw [List.length_cons] at total
    have inside : b.id < f.blocks.size := by omega
    have known : roles[b.id]? = some (.source b.id) := by
      obtain ⟨made, same⟩ := sources
      rw [← same, List.getElem?_append_left (by simpa using inside), List.getElem?_map,
        List.getElem?_range inside]
      rfl
    refine .bind (lowerBlock_shapes ⟨function, b.id⟩ found ends h
      ⟨Nat.le_of_eq here.symm, inside⟩ known) fun _ roles' d' more h => ?_
    have split' : f.blocks.toList = (before ++ [b]) ++ rest := by rw [split, List.append_assoc]; rfl
    refine ih split' (sources.trans more) (h.congr fun l => ?_) ?_
    · dsimp only
      rw [List.length_append, List.length_singleton, here]
      omega
    · rw [List.length_append, List.length_singleton]
      omega

/-! ## Functions -/

/-- Before anything is lowered, all blocks of the function are to be written. -/
theorem starts_shaped {f : Function} {s : Ledger} (housed : Housed c.module c.homes s)
    (function : Nat) :
    Draft.Shaped c function (fun l => ([] : List Source.Block).length ≤ l ∧ l < f.blocks.size)
      ((List.range f.blocks.size).map .source) { startDraft f with storage := s } where
  housed := housed
  covered := by simp [startDraft]
  inside label waits := by simpa [startDraft] using waits.2
  waiting label b there _ := by
    change (f.blocks.map _)[label]? = some b at there
    rw [Array.getElem?_map] at there
    obtain ⟨_, -, rfl⟩ := Option.map_eq_some_iff.1 there
    rfl
  written label b role there done _ := by
    obtain ⟨inside, -⟩ := Array.getElem?_eq_some_iff.1 there
    change label < (f.blocks.map _).size at inside
    rw [Array.size_map] at inside
    exact absurd ⟨Nat.zero_le _, inside⟩ done

/-- All blocks are written. -/
theorem written_shapes {function : Nat} {f : Function}
    (found : c.module.function? function = some f)
    (ends : ∀ b ∈ f.blocks, endsAtTerminator (c.module.instructionsOf b) = true)
    (numbered : f.Numbered) :
    Lower.Ensures c (startDraft f) (lowerBody function f) fun _ d => ∃ homes roles,
      (List.range f.blocks.size).map .source <+: roles ∧
        d.Shaped { c with homes } function (fun _ => False) roles := by
  refine .read Lower.module_reads fun _ same => ?_
  rw [same]
  refine .bind (allocated_starts f) fun homes d ⟨same, housed⟩ => ?_
  have start := starts_shaped (c := { c with homes }) (f := f) housed function
  rw [← same] at start
  refine Lower.housed_ensures fun _ d' run => ⟨homes, ?_⟩
  exact lowerBlocks_shapes (c := { c with homes }) found ends numbered rfl List.prefix_rfl start run

/-- A lowered body with the roles of its blocks. -/
structure Shaped (c : Context) (function : Nat) (f : Function) (body : Code.Body)
    (roles : List Role) : Prop where
  housed : Housed c.module c.homes body.storage
  sources : (List.range f.blocks.size).map .source <+: roles
  covered : roles.length = body.blocks.length
  labels : body.blocks.map (·.label) = List.range body.blocks.length
  code : ∀ ⦃label : Nat⦄ ⦃b : Code.Block⦄ ⦃role : Role⦄, body.blocks[label]? = some b →
    roles[label]? = some role → BlockCode c function ⟨body.storage, roles⟩ role b.code

/-- Every block of a lowered body has the code that its role asks for. -/
theorem lowering_shapes {conventions : Conventions} {m : Module} {throwing : Throwing}
    {function : Nat} {f : Function} {body : Code.Body} (built : m.Built)
    (found : m.function? function = some f)
    (ends : ∀ b ∈ f.blocks, endsAtTerminator (m.instructionsOf b) = true)
    (lowered : (lowerFunction conventions m throwing function).1 = .ok body) :
    ∃ returns homes roles, Shaped (functionContext conventions m throwing function f returns homes)
      function f body roles := by
  obtain ⟨f', returns, d, found', -, ran, storage, blocks⟩ := lowerFunction_eq_ok lowered
  obtain rfl : f = f' := Option.some.inj (found.symm.trans found')
  have written := written_shapes (c := functionContext conventions m throwing function f returns)
    found ends (Source.numbered_of_built built found)
  obtain ⟨homes, roles, sources, shaped⟩ := written ran
  refine ⟨returns, homes, roles, ?_, sources, ?_, ?_, ?_⟩
  · rw [storage]
    exact shaped.housed
  · rw [blocks, shaped.covered, Draft.finish, List.length_map, List.length_zipIdx,
      Array.length_toList]
  · rw [blocks]
    exact d.map_label_finish
  · intro label b role there known
    rw [storage]
    rw [blocks, Draft.finish, List.getElem?_map, List.getElem?_zipIdx,
      Array.getElem?_toList] at there
    obtain ⟨_, pair, rfl⟩ := Option.map_eq_some_iff.1 there
    obtain ⟨b', there', rfl⟩ := Option.map_eq_some_iff.1 pair
    exact shaped.written there' id known _ (.refl _ _)

end Stackwise.Lowering
