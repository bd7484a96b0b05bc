import Stackwise.Proofs.Code.Machine
import Stackwise.Proofs.Peephole.Windows

/-!
# Folding keeps behaviour

Folding removes addresses.  The load or store behind one then finds its variable by name, and
everything between the address and the store runs on a stack that is one value lower.  No machine
on which a variable is a cell can tell the difference: a block reaches the same anchors with the
same stacks and stores, and ends in the same way.

Only runs that do not underflow are compared.  Code that pops more than there is has no meaning to
keep, and the verifier refuses it.

* `Agrees` compares two pieces of code, `AgreesOn` two bodies.
* `Folds.agrees`: each window of folding agrees with what replaces it, whatever stands behind it.
* `AgreesOn.run`: bodies that agree block by block agree in every run from every label.
-/

namespace Stackwise.Code.Machine

variable {V S : Type} (μ : Machine V S)

/-- At the address of a variable, the machine finds the cell of that variable, at its type. -/
structure Respects (storage : Storage) : Prop where
  fetch : ∀ {var : Nat} {v : Variable} (store : S), storage.get? var = some v →
    μ.fetch store v.ty (μ.address var) = some (μ.read store var)
  assign : ∀ {var : Nat} {v : Variable} (store : S) (x : V), storage.get? var = some v →
    μ.assign store v.ty (μ.address var) x = some (μ.write store var x)

/-- Every run of the first code that does not underflow is a run of the second. -/
def Agrees (code code' : List Instr) : Prop :=
  ∀ stack store, (μ.exec code stack store).ending ≠ .underflowed →
    μ.exec code' stack store = μ.exec code stack store

variable {μ}

theorem Agrees.refl (code : List Instr) : μ.Agrees code code := fun _ _ _ => rfl

/-- Code that agrees with code that agrees with other code agrees with that as well. -/
theorem Agrees.trans {code code' code'' : List Instr} (first : μ.Agrees code code')
    (second : μ.Agrees code' code'') : μ.Agrees code code'' := by
  intro stack store runs
  have same := first stack store runs
  rw [← same] at runs
  rw [second stack store runs, same]

/-- One more instruction in front: it leaves the same stack and store to both. -/
theorem Agrees.cons {code code' : List Instr} (h : μ.Agrees code code') (i : Instr) :
    μ.Agrees (i :: code) (i :: code') := by
  intro stack store runs
  rw [exec] at runs
  rw [exec, exec]
  split at runs
  · exact absurd rfl runs
  rename_i enough
  rw [if_neg enough, if_neg enough]
  cases anchor : i.isAnchor with
  | true =>
    simp only [anchor, if_true, Pass.after] at runs ⊢
    cases control : μ.control i stack store with
    | next stack' store' =>
      simp only [control] at runs ⊢
      rw [h stack' store' runs]
    | jump label stack' store' => rfl
    | leave value store' => rfl
  | false =>
    simp only [anchor, Bool.false_eq_true, if_false] at runs ⊢
    cases stepped : μ.step i stack store with
    | none => rfl
    | some p =>
      simp only [stepped] at runs ⊢
      exact h p.1 p.2 runs

/-- The same code may stand in front. -/
theorem Agrees.append_left {code code' : List Instr} (h : μ.Agrees code code')
    (front : List Instr) : μ.Agrees (front ++ code) (front ++ code') := by
  induction front with
  | nil => exact h
  | cons i front ih => exact ih.cons i

/-- Code that needs nothing of what lies below may be compared by running it. -/
theorem Agrees.of_eq {code code' : List Instr}
    (h : ∀ stack store, μ.exec code' stack store = μ.exec code stack store) :
    μ.Agrees code code' := fun stack store _ => h stack store

/-- Code that starts by popping a value may be compared on stacks that hold one. -/
theorem Agrees.of_pop {i : Instr} {code code' : List Instr} (pops : i.pops = 1)
    (h : ∀ x stack store,
      μ.exec code' (x :: stack) store = μ.exec (i :: code) (x :: stack) store) :
    μ.Agrees (i :: code) code' := by
  intro stack store runs
  cases stack with
  | cons x stack => exact h x stack store
  | nil =>
    rw [exec, pops] at runs
    exact absurd rfl runs

/-! ## Bodies -/

variable (μ) in
/-- Two bodies with the same blocks but for their code, which agrees. -/
structure AgreesOn (blocks blocks' : List Block) : Prop where
  length : blocks'.length = blocks.length
  block : ∀ {k : Nat} {b : Block}, blocks[k]? = some b →
    ∃ code, blocks'[k]? = some { b with code } ∧ μ.Agrees b.code code

theorem AgreesOn.refl (blocks : List Block) : μ.AgreesOn blocks blocks :=
  ⟨rfl, fun {_ b} found => ⟨b.code, found, .refl b.code⟩⟩

/-- The same for bodies. -/
theorem AgreesOn.trans {blocks blocks' blocks'' : List Block} (first : μ.AgreesOn blocks blocks')
    (second : μ.AgreesOn blocks' blocks'') : μ.AgreesOn blocks blocks'' := by
  refine ⟨second.length.trans first.length, fun found => ?_⟩
  obtain ⟨code, found', agrees⟩ := first.block found
  obtain ⟨code', found'', agrees'⟩ := second.block found'
  exact ⟨code', found'', agrees.trans agrees'⟩

/-- Bodies agree if their first blocks do and all others. -/
theorem AgreesOn.cons {b : Block} {code : List Instr} {blocks blocks' : List Block}
    (first : μ.Agrees b.code code) (others : μ.AgreesOn blocks blocks') :
    μ.AgreesOn (b :: blocks) ({ b with code } :: blocks') := by
  refine ⟨congrArg (· + 1) others.length, fun {k b'} found => ?_⟩
  cases k with
  | zero =>
    cases found
    exact ⟨code, rfl, first⟩
  | succ k => exact others.block found

/-- Runs of bodies that agree pass through the same blocks in the same way. -/
theorem AgreesOn.run {blocks blocks' : List Block} (h : μ.AgreesOn blocks blocks')
    (fuel label : Nat) (stack : List V) (store : S)
    (runs : (μ.run blocks fuel label stack store).2 ≠ .underflowed) :
    μ.run blocks' fuel label stack store = μ.run blocks fuel label stack store := by
  induction fuel generalizing label stack store with
  | zero => rfl
  | succ fuel ih =>
    rw [Machine.run] at runs ⊢
    rw [Machine.run]
    cases found : blocks[label]? with
    | none =>
      have beyond : blocks'[label]? = none := by
        rw [List.getElem?_eq_none_iff] at found ⊢
        rwa [h.length]
      rw [beyond]
    | some b =>
      obtain ⟨code, found', agrees⟩ := h.block found
      simp only [found, found'] at runs ⊢
      -- A block that underflows ends the run, so the block at hand does not.
      have same : μ.exec code stack store = μ.exec b.code stack store := by
        apply agrees
        intro underflowed
        rw [underflowed] at runs
        exact runs rfl
      rw [same]
      cases ending : (μ.exec b.code stack store).ending with
      | jumped next stack' store' =>
        simp only [ending] at runs ⊢
        rw [ih next stack' store' runs]
      | fell stack' store' =>
        simp only [ending] at runs ⊢
        rw [ih (label + 1) stack' store' runs]
      | left | underflowed | stuck => rfl

end Stackwise.Code.Machine

namespace Stackwise.Peephole

open Code
open Code.Machine (Agrees Respects)

variable {V S : Type} {μ : Machine V S} {storage : Storage}

/-! ## Windows -/

/-- A value that is pushed and popped at once. -/
theorem agrees_dead {i : Instr} {x : S → V} (plain : i.isAnchor = false) (pops : i.pops = 0)
    (pushes : ∀ stack store, μ.step i stack store = some (x store :: stack, store))
    (rest : List Instr) : μ.Agrees (i :: .pop :: rest) rest := by
  apply Agrees.of_eq
  intro stack store
  have enough : i.pops ≤ stack.length := by rw [pops]; exact Nat.zero_le _
  rw [μ.exec_step plain enough (pushes stack store),
    μ.exec_step rfl (Nat.le_add_left 1 _) (μ.step_pop _ stack store)]

/-- An indirect load at the address of a variable finds its cell. -/
theorem agrees_load (respects : μ.Respects storage) {var : Nat} {v : Variable}
    (listed : storage.get? var = some v) (rest : List Instr) :
    μ.Agrees (.addressOf var :: .loadIndirect v.ty :: rest) (.load var :: rest) := by
  apply Agrees.of_eq
  intro stack store
  have fetched : μ.step (.loadIndirect v.ty) (μ.address var :: stack) store =
      some (μ.read store var :: stack, store) := by
    rw [μ.step_loadIndirect, respects.fetch store listed]
    rfl
  rw [μ.exec_step rfl (Nat.zero_le _) (μ.step_load var stack store),
    μ.exec_step rfl (Nat.zero_le _) (μ.step_addressOf var stack store),
    μ.exec_step rfl (Nat.le_add_left 1 _) fetched]

/-- An indirect load at the address of a field loads the field. -/
theorem agrees_loadField (field : Field) (rest : List Instr) :
    μ.Agrees (.fieldAddress field :: .loadIndirect field.ty :: rest)
      (.loadField field :: rest) := by
  apply Agrees.of_pop rfl
  intro a stack store
  rw [μ.exec_cons rfl (Nat.le_add_left 1 _), μ.exec_cons rfl (Nat.le_add_left 1 _),
    μ.step_loadField, μ.step_fieldAddress]
  cases μ.field field a with
  | none => rfl
  | some a' =>
    show _ = μ.exec (.loadIndirect field.ty :: rest) (a' :: stack) store
    rw [μ.exec_cons rfl (Nat.le_add_left 1 _)]
    rfl

/-- An indirect store at the address of a variable writes its cell, also if the address is pushed
long before. -/
theorem agrees_store (respects : μ.Respects storage) {var : Nat} {v : Variable}
    {passed : List Instr} (listed : storage.get? var = some v)
    (pushesOne : climb 0 passed = some 1) (rest : List Instr) :
    μ.Agrees (.addressOf var :: (passed ++ .storeIndirect v.ty :: rest))
      (passed ++ .store var :: rest) := by
  apply Agrees.of_eq
  intro stack store
  rw [μ.exec_step rfl (Nat.zero_le _) (μ.step_addressOf var stack store)]
  obtain stuck | ⟨x, after, pushed⟩ := μ.exec_pushesOne pushesOne store
  · rw [stuck, stuck]
  · -- Both push `x`, with the address below it or not, and leave the store `after`.
    have assigned : μ.step (.storeIndirect v.ty) (x :: μ.address var :: stack) after =
        some (stack, μ.write after var x) := by
      rw [μ.step_storeIndirect, respects.assign after x listed]
      rfl
    rw [pushed, pushed, μ.exec_step rfl (Nat.le_add_left 1 _) (μ.step_store var x stack after),
      μ.exec_step rfl (Nat.le_add_left 2 _) assigned]

/-- An indirect store at the address of a field stores to the field. -/
theorem agrees_storeField (field : Field) {passed : List Instr}
    (pushesOne : climb 0 passed = some 1) (rest : List Instr) :
    μ.Agrees (.fieldAddress field :: (passed ++ .storeIndirect field.ty :: rest))
      (passed ++ .storeField field :: rest) := by
  apply Agrees.of_pop rfl
  intro a stack store
  rw [μ.exec_cons rfl (Nat.le_add_left 1 _), μ.step_fieldAddress]
  obtain stuck | ⟨x, after, pushed⟩ := μ.exec_pushesOne pushesOne store
  · rw [stuck]
    cases μ.field field a with
    | none => rfl
    | some a' => exact (stuck _ _).symm
  · -- Without an address for the field, one gets stuck at the field and the other at the store.
    rw [pushed, μ.exec_cons rfl (Nat.le_add_left 2 _), μ.step_storeField]
    cases μ.field field a with
    | none => rfl
    | some a' =>
      show _ = μ.exec (passed ++ .storeIndirect field.ty :: rest) (a' :: stack) store
      rw [pushed, μ.exec_cons rfl (Nat.le_add_left 2 _)]
      rfl

/-- Folding a window keeps every run. -/
theorem Folds.agrees (respects : μ.Respects storage) {temps : Marks} {old new : List Instr}
    (h : Folds storage temps old new) (rest : List Instr) :
    μ.Agrees (old ++ rest) (new ++ rest) := by
  cases h with
  | load listed => exact agrees_load respects listed rest
  | loadField field => exact agrees_loadField field rest
  | deadLoad var => exact agrees_dead rfl rfl (μ.step_load var) rest
  | deadAddress var => exact agrees_dead rfl rfl (μ.step_addressOf var) rest
  | deadSize ty => exact agrees_dead rfl rfl (μ.step_sizeOf ty) rest
  | store listed pushesOne =>
    simpa only [List.cons_append, List.append_assoc, List.nil_append] using
      agrees_store respects listed pushesOne rest
  | storeField field pushesOne =>
    simpa only [List.cons_append, List.append_assoc, List.nil_append] using
      agrees_storeField field pushesOne rest

/-! ## The optimizer -/

/-- Code agrees if the window does that is rewritten. -/
theorem Rewrites.agrees {window : List Instr → List Instr → Prop}
    (agrees : ∀ {old new}, window old new → ∀ rest, μ.Agrees (old ++ rest) (new ++ rest))
    {code code' : List Instr} (h : Rewrites window code code') : μ.Agrees code code' := by
  obtain ⟨front, old, new, rest, rewritten, rfl, rfl⟩ := h
  rw [List.append_assoc, List.append_assoc]
  exact (agrees rewritten rest).append_left front

theorem BodyRewrites.agreesOn {window : List Instr → List Instr → Prop}
    (agrees : ∀ {old new}, window old new → ∀ rest, μ.Agrees (old ++ rest) (new ++ rest))
    {blocks blocks' : List Block} (h : BodyRewrites window blocks blocks') :
    μ.AgreesOn blocks blocks' := by
  obtain ⟨front, b, rest, code, rewritten, rfl, rfl⟩ := h
  induction front with
  | nil => exact .cons (rewritten.agrees agrees) (.refl rest)
  | cons first front ih => exact .cons (.refl first.code) ih

/-- On the level that only folds, every window is a window of folding. -/
theorem Windows.agrees (respects : μ.Respects storage) {old new : List Instr}
    (h : Windows storage .fold old new) (rest : List Instr) :
    μ.Agrees (old ++ rest) (new ++ rest) := by
  cases h with
  | fold folded => exact folded.agrees respects rest
  | clean allowed => cases allowed

/-- On the level of folding, the optimizer keeps every run. -/
theorem optimize_agreesOn (respects : μ.Respects storage) (blocks : List Block) :
    μ.AgreesOn blocks (optimize storage .fold blocks).1 := by
  have chain := optimize_rewrites storage .fold blocks
  generalize (optimize storage .fold blocks).1 = done at chain ⊢
  induction chain with
  | refl => exact .refl blocks
  | tail _ step ih => exact ih.trans (step.agreesOn (Windows.agrees respects))

/-- Folding keeps the behaviour of every body on every machine that respects the variables.  The
blocks stay where they are.  A block that does not underflow reaches the same anchors, each with the
same stack and store, and ends in the same way, from whatever stack and store it starts; and so does
every run through the body, from whatever label. -/
theorem folding_keeps_behaviour {V S : Type} (μ : Machine V S) (storage : Storage)
    (respects : μ.Respects storage) (blocks : List Block) :
    (optimize storage .fold blocks).1.length = blocks.length ∧
    (∀ (k : Nat) (b : Block), blocks[k]? = some b →
      ∃ code, (optimize storage .fold blocks).1[k]? = some { b with code } ∧
        ∀ (stack : List V) (store : S), (μ.exec b.code stack store).ending ≠ .underflowed →
          μ.exec code stack store = μ.exec b.code stack store) ∧
    ∀ (fuel label : Nat) (stack : List V) (store : S),
      (μ.run blocks fuel label stack store).2 ≠ .underflowed →
        μ.run (optimize storage .fold blocks).1 fuel label stack store =
          μ.run blocks fuel label stack store := by
  have agrees := optimize_agreesOn respects blocks
  exact ⟨agrees.length, fun _ _ found => agrees.block found, agrees.run⟩

/-- A machine of numbers, on which a variable is its own address.  An instruction that has no
meaning of its own pushes the sum of what it pops. -/
def cells : Machine Nat (Nat → Nat) where
  read store var := store var
  write store var x := fun other => if other = var then x else store other
  address var := var
  field _ a := some a
  fetch store _ a := some (store a)
  assign store _ a x := some fun other => if other = a then x else store other
  size _ := 4
  plain i popped store := some (List.replicate i.pushes (popped.foldl (· + ·) 0), store)
  length_plain h := by
    cases h
    exact List.length_replicate
  control i stack store :=
    match i with
    | .branch target => .jump target stack store
    | .ret true => .leave stack.head? store
    | _ => .next stack store

/-- A block that computes into a temporary through its address and hands the result to the next. -/
def handing : List Block :=
  [⟨0, some 0, [.addressOf 0, .addressOf 1, .loadIndirect .int32, .sizeOf .int32, .binary .add,
    .storeIndirect .int32, .load 0, .branch 1]⟩, ⟨1, some 1, [.ret true]⟩]

/-- Its variables. -/
def handingStorage : Storage :=
  { entries := #[⟨.slot, .int32, .free, none⟩, ⟨.parameter 0, .int32, .pinned, none⟩] }

theorem cells_respects (storage : Storage) : cells.Respects storage :=
  ⟨fun _ _ => rfl, fun _ _ _ => rfl⟩

/-- The indirect store becomes a direct one, the load of a parameter through its address stays, and
the second block returns the same number. -/
theorem folding_keeps_behaviour_handing :
    (optimize handingStorage .fold handing).1 =
      [⟨0, some 0, [.addressOf 1, .loadIndirect .int32, .sizeOf .int32, .binary .add, .store 0,
        .load 0, .branch 1]⟩, ⟨1, some 1, [.ret true]⟩] ∧
    (∃ store, (cells.run handing 2 0 [] fun _ => 3).2 = .left (some 7) store) ∧
    cells.run (optimize handingStorage .fold handing).1 2 0 [] (fun _ => 3) =
      cells.run handing 2 0 [] fun _ => 3 := by
  refine ⟨by decide +kernel, ⟨_, rfl⟩, ?_⟩
  exact (folding_keeps_behaviour cells handingStorage (cells_respects _) handing).2.2 2 0 []
    (fun _ => 3) nofun

end Stackwise.Peephole
