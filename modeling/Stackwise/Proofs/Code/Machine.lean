import Stackwise.Code.Variable
import Stackwise.Proofs.Code.Height

/-!
# Running code

A stack machine on which bodies run.  What a machine must do is fixed only where the instructions
themselves fix it: a variable is a cell, `addressOf` pushes an address that does not change, a field
is accessed through its address.  Everything else is left to the machine.  An instruction that is
no anchor is an arbitrary function of the values it pops and of the store; an anchor, where control
or the meaning of the stack may change, is an arbitrary function of the whole stack and the store.

* `Machine.exec` runs a block and records with which stack and store each anchor is reached;
  `Machine.run` runs a body from a label on.
* `Machine.exec_straight`: straight-line code that does not underflow runs by itself
  (`Machine.steps`), and `Machine.steps_append`: in the same way on top of any other values.
* `Machine.Leads` and `Machine.Ends` say what a piece of code does to stack and store, whatever
  stands behind it.  They are put together by `Leads.append` and `Leads.ends`.
-/

namespace Stackwise.Code

/-- What an anchor does. -/
inductive Control (V S : Type) where
  /-- Control goes on to the next instruction. -/
  | next (stack : List V) (store : S)
  | jump (label : Nat) (stack : List V) (store : S)
  /-- The body is left, perhaps with a value. -/
  | leave (value : Option V) (store : S)

/-- A stack machine with values `V` and stores `S`.  Stacks are listed from the top. -/
structure Machine (V S : Type) where
  /-- What the cell of a variable holds. -/
  read : S → (var : Nat) → V
  write : S → (var : Nat) → V → S
  address : (var : Nat) → V
  /-- The address of a field, given that of the aggregate, which may be none. -/
  field : Field → (address : V) → Option V
  /-- Reads a value of a type at an address. -/
  fetch : S → Ty → (address : V) → Option V
  /-- Writes a value of a type at an address. -/
  assign : S → Ty → (address value : V) → Option S
  size : Ty → V
  /-- Any other instruction that is no anchor: from the values it pops to those it pushes.  It may
  get stuck. -/
  plain : Instr → (popped : List V) → S → Option (List V × S)
  length_plain : ∀ {i popped store pushed store'},
    plain i popped store = some (pushed, store') → pushed.length = i.pushes
  /-- An anchor, which sees the whole stack. -/
  control : Instr → (stack : List V) → S → Control V S

/-- An anchor that was reached, and with what. -/
structure Arrival (V S : Type) where
  anchor : Instr
  stack : List V
  store : S

/-- How a run ends. -/
inductive Ending (V S : Type) where
  /-- At the end of the code. -/
  | fell (stack : List V) (store : S)
  | jumped (label : Nat) (stack : List V) (store : S)
  | left (value : Option V) (store : S)
  /-- At an instruction that pops more values than there are. -/
  | underflowed
  /-- At an instruction that the machine cannot execute. -/
  | stuck

/-- What a run through a block has reached, in order, and how it has ended. -/
structure Pass (V S : Type) where
  arrivals : List (Arrival V S) := []
  ending : Ending V S

/-- A pass that has reached another anchor before. -/
def Pass.after {V S : Type} (first : Arrival V S) (p : Pass V S) : Pass V S :=
  { p with arrivals := first :: p.arrivals }

namespace Machine

variable {V S : Type} (μ : Machine V S)

/-- An instruction that is no anchor, from the values it pops to those it pushes. -/
def act (store : S) : Instr → (popped : List V) → Option (List V × S)
  | .load var, [] => some ([μ.read store var], store)
  | .store var, [x] => some ([], μ.write store var x)
  | .addressOf var, [] => some ([μ.address var], store)
  | .loadIndirect ty, [a] => (μ.fetch store ty a).map fun x => ([x], store)
  | .storeIndirect ty, [x, a] => (μ.assign store ty a x).map fun store => ([], store)
  | .fieldAddress field, [a] => (μ.field field a).map fun a => ([a], store)
  | .loadField field, [a] =>
    (μ.field field a).bind fun a => (μ.fetch store field.ty a).map fun x => ([x], store)
  | .storeField field, [x, a] =>
    (μ.field field a).bind fun a => (μ.assign store field.ty a x).map fun store => ([], store)
  | .sizeOf ty, [] => some ([μ.size ty], store)
  | .pop, [_] => some ([], store)
  | i, popped => μ.plain i popped store

/-- An instruction that is no anchor, on a stack that is high enough for it. -/
def step (i : Instr) (stack : List V) (store : S) : Option (List V × S) :=
  (μ.act store i (stack.take i.pops)).map fun p => (p.1 ++ stack.drop i.pops, p.2)

/-- Runs through code. -/
def exec : List Instr → (stack : List V) → S → Pass V S
  | [], stack, store => { ending := .fell stack store }
  | i :: rest, stack, store =>
    if stack.length < i.pops then { ending := .underflowed }
    else if i.isAnchor then
      Pass.after ⟨i, stack, store⟩ <|
        match μ.control i stack store with
        | .next stack store => exec rest stack store
        | .jump label stack store => { ending := .jumped label stack store }
        | .leave value store => { ending := .left value store }
    else
      match μ.step i stack store with
      | some (stack, store) => exec rest stack store
      | none => { ending := .stuck }

/-- Runs through at most `fuel` blocks of a body from the block at position `label` on, and gives
the passes through them.  A block that control falls out of is followed by the next one. -/
def run (blocks : List Block) :
    (fuel label : Nat) → (stack : List V) → S → List (Nat × Pass V S) × Ending V S
  | 0, label, stack, store => ([], .jumped label stack store)
  | fuel + 1, label, stack, store =>
    match blocks[label]? with
    | none => ([], .jumped label stack store)
    | some b =>
      let pass := μ.exec b.code stack store
      let (later, ending) :=
        match pass.ending with
        | .jumped next stack store => run blocks fuel next stack store
        | .fell stack store => run blocks fuel (label + 1) stack store
        | ending => ([], ending)
      ((label, pass) :: later, ending)

/-- Runs straight-line code on a stack that is high enough for it. -/
def steps : List Instr → (stack : List V) → S → Option (List V × S)
  | [], stack, store => some (stack, store)
  | i :: rest, stack, store =>
    match μ.step i stack store with
    | some (stack, store) => steps rest stack store
    | none => none

/-! ## Single instructions -/

/-- An instruction that is no anchor pushes as many values as it says. -/
theorem length_act {i : Instr} {popped pushed : List V} {store store' : S}
    (h : μ.act store i popped = some (pushed, store')) : pushed.length = i.pushes := by
  unfold act at h
  split at h
  case h_4 | h_5 | h_6 =>
    obtain ⟨_, -, same⟩ := Option.map_eq_some_iff.1 h
    cases same
    rfl
  case h_7 | h_8 =>
    obtain ⟨a, -, h⟩ := Option.bind_eq_some_iff.1 h
    obtain ⟨_, -, same⟩ := Option.map_eq_some_iff.1 h
    cases same
    rfl
  case h_11 => exact μ.length_plain h
  all_goals
    cases h
    rfl

/-- It changes the height of the stack accordingly. -/
theorem length_step {i : Instr} {stack stack' : List V} {store store' : S}
    (h : μ.step i stack store = some (stack', store')) :
    stack'.length = stack.length - i.pops + i.pushes := by
  rw [step, Option.map_eq_some_iff] at h
  obtain ⟨⟨pushed, after⟩, acted, same⟩ := h
  cases same
  rw [List.length_append, List.length_drop, μ.length_act acted, Nat.add_comm]

/-- The values below those that an instruction pops stay as they are. -/
theorem step_append {i : Instr} {stack : List V} (enough : i.pops ≤ stack.length)
    (below : List V) (store : S) :
    μ.step i (stack ++ below) store =
      (μ.step i stack store).map fun p => (p.1 ++ below, p.2) := by
  rw [step, step, List.take_append_of_le_length enough, List.drop_append_of_le_length enough,
    Option.map_map]
  congr 1
  funext p
  rw [Function.comp_apply, List.append_assoc]

@[simp] theorem step_load (var : Nat) (stack : List V) (store : S) :
    μ.step (.load var) stack store = some (μ.read store var :: stack, store) := rfl

@[simp] theorem step_store (var : Nat) (x : V) (stack : List V) (store : S) :
    μ.step (.store var) (x :: stack) store = some (stack, μ.write store var x) := rfl

@[simp] theorem step_addressOf (var : Nat) (stack : List V) (store : S) :
    μ.step (.addressOf var) stack store = some (μ.address var :: stack, store) := rfl

@[simp] theorem step_loadIndirect (ty : Ty) (a : V) (stack : List V) (store : S) :
    μ.step (.loadIndirect ty) (a :: stack) store =
      (μ.fetch store ty a).map fun x => (x :: stack, store) := by
  show ((μ.fetch store ty a).map _).map _ = _
  rw [Option.map_map]
  rfl

@[simp] theorem step_storeIndirect (ty : Ty) (x a : V) (stack : List V) (store : S) :
    μ.step (.storeIndirect ty) (x :: a :: stack) store =
      (μ.assign store ty a x).map fun store => (stack, store) := by
  show ((μ.assign store ty a x).map _).map _ = _
  rw [Option.map_map]
  rfl

@[simp] theorem step_fieldAddress (field : Field) (a : V) (stack : List V) (store : S) :
    μ.step (.fieldAddress field) (a :: stack) store =
      (μ.field field a).map fun a => (a :: stack, store) := by
  show ((μ.field field a).map _).map _ = _
  rw [Option.map_map]
  rfl

/-- A field is loaded through its address. -/
theorem step_loadField (field : Field) (a : V) (stack : List V) (store : S) :
    μ.step (.loadField field) (a :: stack) store =
      (μ.field field a).bind fun a => μ.step (.loadIndirect field.ty) (a :: stack) store := by
  show ((μ.field field a).bind _).map _ = _
  rw [Option.map_bind]
  rfl

/-- A field is stored through its address. -/
theorem step_storeField (field : Field) (x a : V) (stack : List V) (store : S) :
    μ.step (.storeField field) (x :: a :: stack) store =
      (μ.field field a).bind fun a =>
        μ.step (.storeIndirect field.ty) (x :: a :: stack) store := by
  show ((μ.field field a).bind _).map _ = _
  rw [Option.map_bind]
  rfl

@[simp] theorem step_sizeOf (ty : Ty) (stack : List V) (store : S) :
    μ.step (.sizeOf ty) stack store = some (μ.size ty :: stack, store) := rfl

@[simp] theorem step_pop (x : V) (stack : List V) (store : S) :
    μ.step .pop (x :: stack) store = some (stack, store) := rfl

/-! ## Straight-line code -/

/-- An instruction that is no anchor and has enough to pop. -/
theorem exec_cons {i : Instr} {stack : List V} (plain : i.isAnchor = false)
    (enough : i.pops ≤ stack.length) (rest : List Instr) (store : S) :
    μ.exec (i :: rest) stack store =
      match μ.step i stack store with
      | some (stack, store) => μ.exec rest stack store
      | none => { ending := .stuck } := by
  rw [exec, if_neg (Nat.not_lt.2 enough), plain]
  rfl

/-- A run goes over an instruction that is no anchor by its step. -/
theorem exec_step {i : Instr} {stack stack' : List V} {store store' : S}
    (plain : i.isAnchor = false) (enough : i.pops ≤ stack.length)
    (stepped : μ.step i stack store = some (stack', store')) (rest : List Instr) :
    μ.exec (i :: rest) stack store = μ.exec rest stack' store' := by
  rw [μ.exec_cons plain enough, stepped]

/-- Straight-line code leaves the stack as high as it climbs. -/
theorem length_steps {code : List Instr} {height : Nat} (stack : List V) {stack' : List V}
    {store store' : S} (climbs : climb stack.length code = some height)
    (h : μ.steps code stack store = some (stack', store')) : stack'.length = height := by
  induction code generalizing stack store with
  | nil =>
    cases h
    exact Option.some.inj climbs
  | cons i rest ih =>
    obtain ⟨-, -, later⟩ := climb_cons_eq_some.1 climbs
    rw [steps] at h
    split at h
    · rename_i between stepped
      rw [← μ.length_step stepped] at later
      exact ih _ later h
    · cases h

/-- Straight-line code runs in the same way on top of other values. -/
theorem steps_append {code : List Instr} {height : Nat} (stack : List V)
    (climbs : climb stack.length code = some height) (below : List V) (store : S) :
    μ.steps code (stack ++ below) store =
      (μ.steps code stack store).map fun p => (p.1 ++ below, p.2) := by
  induction code generalizing stack store with
  | nil => rfl
  | cons i rest ih =>
    obtain ⟨-, enough, later⟩ := climb_cons_eq_some.1 climbs
    rw [steps, steps, μ.step_append enough]
    cases stepped : μ.step i stack store with
    | none => rfl
    | some p =>
      rw [← μ.length_step stepped] at later
      exact ih p.1 later p.2

/-- Straight-line code that has enough to pop runs by itself, and then what follows. -/
theorem exec_straight {code : List Instr} {height : Nat} (stack : List V)
    (climbs : climb stack.length code = some height) (rest : List Instr) (store : S) :
    μ.exec (code ++ rest) stack store =
      match μ.steps code stack store with
      | some (stack, store) => μ.exec rest stack store
      | none => { ending := .stuck } := by
  induction code generalizing stack store with
  | nil => rfl
  | cons i code ih =>
    obtain ⟨plain, enough, later⟩ := climb_cons_eq_some.1 climbs
    rw [List.cons_append, μ.exec_cons plain enough, steps]
    cases stepped : μ.step i stack store with
    | none => rfl
    | some p =>
      rw [← μ.length_step stepped] at later
      exact ih p.1 later p.2

/-- Code that pushes one value and touches nothing below: it gets stuck on every stack, or pushes
the same value on every stack. -/
theorem exec_pushesOne {code : List Instr} (climbs : climb 0 code = some 1) (store : S) :
    (∀ rest stack, μ.exec (code ++ rest) stack store = { ending := .stuck }) ∨
      ∃ x after, ∀ rest stack,
        μ.exec (code ++ rest) stack store = μ.exec rest (x :: stack) after := by
  -- On every stack the code runs as on the empty one, with the stack below.
  have alone (rest : List Instr) (stack : List V) :=
    μ.exec_straight ([] ++ stack) (climb_add stack.length climbs) rest store
  have below (stack : List V) := μ.steps_append [] climbs stack store
  cases pushed : μ.steps code [] store with
  | none =>
    refine .inl fun rest stack => ?_
    have run := alone rest stack
    rwa [below stack, pushed] at run
  | some p =>
    obtain ⟨out, after⟩ := p
    obtain ⟨x, rfl⟩ := List.length_eq_one_iff.1 (μ.length_steps [] climbs pushed)
    refine .inr ⟨x, after, fun rest stack => ?_⟩
    have run := alone rest stack
    rwa [below stack, pushed] at run

/-! ## Getting from one state to another -/

/-- The code leads from one stack and store to another, whatever stands behind it. -/
def Leads (code : List Instr) (stack : List V) (store : S) (stack' : List V) (store' : S) : Prop :=
  ∀ rest, (μ.exec (code ++ rest) stack store).ending = (μ.exec rest stack' store').ending

/-- The code comes to an end by itself, whatever stands behind it. -/
def Ends (code : List Instr) (stack : List V) (store : S) (ending : Ending V S) : Prop :=
  ∀ rest, (μ.exec (code ++ rest) stack store).ending = ending

variable {μ}

theorem Leads.refl (stack : List V) (store : S) : μ.Leads [] stack store stack store := fun _ => rfl

/-- Ways through code can be joined. -/
theorem Leads.append {code code' : List Instr} {stack stack' stack'' : List V}
    {store store' store'' : S} (first : μ.Leads code stack store stack' store')
    (second : μ.Leads code' stack' store' stack'' store'') :
    μ.Leads (code ++ code') stack store stack'' store'' := by
  intro rest
  rw [List.append_assoc, first, second]

/-- A way through code can be followed by its end. -/
theorem Leads.ends {code code' : List Instr} {stack stack' : List V} {store store' : S}
    {ending : Ending V S} (first : μ.Leads code stack store stack' store')
    (second : μ.Ends code' stack' store' ending) : μ.Ends (code ++ code') stack store ending := by
  intro rest
  rw [List.append_assoc, first, second]

/-- What an instruction does to the values that it pops, it does on every stack with them on top. -/
theorem step_of_act {i : Instr} {popped pushed : List V} {store store' : S}
    (height : popped.length = i.pops) (acted : μ.act store i popped = some (pushed, store'))
    (stack : List V) : μ.step i (popped ++ stack) store = some (pushed ++ stack, store') := by
  rw [step, ← height, List.take_left, List.drop_left, acted]
  rfl

/-- A step leads over its instruction. -/
theorem leads_step {i : Instr} {stack stack' : List V} {store store' : S}
    (plain : i.isAnchor = false) (enough : i.pops ≤ stack.length)
    (stepped : μ.step i stack store = some (stack', store')) :
    μ.Leads [i] stack store stack' store' :=
  fun rest => congrArg Pass.ending (μ.exec_step plain enough stepped rest)

theorem leads_load (var : Nat) (stack : List V) (store : S) :
    μ.Leads [.load var] stack store (μ.read store var :: stack) store :=
  leads_step rfl (Nat.zero_le _) (μ.step_load var stack store)

theorem leads_store (var : Nat) (x : V) (stack : List V) (store : S) :
    μ.Leads [.store var] (x :: stack) store stack (μ.write store var x) :=
  leads_step rfl (Nat.le_add_left 1 _) (μ.step_store var x stack store)

/-- An instruction whose meaning is the machine's own. -/
theorem leads_plain (i : Instr) (popped pushed : List V) {store store' : S}
    (plain : i.isAnchor = false) (height : popped.length = i.pops)
    (acted : μ.act store i popped = some (pushed, store')) (stack : List V) :
    μ.Leads [i] (popped ++ stack) store (pushed ++ stack) store' := by
  apply leads_step plain
  · rw [List.length_append, height]
    exact Nat.le_add_right _ _
  · exact step_of_act height acted stack

/-- Straight-line code leads, on any stack, where it leads by itself. -/
theorem leads_steps {code : List Instr} {height : Nat} (popped : List V) {pushed : List V}
    {store store' : S}
    (climbs : climb popped.length code = some height)
    (stepped : μ.steps code popped store = some (pushed, store')) (stack : List V) :
    μ.Leads code (popped ++ stack) store (pushed ++ stack) store' := by
  intro rest
  have climbs' : climb (popped ++ stack).length code = some (stack.length + height) := by
    rw [List.length_append, Nat.add_comm]
    exact climb_add stack.length climbs
  rw [μ.exec_straight _ climbs', μ.steps_append popped climbs, stepped]
  rfl

/-- What an anchor does to a run. -/
theorem ending_exec_anchor {i : Instr} {stack : List V} (anchor : i.isAnchor = true)
    (enough : i.pops ≤ stack.length) (store : S) (rest : List Instr) :
    (μ.exec (i :: rest) stack store).ending =
      match μ.control i stack store with
      | .next stack store => (μ.exec rest stack store).ending
      | .jump label stack store => .jumped label stack store
      | .leave value store => .left value store := by
  rw [exec, if_neg (Nat.not_lt.2 enough), if_pos anchor, Pass.after]
  cases μ.control i stack store <;> rfl

/-- An anchor leads over itself if control goes on to the next instruction. -/
theorem leads_next {i : Instr} {stack stack' : List V} {store store' : S}
    (anchor : i.isAnchor = true) (enough : i.pops ≤ stack.length)
    (goesOn : μ.control i stack store = .next stack' store') :
    μ.Leads [i] stack store stack' store' := by
  intro rest
  rw [List.singleton_append, ending_exec_anchor anchor enough, goesOn]

/-- Code ends at an anchor that jumps. -/
theorem ends_jump {i : Instr} {label : Nat} {stack stack' : List V} {store store' : S}
    (anchor : i.isAnchor = true) (enough : i.pops ≤ stack.length)
    (jumps : μ.control i stack store = .jump label stack' store') :
    μ.Ends [i] stack store (.jumped label stack' store') := by
  intro rest
  rw [List.singleton_append, ending_exec_anchor anchor enough, jumps]

/-- Code ends at an anchor that leaves the body. -/
theorem ends_leave {i : Instr} {value : Option V} {stack : List V} {store store' : S}
    (anchor : i.isAnchor = true) (enough : i.pops ≤ stack.length)
    (leaves : μ.control i stack store = .leave value store') :
    μ.Ends [i] stack store (.left value store') := by
  intro rest
  rw [List.singleton_append, ending_exec_anchor anchor enough, leaves]

/-! ## Runs -/

/-- A run goes on in the block that its block jumps to. -/
theorem run_jump {blocks : List Block} {label next : Nat} {b : Block} {stack stack' : List V}
    {store store' : S} (there : blocks[label]? = some b)
    (jumps : (μ.exec b.code stack store).ending = .jumped next stack' store') (fuel : Nat) :
    μ.run blocks (fuel + 1) label stack store =
      ((label, μ.exec b.code stack store) :: (μ.run blocks fuel next stack' store').1,
        (μ.run blocks fuel next stack' store').2) := by
  rw [run, there]
  simp only [jumps]

/-- A run ends with a block that leaves the body. -/
theorem run_leave {blocks : List Block} {label : Nat} {b : Block} {stack : List V}
    {store store' : S} {value : Option V} (there : blocks[label]? = some b)
    (leaves : (μ.exec b.code stack store).ending = .left value store') (fuel : Nat) :
    μ.run blocks (fuel + 1) label stack store =
      ([(label, μ.exec b.code stack store)], .left value store') := by
  rw [run, there]
  simp only [leaves]

/-- The source blocks behind the blocks that a run has passed through. -/
def sourceBlocks (blocks : List Block) (passes : List (Nat × Pass V S)) : List Nat :=
  passes.filterMap fun p => blocks[p.1]?.bind (·.origin)

end Machine

end Stackwise.Code
