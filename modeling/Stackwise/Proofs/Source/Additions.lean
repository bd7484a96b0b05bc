import Mathlib.Logic.Relation
import Stackwise.Proofs.Source.Script
import Stackwise.Proofs.Source.Types

/-!
# What building adds

Some fifty steps build a module, but all they ever do to it is a few things: intern a type, enter a
value, add a function, a block or a global, choose a block, append an instruction to it.  These are
the cases of `Builder.Adds`, and every step is a chain of them, also one that is refused half-way
(`Step.run_grows`).  Only two steps change what is already there, naming a value and giving a phi
one more operand, and they change one value each (`Step.run_edits`).

So an invariant of modules is shown for the eight cases of `Adds` and for a change of one value, and
not for fifty steps.  It holds at the end of every list of steps that `Builder.Follows`: what they
refer to exists, and a block is chosen only if it is there.
-/

namespace Stackwise.Source

/-- A block of a function. -/
def Module.block? (m : Module) (function block : Nat) : Option Block :=
  (m.function? function).bind (·.blocks[block]?)

/-- The values that a constant is made of.  The operands of an instruction are not among them. -/
def Value.parts (v : Value) : List Nat :=
  match v.kind with
  | .aggregate elements => elements
  | .expr _ operands => operands
  | _ => []

/-- The types that the arguments of a function of the given type have. -/
def TypePool.paramTypes (p : TypePool) (functionType : Nat) : List Nat :=
  (p.functionParts? functionType).elim [] (·.params)

/-- The values are the arguments of a function from one on, of the given types. -/
def Module.Arguments (m : Module) (function first : Nat) (ids types : List Nat) : Prop :=
  ids.length = types.length ∧ ∀ index id, ids[index]? = some id →
    ∃ v, m.value? id = some v ∧ v.kind = .argument function (first + index) ∧
      types[index]? = some v.ty

/-- The module with one more value. -/
def Module.push (m : Module) (v : Value) : Module := { m with values := m.values.push v }

/-- The module with a function changed. -/
def Module.modifyFunction (m : Module) (function : Nat) (change : Function → Function) : Module :=
  { m with functions := m.functions.modify function change }

/-- The block with one more instruction. -/
def Block.append (b : Block) (id : Nat) : Block := { b with instructions := b.instructions ++ [id] }

namespace Builder

/-- The builder with another module. -/
def modify (b : Builder) (change : Module → Module) : Builder :=
  { b with module := change b.module }

/-- The one thing after another that building does. -/
inductive Adds : Builder → Builder → Prop
  | type {b : Builder} (ty : Ty) (known : ∀ part ∈ ty.components, part < b.module.types.size) :
    Adds b (b.modify fun m => { m with types := (m.types.intern ty).2 })
  | value {b : Builder} (v : Value) (plain : v.instruction? = none)
      (known : ∀ part ∈ v.parts, part < b.module.values.size) :
    Adds b (b.modify (·.push v))
  | global {b : Builder} (g : Global) (next : g.id = b.module.globals.size)
      (meant : ∃ v, b.module.value? g.value = some v ∧ v.kind = .global g.id) :
    Adds b (b.modify fun m => { m with globals := m.globals.push g })
  | function {b : Builder} (f : Function) (next : f.id = b.module.functions.size)
      (empty : f.blocks = #[]) (typed : f.ty < b.module.types.size)
      (meant : ∃ v, b.module.value? f.value = some v ∧ v.kind = .function f.id)
      (params : b.module.Arguments f.id 0 f.params (b.module.types.paramTypes f.ty)) :
    Adds b (b.modify fun m => { m with functions := m.functions.push f })
  | personality {b : Builder} (function personality : Nat) :
    Adds b (b.modify (·.modifyFunction function fun f =>
      { f with personality := some personality }))
  | block {b : Builder} {function : Nat} {f : Function} (name : String)
      (found : b.module.function? function = some f) :
    Adds b (b.modify (·.modifyFunction function fun f' =>
      { f' with blocks := f'.blocks.push { id := f.blocks.size, name } }))
  | position {b : Builder} (function block : Nat)
      (there : (b.module.block? function block).isSome = true) :
    Adds b { b with position := some (function, block) }
  | instruction {b : Builder} (ty : Nat) (i : Instruction)
      (there : (b.module.block? i.function i.block).isSome = true) :
    Adds b (b.modify fun m =>
      (m.push { ty, kind := .instruction i }).modifyFunction i.function fun f =>
        { f with blocks := f.blocks.modify i.block (·.append m.values.size) })

/-- A chain of additions. -/
def Grows : Builder → Builder → Prop := Relation.ReflTransGen Adds

/-- Types are in order, and the chosen block exists.  Building relies on it. -/
structure Ready (b : Builder) : Prop where
  ordered : b.module.types.Ordered
  placed : ∀ {function block : Nat}, b.position = some (function, block) →
    (b.module.block? function block).isSome = true

end Builder

/-! ## What additions keep -/

namespace Module

variable {m : Module} {function block id : Nat}

/-- A block exists if its function does and has more blocks than its number. -/
theorem isSome_block?_iff :
    (m.block? function block).isSome = true ↔
      ∃ f, m.function? function = some f ∧ block < f.blocks.size := by
  rw [block?, Option.isSome_bind, Option.any_eq_true]
  simp only [isSome_getElem?]

/-- A block is one of those of its function. -/
theorem block?_eq_some_iff {blk : Block} :
    m.block? function block = some blk ↔
      ∃ f, m.function? function = some f ∧ f.blocks[block]? = some blk :=
  Option.bind_eq_some_iff

/-- A new value takes the number of no other one. -/
theorem value?_push {v v' : Value} (found : m.value? id = some v) :
    (m.push v').value? id = some v := by
  obtain ⟨inside, -⟩ := Array.getElem?_eq_some_iff.1 found
  rw [value?, push, Array.getElem?_push_lt inside, ← Array.getElem?_eq_getElem inside]
  exact found

theorem function?_push {f f' : Function} (found : m.function? function = some f) :
    { m with functions := m.functions.push f' }.function? function = some f := by
  obtain ⟨inside, -⟩ := Array.getElem?_eq_some_iff.1 found
  rw [function?, Array.getElem?_push_lt inside, ← Array.getElem?_eq_getElem inside]
  exact found

/-- Changing a function changes no other one. -/
theorem function?_modifyFunction (m : Module) (function number : Nat)
    (change : Function → Function) :
    (m.modifyFunction function change).function? number =
      if function = number then (m.function? number).map change else m.function? number :=
  Array.getElem?_modify

/-- A changed function keeps the blocks it has. -/
theorem isSome_block?_modifyFunction {changed : Nat} {change : Function → Function}
    (kept : ∀ f, f.blocks.size ≤ (change f).blocks.size)
    (there : (m.block? function block).isSome = true) :
    ((m.modifyFunction changed change).block? function block).isSome = true := by
  obtain ⟨f, found, inside⟩ := isSome_block?_iff.1 there
  refine isSome_block?_iff.2 ?_
  rw [function?_modifyFunction]
  split
  · exact ⟨change f, by rw [found]; rfl, Nat.lt_of_lt_of_le inside (kept f)⟩
  · exact ⟨f, found, inside⟩

end Module

namespace Builder

variable {b b' : Builder}

/-- Additions change no value. -/
theorem Adds.value?_eq_some (adds : b.Adds b') {id : Nat} {v : Value}
    (found : b.module.value? id = some v) : b'.module.value? id = some v := by
  cases adds with
  | type | global | function | personality | block | position => exact found
  | value | instruction => exact Module.value?_push found

/-- Additions remove no block. -/
theorem Adds.isSome_block? (adds : b.Adds b') {function block : Nat}
    (there : (b.module.block? function block).isSome = true) :
    (b'.module.block? function block).isSome = true := by
  cases adds with
  | type | value | global | position => exact there
  | function =>
    obtain ⟨f, found, inside⟩ := Module.isSome_block?_iff.1 there
    exact Module.isSome_block?_iff.2 ⟨f, Module.function?_push found, inside⟩
  | personality => exact Module.isSome_block?_modifyFunction (fun _ => Nat.le_refl _) there
  | block =>
    refine Module.isSome_block?_modifyFunction (fun f => ?_) there
    rw [Array.size_push]
    exact Nat.le_succ _
  | instruction =>
    refine Module.isSome_block?_modifyFunction (m := b.module.push _) (fun f => ?_) there
    exact Nat.le_of_eq Array.size_modify.symm

/-- Additions keep a builder ready: types are interned behind their components, and blocks are not
taken away. -/
theorem Adds.ready (adds : b.Adds b') (ready : b.Ready) : b'.Ready := by
  have still {function block : Nat} (there : (b.module.block? function block).isSome = true) :
      (b'.module.block? function block).isSome = true := adds.isSome_block? there
  refine ⟨?_, fun {function block} chosen => ?_⟩
  · cases adds with
    | type ty known => exact ready.ordered.intern known
    | value | global | function | personality | block | position | instruction =>
      exact ready.ordered
  · cases adds with
    | position _ _ there =>
      cases chosen
      exact there
    | type | value | global | function | personality | block | instruction =>
      exact still (ready.placed chosen)

/-- What each addition keeps, a chain of them keeps. -/
theorem Grows.holds {P : Builder → Prop} (grows : b.Grows b') (holds : P b)
    (adds : ∀ {b b' : Builder}, b.Adds b' → P b → P b') : P b' := by
  induction grows with
  | refl => exact holds
  | tail _ added ih => exact adds added ih

theorem Grows.ready (grows : b.Grows b') (ready : b.Ready) : b'.Ready :=
  grows.holds ready Adds.ready

/-- A chain of additions changes no value. -/
theorem Grows.value?_eq_some (grows : b.Grows b') {id : Nat} {v : Value}
    (found : b.module.value? id = some v) : b'.module.value? id = some v :=
  grows.holds (P := fun b => b.module.value? id = some v) found fun added => added.value?_eq_some

end Builder

/-! ## Steps as chains of additions -/

namespace Build

variable {α β : Type}

/-- The step only adds, also if it is refused. -/
def Extends (x : Build α) : Prop := ∀ b : Builder, b.Ready → b.Grows (x.leaves b)

theorem Extends.pure (a : α) : Extends (pure a : Build α) := fun _ _ => .refl

theorem Extends.throw (refusal : Refusal) : Extends (throw refusal : Build α) := fun _ _ => .refl

/-- Steps that only add can be chained, also where the first one is refused. -/
theorem Extends.bind {x : Build α} {f : α → Build β} (first : Extends x)
    (second : ∀ a, Extends (f a)) : Extends (x >>= f) := by
  intro b ready
  have between := first b ready
  rw [leaves] at between
  show b.Grows (leaves (EStateM.bind x f) b)
  rw [leaves, EStateM.bind]
  cases run : x b with
  | error refusal b' =>
    rw [run] at between
    exact between
  | ok a b' =>
    rw [run] at between
    exact between.trans (second a b' (between.ready ready))

theorem Extends.module : Extends module := fun _ _ => .refl

/-- A step that requires something is refused or changes nothing. -/
theorem Extends.required (a? : Option α) : Extends (required a?) := by
  cases a? with
  | none => exact .throw _
  | some a => exact .pure a

theorem Extends.typeOf (value : Nat) : Extends (typeOf value) :=
  .bind .module fun _ => .required _

/-- A type without components can be interned at any time. -/
theorem intern_extends {ty : Ty} (leaf : ty.components = []) : Extends (intern ty) := by
  refine fun b _ => .single (.type ty ?_)
  rw [leaf]
  exact List.forall_mem_nil _

/-- A value that is no instruction and is made of no others can be added at any time. -/
theorem pushEntry_extends {v : Value} (plain : v.instruction? = none) (leaf : v.parts = []) :
    Extends (pushEntry v) := by
  refine fun b _ => .single (.value v plain ?_)
  rw [leaf]
  exact List.forall_mem_nil _

/-- Adding a global makes a pointer type and a value. -/
theorem addGlobal_extends (name : String) (valueType : Nat) (initializer : Option Nat) :
    Extends (addGlobal name valueType initializer) := by
  intro b _
  refine .tail (.tail (.single (.type .ptr (List.forall_mem_nil _))) (.value _ rfl
    (List.forall_mem_nil _))) (.global _ rfl ⟨_, Array.getElem?_push_size, rfl⟩)

/-- The arguments of a function are entered one after another. -/
theorem pushArguments_run (function first : Nat) (types : List Nat) (b : Builder) :
    ∃ ids b', pushArguments function first types b = .ok ids b' ∧ b.Grows b' ∧
      b'.module.functions = b.module.functions ∧ b'.module.types = b.module.types ∧
      b'.module.Arguments function first ids types := by
  induction types generalizing first b with
  | nil => exact ⟨[], b, rfl, .refl, rfl, rfl, rfl, nofun⟩
  | cons ty rest ih =>
    let entry : Value := { ty, kind := .argument function first }
    let b₁ := b.modify (·.push entry)
    obtain ⟨ids, b', run, grows, functions, types, length, each⟩ := ih (first + 1) b₁
    have entered : b'.module.value? b.module.values.size = some entry :=
      grows.value?_eq_some Array.getElem?_push_size
    refine ⟨b.module.values.size :: ids, b', ?_, ?_, functions, types, ?_⟩
    · show EStateM.bind (pushArguments function (first + 1) rest) _ b₁ = _
      rw [EStateM.bind, run]
      rfl
    · exact .head (.value entry rfl (List.forall_mem_nil _)) grows
    · refine ⟨congrArg Nat.succ length, fun index id listed => ?_⟩
      cases index with
      | zero =>
        cases listed
        exact ⟨entry, entered, rfl, rfl⟩
      | succ index =>
        obtain ⟨v, found, kind, ty⟩ := each index id listed
        rw [Nat.succ_add_eq_add_succ] at kind
        exact ⟨v, found, kind, ty⟩

/-- A function is added last, when its value and its arguments are there. -/
theorem addFunction_grows (name : String) {ty : Nat} {b : Builder}
    (typed : ty < b.module.types.size) : b.Grows ((addFunction name ty).leaves b) := by
  let entry : Value :=
    { ty := (b.module.types.intern .ptr).1, kind := .function b.module.functions.size,
      name := some name }
  let b₁ := b.modify fun m => { m with types := (m.types.intern .ptr).2 }
  let b₂ := b₁.modify (·.push entry)
  have interned : b.Adds b₁ := .type .ptr (List.forall_mem_nil _)
  have entered : b₁.Adds b₂ := .value entry rfl (List.forall_mem_nil _)
  obtain ⟨params, b₃, run, grows, functions, types, arguments⟩ :=
    pushArguments_run b.module.functions.size 0 (b₂.module.types.paramTypes ty) b₂
  have meant : b₃.module.value? b.module.values.size = some entry :=
    grows.value?_eq_some Array.getElem?_push_size
  have sizes : b₃.module.functions.size = b.module.functions.size := congrArg Array.size functions
  let f : Function :=
    { id := b.module.functions.size, name, ty, params, value := b.module.values.size }
  have last : (addFunction name ty).leaves b =
      b₃.modify fun m => { m with functions := m.functions.push f } := by
    show leaves (EStateM.bind (pushArguments _ 0 (b₂.module.types.paramTypes ty)) _) b₂ = _
    rw [leaves, EStateM.bind, run]
    rfl
  rw [last]
  refine .trans (.tail (.single interned) entered) (.tail grows (.function _ sizes.symm rfl ?_
    ⟨entry, meant, rfl⟩ ?_))
  · rw [types]
    exact Nat.lt_of_lt_of_le typed (TypePool.size_le_intern _ _)
  · rw [types]
    exact arguments

theorem leaves_get_bind (f : Builder → Build α) (b : Builder) :
    (get >>= f).leaves b = (f b).leaves b := rfl

theorem leaves_pushValue_bind (ty : Nat) (kind : ValueKind) (f : Nat → Build α) (b : Builder) :
    (pushValue ty kind >>= f).leaves b =
      (f b.module.values.size).leaves (b.modify (·.push { ty, kind })) := rfl

/-- A personality routine is a change of a function that keeps its blocks. -/
theorem setPersonality_extends (function personality : Nat) :
    Extends (setPersonality function personality) := by
  refine .bind .module fun _ => .bind (.required _) fun _ => fun b _ => ?_
  exact .single (.personality function personality)

/-- A block is added behind those of its function. -/
theorem appendBlock_extends (function : Nat) (name : String) :
    Extends (appendBlock function name) := by
  intro b _
  rw [appendBlock, leaves_module_bind]
  cases found : b.module.function? function with
  | none => exact .refl
  | some f =>
    rw [leaves_required_bind, leaves_bind_pure, modifyFunction, leaves_module_bind, found,
      leaves_required_bind]
    exact .single (.block name found)

/-- An instruction becomes a value and stands at the end of the chosen block, or the step is
refused. -/
theorem instruction_extends (opcode : Opcode) (ty : Nat) (operands : List Operand) :
    Extends (instruction opcode ty operands) := by
  intro b ready
  rw [instruction, leaves_get_bind]
  cases chosen : b.position with
  | none => exact .refl
  | some place =>
    obtain ⟨function, block⟩ := place
    have there := ready.placed chosen
    obtain ⟨f, found, inside⟩ := Module.isSome_block?_iff.1 there
    let i : Instruction := { opcode, operands, function, block }
    have same : (b.modify (·.push { ty, kind := .instruction i })).module.function? function =
        some f := found
    dsimp only
    rw [leaves_pushValue_bind, leaves_module_bind, same, leaves_required_bind,
      Array.getElem?_eq_getElem inside, leaves_required_bind, leaves_bind_pure, modifyFunction,
      leaves_module_bind, same, leaves_required_bind]
    exact .single (.instruction ty i there)

/-- An instruction without a result is added in the same way, with the type of no data. -/
theorem effect_extends (opcode : Opcode) (operands : List Operand) :
    Extends (effect opcode operands) :=
  .bind (intern_extends rfl) fun _ => instruction_extends _ _ _

/-- Following indices into a type only looks types up. -/
theorem memberAlong_extends (ty : Nat) (indices : List Nat) :
    Extends (memberAlong ty indices) := by
  induction indices generalizing ty with
  | nil => exact .pure _
  | cons index rest ih =>
    refine .bind .module fun _ => ?_
    split
    · exact ih _
    · exact .throw _

/-- The type of a call is only looked up. -/
theorem callResult_extends (functionType : Nat) : Extends (callResult functionType) := by
  refine .bind .module fun _ => ?_
  split
  · exact .pure _
  · exact intern_extends rfl

/-- A local variable is an instruction whose type is a pointer, which is interned before. -/
theorem alloca_extends (allocated : Nat) (count : Option Nat) :
    Extends (alloca allocated count) := by
  cases count with
  | some c =>
    refine .bind (.pure c) fun _ => ?_
    exact .bind (intern_extends rfl) fun _ => instruction_extends _ _ _
  | none =>
    refine .bind (intern_extends rfl) fun _ => ?_
    refine .bind (pushEntry_extends rfl rfl) fun _ => ?_
    exact .bind (intern_extends rfl) fun _ => instruction_extends _ _ _

/-- Taking an element of a vector looks up the type of the elements and adds an instruction. -/
theorem extractElement_extends (vector index : Nat) : Extends (extractElement vector index) := by
  refine .bind .module fun _ => ?_
  split
  · exact instruction_extends _ _ _
  · exact .throw _

/-- The elements of a vector have a type of the pool. -/
theorem vectorParts?_lt {m : Module} (ordered : m.types.Ordered) {value element length : Nat}
    (vector : vectorParts? m value = some (element, length)) : element < m.types.size := by
  rw [vectorParts?] at vector
  split at vector
  next _ _ found =>
    cases vector
    obtain ⟨ty, -, stored⟩ := Option.bind_eq_some_iff.1 found
    exact Nat.lt_trans (ordered ty _ stored element List.mem_cons_self)
      (TypePool.lt_size_of_get? stored)
  next => cases vector

/-- A vector type is made of the elements of another one. -/
theorem shuffleVector_extends (a b mask : Nat) : Extends (shuffleVector a b mask) := by
  intro builder ready
  rw [shuffleVector, leaves_module_bind, leaves_module_bind]
  split
  next element _ _ length vector _ =>
    have known : ∀ part ∈ (Ty.vector element length).components,
        part < builder.module.types.size := by
      intro part mem
      rw [List.mem_singleton.1 mem]
      exact vectorParts?_lt ready.ordered vector
    have interned := Builder.Adds.type _ known
    exact .head interned (instruction_extends _ _ _ _ (interned.ready ready))
  next => exact .refl

end Build

/-- The types that a step makes a type or a function of. -/
def Step.types : Step → List Nat
  | intern ty => ty.components
  | addFunction _ ty => [ty]
  | _ => []

/-- The values that a step makes a constant of. -/
def Step.constants : Step → List Nat
  | constAggregate _ parts | constExpr _ _ parts => parts
  | _ => []

/-- The block that a step chooses. -/
def Step.place? : Step → Option (Nat × Nat)
  | positionAt function block => some (function, block)
  | _ => none

/-- What a step makes something of is there, as every number is that the builder has given out.  Of
its other arguments nothing is asked: if they stand for nothing, the step may be refused. -/
structure Step.Known (step : Step) (b : Builder) : Prop where
  types : ∀ part ∈ step.types, part < b.module.types.size
  constants : ∀ part ∈ step.constants, part < b.module.values.size
  place : ∀ place ∈ step.place?, (b.module.block? place.1 place.2).isSome = true

/-- What a step does to a value that is there already. -/
def Step.edit : Step → (id : Nat) → Value → Value
  | setName value name, id, v => if value = id then { v with name := some name } else v
  | addIncoming target value origin, id, v =>
    match v.kind with
    | .instruction i =>
      if target = id ∧ i.opcode = .phi then
        let operands := i.operands ++ [.value value, .block origin]
        { v with kind := .instruction { i with operands } }
      else v
    | _ => v
  | _, _, v => v

/-- The steps that change values. -/
def Step.edits : Step → Bool
  | setName _ _ | addIncoming _ _ _ => true
  | _ => false

/-- A step that does not change values leaves each one as it is. -/
theorem Step.edit_eq_self {step : Step} (adds : step.edits = false) (id : Nat) (v : Value) :
    step.edit id v = v := by
  cases step with
  | setName | addIncoming => cases adds
  | _ => rfl

/-- A step that changes no value is a chain of additions. -/
theorem Step.run_grows {step : Step} (adds : step.edits = false) {b : Builder} (ready : b.Ready)
    (known : step.Known b) : b.Grows (step.run b) := by
  unfold Step.run
  cases step with
  | setName | addIncoming => cases adds
  | intern ty => exact .single (.type ty known.types)
  | null | metadata | noneToken =>
    exact Build.Extends.bind (Build.intern_extends rfl)
      (fun _ => Build.pushEntry_extends rfl rfl) b ready
  | constInt | constFloat | zero | unspecified | poison =>
    exact Build.pushEntry_extends rfl rfl b ready
  | constAggregate | constExpr => exact .single (.value _ rfl known.constants)
  | addGlobal => exact Build.addGlobal_extends _ _ _ b ready
  | addFunction _ ty => exact Build.addFunction_grows _ (known.types ty List.mem_cons_self)
  | setPersonality => exact Build.setPersonality_extends _ _ b ready
  | appendBlock => exact Build.appendBlock_extends _ _ b ready
  | positionAt function block => exact .single (.position function block (known.place _ rfl))
  | alloca => exact Build.alloca_extends _ _ b ready
  | instruction | load | cast | vaArg | phi => exact Build.instruction_extends _ _ _ b ready
  | store | fence | ret | br | condBr | switch | unreachable | catchRet | cleanupRet =>
    exact Build.effect_extends _ _ b ready
  | gep | icmp | fcmp | catchSwitch | catchPad | cleanupPad =>
    exact Build.Extends.bind (Build.intern_extends rfl)
      (fun _ => Build.instruction_extends _ _ _) b ready
  | atomicRmw | binary | fneg | select | freeze | insertValue | insertElement =>
    exact Build.Extends.bind (.typeOf _) (fun _ => Build.instruction_extends _ _ _) b ready
  | call | invoke =>
    exact Build.Extends.bind (Build.callResult_extends _)
      (fun _ => Build.instruction_extends _ _ _) b ready
  | extractValue =>
    exact Build.Extends.bind (.typeOf _) (fun _ => .bind (Build.memberAlong_extends _ _)
      fun _ => Build.instruction_extends _ _ _) b ready
  | extractElement => exact Build.extractElement_extends _ _ b ready
  | shuffleVector => exact Build.shuffleVector_extends _ _ _ b ready

/-! ## Changes of values -/

/-- The values differ in their names and in the operands of an instruction at most. -/
structure Value.Alike (v v' : Value) : Prop where
  ty : v'.ty = v.ty
  kind : v'.kind = v.kind ∨
    ∃ i operands, v.kind = .instruction i ∧ v'.kind = .instruction { i with operands }

/-- Every value is replaced by one that is like it, and nothing else is changed. -/
structure Builder.Edits (change : Nat → Value → Value) (b b' : Builder) : Prop where
  alike : ∀ id (v : Value), v.Alike (change id v)
  value? : ∀ id, b'.module.value? id = (b.module.value? id).map (change id)
  types : b'.module.types = b.module.types
  functions : b'.module.functions = b.module.functions
  globals : b'.module.globals = b.module.globals
  position : b'.position = b.position

/-- A step changes names and operands at most. -/
theorem Step.edit_alike (step : Step) (id : Nat) (v : Value) : v.Alike (step.edit id v) := by
  cases step with
  | setName value name =>
    rw [edit]
    split
    · exact ⟨rfl, .inl rfl⟩
    · exact ⟨rfl, .inl rfl⟩
  | addIncoming target value origin =>
    rw [edit]
    split
    next i kind =>
      split
      · exact ⟨rfl, .inr ⟨i, _, kind, rfl⟩⟩
      · exact ⟨rfl, .inl rfl⟩
    next => exact ⟨rfl, .inl rfl⟩
  | _ => exact ⟨rfl, .inl rfl⟩

/-- A refused change is a change of no value. -/
theorem Builder.edits_refl {change : Nat → Value → Value}
    (alike : ∀ id (v : Value), v.Alike (change id v)) {b : Builder}
    (same : ∀ id v, b.module.value? id = some v → change id v = v) :
    b.Edits change b := by
  refine ⟨alike, fun id => ?_, rfl, rfl, rfl, rfl⟩
  cases found : b.module.value? id with
  | none => rfl
  | some v => rw [Option.map_some, same id v found]

/-- Changing a single value is an edit, if the change is the one the step makes there and the step
changes no other value. -/
theorem Builder.edits_modify {change : Nat → Value → Value} {target : Nat} {f : Value → Value}
    (alike : ∀ id (v : Value), v.Alike (change id v)) {b : Builder}
    (changed : ∀ v, b.module.value? target = some v → change target v = f v)
    (others : ∀ id v, id ≠ target → change id v = v) :
    b.Edits change (b.modify fun m => { m with values := m.values.modify target f }) := by
  refine ⟨alike, fun id => ?_, rfl, rfl, rfl, rfl⟩
  show (b.module.values.modify target f)[id]? = (b.module.values[id]?).map (change id)
  rw [Array.getElem?_modify]
  cases found : b.module.values[id]? with
  | none => split <;> rfl
  | some v =>
    split
    next same =>
      subst same
      rw [Option.map_some, Option.map_some, changed v found]
    next other => rw [Option.map_some, others id v (Ne.symm other)]

/-- Naming a value and giving a phi one more operand change values as `Step.edit` says, and nothing
else. -/
theorem Step.run_edits {step : Step} (edits : step.edits = true) (b : Builder) :
    b.Edits step.edit (step.run b) := by
  have alike := step.edit_alike
  cases step with
  | setName value name =>
    have others (id : Nat) (v : Value) (other : id ≠ value) : (setName value name).edit id v = v :=
      if_neg (Ne.symm other)
    show b.Edits _ ((Build.setName value name).leaves b)
    rw [Build.setName, Build.leaves_module_bind]
    cases found : b.module.value? value with
    | none =>
      refine Builder.edits_refl alike fun id v there => others id v ?_
      rintro rfl
      cases found.symm.trans there
    | some old =>
      rw [Build.leaves_required_bind]
      exact Builder.edits_modify alike (fun v _ => if_pos rfl) others
  | addIncoming target value origin =>
    have others (id : Nat) (v : Value) (other : id ≠ target) :
        (addIncoming target value origin).edit id v = v := by
      rw [edit]
      split
      next => exact if_neg fun both => other both.1.symm
      next => rfl
    have refused {old : Value} (found : b.module.value? target = some old)
        (same : (addIncoming target value origin).edit target old = old) :
        b.Edits (addIncoming target value origin).edit b := by
      refine Builder.edits_refl alike fun id v there => ?_
      by_cases this : id = target
      · subst this
        cases found.symm.trans there
        exact same
      · exact others id v this
    show b.Edits _ ((Build.addIncoming target value origin).leaves b)
    rw [Build.addIncoming, Build.leaves_module_bind]
    cases found : b.module.value? target with
    | none =>
      refine Builder.edits_refl alike fun id v there => others id v ?_
      rintro rfl
      cases found.symm.trans there
    | some old =>
      rw [Build.leaves_required_bind]
      split
      next i kind =>
        split
        next isPhi =>
          refine Builder.edits_modify alike (fun v there => ?_) others
          cases found.symm.trans there
          rw [edit, kind]
          exact if_pos ⟨rfl, isPhi⟩
        next other =>
          refine refused found ?_
          rw [edit, kind]
          exact if_neg fun both => other both.2
      next other =>
        refine refused found ?_
        rw [edit]
        split
        next i kind => exact absurd kind (other i)
        next => rfl
  | _ => cases edits

/-! ## Lists of steps -/

/-- Edits keep a builder ready: they change no type and no block. -/
theorem Builder.Edits.ready {change : Nat → Value → Value} {b b' : Builder}
    (edits : b.Edits change b') (ready : b.Ready) : b'.Ready := by
  refine ⟨edits.types ▸ ready.ordered, fun {function block} chosen => ?_⟩
  have there := ready.placed (edits.position ▸ chosen)
  rwa [Module.block?, Module.function?, edits.functions]

/-- A step keeps a builder ready, whether it adds or edits. -/
theorem Step.run_ready (step : Step) {b : Builder} (ready : b.Ready) (known : step.Known b) :
    (step.run b).Ready := by
  cases edits : step.edits with
  | false => exact (step.run_grows edits ready known).ready ready
  | true => exact (step.run_edits edits b).ready ready

/-- A step does to the values that are there what it says. -/
theorem Step.run_value?_eq_some (step : Step) {b : Builder} (ready : b.Ready)
    (known : step.Known b) {id : Nat} {v : Value} (found : b.module.value? id = some v) :
    (step.run b).module.value? id = some (step.edit id v) := by
  cases edits : step.edits with
  | false =>
    rw [step.edit_eq_self edits]
    exact (step.run_grows edits ready known).value?_eq_some found
  | true => rw [(step.run_edits edits b).value?, found, Option.map_some]

/-- The builder of a module without anything in it. -/
def Builder.start (name : String) : Builder := { module := { name } }

/-- The builder of an empty module is ready. -/
theorem Builder.start_ready (name : String) : (start name).Ready :=
  ⟨TypePool.sound_empty.ordered, nofun⟩

/-- What each step refers to exists when its turn comes. -/
def Builder.Follows (b : Builder) : List Step → Prop
  | [] => True
  | step :: rest => step.Known b ∧ (step.run b).Follows rest

instance Step.decidableKnown (step : Step) (b : Builder) : Decidable (step.Known b) :=
  decidable_of_iff ((∀ part ∈ step.types, part < b.module.types.size) ∧
      (∀ part ∈ step.constants, part < b.module.values.size) ∧
      ∀ place ∈ step.place?, (b.module.block? place.1 place.2).isSome = true)
    ⟨fun h => ⟨h.1, h.2.1, h.2.2⟩, fun h => ⟨h.types, h.constants, h.place⟩⟩

instance Builder.decidableFollows (b : Builder) : (steps : List Step) → Decidable (b.Follows steps)
  | [] => inferInstanceAs (Decidable True)
  | step :: rest =>
    have := decidableFollows (step.run b) rest
    inferInstanceAs (Decidable (step.Known b ∧ (step.run b).Follows rest))

namespace Builder

/-- What additions and changes of values keep holds after every list of steps. -/
theorem Follows.holds {P : Builder → Prop} {steps : List Step} {b : Builder}
    (follows : b.Follows steps) (ready : b.Ready) (holds : P b)
    (adds : ∀ {b b' : Builder}, b.Adds b' → P b → P b')
    (edits : ∀ {change : Nat → Value → Value} {b b' : Builder}, b.Edits change b' → P b → P b') :
    P (runSteps b steps) := by
  induction steps generalizing b with
  | nil => exact holds
  | cons step rest ih =>
    obtain ⟨known, later⟩ := follows
    refine ih later (step.run_ready ready known) ?_
    cases kind : step.edits with
    | false => exact (step.run_grows kind ready known).holds holds adds
    | true => exact edits (step.run_edits kind b) holds

/-- A list of steps does to the values that are there what the steps do one after another. -/
theorem Follows.value?_eq_some {steps : List Step} {b : Builder} (follows : b.Follows steps)
    (ready : b.Ready) {id : Nat} {v : Value} (found : b.module.value? id = some v) :
    (runSteps b steps).module.value? id =
      some (steps.foldl (fun v step => step.edit id v) v) := by
  induction steps generalizing b v with
  | nil => exact found
  | cons step rest ih =>
    obtain ⟨known, later⟩ := follows
    exact ih later (step.run_ready ready known) (step.run_value?_eq_some ready known found)

/-- Each step of two lists finds what it refers to if those of the first do, and those of the second
do behind it. -/
theorem follows_append {before after : List Step} {b : Builder} :
    b.Follows (before ++ after) ↔ b.Follows before ∧ (runSteps b before).Follows after := by
  induction before generalizing b with
  | nil => exact ⟨fun later => ⟨trivial, later⟩, And.right⟩
  | cons step rest ih =>
    show step.Known b ∧ (step.run b).Follows (rest ++ after) ↔ _
    rw [ih, ← and_assoc]
    rfl

end Builder

end Stackwise.Source
