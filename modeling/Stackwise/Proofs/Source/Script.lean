import Stackwise.Source.Builder

/-!
# Modules that can be built

Nothing outside the builder makes a module, so what every building step keeps holds of every module
there is.  A `Step` is one call of the builder with its arguments, and `build` runs a list of them
from the empty module; a refused step leaves the builder as far as it had come, and building may go
on from there.

`Build.Keeps` is the judgement "this step keeps a property of the module", refused or not.  Its
rules follow the way steps are written.  The main results, `id_of_built` and `numbered_of_built`,
are what lowering relies on without checking it: functions and blocks know their own positions.
-/

namespace Stackwise.Source

/-- A call of the builder that may change the module. -/
inductive Step where
  | intern (ty : Ty)
  | setName (value : Nat) (name : String)
  | constInt (ty : Nat) (n : Int)
  | constFloat (ty : Nat) (bits : UInt64)
  | null
  | zero (ty : Nat)
  | unspecified (ty : Nat)
  | poison (ty : Nat)
  | metadata
  | noneToken
  | constAggregate (ty : Nat) (elements : List Nat)
  | constExpr (ty : Nat) (opcode : Opcode) (operands : List Nat)
  | addGlobal (name : String) (valueType : Nat) (initializer : Option Nat)
  | addFunction (name : String) (ty : Nat)
  | setPersonality (function personality : Nat)
  | appendBlock (function : Nat) (name : String)
  | positionAt (function block : Nat)
  | instruction (opcode : Opcode) (ty : Nat) (operands : List Operand)
  | alloca (allocated : Nat) (count : Option Nat)
  | load (ty ptr : Nat)
  | store (value ptr : Nat)
  | gep (element ptr : Nat) (indices : List Nat)
  | fence
  | atomicRmw (ptr value : Nat)
  | binary (op : BinaryOp) (lhs rhs : Nat)
  | fneg (value : Nat)
  | icmp (predicate : IntPredicate) (lhs rhs : Nat)
  | fcmp (predicate : FloatPredicate) (lhs rhs : Nat)
  | cast (op : CastOp) (value ty : Nat)
  | select (cond ifTrue ifFalse : Nat)
  | freeze (value : Nat)
  | extractValue (aggregate : Nat) (indices : List Nat)
  | insertValue (aggregate value : Nat) (indices : List Nat)
  | vaArg (ty list : Nat)
  | extractElement (vector index : Nat)
  | insertElement (vector value index : Nat)
  | shuffleVector (a b mask : Nat)
  | phi (ty : Nat) (incoming : List (Nat × Nat))
  | addIncoming (phi value origin : Nat)
  | call (functionType callee : Nat) (args : List Nat)
  | invoke (functionType callee : Nat) (args : List Nat) (normal unwind : Nat)
  | ret (value : Option Nat)
  | br (target : Nat)
  | condBr (cond ifTrue ifFalse : Nat)
  | switch (index default : Nat) (cases : List (Nat × Nat))
  | unreachable
  | catchSwitch (parent : Nat) (handlers : List Nat) (unwind : Option Nat)
  | catchPad (parent : Nat) (args : List Nat)
  | cleanupPad (parent : Nat) (args : List Nat)
  | catchRet (pad target : Nat)
  | cleanupRet (pad : Nat) (unwind : Option Nat)
deriving DecidableEq, Repr

/-- The builder that a step leaves behind, done or refused. -/
def Build.leaves {α : Type} (x : Build α) (b : Builder) : Builder :=
  match x b with
  | .ok _ b' | .error _ b' => b'

/-- The builder after a call. -/
def Step.run : Step → Builder → Builder
  | intern ty => (Build.intern ty).leaves
  | setName value name => (Build.setName value name).leaves
  | constInt ty n => (Build.constInt ty n).leaves
  | constFloat ty bits => (Build.constFloat ty bits).leaves
  | null => Build.null.leaves
  | zero ty => (Build.zero ty).leaves
  | unspecified ty => (Build.unspecified ty).leaves
  | poison ty => (Build.poison ty).leaves
  | metadata => Build.metadata.leaves
  | noneToken => Build.noneToken.leaves
  | constAggregate ty elements => (Build.constAggregate ty elements).leaves
  | constExpr ty opcode operands => (Build.constExpr ty opcode operands).leaves
  | addGlobal name valueType initializer => (Build.addGlobal name valueType initializer).leaves
  | addFunction name ty => (Build.addFunction name ty).leaves
  | setPersonality function personality => (Build.setPersonality function personality).leaves
  | appendBlock function name => (Build.appendBlock function name).leaves
  | positionAt function block => (Build.positionAt function block).leaves
  | instruction opcode ty operands => (Build.instruction opcode ty operands).leaves
  | alloca allocated count => (Build.alloca allocated count).leaves
  | load ty ptr => (Build.load ty ptr).leaves
  | store value ptr => (Build.store value ptr).leaves
  | gep element ptr indices => (Build.gep element ptr indices).leaves
  | fence => Build.fence.leaves
  | atomicRmw ptr value => (Build.atomicRmw ptr value).leaves
  | binary op lhs rhs => (Build.binary op lhs rhs).leaves
  | fneg value => (Build.fneg value).leaves
  | icmp predicate lhs rhs => (Build.icmp predicate lhs rhs).leaves
  | fcmp predicate lhs rhs => (Build.fcmp predicate lhs rhs).leaves
  | cast op value ty => (Build.cast op value ty).leaves
  | select cond ifTrue ifFalse => (Build.select cond ifTrue ifFalse).leaves
  | freeze value => (Build.freeze value).leaves
  | extractValue aggregate indices => (Build.extractValue aggregate indices).leaves
  | insertValue aggregate value indices => (Build.insertValue aggregate value indices).leaves
  | vaArg ty list => (Build.vaArg ty list).leaves
  | extractElement vector index => (Build.extractElement vector index).leaves
  | insertElement vector value index => (Build.insertElement vector value index).leaves
  | shuffleVector a b mask => (Build.shuffleVector a b mask).leaves
  | phi ty incoming => (Build.phi ty incoming).leaves
  | addIncoming id value origin => (Build.addIncoming id value origin).leaves
  | call functionType callee args => (Build.call functionType callee args).leaves
  | invoke functionType callee args normal unwind =>
    (Build.invoke functionType callee args normal unwind).leaves
  | ret value => (Build.ret value).leaves
  | br target => (Build.br target).leaves
  | condBr cond ifTrue ifFalse => (Build.condBr cond ifTrue ifFalse).leaves
  | switch index default cases => (Build.switch index default cases).leaves
  | unreachable => Build.unreachable.leaves
  | catchSwitch parent handlers unwind => (Build.catchSwitch parent handlers unwind).leaves
  | catchPad parent args => (Build.catchPad parent args).leaves
  | cleanupPad parent args => (Build.cleanupPad parent args).leaves
  | catchRet pad target => (Build.catchRet pad target).leaves
  | cleanupRet pad unwind => (Build.cleanupRet pad unwind).leaves

/-- The builder after a list of calls. -/
def runSteps (b : Builder) (steps : List Step) : Builder :=
  steps.foldl (fun b step => step.run b) b

/-- The module that a list of calls builds. -/
def build (name : String) (steps : List Step) : Module :=
  (runSteps { module := { name } } steps).module

/-- A module that can be built. -/
def Module.Built (m : Module) : Prop :=
  ∃ name steps, m = build name steps

namespace Build

variable {α β : Type} {P : Module → Prop}

/-- A step that keeps a property of the module, also if it is refused. -/
def Keeps (P : Module → Prop) (x : Build α) : Prop :=
  ∀ b, P b.module → P (x.leaves b).module

/-! ## Rules -/

theorem Keeps.pure (a : α) : Keeps P (pure a : Build α) :=
  fun _ kept => kept

theorem Keeps.throw (refusal : Refusal) : Keeps P (throw refusal : Build α) :=
  fun _ kept => kept

theorem Keeps.get : Keeps P (get : Build Builder) :=
  fun _ kept => kept

/-- A step that keeps a property, before one that turns it into a weaker one. -/
theorem Keeps.before {Q : Module → Prop} {x : Build α} {f : α → Build β} (first : Keeps P x)
    (weaker : ∀ m, P m → Q m) (second : ∀ a b, P b.module → Q ((f a).leaves b).module)
    (b : Builder) (kept : P b.module) : Q ((x >>= f).leaves b).module := by
  have between := first b kept
  rw [leaves] at between
  show Q (leaves (EStateM.bind x f) b).module
  rw [leaves, EStateM.bind]
  cases run : x b with
  | error refusal b' =>
    rw [run] at between
    exact weaker _ between
  | ok a b' =>
    rw [run] at between
    exact second a b' between

/-- Steps that keep a property can be chained. -/
theorem Keeps.bind {x : Build α} {f : α → Build β} (first : Keeps P x)
    (second : ∀ a, Keeps P (f a)) : Keeps P (x >>= f) :=
  first.before (fun _ kept => kept) second

/-! A step that reads the module goes on from where it was. -/

theorem leaves_module_bind (f : Module → Build α) (b : Builder) :
    (module >>= f).leaves b = (f b.module).leaves b := rfl

theorem leaves_required_bind (a : α) (f : α → Build β) (b : Builder) :
    (required (some a) >>= f).leaves b = (f a).leaves b := rfl

/-- What a step gives does not matter to what it leaves behind. -/
theorem leaves_bind_pure (x : Build α) (a : β) (b : Builder) :
    (x >>= fun _ => (pure a : Build β)).leaves b = x.leaves b := by
  show leaves (EStateM.bind x _) b = _
  rw [leaves, leaves, EStateM.bind]
  cases x b <;> rfl

theorem Keeps.module : Keeps P module :=
  Keeps.bind Keeps.get fun _ => Keeps.pure _

/-- A change of the module keeps what it keeps. -/
theorem Keeps.modifyModule {f : Module → Module} (h : ∀ m, P m → P (f m)) :
    Keeps P (modifyModule f) :=
  fun b kept => h b.module kept

theorem Keeps.required (a? : Option α) : Keeps P (required a?) := by
  cases a? with
  | none => exact Keeps.throw _
  | some a => exact Keeps.pure a

theorem Keeps.typeOf (value : Nat) : Keeps P (typeOf value) :=
  Keeps.bind Keeps.module fun _ => Keeps.required _

end Build

/-! ## Functions and blocks are numbered by their position -/

/-- Every block carries its own position. -/
def Function.Numbered (f : Function) : Prop :=
  ∀ ⦃position : Nat⦄ ⦃b : Block⦄, f.blocks[position]? = some b → b.id = position

/-- The numbers of the blocks are their positions. -/
theorem Function.Numbered.map_id {f : Function} (numbered : f.Numbered) :
    f.blocks.toList.map (·.id) = List.range f.blocks.size := by
  apply List.ext_getElem?
  intro position
  rw [List.getElem?_map, Array.getElem?_toList]
  cases there : f.blocks[position]? with
  | none =>
    have past : f.blocks.size ≤ position := Array.getElem?_eq_none_iff.1 there
    simp [past]
  | some b =>
    obtain ⟨inside, -⟩ := Array.getElem?_eq_some_iff.1 there
    simp [numbered there, inside]

/-- Every function carries its own position, and so does every block of it. -/
def Module.Numbered (m : Module) : Prop :=
  ∀ ⦃function : Nat⦄ ⦃f : Function⦄, m.function? function = some f → f.id = function ∧ f.Numbered

open Source.Module (Numbered)

namespace Build

theorem intern_keeps (ty : Ty) : Keeps Numbered (intern ty) :=
  Keeps.bind Keeps.module fun _ =>
    Keeps.bind (Keeps.modifyModule fun _ kept => kept) fun _ => Keeps.pure _

/-- A value changes no function. -/
theorem pushEntry_keeps (value : Value) : Keeps Numbered (pushEntry value) :=
  Keeps.bind Keeps.module fun _ =>
    Keeps.bind (Keeps.modifyModule fun _ kept => kept) fun _ => Keeps.pure _

theorem pushValue_keeps (ty : Nat) (kind : ValueKind) : Keeps Numbered (pushValue ty kind) :=
  pushEntry_keeps _

/-- A name changes no function. -/
theorem setName_keeps (value : Nat) (name : String) : Keeps Numbered (setName value name) :=
  Keeps.bind Keeps.module fun _ =>
    Keeps.bind (Keeps.required _) fun _ => Keeps.modifyModule fun _ kept => kept

/-- A global changes no function. -/
theorem addGlobal_keeps (name : String) (valueType : Nat) (initializer : Option Nat) :
    Keeps Numbered (addGlobal name valueType initializer) := by
  refine Keeps.bind Keeps.module fun _ => ?_
  refine Keeps.bind (intern_keeps _) fun _ => ?_
  refine Keeps.bind (pushEntry_keeps _) fun _ => ?_
  exact Keeps.bind (Keeps.modifyModule fun _ kept => kept) fun _ => Keeps.pure _

/-- The arguments of a function are values, and change no function. -/
theorem pushArguments_keeps (functions : Array Function) (function index : Nat)
    (types : List Nat) :
    Keeps (fun m => m.functions = functions) (pushArguments function index types) := by
  induction types generalizing index with
  | nil => exact Keeps.pure _
  | cons ty rest ih =>
    refine Keeps.bind (fun _ same => same) fun _ => ?_
    exact Keeps.bind (ih (index + 1)) fun _ => Keeps.pure _

/-- The number of a new function is read off the module before its parameters are made. -/
theorem addFunction_keeps (name : String) (ty : Nat) : Keeps Numbered (addFunction name ty) := by
  intro b kept
  have weaker (m : Module) (same : m.functions = b.module.functions) : m.Numbered := by
    intro function f found
    rw [Module.function?, same] at found
    exact kept found
  have interned : Keeps (fun m => m.functions = b.module.functions) (intern .ptr) :=
    fun _ same => same
  rw [addFunction, leaves_module_bind]
  refine interned.before weaker (fun _ => ?_) b rfl
  refine Keeps.before (x := pushEntry _) (fun _ same => same) weaker fun _ => ?_
  refine Keeps.before Keeps.module weaker fun _ => ?_
  refine Keeps.before (pushArguments_keeps _ _ _ _) weaker fun params b' same => ?_
  intro function f found
  change (b'.module.functions.push _)[function]? = some f at found
  rw [Array.getElem?_push] at found
  split at found
  · rename_i last
    cases found
    refine ⟨(congrArg Array.size same).symm.trans last.symm, fun position block there => ?_⟩
    simp at there
  · rw [same] at found
    exact kept found

/-- Changing one function keeps the numbering if the change does, for functions as they are. -/
theorem modifyFunction_numbered {m : Module} {function : Nat} {change : Function → Function}
    (kept : m.Numbered)
    (h : ∀ f, m.function? function = some f → (change f).id = f.id ∧ (change f).Numbered) :
    Numbered { m with functions := m.functions.modify function change } := by
  intro number f found
  rw [Module.function?, Array.getElem?_modify] at found
  split at found
  · rename_i same
    obtain ⟨old, there, rfl⟩ := Option.map_eq_some_iff.1 found
    obtain ⟨id, numbered⟩ := h old (same ▸ there)
    exact ⟨id.trans (kept there).1, numbered⟩
  · exact kept found

/-- A change of a function that keeps its own number and those of its blocks keeps all numbers. -/
theorem modifyFunction_keeps {function : Nat} {change : Function → Function}
    (h : ∀ f : Function, f.Numbered → (change f).id = f.id ∧ (change f).Numbered) :
    Keeps Numbered (modifyFunction function change) := by
  refine Keeps.bind Keeps.module fun _ => ?_
  refine Keeps.bind (Keeps.required _) fun _ => Keeps.modifyModule fun m kept => ?_
  exact modifyFunction_numbered kept fun f found => h f (kept found).2

/-- The personality routine is no block. -/
theorem setPersonality_keeps (function personality : Nat) :
    Keeps Numbered (setPersonality function personality) :=
  modifyFunction_keeps fun _ numbered => ⟨rfl, numbered⟩

/-- The number of a new block is read off the function it is added to. -/
theorem appendBlock_keeps (function : Nat) (name : String) :
    Keeps Numbered (appendBlock function name) := by
  intro b kept
  rw [appendBlock, leaves_module_bind]
  cases found : b.module.function? function with
  | none => exact kept
  | some f =>
    rw [leaves_required_bind, leaves_bind_pure, modifyFunction, leaves_module_bind, found,
      leaves_required_bind]
    refine modifyFunction_numbered kept fun f' found' => ⟨rfl, fun position new there => ?_⟩
    obtain rfl : f = f' := Option.some.inj (found.symm.trans found')
    rw [Array.getElem?_push] at there
    split at there
    · rename_i last
      cases there
      exact last.symm
    · exact (kept found).2 there

/-- An instruction is added to the end of a block that keeps its number. -/
theorem instruction_keeps (opcode : Opcode) (ty : Nat) (operands : List Operand) :
    Keeps Numbered (instruction opcode ty operands) := by
  refine Keeps.bind Keeps.get fun b => ?_
  split
  · exact Keeps.throw _
  · refine Keeps.bind (pushValue_keeps _ _) fun _ => ?_
    refine Keeps.bind Keeps.module fun _ => ?_
    refine Keeps.bind (Keeps.required _) fun _ => ?_
    refine Keeps.bind (Keeps.required _) fun _ => ?_
    refine Keeps.bind (modifyFunction_keeps fun f numbered => ⟨rfl, fun position new there => ?_⟩)
      fun _ => Keeps.pure _
    rw [Array.getElem?_modify] at there
    split at there
    · obtain ⟨old, before, rfl⟩ := Option.map_eq_some_iff.1 there
      have same : old.id = position := numbered before
      exact same
    · exact numbered there

theorem effect_keeps (opcode : Opcode) (operands : List Operand) :
    Keeps Numbered (effect opcode operands) :=
  Keeps.bind (intern_keeps _) fun _ => instruction_keeps _ _ _

/-- An operand of a phi changes a value, and no function. -/
theorem addIncoming_keeps (phi value origin : Nat) :
    Keeps Numbered (addIncoming phi value origin) := by
  refine Keeps.bind Keeps.module fun _ => ?_
  refine Keeps.bind (Keeps.required _) fun v => ?_
  split
  · split
    · exact Keeps.modifyModule fun _ kept => kept
    · exact Keeps.throw _
  · exact Keeps.throw _

/-- Following indices into a type changes nothing. -/
theorem memberAlong_keeps (ty : Nat) (indices : List Nat) :
    Keeps Numbered (memberAlong ty indices) := by
  induction indices generalizing ty with
  | nil => exact Keeps.pure _
  | cons index rest ih =>
    refine Keeps.bind Keeps.module fun _ => ?_
    split
    · exact ih _
    · exact Keeps.throw _

theorem callResult_keeps (functionType : Nat) : Keeps Numbered (callResult functionType) := by
  refine Keeps.bind Keeps.module fun _ => ?_
  split
  · exact Keeps.pure _
  · exact intern_keeps _

/-- A local variable is a type and an instruction. -/
theorem alloca_keeps (allocated : Nat) (count : Option Nat) :
    Keeps Numbered (alloca allocated count) := by
  cases count with
  | some c =>
    refine Keeps.bind (Keeps.pure c) fun _ => ?_
    exact Keeps.bind (intern_keeps _) fun _ => instruction_keeps _ _ _
  | none =>
    refine Keeps.bind (intern_keeps _) fun _ => ?_
    refine Keeps.bind (pushValue_keeps _ _) fun _ => ?_
    exact Keeps.bind (intern_keeps _) fun _ => instruction_keeps _ _ _

/-- Taking a part of an aggregate is an instruction. -/
theorem extractValue_keeps (aggregate : Nat) (indices : List Nat) :
    Keeps Numbered (extractValue aggregate indices) := by
  refine Keeps.bind (Keeps.typeOf _) fun _ => ?_
  exact Keeps.bind (memberAlong_keeps _ _) fun _ => instruction_keeps _ _ _

/-- Taking an element of a vector is an instruction. -/
theorem extractElement_keeps (vector index : Nat) :
    Keeps Numbered (extractElement vector index) := by
  refine Keeps.bind Keeps.module fun _ => ?_
  split
  · exact instruction_keeps _ _ _
  · exact Keeps.throw _

/-- A shuffle is a type and an instruction. -/
theorem shuffleVector_keeps (a b mask : Nat) : Keeps Numbered (shuffleVector a b mask) := by
  refine Keeps.bind Keeps.module fun _ => ?_
  refine Keeps.bind Keeps.module fun _ => ?_
  split
  · exact Keeps.bind (intern_keeps _) fun _ => instruction_keeps _ _ _
  · exact Keeps.throw _

end Build

/-- Every call of the builder keeps functions and blocks numbered by their position. -/
theorem Step.run_numbered (step : Step) {b : Builder} (kept : b.module.Numbered) :
    (step.run b).module.Numbered := by
  unfold Step.run
  cases step with
  | intern => exact Build.intern_keeps _ b kept
  | null | metadata | noneToken =>
    exact Build.Keeps.bind (Build.intern_keeps _) (fun _ => Build.pushValue_keeps _ _) b kept
  | constInt | constFloat | zero | unspecified | poison | constAggregate | constExpr =>
    exact Build.pushValue_keeps _ _ b kept
  | setName => exact Build.setName_keeps _ _ b kept
  | addGlobal => exact Build.addGlobal_keeps _ _ _ b kept
  | addFunction => exact Build.addFunction_keeps _ _ b kept
  | setPersonality => exact Build.setPersonality_keeps _ _ b kept
  | appendBlock => exact Build.appendBlock_keeps _ _ b kept
  | positionAt => exact kept
  | addIncoming => exact Build.addIncoming_keeps _ _ _ b kept
  | alloca => exact Build.alloca_keeps _ _ b kept
  | instruction | load | cast | vaArg | phi => exact Build.instruction_keeps _ _ _ b kept
  | store | fence | ret | br | condBr | switch | unreachable | catchRet | cleanupRet =>
    exact Build.effect_keeps _ _ b kept
  | gep | icmp | fcmp | catchSwitch | catchPad | cleanupPad =>
    exact Build.Keeps.bind (Build.intern_keeps _) (fun _ => Build.instruction_keeps _ _ _) b kept
  | atomicRmw | binary | fneg | select | freeze | insertValue | insertElement =>
    exact Build.Keeps.bind (Build.Keeps.typeOf _) (fun _ => Build.instruction_keeps _ _ _) b kept
  | call | invoke =>
    exact Build.Keeps.bind (Build.callResult_keeps _)
      (fun _ => Build.instruction_keeps _ _ _) b kept
  | extractValue => exact Build.extractValue_keeps _ _ b kept
  | extractElement => exact Build.extractElement_keeps _ _ b kept
  | shuffleVector => exact Build.shuffleVector_keeps _ _ _ b kept

/-- In a module that can be built, functions and blocks are numbered by their position. -/
theorem Module.Built.numbered {m : Module} (built : m.Built) : m.Numbered := by
  obtain ⟨name, steps, rfl⟩ := built
  have run : ∀ b : Builder, b.module.Numbered → (runSteps b steps).module.Numbered := by
    induction steps with
    | nil => exact fun _ kept => kept
    | cons step rest ih => exact fun b kept => ih (step.run b) (step.run_numbered kept)
  refine run _ fun function f found => ?_
  simp [Module.function?] at found

section

variable {m : Module} (built : m.Built) {function : Nat} {f : Function}
  (found : m.function? function = some f)

include built found

/-- In every module that can be built, a function knows its own position. -/
theorem id_of_built : f.id = function := (built.numbered found).1

/-- In every module that can be built, a block knows its own position. -/
theorem numbered_of_built : f.Numbered := (built.numbered found).2

end

end Stackwise.Source
