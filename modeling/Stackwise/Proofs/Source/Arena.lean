import Stackwise.Proofs.Source.Additions

/-!
# The arena and the blocks agree

An instruction says in which block it stands, and a block lists its instructions; a function and a
global name the value that stands for them, and that value names them.  Nothing but the builder
keeps these two sides in step, and whatever reads a module relies on it.

`Module.Consistent` says that they are.  It is stated entry by entry, and each part is monotone
under `Module.Refers`: values may be added, and named, and types may be added.  What is left to show
for an addition is that the entries it makes are right, and that an instruction which is new stands
in its block.
-/

namespace Stackwise.Source

namespace Module

/-- The second module has the values and the types of the first one. -/
structure Refers (m m' : Module) : Prop where
  values : ∀ {id v}, m.value? id = some v → ∃ v', m'.value? id = some v' ∧ v.Alike v'
  types : m.types.Extends m'.types

/-- A function knows its number, and its value and its arguments are those of this number. -/
def FunctionFits (m : Module) (number : Nat) (f : Function) : Prop :=
  f.id = number ∧ f.ty < m.types.size ∧
    (∃ v, m.value? f.value = some v ∧ v.kind = .function number) ∧
    m.Arguments number 0 f.params (m.types.paramTypes f.ty)

/-- A global knows its number, and its value is that of this number. -/
def GlobalFits (m : Module) (number : Nat) (g : Global) : Prop :=
  g.id = number ∧ ∃ v, m.value? g.value = some v ∧ v.kind = .global number

/-- A block knows its number, and lists, in order, instructions that say they stand there. -/
def BlockFits (m : Module) (function block : Nat) (blk : Block) : Prop :=
  blk.id = block ∧ blk.instructions.Pairwise (· < ·) ∧
    ∀ id ∈ blk.instructions, ∃ i, m.instruction? id = some i ∧ i.function = function ∧
      i.block = block

/-- A block lists a value. -/
def Lists (m : Module) (function block id : Nat) : Prop :=
  ∃ blk, m.block? function block = some blk ∧ id ∈ blk.instructions

/-- What functions, globals and blocks say of themselves and of values is true. -/
structure Fits (m : Module) : Prop where
  functions : ∀ {number f}, m.function? number = some f → m.FunctionFits number f
  globals : ∀ {number g}, m.global? number = some g → m.GlobalFits number g
  blocks : ∀ {function block blk}, m.block? function block = some blk →
    m.BlockFits function block blk

/-- And every instruction stands where it says. -/
structure Consistent (m : Module) : Prop extends m.Fits where
  standing : ∀ {id i}, m.instruction? id = some i → m.Lists i.function i.block id

end Module

/-! ## More values and types -/

namespace Value.Alike

variable {v v' : Value} (alike : v.Alike v')

include alike

theorem kind_eq (plain : ∀ i, v.kind ≠ .instruction i) : v'.kind = v.kind := by
  obtain same | ⟨i, _, kind, -⟩ := alike.kind
  · exact same
  · exact absurd kind (plain i)

/-- A changed instruction stands where it stood. -/
theorem instruction {i : Instruction} (kind : v.kind = .instruction i) :
    ∃ i', v'.kind = .instruction i' ∧ i'.function = i.function ∧ i'.block = i.block := by
  obtain same | ⟨_, operands, kind', changed⟩ := alike.kind
  · exact ⟨i, same.trans kind, rfl, rfl⟩
  · cases kind'.symm.trans kind
    exact ⟨_, changed, rfl, rfl⟩

/-- What is an instruction after a change was one before, at the same place. -/
theorem of_instruction {i' : Instruction} (kind' : v'.kind = .instruction i') :
    ∃ i, v.kind = .instruction i ∧ i'.function = i.function ∧ i'.block = i.block := by
  obtain same | ⟨i, operands, kind, changed⟩ := alike.kind
  · exact ⟨i', same.symm.trans kind', rfl, rfl⟩
  · cases changed.symm.trans kind'
    exact ⟨i, kind, rfl, rfl⟩

end Value.Alike

namespace Module

variable {m m' : Module}

/-- An instruction is a value of that kind. -/
theorem instruction?_eq_some_iff {id : Nat} {i : Instruction} :
    m.instruction? id = some i ↔ ∃ v, m.value? id = some v ∧ v.kind = .instruction i := by
  rw [instruction?, Option.bind_eq_some_iff]
  refine exists_congr fun v => and_congr_right fun _ => ?_
  rw [Value.instruction?]
  split
  next kind => rw [kind, Option.some.injEq, ValueKind.instruction.injEq]
  next other => exact ⟨nofun, fun kind => absurd kind (other i)⟩

/-- Instructions are found again, at their place, in a module with all values. -/
theorem Refers.instruction (refers : m.Refers m') {id : Nat} {i : Instruction}
    (found : m.instruction? id = some i) :
    ∃ i', m'.instruction? id = some i' ∧ i'.function = i.function ∧ i'.block = i.block := by
  obtain ⟨v, there, kind⟩ := instruction?_eq_some_iff.1 found
  obtain ⟨v', there', alike⟩ := refers.values there
  obtain ⟨i', kind', place⟩ := alike.instruction kind
  exact ⟨i', instruction?_eq_some_iff.2 ⟨v', there', kind'⟩, place⟩

/-- A value that is no instruction stays what it is. -/
theorem Refers.meant (refers : m.Refers m') {id : Nat} {kind : ValueKind}
    (plain : ∀ i, kind ≠ .instruction i) (meant : ∃ v, m.value? id = some v ∧ v.kind = kind) :
    ∃ v, m'.value? id = some v ∧ v.kind = kind := by
  obtain ⟨v, found, rfl⟩ := meant
  obtain ⟨v', found', alike⟩ := refers.values found
  exact ⟨v', found', alike.kind_eq plain⟩

theorem Refers.arguments (refers : m.Refers m') {function first : Nat} {ids types : List Nat}
    (arguments : m.Arguments function first ids types) :
    m'.Arguments function first ids types := by
  refine ⟨arguments.1, fun index id listed => ?_⟩
  obtain ⟨v, found, kind, ty⟩ := arguments.2 index id listed
  obtain ⟨v', found', alike⟩ := refers.values found
  refine ⟨v', found', (alike.kind_eq ?_).trans kind, alike.ty ▸ ty⟩
  rw [kind]
  exact nofun

/-- What a function says of itself stays true when values and types are added. -/
theorem Refers.functionFits (refers : m.Refers m') {number : Nat} {f : Function}
    (fits : m.FunctionFits number f) : m'.FunctionFits number f := by
  obtain ⟨id, typed, meant, arguments⟩ := fits
  obtain ⟨ty, stored⟩ := TypePool.get?_eq_some_of_lt typed
  have stored' := refers.types f.ty ty stored
  have same : m'.types.paramTypes f.ty = m.types.paramTypes f.ty := by
    rw [TypePool.paramTypes, TypePool.paramTypes, TypePool.functionParts?,
      TypePool.functionParts?, stored, stored']
  refine ⟨id, TypePool.lt_size_of_get? stored', refers.meant nofun meant, ?_⟩
  rw [same]
  exact refers.arguments arguments

theorem Refers.globalFits (refers : m.Refers m') {number : Nat} {g : Global}
    (fits : m.GlobalFits number g) : m'.GlobalFits number g :=
  ⟨fits.1, refers.meant nofun fits.2⟩

theorem Refers.blockFits (refers : m.Refers m') {function block : Nat} {blk : Block}
    (fits : m.BlockFits function block blk) : m'.BlockFits function block blk := by
  obtain ⟨id, increasing, listed⟩ := fits
  refine ⟨id, increasing, fun id mem => ?_⟩
  obtain ⟨i, found, rfl, rfl⟩ := listed id mem
  exact refers.instruction found

end Module

namespace Builder

variable {b b' : Builder}

/-- Additions keep values and types. -/
theorem Adds.refers (adds : b.Adds b') : b.module.Refers b'.module := by
  refine ⟨fun {id v} found => ⟨v, adds.value?_eq_some found, rfl, .inl rfl⟩, ?_⟩
  cases adds with
  | type ty => exact TypePool.intern_extends _ ty
  | value | global | function | personality | block | position | instruction =>
    exact fun _ _ found => found

/-- Edits keep them up to names and operands. -/
theorem Edits.refers {change : Nat → Value → Value} (edits : b.Edits change b') :
    b.module.Refers b'.module := by
  refine ⟨fun {id v} found => ⟨change id v, ?_, edits.alike id v⟩, ?_⟩
  · rw [edits.value?, found, Option.map_some]
  · rw [edits.types]
    exact fun _ _ found => found

end Builder

namespace Module

variable {m m' : Module}

theorem refers_push (m : Module) (v : Value) : m.Refers (m.push v) :=
  ⟨fun {_ old} found => ⟨old, value?_push found, rfl, .inl rfl⟩, fun _ _ found => found⟩

/-- A module with the same functions and globals, and with all values, still fits. -/
theorem Refers.fits (refers : m.Refers m') (functions : m'.functions = m.functions)
    (globals : m'.globals = m.globals) (fits : m.Fits) : m'.Fits where
  functions {number f} found := by
    rw [function?, functions] at found
    exact refers.functionFits (fits.functions found)
  globals {number g} found := by
    rw [global?, globals] at found
    exact refers.globalFits (fits.globals found)
  blocks {function block blk} found := by
    rw [block?, function?, functions] at found
    exact refers.blockFits (fits.blocks found)

/-- A module stays consistent if no function, no global and no instruction is new. -/
theorem Refers.consistent (refers : m.Refers m') (functions : m'.functions = m.functions)
    (globals : m'.globals = m.globals)
    (old : ∀ {id i'}, m'.instruction? id = some i' →
      ∃ i, m.instruction? id = some i ∧ i'.function = i.function ∧ i'.block = i.block)
    (consistent : m.Consistent) : m'.Consistent := by
  refine ⟨refers.fits functions globals consistent.toFits, fun {id i'} found => ?_⟩
  obtain ⟨i, before, function, block⟩ := old found
  rw [Lists, block?, function?, functions, function, block]
  exact consistent.standing before

/-! ## Additions keep modules consistent -/

/-- A new value changes no other one. -/
theorem instruction?_push (m : Module) (v : Value) (id : Nat) :
    (m.push v).instruction? id =
      if id = m.values.size then v.instruction? else m.instruction? id := by
  rw [instruction?, value?, push, Array.getElem?_push]
  split <;> rfl

/-- Changing a function changes the blocks of no other one. -/
theorem block?_modifyFunction (m : Module) (function number block : Nat)
    (change : Function → Function) :
    (m.modifyFunction function change).block? number block =
      if function = number then (m.function? number).bind fun f => (change f).blocks[block]?
      else m.block? number block := by
  rw [block?, function?_modifyFunction]
  split
  · exact Option.bind_map ..
  · rfl

/-- Changing a function keeps what fits, if its blocks still fit and the rest is left alone. -/
theorem Fits.modifyFunction (fits : m.Fits) {function : Nat} {change : Function → Function}
    (kept : ∀ {number f}, m.FunctionFits number f → m.FunctionFits number (change f))
    (blocks : ∀ {f block blk}, m.function? function = some f →
      (change f).blocks[block]? = some blk → m.BlockFits function block blk) :
    (m.modifyFunction function change).Fits where
  functions {number f'} found := by
    rw [function?_modifyFunction] at found
    split at found
    · obtain ⟨f, before, rfl⟩ := Option.map_eq_some_iff.1 found
      exact kept (fits.functions before)
    · exact fits.functions found
  globals := fits.globals
  blocks {number block blk} found := by
    rw [block?_modifyFunction] at found
    split at found
    next same =>
      subst same
      obtain ⟨f, before, inside⟩ := Option.bind_eq_some_iff.1 found
      exact blocks before inside
    next => exact fits.blocks found

/-- A block that only gets more instructions lists all that it did. -/
theorem Lists.modifyFunction {number index id : Nat} (lists : m.Lists number index id)
    {function : Nat} {change : Function → Function}
    (keeps : ∀ {f : Function} {blk : Block}, f.blocks[index]? = some blk →
      ∃ blk', (change f).blocks[index]? = some blk' ∧ blk.instructions ⊆ blk'.instructions) :
    (m.modifyFunction function change).Lists number index id := by
  obtain ⟨blk, there, mem⟩ := lists
  rw [Lists, block?_modifyFunction]
  split
  next =>
    obtain ⟨f, before, inside⟩ := block?_eq_some_iff.1 there
    obtain ⟨blk', inside', more⟩ := keeps inside
    exact ⟨blk', by rw [before]; exact inside', more mem⟩
  next => exact ⟨blk, there, mem⟩

/-- A global that fits can be added. -/
theorem Consistent.pushGlobal {g : Global} (consistent : m.Consistent)
    (fits : m.GlobalFits m.globals.size g) :
    Consistent { m with globals := m.globals.push g } where
  functions := consistent.functions
  globals {number g'} found := by
    rw [global?, Array.getElem?_push] at found
    split at found
    next last =>
      cases found
      exact last ▸ fits
    next => exact consistent.globals found
  blocks := consistent.blocks
  standing := consistent.standing

/-- A function that fits and has no block yet can be added. -/
theorem Consistent.pushFunction {f : Function} (consistent : m.Consistent)
    (fits : m.FunctionFits m.functions.size f) (empty : f.blocks = #[]) :
    Consistent { m with functions := m.functions.push f } where
  functions {number f'} found := by
    rw [function?, Array.getElem?_push] at found
    split at found
    next last =>
      cases found
      exact last ▸ fits
    next => exact consistent.functions found
  globals := consistent.globals
  blocks {function block blk} found := by
    obtain ⟨f', there, inside⟩ := block?_eq_some_iff.1 found
    rw [function?, Array.getElem?_push] at there
    split at there
    next =>
      cases there
      rw [empty] at inside
      cases inside
    next => exact consistent.blocks (block?_eq_some_iff.2 ⟨f', there, inside⟩)
  standing {id i} found := by
    obtain ⟨blk, there, mem⟩ := consistent.standing found
    obtain ⟨f', before, inside⟩ := block?_eq_some_iff.1 there
    exact ⟨blk, block?_eq_some_iff.2 ⟨f', function?_push before, inside⟩, mem⟩

/-- A personality routine can be set. -/
theorem Consistent.setPersonality (consistent : m.Consistent) (function personality : Nat) :
    (m.modifyFunction function fun f =>
      { f with personality := some personality }).Consistent where
  toFits := consistent.modifyFunction id fun before inside =>
    consistent.blocks (block?_eq_some_iff.2 ⟨_, before, inside⟩)
  standing found :=
    (consistent.standing found).modifyFunction fun inside => ⟨_, inside, List.Subset.refl _⟩

/-- A block that carries the next number can be added to a function. -/
theorem Consistent.pushBlock (consistent : m.Consistent) {function : Nat} {f : Function}
    (found : m.function? function = some f) (name : String) :
    (m.modifyFunction function fun f' =>
      { f' with blocks := f'.blocks.push { id := f.blocks.size, name } }).Consistent where
  toFits := by
    refine consistent.modifyFunction id fun {f' block blk} before inside => ?_
    cases found.symm.trans before
    rw [Array.getElem?_push] at inside
    split at inside
    next last =>
      cases inside
      exact ⟨last.symm, .nil, List.forall_mem_nil _⟩
    next => exact consistent.blocks (block?_eq_some_iff.2 ⟨f, found, inside⟩)
  standing placed := by
    refine (consistent.standing placed).modifyFunction fun {f' blk} inside => ?_
    obtain ⟨lt, -⟩ := Array.getElem?_eq_some_iff.1 inside
    refine ⟨blk, ?_, List.Subset.refl _⟩
    rw [Array.getElem?_push_lt lt, ← Array.getElem?_eq_getElem lt]
    exact inside

theorem lt_size_of_instruction? {id : Nat} {i : Instruction} (found : m.instruction? id = some i) :
    id < m.values.size := by
  obtain ⟨v, there, -⟩ := instruction?_eq_some_iff.1 found
  exact (Array.getElem?_eq_some_iff.1 there).1

/-- A new instruction has the greatest number, so it may stand at the end of a block. -/
theorem BlockFits.append {ty : Nat} {i : Instruction} {blk : Block}
    (fits : m.BlockFits i.function i.block blk) :
    (m.push { ty, kind := .instruction i }).BlockFits i.function i.block
      (blk.append m.values.size) := by
  obtain ⟨id, increasing, listed⟩ := (m.refers_push _).blockFits fits
  refine ⟨id, List.pairwise_append.2 ⟨increasing, List.pairwise_singleton _ _, ?_⟩, ?_⟩
  · intro old mem last mem'
    obtain ⟨i', found, -⟩ := fits.2.2 old mem
    rw [List.mem_singleton.1 mem']
    exact lt_size_of_instruction? found
  · intro old mem
    obtain mem | mem := List.mem_append.1 mem
    · exact listed old mem
    · rw [List.mem_singleton.1 mem, instruction?_push, if_pos rfl]
      exact ⟨i, rfl, rfl, rfl⟩

/-- An instruction can be added to the block that it says it stands in. -/
theorem Consistent.pushInstruction (consistent : m.Consistent) {ty : Nat} {i : Instruction}
    (there : (m.block? i.function i.block).isSome = true) :
    ((m.push { ty, kind := .instruction i }).modifyFunction i.function fun f =>
      { f with blocks := f.blocks.modify i.block (·.append m.values.size) }).Consistent := by
  have fits := (m.refers_push { ty, kind := .instruction i }).fits rfl rfl consistent.toFits
  refine ⟨fits.modifyFunction id fun {f block blk} before inside => ?_, fun {id i'} found => ?_⟩
  · rw [Array.getElem?_modify] at inside
    split at inside
    next same =>
      subst same
      obtain ⟨old, earlier, rfl⟩ := Option.map_eq_some_iff.1 inside
      exact (consistent.blocks (block?_eq_some_iff.2 ⟨f, before, earlier⟩)).append
    next => exact fits.blocks (block?_eq_some_iff.2 ⟨f, before, inside⟩)
  · change (m.push { ty, kind := .instruction i }).instruction? id = some i' at found
    rw [instruction?_push] at found
    split at found
    next new =>
      cases found
      obtain ⟨blk, chosen⟩ := Option.isSome_iff_exists.1 there
      obtain ⟨f, before, inside⟩ := block?_eq_some_iff.1 chosen
      refine ⟨blk.append m.values.size, ?_, ?_⟩
      · rw [block?_modifyFunction, if_pos rfl, show (m.push _).function? _ = _ from before,
          Option.bind_some, Array.getElem?_modify, if_pos rfl, inside, Option.map_some]
      · rw [new]
        exact List.mem_append_right _ List.mem_cons_self
    next =>
      have before : (m.push { ty, kind := .instruction i }).Lists i'.function i'.block id :=
        consistent.standing found
      refine before.modifyFunction fun {f blk} inside => ?_
      rw [Array.getElem?_modify]
      split
      · exact ⟨_, by rw [inside]; rfl, List.subset_append_left _ _⟩
      · exact ⟨blk, inside, List.Subset.refl _⟩

end Module

namespace Builder

variable {b b' : Builder}

/-- Every addition keeps a module consistent. -/
theorem Adds.consistent (adds : b.Adds b') (consistent : b.module.Consistent) :
    b'.module.Consistent := by
  have refers := adds.refers
  cases adds with
  | type => exact refers.consistent rfl rfl (fun found => ⟨_, found, rfl, rfl⟩) consistent
  | value v plain =>
    refine refers.consistent rfl rfl (fun {id i} found => ?_) consistent
    change (b.module.push v).instruction? id = some i at found
    rw [Module.instruction?_push] at found
    split at found
    next => cases plain.symm.trans found
    next => exact ⟨i, found, rfl, rfl⟩
  | global g next meant =>
    rw [next] at meant
    exact consistent.pushGlobal ⟨next, meant⟩
  | function f next empty typed meant params =>
    rw [next] at meant params
    exact consistent.pushFunction ⟨next, typed, meant, params⟩ empty
  | personality function personality => exact consistent.setPersonality function personality
  | block name found => exact consistent.pushBlock found name
  | position => exact consistent
  | instruction ty i there =>
    exact consistent.pushInstruction there

theorem Edits.consistent {change : Nat → Value → Value} (edits : b.Edits change b')
    (consistent : b.module.Consistent) : b'.module.Consistent := by
  refine edits.refers.consistent edits.functions edits.globals (fun {id i'} found => ?_) consistent
  obtain ⟨v', there', kind'⟩ := Module.instruction?_eq_some_iff.1 found
  rw [edits.value?] at there'
  obtain ⟨v, there, rfl⟩ := Option.map_eq_some_iff.1 there'
  obtain ⟨i, kind, place⟩ := (edits.alike id v).of_instruction kind'
  exact ⟨i, Module.instruction?_eq_some_iff.2 ⟨v, there, kind⟩, place⟩

/-- A module that is built by steps that know what they refer to is consistent. -/
theorem Follows.consistent {name : String} {steps : List Step}
    (follows : (start name).Follows steps) : (build name steps).Consistent := by
  refine follows.holds (P := fun b => b.module.Consistent) (start_ready name) ?_
    (fun added => added.consistent) (fun edits => edits.consistent)
  exact ⟨⟨nofun, nofun, nofun⟩, nofun⟩

end Builder

/-- The arena of a module and its functions, globals and blocks agree, whatever list of steps has
built the module and whichever of them were refused.  Functions, globals and blocks carry their own
positions.  An instruction stands in the block that it names, once, and in no other; a block lists
instructions only, in ascending order.  The value of a function or a global is that of this function
or global, and so are the arguments of a function, whose types are those of its parameters.  And a
value that a shorter list of steps has entered is what the later steps make of it: names, and more
operands of phis, are all that they change. -/
theorem arena_consistent {name : String} {steps : List Step}
    (follows : (Builder.start name).Follows steps) :
    let m := build name steps
    (∀ number f, m.function? number = some f → f.id = number) ∧
    (∀ number g, m.global? number = some g → g.id = number) ∧
    (∀ function block blk, m.block? function block = some blk → blk.id = block) ∧
    (∀ id i, m.instruction? id = some i →
      (∃ blk, m.block? i.function i.block = some blk ∧ blk.instructions.count id = 1) ∧
      ∀ function block blk, m.block? function block = some blk → id ∈ blk.instructions →
        function = i.function ∧ block = i.block) ∧
    (∀ function block blk, m.block? function block = some blk →
      blk.instructions.Pairwise (· < ·) ∧
      ∀ id ∈ blk.instructions, ∃ i, m.instruction? id = some i) ∧
    (∀ number f, m.function? number = some f →
      ∃ v, m.value? f.value = some v ∧ v.kind = .function number) ∧
    (∀ number g, m.global? number = some g →
      ∃ v, m.value? g.value = some v ∧ v.kind = .global number) ∧
    (∀ number f, m.function? number = some f →
      f.params.length = (m.types.paramTypes f.ty).length ∧
      ∀ index id, f.params[index]? = some id → ∃ v, m.value? id = some v ∧
        v.kind = .argument number index ∧ (m.types.paramTypes f.ty)[index]? = some v.ty) ∧
    ∀ before after, steps = before ++ after → ∀ id v, (build name before).value? id = some v →
      m.value? id = some (after.foldl (fun v step => step.edit id v) v) := by
  intro m
  have consistent : m.Consistent := follows.consistent
  refine ⟨fun _ _ found => (consistent.functions found).1,
    fun _ _ found => (consistent.globals found).1,
    fun _ _ _ found => (consistent.blocks found).1, fun id i found => ⟨?_, ?_⟩,
    fun _ _ blk found => ⟨(consistent.blocks found).2.1, fun id mem => ?_⟩,
    fun _ _ found => (consistent.functions found).2.2.1,
    fun _ _ found => (consistent.globals found).2,
    fun number f found => ⟨(consistent.functions found).2.2.2.1, fun index id listed => ?_⟩, ?_⟩
  · obtain ⟨blk, there, mem⟩ := consistent.standing found
    have nodup : blk.instructions.Nodup := (consistent.blocks there).2.1.imp Nat.ne_of_lt
    exact ⟨blk, there, nodup.count.trans (if_pos mem)⟩
  · intro function block blk there mem
    obtain ⟨i', found', rfl, rfl⟩ := (consistent.blocks there).2.2 id mem
    cases found.symm.trans found'
    exact ⟨rfl, rfl⟩
  · obtain ⟨i, found', -⟩ := (consistent.blocks found).2.2 id mem
    exact ⟨i, found'⟩
  · obtain ⟨v, there, kind, ty⟩ := (consistent.functions found).2.2.2.2 index id listed
    rw [Nat.zero_add] at kind
    exact ⟨v, there, kind, ty⟩
  · rintro before after rfl id v there
    obtain ⟨early, late⟩ := Builder.follows_append.1 follows
    have ready := early.holds (Builder.start_ready name) (Builder.start_ready name)
      Builder.Adds.ready Builder.Edits.ready
    show (runSteps _ (before ++ after)).module.value? id = _
    rw [runSteps, List.foldl_append]
    exact late.value?_eq_some ready there

/-- A loop whose phi is closed at its end, with steps between that are refused: an allocation before
any block is chosen, an element of a number, one more operand for a subtraction. -/
def countdown : List Step :=
  [.intern (.int 32), .alloca 0 none, .intern (.function 0 [0, 1] false), .addGlobal "limit" 0 none,
    .addFunction "run" 2, .appendBlock 0 "entry", .appendBlock 0 "loop", .appendBlock 0 "done",
    .positionAt 0 0, .load 0 1, .br 1, .positionAt 0 1, .phi 0 [(5, 0)], .binary .sub 7 3,
    .extractElement 8 0, .icmp .eq 8 3, .condBr 9 2 1, .addIncoming 8 8 1, .addIncoming 7 8 1,
    .setName 7 "left", .positionAt 0 2, .ret (some 8)]

/-- The phi of the loop stands in its block once, with the operands of the loop and none of the
refused ones. -/
theorem arena_consistent_countdown :
    (Builder.start "m").Follows countdown ∧
    (∃ blk, (build "m" countdown).block? 0 1 = some blk ∧ blk.instructions.count 7 = 1) ∧
    (build "m" countdown).value? 7 = some
      ⟨0, .instruction ⟨.phi, [.value 5, .block 0, .value 8, .block 1], 0, 1⟩, some "left"⟩ := by
  have follows : (Builder.start "m").Follows countdown := by decide +kernel
  obtain ⟨-, -, -, standing, -, -, -, -, kept⟩ := arena_consistent follows
  have entered : (build "m" (countdown.take 13)).value? 7 =
      some ⟨0, .instruction ⟨.phi, [.value 5, .block 0], 0, 1⟩, none⟩ := by decide +kernel
  have now := kept _ _ (List.take_append_drop 13 countdown).symm 7 _ entered
  have left : (build "m" countdown).value? 7 = some
      ⟨0, .instruction ⟨.phi, [.value 5, .block 0, .value 8, .block 1], 0, 1⟩, some "left"⟩ :=
    now.trans (by decide +kernel)
  refine ⟨follows, ?_, left⟩
  exact (standing 7 _ (Module.instruction?_eq_some_iff.2 ⟨_, left, rfl⟩)).1

end Stackwise.Source
