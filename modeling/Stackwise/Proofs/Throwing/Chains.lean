import Mathlib.Logic.Relation
import Stackwise.Proofs.Throwing

/-!
# Exceptions travel along chains of calls

The analysis adds whole batches of functions, each found by looking at the set as it stood before
the round.  What it ends with can be said without rounds.  In a module where exceptions exist at
all, a function may throw exactly if it is a raising intrinsic, or if a chain of calls leads from
its body to a call of one, or to a call of something that is no function and may be anything.

* **Nothing is added without a chain** (`throws_of_mem_spread`), by induction on the rounds.
* **Nothing with a chain is missed** (`mem_spread_of_throws`), by induction on the chain, since the
  last set is closed.
* A round that is not the last one adds a function with a body, so there are at most as many rounds
  as such functions, and one more (`spread_rounds_le`).
* A chain is a matter of who calls whom.  It does not change when the functions of the module are
  declared in another order and everything is numbered anew (`mayThrow_renumber`).

The callee of a call is the value in its last place.  A call that has no value there calls nobody,
and the analysis passes over it.
-/

namespace Stackwise.Source

/-! ## Another order of the functions -/

/-- An operand, with values numbered anew. -/
def Operand.renumber (values : Nat → Nat) : Operand → Operand
  | .value id => .value (values id)
  | .block id => .block id

/-- An instruction, with functions and values numbered anew. -/
def Instruction.renumber (functions values : Nat → Nat) (i : Instruction) : Instruction :=
  { i with
    operands := i.operands.map (·.renumber values)
    function := functions i.function }

/-- What a value is, with functions and values numbered anew. -/
def ValueKind.renumber (functions values : Nat → Nat) : ValueKind → ValueKind
  | .aggregate elements => .aggregate (elements.map values)
  | .expr opcode operands => .expr opcode (operands.map values)
  | .function id => .function (functions id)
  | .argument owner index => .argument (functions owner) index
  | .instruction i => .instruction (i.renumber functions values)
  | kind => kind

/-- A value, with functions and values numbered anew. -/
def Value.renumber (functions values : Nat → Nat) (v : Value) : Value :=
  { v with kind := v.kind.renumber functions values }

/-- A function, with functions and values numbered anew. -/
def Function.renumber (functions values : Nat → Nat) (f : Function) : Function :=
  { f with
    id := functions f.id
    params := f.params.map values
    blocks := f.blocks.map fun b => { b with instructions := b.instructions.map values }
    personality := f.personality.map functions
    value := values f.value }

/-- The second module is the first one with its functions declared in another order: the function
and the value of each number have another one there, and nothing else is different. -/
structure Renumbers (functions values : Nat → Nat) (m m' : Module) : Prop where
  function : ∀ id, m'.function? (functions id) = (m.function? id).map (·.renumber functions values)
  value : ∀ id, m'.value? (values id) = (m.value? id).map (·.renumber functions values)
  /-- No function is new. -/
  onto : ∀ id', (m'.function? id').isSome = true → ∃ id, functions id = id'

namespace Renumbers

variable {functions values : Nat → Nat} {m m' : Module}

/-- An instruction is found under its new number. -/
theorem instruction? (h : Renumbers functions values m m') (id : Nat) :
    m'.instruction? (values id) = (m.instruction? id).map (·.renumber functions values) := by
  rw [Module.instruction?, Module.instruction?, h.value]
  cases m.value? id with
  | none => rfl
  | some v => obtain ⟨ty, kind, name⟩ := v; cases kind <;> rfl

/-- The body of a function holds the same instructions, numbered anew. -/
theorem bodyOf (h : Renumbers functions values m m') (f : Function) :
    m'.bodyOf (f.renumber functions values) =
      (m.bodyOf f).map fun p => (values p.1, p.2.renumber functions values) := by
  have block (b : Block) :
      m'.instructionsOf { b with instructions := b.instructions.map values } =
        (m.instructionsOf b).map fun p => (values p.1, p.2.renumber functions values) := by
    simp only [Module.instructionsOf, List.filterMap_map, List.map_filterMap]
    congr 1
    funext id
    simp only [Function.comp_apply, h.instruction?, Option.map_map]
    rfl
  simp only [Module.bodyOf, Function.renumber, Array.toList_map, List.flatMap_map, block,
    List.map_flatMap]

/-- A callee stands for the same function under its new number. -/
theorem calleeFunction? (h : Renumbers functions values m m') (callee : Nat) :
    m'.calleeFunction? (values callee) = (m.calleeFunction? callee).map functions := by
  rw [Module.calleeFunction?, Module.calleeFunction?, h.value]
  cases m.value? callee with
  | none => rfl
  | some v => obtain ⟨ty, kind, name⟩ := v; cases kind <;> rfl

end Renumbers

end Stackwise.Source

namespace Stackwise.Throwing

open Relation (ReflTransGen)
open Source (Function Instruction Module Operand Value ValueKind)

/-! ## Who calls whom -/

/-- Some call in the body of the function calls the value. -/
def CallsValue (m : Module) (function callee : Nat) : Prop :=
  ∃ f id i, m.function? function = some f ∧ (id, i) ∈ m.bodyOf f ∧ Calls i callee

/-- Some call in the body of the function calls the other function. -/
def CallsFunction (m : Module) (function target : Nat) : Prop :=
  ∃ callee, CallsValue m function callee ∧ m.calleeFunction? callee = some target

/-- Some call in the body of the function calls a value that is no function. -/
def CallsUnknown (m : Module) (function : Nat) : Prop :=
  ∃ callee, CallsValue m function callee ∧ m.calleeFunction? callee = none

/-- The function is an intrinsic that can raise an exception. -/
def Raises (c : Conventions) (m : Module) (function : Nat) : Prop :=
  (m.function? function).isSome = true ∧ c.isIntrinsic m function = true ∧
    c.mayRaise m function = true

instance (c : Conventions) (m : Module) (function : Nat) : Decidable (Raises c m function) :=
  inferInstanceAs (Decidable (_ ∧ _ ∧ _))

/-- The function has a body. -/
def HasBody (m : Module) (function : Nat) : Prop :=
  ∃ f, m.function? function = some f ∧ f.isDeclaration = false

/-- The body of the function has an `invoke`. -/
def Invokes (m : Module) (function : Nat) : Prop :=
  ∃ f id i functionType, m.function? function = some f ∧ (id, i) ∈ m.bodyOf f ∧
    i.opcode = .invoke functionType

/-- A chain of calls leads from the function, through functions with bodies, to a call of a raising
intrinsic or of a value that is no function. -/
def Chain (c : Conventions) (m : Module) (function : Nat) : Prop :=
  ∃ last, ReflTransGen (CallsFunction m) function last ∧
    (CallsUnknown m last ∨ ∃ target, CallsFunction m last target ∧ Raises c m target)

/-- The function can return with an exception in flight. -/
def Throws (c : Conventions) (m : Module) (function : Nat) : Prop :=
  Raises c m function ∨ HasBody m function ∧ Chain c m function

/-- Every function knows its own position. -/
def Positioned (m : Module) : Prop :=
  ∀ ⦃function : Nat⦄ ⦃f : Function⦄, m.function? function = some f → f.id = function

section

variable {c : Conventions} {m : Module} {function : Nat}

/-- A function that calls something has a body. -/
theorem CallsValue.hasBody {callee : Nat} (h : CallsValue m function callee) :
    HasBody m function := by
  obtain ⟨f, id, i, found, mem, -⟩ := h
  refine ⟨f, found, ?_⟩
  by_cases declared : f.blocks = #[]
  · simp [Module.bodyOf, declared] at mem
  · simpa [Function.isDeclaration] using declared

/-- Calling something that throws is a way to throw. -/
theorem Throws.of_callsFunction {target : Nat} (calls : CallsFunction m function target)
    (h : Throws c m target) : Throws c m function := by
  obtain ⟨callee, value, -⟩ := id calls
  refine .inr ⟨value.hasBody, ?_⟩
  rcases h with raises | ⟨-, last, chain, ends⟩
  · exact ⟨function, .refl, .inr ⟨target, calls, raises⟩⟩
  · exact ⟨last, .head calls chain, ends⟩

/-- A function that calls a value of which nothing is known can return with an exception. -/
theorem Throws.of_callsUnknown (calls : CallsUnknown m function) : Throws c m function := by
  obtain ⟨callee, value, -⟩ := id calls
  exact .inr ⟨value.hasBody, function, .refl, .inl calls⟩

/-! ## What a round adds -/

/-- A call counts as throwing if its callee is no function, or one of the throwers. -/
theorem isThrowingCall_iff {throwers : List Nat} {i : Instruction} :
    isThrowingCall m throwers i = true ↔ ∃ callee, Calls i callee ∧
      ∀ target, m.calleeFunction? callee = some target → target ∈ throwers := by
  constructor
  · intro throwing
    unfold isThrowingCall at throwing
    split at throwing
    · rename_i functionType callee opcode last
      refine ⟨callee, ⟨⟨functionType, .inl opcode⟩, last⟩, fun target named => ?_⟩
      simpa [named] using throwing
    · rename_i functionType callee opcode last
      refine ⟨callee, ⟨⟨functionType, .inr opcode⟩, last⟩, fun target named => ?_⟩
      simpa [named] using throwing
    · cases throwing
  · rintro ⟨callee, calls, inside⟩
    rw [isThrowingCall_of_calls calls]
    by_cases named : ∃ target, m.calleeFunction? callee = some target
    · obtain ⟨target, named⟩ := named
      simpa [named] using inside target named
    · rw [Option.eq_none_iff_forall_ne_some.2 fun target same => named ⟨target, same⟩]
      rfl

/-- Some call of the function may throw, as far as the set tells. -/
theorem callsThrower_iff {throwers : List Nat} {f : Function}
    (found : m.function? function = some f) :
    callsThrower m throwers f = true ↔ CallsUnknown m function ∨
      ∃ target ∈ throwers, CallsFunction m function target := by
  rw [callsThrower, List.any_eq_true]
  constructor
  · rintro ⟨⟨id, i⟩, mem, throwing⟩
    obtain ⟨callee, calls, inside⟩ := isThrowingCall_iff.1 throwing
    have value : CallsValue m function callee := ⟨f, id, i, found, mem, calls⟩
    cases named : m.calleeFunction? callee with
    | none => exact .inl ⟨callee, value, named⟩
    | some target => exact .inr ⟨target, inside target named, callee, value, named⟩
  · have throwing {callee : Nat} (value : CallsValue m function callee)
        (inside : ∀ target, m.calleeFunction? callee = some target → target ∈ throwers) :
        ∃ p ∈ m.bodyOf f, isThrowingCall m throwers p.2 = true := by
      obtain ⟨f', id, i, found', mem, calls⟩ := value
      rw [found] at found'
      cases found'
      exact ⟨(id, i), mem, isThrowingCall_iff.2 ⟨callee, calls, inside⟩⟩
    rintro (⟨callee, value, unknown⟩ | ⟨target, inside, callee, value, named⟩)
    · exact throwing value fun target named => by simp [unknown] at named
    · refine throwing value fun target' named' => ?_
      rw [named] at named'
      exact Option.some.inj named' ▸ inside

/-- A round adds the functions with bodies that call a thrower or an unknown value. -/
theorem mem_newThrowers (positioned : Positioned m) {throwers : List Nat} :
    function ∈ newThrowers m throwers ↔ HasBody m function ∧ function ∉ throwers ∧
      (CallsUnknown m function ∨ ∃ target ∈ throwers, CallsFunction m function target) := by
  simp only [newThrowers, List.mem_map, List.mem_filter, Array.mem_toList_iff, Bool.and_eq_true,
    Bool.not_eq_true', List.contains_eq_mem, decide_eq_false_iff_not]
  constructor
  · rintro ⟨f, ⟨mem, ⟨defined, outside⟩, calls⟩, rfl⟩
    obtain ⟨position, found⟩ := Array.mem_iff_getElem?.1 mem
    have same : f.id = position := positioned found
    rw [← same] at found
    exact ⟨⟨f, found, defined⟩, outside, (callsThrower_iff found).1 calls⟩
  · rintro ⟨⟨f, found, defined⟩, outside, calls⟩
    have same : f.id = function := positioned found
    refine ⟨f, ⟨Array.mem_of_getElem? found, ⟨defined, ?_⟩, (callsThrower_iff found).2 calls⟩, same⟩
    rwa [same]

/-- The rounds start from the raising intrinsics. -/
theorem mem_sources (positioned : Positioned m) :
    function ∈ sources c m ↔ Raises c m function := by
  simp only [sources, List.mem_map, List.mem_filter, Array.mem_toList_iff, Bool.and_eq_true]
  constructor
  · rintro ⟨f, ⟨mem, raises⟩, rfl⟩
    obtain ⟨position, found⟩ := Array.mem_iff_getElem?.1 mem
    have same : f.id = position := positioned found
    refine ⟨?_, raises⟩
    rw [same, Module.function?, found]
    rfl
  · rintro ⟨there, raises⟩
    obtain ⟨f, found⟩ := Option.isSome_iff_exists.1 there
    have same : f.id = function := positioned found
    exact ⟨f, ⟨Array.mem_of_getElem? found, same ▸ raises⟩, same⟩

/-! ## Where the rounds end -/

/-- No thrower is lost on the way. -/
theorem subset_spread (m : Module) (throwers : List Nat) : throwers ⊆ (spread m throwers).1 := by
  fun_induction spread m throwers with
  | case1 throwers closed => exact List.Subset.refl _
  | case2 throwers more done rounds rest ih =>
    rw [rest] at ih
    exact List.Subset.trans (List.subset_append_left _ _) ih

/-- Every function that a round adds throws, if those it was added for do. -/
theorem throws_of_mem_spread (positioned : Positioned m) {throwers : List Nat}
    (start : ∀ function ∈ throwers, Throws c m function) :
    ∀ function ∈ (spread m throwers).1, Throws c m function := by
  fun_induction spread m throwers with
  | case1 throwers closed => exact start
  | case2 throwers more done rounds rest ih =>
    rw [rest] at ih
    apply ih
    intro function mem
    rcases List.mem_append.1 mem with old | new
    · exact start function old
    · obtain ⟨-, -, unknown | ⟨target, inside, calls⟩⟩ := (mem_newThrowers positioned).1 new
      · exact .of_callsUnknown unknown
      · exact .of_callsFunction calls (start target inside)

/-- The last set has every function that calls a member of it, or an unknown callee. -/
theorem mem_spread_of_calls (positioned : Positioned m) {throwers : List Nat}
    (calls : CallsUnknown m function ∨
      ∃ target ∈ (spread m throwers).1, CallsFunction m function target) :
    function ∈ (spread m throwers).1 := by
  have closed : function ∉ newThrowers m (spread m throwers).1 := by
    rw [newThrowers_spread]
    exact List.not_mem_nil
  rw [mem_newThrowers positioned] at closed
  have body : HasBody m function := by
    rcases calls with ⟨callee, value, -⟩ | ⟨target, -, callee, value, -⟩
    · exact value.hasBody
    · exact value.hasBody
  exact Classical.byContradiction fun outside => closed ⟨body, outside, calls⟩

/-- At the end of the rounds, every function that can return with an exception has been found. -/
theorem mem_spread_of_throws (positioned : Positioned m) (h : Throws c m function) :
    function ∈ (spread m (sources c m)).1 := by
  have source {target : Nat} (raises : Raises c m target) : target ∈ (spread m (sources c m)).1 :=
    subset_spread m _ ((mem_sources positioned).2 raises)
  rcases h with raises | ⟨-, last, chain, ends⟩
  · exact source raises
  · -- From the end of the chain back to its start.
    induction chain using ReflTransGen.head_induction_on with
    | refl =>
      apply mem_spread_of_calls positioned
      rcases ends with unknown | ⟨target, calls, raises⟩
      · exact .inl unknown
      · exact .inr ⟨target, source raises, calls⟩
    | head calls _ ih => exact mem_spread_of_calls positioned (.inr ⟨_, ih, calls⟩)

/-- How many functions of the module have a body. -/
def bodies (m : Module) : Nat := m.functions.toList.countP fun f => !f.isDeclaration

/-- Every round but the last one finds a function with a body outside the set. -/
theorem spread_rounds_le (m : Module) (throwers : List Nat) :
    (spread m throwers).2 ≤ bodies m + 1 := by
  have outside (throwers : List Nat) : (spread m throwers).2 ≤
      (m.functions.toList.countP fun f => !f.isDeclaration && !throwers.contains f.id) + 1 := by
    fun_induction spread m throwers with
    | case1 throwers closed => exact Nat.le_add_left 1 _
    | case2 throwers more done rounds rest ih =>
      rw [rest] at ih
      obtain ⟨id, mem⟩ := List.exists_mem_of_ne_nil _ more
      obtain ⟨f, found, -⟩ := List.mem_map.1 mem
      obtain ⟨inside, added⟩ := List.mem_filter.1 found
      rw [Bool.and_eq_true] at added
      have fewer : (m.functions.toList.countP fun f =>
            !f.isDeclaration && !(throwers ++ newThrowers m throwers).contains f.id) <
          m.functions.toList.countP fun f => !f.isDeclaration && !throwers.contains f.id := by
        refine countP_lt_countP ?_ inside ?_ added.1
        · intro g _ left
          simp only [List.contains_eq_mem, List.mem_append, Bool.and_eq_true, Bool.not_eq_true',
            decide_eq_false_iff_not, not_or] at left ⊢
          exact ⟨left.1, left.2.1⟩
        · have joined : f.id ∈ newThrowers m throwers := List.mem_map_of_mem found
          simp [joined]
      exact Nat.le_trans (Nat.succ_le_succ ih) (Nat.succ_le_succ fewer)
  refine Nat.le_trans (outside throwers) (Nat.succ_le_succ ?_)
  apply List.countP_mono_left
  intro f _ left
  exact (Bool.and_eq_true_iff.1 left).1

/-! ## Modules without exceptions -/

/-- The functions that are listed as invoking have an `invoke`. -/
theorem mem_functionsWith_isInvoke (positioned : Positioned m) :
    function ∈ functionsWith m isInvoke ↔ Invokes m function := by
  simp only [functionsWith, List.mem_map, List.mem_filter, Array.mem_toList_iff, List.any_eq_true]
  constructor
  · rintro ⟨f, ⟨mem, ⟨id, i⟩, inBody, invoke⟩, rfl⟩
    obtain ⟨position, found⟩ := Array.mem_iff_getElem?.1 mem
    have same : f.id = position := positioned found
    rw [← same] at found
    cases opcode : i.opcode with
    | invoke functionType => exact ⟨f, id, i, functionType, found, inBody, opcode⟩
    | _ => simp [isInvoke, opcode] at invoke
  · rintro ⟨f, id, i, functionType, found, inBody, opcode⟩
    have same : f.id = function := positioned found
    refine ⟨f, ⟨Array.mem_of_getElem? found, (id, i), inBody, ?_⟩, same⟩
    rw [opcode]
    rfl

/-- A module is quiescent if it has no raising intrinsic and no `invoke`. -/
theorem quiescent_iff (positioned : Positioned m) :
    Quiescent c m ↔ (∀ function, ¬ Raises c m function) ∧ ∀ function, ¬ Invokes m function := by
  simp only [Quiescent, List.eq_nil_iff_forall_not_mem, mem_sources positioned,
    mem_functionsWith_isInvoke positioned]

/-- In any other module, the analysis answers whether a function can return with an exception. -/
theorem mayThrow_iff (positioned : Positioned m) (raises : ¬ Quiescent c m) :
    (analyze c m).1.mayThrow function = true ↔ Throws c m function := by
  rw [mayThrow, throwers_of_not_quiescent raises, List.contains_eq_mem, decide_eq_true_eq]
  constructor
  · refine throws_of_mem_spread positioned (fun source mem => ?_) function
    exact .inl ((mem_sources positioned).1 mem)
  · exact mem_spread_of_throws positioned

end

/-! ## Numbering anew -/

/-- The second conventions answer about each function under its new number what the first ones
answer about it. -/
structure SameAnswers (functions : Nat → Nat) (c : Conventions) (m : Module) (c' : Conventions)
    (m' : Module) : Prop where
  isIntrinsic : ∀ id, (m.function? id).isSome = true →
    c'.isIntrinsic m' (functions id) = c.isIntrinsic m id
  mayRaise : ∀ id, (m.function? id).isSome = true →
    c'.mayRaise m' (functions id) = c.mayRaise m id

/-- An instruction calls the same value after numbering anew. -/
theorem calls_renumber_iff {functions values : Nat → Nat} {i : Instruction} {callee' : Nat} :
    Calls (i.renumber functions values) callee' ↔
      ∃ callee, values callee = callee' ∧ Calls i callee := by
  simp only [Calls, Instruction.renumber, List.getLast?_map, Option.map_eq_some_iff]
  constructor
  · rintro ⟨called, operand, last, same⟩
    cases operand with
    | value callee => exact ⟨callee, Operand.value.inj same, called, last⟩
    | block id => cases same
  · rintro ⟨callee, rfl, called, last⟩
    exact ⟨called, .value callee, last, rfl⟩

section

variable {functions values : Nat → Nat} {c c' : Conventions} {m m' : Module} {function : Nat}
  (renumbers : Source.Renumbers functions values m m')

include renumbers

/-- Functions know their positions also after numbering anew. -/
theorem positioned_renumber (positioned : Positioned m) : Positioned m' := by
  intro id' f' found'
  obtain ⟨id, rfl⟩ := renumbers.onto id' (by rw [found']; rfl)
  rw [renumbers.function, Option.map_eq_some_iff] at found'
  obtain ⟨f, found, rfl⟩ := found'
  exact congrArg functions (positioned found)

/-- A body calls the same values after numbering anew. -/
theorem callsValue_renumber_iff {callee' : Nat} :
    CallsValue m' (functions function) callee' ↔
      ∃ callee, values callee = callee' ∧ CallsValue m function callee := by
  constructor
  · rintro ⟨f', id', i', found', mem', calls'⟩
    rw [renumbers.function, Option.map_eq_some_iff] at found'
    obtain ⟨f, found, rfl⟩ := found'
    rw [renumbers.bodyOf, List.mem_map] at mem'
    obtain ⟨⟨id, i⟩, mem, same⟩ := mem'
    cases same
    obtain ⟨callee, same, calls⟩ := calls_renumber_iff.1 calls'
    exact ⟨callee, same, f, id, i, found, mem, calls⟩
  · rintro ⟨callee, same, f, id, i, found, mem, calls⟩
    refine ⟨f.renumber functions values, values id, i.renumber functions values, ?_, ?_,
      calls_renumber_iff.2 ⟨callee, same, calls⟩⟩
    · rw [renumbers.function, found]
      rfl
    · rw [renumbers.bodyOf]
      exact List.mem_map_of_mem mem

/-- It calls the same functions. -/
theorem callsFunction_renumber_iff {target' : Nat} :
    CallsFunction m' (functions function) target' ↔
      ∃ target, functions target = target' ∧ CallsFunction m function target := by
  constructor
  · rintro ⟨callee', value', named'⟩
    obtain ⟨callee, rfl, value⟩ := (callsValue_renumber_iff renumbers).1 value'
    rw [renumbers.calleeFunction?, Option.map_eq_some_iff] at named'
    obtain ⟨target, named, same⟩ := named'
    exact ⟨target, same, callee, value, named⟩
  · rintro ⟨target, rfl, callee, value, named⟩
    refine ⟨values callee, (callsValue_renumber_iff renumbers).2 ⟨callee, rfl, value⟩, ?_⟩
    rw [renumbers.calleeFunction?, named]
    rfl

/-- It calls an unknown value if it did before. -/
theorem callsUnknown_renumber_iff :
    CallsUnknown m' (functions function) ↔ CallsUnknown m function := by
  constructor
  · rintro ⟨callee', value', unknown'⟩
    obtain ⟨callee, rfl, value⟩ := (callsValue_renumber_iff renumbers).1 value'
    rw [renumbers.calleeFunction?, Option.map_eq_none_iff] at unknown'
    exact ⟨callee, value, unknown'⟩
  · rintro ⟨callee, value, unknown⟩
    refine ⟨values callee, (callsValue_renumber_iff renumbers).2 ⟨callee, rfl, value⟩, ?_⟩
    rw [renumbers.calleeFunction?, unknown]
    rfl

theorem isSome_function?_renumber :
    (m'.function? (functions function)).isSome = (m.function? function).isSome := by
  rw [renumbers.function, Option.isSome_map]

/-- A function keeps its body. -/
theorem hasBody_renumber_iff : HasBody m' (functions function) ↔ HasBody m function := by
  have same (f : Function) :
      (f.renumber functions values).isDeclaration = f.isDeclaration := by
    rw [Function.isDeclaration, Function.renumber, Array.isEmpty, Array.size_map]
    rfl
  simp only [HasBody, renumbers.function, Option.map_eq_some_iff]
  constructor
  · rintro ⟨-, ⟨f, found, rfl⟩, defined⟩
    exact ⟨f, found, same f ▸ defined⟩
  · rintro ⟨f, found, defined⟩
    exact ⟨_, ⟨f, found, rfl⟩, (same f).trans defined⟩

/-- It has an `invoke` if it had one before. -/
theorem invokes_renumber_iff : Invokes m' (functions function) ↔ Invokes m function := by
  constructor
  · rintro ⟨f', id', i', functionType, found', mem', opcode⟩
    rw [renumbers.function, Option.map_eq_some_iff] at found'
    obtain ⟨f, found, rfl⟩ := found'
    rw [renumbers.bodyOf, List.mem_map] at mem'
    obtain ⟨⟨id, i⟩, mem, same⟩ := mem'
    cases same
    exact ⟨f, id, i, functionType, found, mem, opcode⟩
  · rintro ⟨f, id, i, functionType, found, mem, opcode⟩
    refine ⟨f.renumber functions values, values id, i.renumber functions values, functionType,
      ?_, ?_, opcode⟩
    · rw [renumbers.function, found]
      rfl
    · rw [renumbers.bodyOf]
      exact List.mem_map_of_mem mem

/-- A chain of calls among the new numbers comes from one among the old ones. -/
theorem exists_chain_of_renumber {last' : Nat}
    (chain : ReflTransGen (CallsFunction m') (functions function) last') :
    ∃ last, functions last = last' ∧ ReflTransGen (CallsFunction m) function last := by
  induction chain with
  | refl => exact ⟨function, rfl, .refl⟩
  | tail _ calls' ih =>
    obtain ⟨between, rfl, chain⟩ := ih
    obtain ⟨last, same, calls⟩ := (callsFunction_renumber_iff renumbers).1 calls'
    exact ⟨last, same, chain.tail calls⟩

variable (agrees : SameAnswers functions c m c' m')

include agrees

theorem raises_renumber_iff : Raises c' m' (functions function) ↔ Raises c m function := by
  rw [Raises, Raises, isSome_function?_renumber renumbers]
  refine and_congr_right fun there => ?_
  rw [agrees.isIntrinsic function there, agrees.mayRaise function there]

/-- Chains of calls are those between the old numbers. -/
theorem chain_renumber_iff : Chain c' m' (functions function) ↔ Chain c m function := by
  constructor
  · rintro ⟨last', chain', ends'⟩
    obtain ⟨last, rfl, chain⟩ := exists_chain_of_renumber renumbers chain'
    refine ⟨last, chain, ?_⟩
    rcases ends' with unknown | ⟨target', calls', raises'⟩
    · exact .inl ((callsUnknown_renumber_iff renumbers).1 unknown)
    · obtain ⟨target, rfl, calls⟩ := (callsFunction_renumber_iff renumbers).1 calls'
      exact .inr ⟨target, calls, (raises_renumber_iff renumbers agrees).1 raises'⟩
  · rintro ⟨last, chain, ends⟩
    refine ⟨functions last, chain.lift functions fun _ target calls =>
      (callsFunction_renumber_iff renumbers).2 ⟨target, rfl, calls⟩, ?_⟩
    rcases ends with unknown | ⟨target, calls, raises⟩
    · exact .inl ((callsUnknown_renumber_iff renumbers).2 unknown)
    · exact .inr ⟨functions target, (callsFunction_renumber_iff renumbers).2 ⟨target, rfl, calls⟩,
        (raises_renumber_iff renumbers agrees).2 raises⟩

/-- A function can return with an exception if it could under its old number. -/
theorem throws_renumber_iff : Throws c' m' (functions function) ↔ Throws c m function := by
  rw [Throws, Throws, raises_renumber_iff renumbers agrees, hasBody_renumber_iff renumbers,
    chain_renumber_iff renumbers agrees]

/-- A module is quiescent if it was before numbering anew. -/
theorem quiescent_renumber_iff (positioned : Positioned m) : Quiescent c' m' ↔ Quiescent c m := by
  rw [quiescent_iff positioned, quiescent_iff (positioned_renumber renumbers positioned)]
  constructor
  · rintro ⟨silent, plain⟩
    refine ⟨fun function raises => ?_, fun function invokes => ?_⟩
    · exact silent _ ((raises_renumber_iff renumbers agrees).2 raises)
    · exact plain _ ((invokes_renumber_iff renumbers).2 invokes)
  · rintro ⟨silent, plain⟩
    refine ⟨fun id' raises => ?_, fun id' invokes => ?_⟩
    · obtain ⟨id, rfl⟩ := renumbers.onto id' raises.1
      exact silent id ((raises_renumber_iff renumbers agrees).1 raises)
    · obtain ⟨f', -, -, -, found', -⟩ := id invokes
      obtain ⟨id, rfl⟩ := renumbers.onto id' (by rw [found']; rfl)
      exact plain id ((invokes_renumber_iff renumbers).1 invokes)

/-- Which functions may throw does not depend on how the functions are numbered. -/
theorem mayThrow_renumber (positioned : Positioned m) (function : Nat) :
    (analyze c' m').1.mayThrow (functions function) = (analyze c m).1.mayThrow function := by
  have same := quiescent_renumber_iff renumbers agrees positioned
  by_cases quiescent : Quiescent c m
  · rw [mayThrow, mayThrow, throwers_of_quiescent quiescent,
      throwers_of_quiescent (same.2 quiescent)]
    rfl
  · have raises' : ¬ Quiescent c' m' := fun h => quiescent (same.1 h)
    rw [Bool.eq_iff_iff, mayThrow_iff positioned quiescent,
      mayThrow_iff (positioned_renumber renumbers positioned) raises']
    exact throws_renumber_iff renumbers agrees

end

/-- The functions that may throw are exactly those from which a chain of calls leads to an
exception.

If no function is a raising intrinsic and none has an `invoke`, no function may throw.  Otherwise a
function may throw exactly if it is a raising intrinsic, or it has a body and a chain of calls leads
from it, through functions with bodies, to a call of a raising intrinsic or of a value that is no
function.  The rounds that find them are at most one more than the functions with a body, and a
module with the same functions in another order has the same ones, under their new numbers. -/
theorem throwers_follow_chains (c : Conventions) {m : Module} (built : m.Built) :
    ((∀ function, ¬ Raises c m function) → (∀ function, ¬ Invokes m function) →
      (analyze c m).1.throwers = []) ∧
    ((∃ function, Raises c m function ∨ Invokes m function) →
      (∀ function, (analyze c m).1.mayThrow function = true ↔
        Raises c m function ∨ HasBody m function ∧ Chain c m function) ∧
      ∃ throwing rounds, (analyze c m).2 = .mightThrow m.name throwing rounds ∧
        rounds ≤ bodies m + 1) ∧
    ∀ (functions values : Nat → Nat) (c' : Conventions) (m' : Module),
      Source.Renumbers functions values m m' → SameAnswers functions c m c' m' →
        ∀ function, (analyze c' m').1.mayThrow (functions function) =
          (analyze c m).1.mayThrow function := by
  have positioned : Positioned m := fun _ _ found => Source.id_of_built built found
  refine ⟨fun silent plain => ?_, fun exists' => ?_, ?_⟩
  · exact throwers_of_quiescent ((quiescent_iff positioned).2 ⟨silent, plain⟩)
  · have raises : ¬ Quiescent c m := by
      rw [quiescent_iff positioned]
      rintro ⟨silent, plain⟩
      obtain ⟨function, raises | invokes⟩ := exists'
      · exact silent function raises
      · exact plain function invokes
    refine ⟨fun _ => mayThrow_iff positioned raises, (spread m (sources c m)).1.length,
      (spread m (sources c m)).2, ?_, spread_rounds_le m _⟩
    rw [Quiescent] at raises
    rw [analyze, if_neg raises]
  · intro functions values c' m' renumbers agrees function
    exact mayThrow_renumber renumbers agrees positioned function

/-- A function that calls a raising one, one that calls it and itself, and one that calls
nothing. -/
def relayingSteps : List Source.Step :=
  [.intern .void, .intern (.function 0 [] false), .addFunction "__cxa_throw" 1,
    .addFunction "leaf" 1, .addFunction "top" 1, .addFunction "spare" 1,
    .appendBlock 1 "entry", .appendBlock 2 "entry", .appendBlock 3 "entry",
    .positionAt 1 0, .call 1 0 [], .ret none,
    .positionAt 2 0, .call 1 1 [], .call 1 2 [], .ret none,
    .positionAt 3 0, .ret none]

/-- The module that they build. -/
def relaying : Module := Source.build "relaying" relayingSteps

/-- The same functions, the last one first. -/
def relayed : Module := Source.build "relaying"
  [.intern .void, .intern (.function 0 [] false), .addFunction "spare" 1, .addFunction "top" 1,
    .addFunction "leaf" 1, .addFunction "__cxa_throw" 1,
    .appendBlock 0 "entry", .appendBlock 1 "entry", .appendBlock 2 "entry",
    .positionAt 1 0, .call 1 2 [], .call 1 1 [], .ret none,
    .positionAt 2 0, .call 1 3 [], .ret none,
    .positionAt 0 0, .ret none]

/-- The new number of a function. -/
def reversed (function : Nat) : Nat := if function < 4 then 3 - function else function

/-- The new number of a value. -/
def shuffled (value : Nat) : Nat := [3, 2, 1, 0, 7, 8, 4, 5, 6, 9].getD value value

/-- The two modules differ in the order of their functions only. -/
theorem relayed_renumbers : Source.Renumbers reversed shuffled relaying relayed where
  function id := by
    have listed : ∀ id < 4, relayed.function? (reversed id) =
        (relaying.function? id).map (·.renumber reversed shuffled) := by decide +kernel
    have sizes : relaying.functions.size = 4 ∧ relayed.functions.size = 4 := by decide +kernel
    by_cases small : id < 4
    · exact listed id small
    · have large : 4 ≤ id := Nat.le_of_not_lt small
      have same : reversed id = id := if_neg small
      rw [same, Module.function?, Module.function?, Array.getElem?_eq_none (sizes.2 ▸ large),
        Array.getElem?_eq_none (sizes.1 ▸ large)]
      rfl
  value id := by
    have listed : ∀ id < 10, relayed.value? (shuffled id) =
        (relaying.value? id).map (·.renumber reversed shuffled) := by decide +kernel
    have sizes : relaying.values.size = 10 ∧ relayed.values.size = 10 := by decide +kernel
    by_cases small : id < 10
    · exact listed id small
    · have large : 10 ≤ id := Nat.le_of_not_lt small
      have same : shuffled id = id := by
        rw [shuffled, List.getD_eq_getElem?_getD, List.getElem?_eq_none large]
        rfl
      rw [same, Module.value?, Module.value?, Array.getElem?_eq_none (sizes.2 ▸ large),
        Array.getElem?_eq_none (sizes.1 ▸ large)]
      rfl
  onto id' there := by
    have listed : ∀ id' < 4, reversed (reversed id') = id' := by decide
    have inside : id' < 4 := by
      have size : relayed.functions.size = 4 := by decide +kernel
      obtain ⟨f, found⟩ := Option.isSome_iff_exists.1 there
      exact size ▸ (Array.getElem?_eq_some_iff.1 found).1
    exact ⟨reversed id', listed id' inside⟩

theorem relayed_sameAnswers : SameAnswers reversed .natural relaying .natural relayed := by
  have listed : ∀ id < 4,
      Conventions.natural.isIntrinsic relayed (reversed id) =
          Conventions.natural.isIntrinsic relaying id ∧
        Conventions.natural.mayRaise relayed (reversed id) =
          Conventions.natural.mayRaise relaying id := by decide +kernel
  have inside {id : Nat} (there : (relaying.function? id).isSome = true) : id < 4 := by
    have size : relaying.functions.size = 4 := by decide +kernel
    obtain ⟨f, found⟩ := Option.isSome_iff_exists.1 there
    exact size ▸ (Array.getElem?_eq_some_iff.1 found).1
  exact ⟨fun id there => (listed id (inside there)).1, fun id there => (listed id (inside there)).2⟩

/-- The function that calls the calling one throws, the one that calls nothing does not, and in the
other order it is the same. -/
theorem throwers_follow_chains_relaying :
    (HasBody relaying 2 ∧ Chain .natural relaying 2) ∧
    ¬ (HasBody relaying 3 ∧ Chain .natural relaying 3) ∧
    (∃ throwing rounds, (analyze .natural relaying).2 = .mightThrow relaying.name throwing rounds ∧
      rounds ≤ 4) ∧
    ∀ function, (analyze .natural relayed).1.mayThrow (reversed function) =
      (analyze .natural relaying).1.mayThrow function := by
  have built : relaying.Built := ⟨_, relayingSteps, rfl⟩
  have raises : Raises .natural relaying 0 := by decide +kernel
  obtain ⟨-, found, renumbered⟩ := throwers_follow_chains .natural built
  obtain ⟨chains, throwing, rounds, reported, few⟩ := found ⟨0, .inl raises⟩
  have top : (analyze .natural relaying).1.mayThrow 2 = true := by decide +kernel
  have spare : (analyze .natural relaying).1.mayThrow 3 = false := by decide +kernel
  have plain : ¬ Raises .natural relaying 2 := by decide +kernel
  have three : bodies relaying = 3 := by decide +kernel
  rw [three] at few
  refine ⟨((chains 2).1 top).resolve_left plain, fun h => ?_, ⟨throwing, rounds, reported, few⟩, ?_⟩
  · rw [(chains 3).2 (.inr h)] at spare
    cases spare
  · exact renumbered reversed shuffled .natural relayed relayed_renumbers relayed_sameAnswers

end Stackwise.Throwing
