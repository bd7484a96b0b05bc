import Stackwise.Proofs.Lowering.Simulation
import Stackwise.Proofs.Source.Script

/-!
# Lowering keeps the meaning of a function

From blocks to runs: what every block of a lowered body does adds up to what the body does from its
first block on.  A run of the source that returns is followed, through the same blocks in the same
order, to the same value (`lowering_keeps_meaning`).

The theorem leaves open what the operations compute.  It holds for every interpretation in which the
instructions compute the operations they are written for, and for every store in which the
parameters and the constants are what they should be.
-/

namespace Stackwise.Lowering

open Code (Instr Machine Storage)
open Source (Env Function Instruction Meaning Module)

variable {V S : Type} {I : Interpretation V S} {c : Context} {function : Nat} {f : Function}

/-! ## Runs -/

/-- What an edge does. -/
theorem enter_eq_some {M : Meaning V} {m : Module} {args : Nat → V} {env env' : Env V}
    {origin target : Nat} (h : M.enter m function args env origin target = some env') :
    ∃ phis xs, m.leadingPhis? function target = some phis ∧
      phis.map (M.incoming m function args env origin) = xs.map some ∧
      env' = env.assign (phis.zip xs) := by
  simp only [Meaning.enter, Option.bind_eq_bind, Option.bind_eq_some_iff, Option.pure_def,
    Option.some.injEq] at h
  obtain ⟨phis, leading, xs, values, same⟩ := h
  exact ⟨phis, xs, leading, mapM_eq_some_iff.1 values, same.symm⟩

/-- A run of the source from the start of a block is followed by the finished body, which has the
values for the phis of the block on the stack. -/
theorem run_follows {final : Draft}
    (obeys : ∀ {block code}, c.module.blockInstructions? function block = some code →
      BlockObeys I c function final block)
    {fuel block : Nat} {env : Env V} {store : S} {phis : List Nat} {xs : List V}
    {visited : List Nat} {value : Option V} (holds : Matches I c final.storage env store)
    (leading : c.module.leadingPhis? function block = some phis) (arity : xs.length = phis.length)
    (returns : I.meaning.run c.module function I.args fuel block (env.assign (phis.zip xs)) =
      some (visited, value)) :
    ∃ hops after, (I.run final.finish hops block xs.reverse store).2 = .left value after ∧
      Machine.sourceBlocks final.finish (I.run final.finish hops block xs.reverse store).1 =
        visited := by
  induction fuel generalizing block env store phis xs visited with
  | zero => cases returns
  | succ fuel ih =>
    rw [Meaning.run] at returns
    simp only [Option.bind_eq_bind, Option.bind_eq_some_iff] at returns
    obtain ⟨code, listed, way, goes, returns⟩ := returns
    obtain ⟨b, there, origin, carries⟩ := obeys listed
    have there' : final.finish[block]? = some ⟨block, some block, b.code⟩ := by
      rw [Draft.getElem?_finish, there, Option.map_some, origin]
    have way' := carries holds leading arity listed goes
    cases way with
    | «return» value' =>
      cases returns
      obtain ⟨after, left⟩ := way'
      refine ⟨1, after, ?_⟩
      rw [Machine.run_leave there' left 0]
      exact ⟨rfl, by simp [Machine.sourceBlocks, there']⟩
    | goto target env' =>
      simp only [Option.bind_eq_some_iff, Option.pure_def, Option.some.injEq] at returns
      obtain ⟨env'', entered, ⟨later, value'⟩, returns, same⟩ := returns
      cases same
      obtain ⟨phis', xs', leading', values, rfl⟩ := enter_eq_some entered
      obtain ⟨store', holds', arrives⟩ := way'
      have arity' : xs'.length = phis'.length := by simpa using (congrArg List.length values).symm
      obtain ⟨hops, after, left, blocks⟩ := ih holds' leading' arity' returns
      rcases arrives leading' values with jumps | ⟨detour, b', between, made, jumps, jumps'⟩
      · -- The block jumps to the target itself.
        refine ⟨hops + 1, after, ?_⟩
        rw [Machine.run_jump there' jumps hops]
        refine ⟨left, ?_⟩
        rw [← blocks]
        simp [Machine.sourceBlocks, there']
      · -- The block between the two stands for no source block.
        have between' : final.finish[detour]? = some ⟨detour, none, b'.code⟩ := by
          rw [Draft.getElem?_finish, between, Option.map_some, made]
        refine ⟨hops + 2, after, ?_⟩
        rw [Machine.run_jump there' jumps (hops + 1), Machine.run_jump between' jumps' hops]
        refine ⟨left, ?_⟩
        rw [← blocks]
        simp [Machine.sourceBlocks, there', between']

/-! ## Functions -/

/-- In a lowered function of the core, every block does what its source block does. -/
theorem lowerFunction_obeys {conventions : Conventions} {m : Module} {throwing : Throwing}
    {body : Code.Body} (numbered : f.Numbered) (found : m.function? function = some f)
    (core : m.isCore f = true) (faithful : Faithful I conventions m f)
    (lowered : (lowerFunction conventions m throwing function).1 = .ok body) :
    ∃ (c : Context) (final : Draft), c.module = m ∧ body.storage = final.storage.toStorage ∧
      body.blocks = final.finish ∧
      ∀ {block code}, m.blockInstructions? function block = some code →
        BlockObeys I c function final block := by
  obtain ⟨f', returns, final, found', -, ran, storage, blocks⟩ := lowerFunction_eq_ok lowered
  cases found.symm.trans found'
  -- No block is lowered twice, since a block knows its own position.
  have distinct : (f.blocks.toList.map (·.id)).Nodup := by
    rw [numbered.map_id]
    exact List.nodup_range
  have all : Lower.Ensures (functionContext conventions m throwing function f returns)
      (startDraft f) (lowerBody function f) fun _ d => ∃ homes, ∀ b ∈ f.blocks.toList,
        BlockObeys I (functionContext conventions m throwing function f returns homes) function d
          b.id := by
    refine .read Lower.module_reads fun _ same => ?_
    rw [same]
    refine .bind (allocated_starts f) fun homes d ⟨same, housed⟩ => ?_
    have scene : Scene I (functionContext conventions m throwing function f returns homes) function
        f := ⟨rfl, found, core, faithful⟩
    have blank : ∀ b ∈ f.blocks.toList, d.blocks[b.id]? = some { origin := some b.id } := by
      intro b mem
      obtain ⟨position, there⟩ := Array.mem_iff_getElem?.1 (Array.mem_toList_iff.1 mem)
      rw [same, startDraft, Array.getElem?_map, numbered there, there, Option.map_some,
        numbered there]
    intro _ d' run
    exact ⟨homes, (lowerBlocks_follows scene distinct housed blank run).2 d'
      (Draft.Advances.refl _ _).continues⟩
  obtain ⟨homes, all⟩ := all ran
  refine ⟨functionContext conventions m throwing function f returns homes, final, rfl, storage,
    blocks, fun {block code} listed => ?_⟩
  rw [Module.blockInstructions?, found, Option.bind_some, Option.map_eq_some_iff] at listed
  obtain ⟨b, there, -⟩ := listed
  have obeys := all b (Array.mem_toList_iff.2 (Array.mem_of_getElem? there))
  rwa [numbered there] at obeys

/-- Lowering keeps the meaning of a function whose instructions are integer arithmetic, comparisons,
`select`, `freeze`, phis, branches and returns.  Take any interpretation in which the instructions
compute the operations they are written for, any arguments, and any store that holds them and the
constants.  If the function, run from its first block, goes through a sequence of blocks and
returns, then the lowered body, run from its first block with an empty stack, goes through the same
source blocks in the same order and returns the same. -/
theorem lowering_keeps_meaning {V S : Type} {I : Interpretation V S} {conventions : Conventions}
    {m : Module} {throwing : Throwing} {function : Nat} {f : Function} {body : Code.Body}
    (built : m.Built) (found : m.function? function = some f) (core : m.isCore f = true)
    (faithful : Faithful I conventions m f)
    (lowered : (lowerFunction conventions m throwing function).1 = .ok body)
    {store : S} (holds : Holds I body.storage store)
    {fuel : Nat} {visited : List Nat} {value : Option V}
    (returns : I.meaning.execute m function I.args fuel = some (visited, value)) :
    ∃ hops after, (I.run body.blocks hops 0 [] store).2 = .left value after ∧
      Machine.sourceBlocks body.blocks (I.run body.blocks hops 0 [] store).1 = visited := by
  have numbered : f.Numbered := Source.numbered_of_built built found
  obtain ⟨c, final, rfl, storage, blocks, obeys⟩ :=
    lowerFunction_obeys numbered found core faithful lowered
  rw [storage] at holds
  rw [blocks]
  rw [Meaning.execute] at returns
  split at returns
  · rename_i leading
    -- Nothing is computed yet, and nothing is on the stack.
    have start : Matches I c final.storage .empty store := ⟨holds, nofun, nofun⟩
    have arity : ([] : List V).length = ([] : List Nat).length := rfl
    exact run_follows obeys start leading arity returns
  · cases returns

/-! ## An interpretation by integers -/

/-- Some operations on integers, of which truth values are 0 and 1. -/
def integers : Meaning Int where
  int bits n :=
    if bits = 1 then (if n = 0 then 0 else 1)
    else if bits ≤ 32 then Word.signed 32 n
    else if bits ≤ 64 then Word.signed 64 n
    else n
  binary
    | .add, x, y => some (x + y)
    | _, _, _ => none
  compare
    | .slt, x, y => some (if x < y then 1 else 0)
    | .sge, x, y => some (if x < y then 0 else 1)
    | _, _, _ => none
  truth x := if x = 0 then some false else if x = 1 then some true else none

/-- What the instructions of the integer machine push that have no meaning of their own. -/
def integerStep : Instr → List Int → Option (List Int)
  | .binary .add, [y, x] => some [x + y]
  | .compare .lt, [y, x] => some [if x < y then 1 else 0]
  | .compare .eq, [y, x] => some [if x = y then 1 else 0]
  | .convert _ _, [x] => some [x]
  | .call (.helper (.select _)) sig, [y, x, cond] =>
    if sig.result.isVoid then none else some [if cond = 1 then x else y]
  | .enterFrame, [] | .leaveFrame, [] => some []
  | _, _ => none

theorem length_integerStep {i : Instr} {popped pushed : List Int}
    (h : integerStep i popped = some pushed) : pushed.length = i.pushes := by
  unfold integerStep at h
  split at h
  case h_5 =>
    split at h
    · cases h
    · rename_i solid
      cases h
      simp [Instr.pushes, solid]
  case h_8 => cases h
  all_goals
    cases h
    rfl

/-- A machine with a cell for each variable, and integers in the cells. -/
def integerMachine : Machine Int (Nat → Int) where
  read store var := store var
  write store var x := fun other => if other = var then x else store other
  address var := var
  field _ a := some a
  fetch store _ a := some (store a.toNat)
  assign store _ a x := some fun other => if other = a.toNat then x else store other
  size _ := 4
  plain i popped store := (integerStep i popped).map (·, store)
  length_plain h := by
    obtain ⟨pushed, stepped, same⟩ := Option.map_eq_some_iff.1 h
    cases same
    exact length_integerStep stepped
  control
    | .branch label, stack, store => .jump label stack store
    | .branchIfTrue label, x :: stack, store =>
      if x = 1 then .jump label stack store else .next stack store
    | .branchIfFalse label, x :: stack, store =>
      if x = 1 then .next stack store else .jump label stack store
    | .ret true, x :: _, store => .leave (some x) store
    | .ret false, _, store => .leave none store
    | _, stack, store => .next stack store

/-- The two, with constants that are what they say. -/
def integerInterpretation (args : Nat → Int) : Interpretation Int (Nat → Int) where
  toMachine := integerMachine
  meaning := integers
  literal
    | .i4 n, _ | .i8 n, _ => n
    | _, _ => 0
  args := args

theorem integers_truth {x : Int} {outcome : Bool} (h : integers.truth x = some outcome) :
    decide (x = 1) = outcome := by
  simp only [integers] at h
  split at h
  · rename_i isZero
    cases h
    simp [isZero]
  · split at h
    · rename_i isOne
      cases h
      simp [isOne]
    · cases h

/-- The integer machine computes the operations on integers, if no `select` is of type `void`. -/
theorem integers_faithful (args : Nat → Int) {conventions : Conventions} {m : Module}
    {f : Function} (selects : ∀ {id i ty target}, (id, i) ∈ m.bodyOf f → i.opcode = .select →
      m.typeOf? id = some ty → conventions.lowerType m ty = some target → target.isVoid = false) :
    Faithful (integerInterpretation args) conventions m f where
  read_write _ _ _ _ := rfl
  bit _ := rfl
  narrow n _ width _ := by
    show _ = if _ then _ else _
    rw [if_neg (by omega), if_pos width.2]
    rfl
  wide n _ width _ := by
    show _ = if _ then _ else _
    rw [if_neg (by omega), if_neg (by omega), if_pos width.2]
    rfl
  widest _ _ _ := rfl
  binary {op x y r} store _ computed := by
    cases op with
    | add =>
      cases computed
      rfl
    | _ => cases computed
  compare {predicate x y r z} store computed zeroed := by
    cases predicate with
    | slt =>
      cases computed
      rfl
    | sge =>
      cases computed
      have isZero : store z = 0 := zeroed rfl
      show some ([if (if x < y then (1 : Int) else 0) = store z then (1 : Int) else 0], store) = _
      rw [isZero]
      by_cases less : x < y <;> simp [less]
    | _ => cases computed
  select {id i ty target cond outcome} x y store mem opcode typed lowered decided := by
    have solid := selects mem opcode typed lowered
    have decided := integers_truth decided
    show (if target.isVoid then none else some [if cond = 1 then x else y]).map _ = _
    rw [solid, ← decided]
    simp
  phiEnqueue _ _ _ := rfl
  phiDequeue _ _ _ := rfl
  branch _ _ _ := rfl
  branchIfTrue {x outcome} label stack store decided := by
    show (if x = 1 then _ else _) = _
    rw [← integers_truth decided]
    simp
  branchIfFalse {x outcome} label stack store decided := by
    show (if x = 1 then _ else _) = _
    rw [← integers_truth decided]
    simp
  ret _ _ _ := rfl
  retVoid _ _ := rfl
  frame i store frame := by
    rcases frame with rfl | rfl
    · exact ⟨store, rfl, fun _ => rfl⟩
    · exact ⟨store, rfl, fun _ => rfl⟩

/-- The store with which a body starts. -/
def startStore {V S : Type} (I : Interpretation V S) (storage : Storage) (default : V) :
    Nat → V := fun var =>
  match storage.get? var with
  | some ⟨.parameter index, _, _, _⟩ => I.args index
  | some ⟨.constant value, ty, _, _⟩ => I.literal value ty
  | _ => default

/-- In the store at the start, parameters and constants hold what they stand for. -/
theorem startStore_holds (args : Nat → Int) (storage : Storage) :
    Holds (integerInterpretation args) storage
      (startStore (integerInterpretation args) storage 0) where
  parameter {var v index} there place := by
    obtain ⟨_, ty, access, origin⟩ := v
    cases place
    show startStore _ storage 0 var = _
    rw [startStore, there]
  constant {var v value} there place := by
    obtain ⟨_, ty, access, origin⟩ := v
    cases place
    show startStore _ storage 0 var = _
    rw [startStore, there]

/-- A function that makes two phis exchange their values on every round of a loop, whose two ways on
both begin with a phi. -/
def exchangingSteps : List Source.Step :=
  [.intern (.int 32), .intern (.function 0 [0] false), .addFunction "exchange" 1,
    .appendBlock 0 "entry", .appendBlock 0 "loop", .appendBlock 0 "done",
    .constInt 0 0, .constInt 0 1,
    .positionAt 0 0, .br 1,
    .positionAt 0 1, .phi 0 [(2, 0)], .phi 0 [(3, 0)], .phi 0 [(2, 0)],
    .binary .add 7 3, .icmp .sge 8 1,
    .addIncoming 5 6 1, .addIncoming 6 5 1, .addIncoming 7 8 1,
    .condBr 9 2 1,
    .positionAt 0 2, .phi 0 [(5, 1)], .freeze 11, .select 9 12 6, .ret (some 13)]

/-- The module that they build. -/
def exchanging : Module := Source.build "exchanging" exchangingSteps

/-- Its function. -/
def exchange : Function := (exchanging.function? 0).get (by decide +kernel)

theorem exchange_selects {id ty : Nat} {i : Instruction} {target : Code.Ty}
    (mem : (id, i) ∈ exchanging.bodyOf exchange) (opcode : i.opcode = .select)
    (typed : exchanging.typeOf? id = some ty)
    (lowered : Conventions.natural.lowerType exchanging ty = some target) :
    target.isVoid = false := by
  have all : ∀ p ∈ exchanging.bodyOf exchange, p.2.opcode = .select →
      (exchanging.typeOf? p.1).bind (Conventions.natural.lowerType exchanging) = some .int32 := by
    decide +kernel
  have isInt := all (id, i) mem opcode
  rw [typed, Option.bind_some, lowered] at isInt
  cases isInt
  rfl

/-- The loop goes round three times and returns zero, by way of a block that the source does not
have. -/
theorem lowering_keeps_meaning_exchange : ∃ body,
    (lowerFunction .natural exchanging (Throwing.analyze .natural exchanging).1 0).1 = .ok body ∧
    body.blocks.map (·.origin) = [some 0, some 1, some 2, none] ∧
    ∃ hops after,
      ((integerInterpretation fun _ => 3).run body.blocks hops 0 []
        (startStore (integerInterpretation fun _ => 3) body.storage 0)).2 =
          .left (some 0) after ∧
      Machine.sourceBlocks body.blocks ((integerInterpretation fun _ => 3).run body.blocks hops 0 []
        (startStore (integerInterpretation fun _ => 3) body.storage 0)).1 = [0, 1, 1, 1, 2] := by
  have found : exchanging.function? 0 = some exchange := (Option.some_get _).symm
  have origins : ((lowerFunction .natural exchanging
      (Throwing.analyze .natural exchanging).1 0).1.map fun body =>
        body.blocks.map (·.origin)).toOption = some [some 0, some 1, some 2, none] := by
    decide +kernel
  cases lowered : (lowerFunction .natural exchanging
      (Throwing.analyze .natural exchanging).1 0).1 with
  | error fault =>
    rw [lowered] at origins
    cases origins
  | ok body =>
    rw [lowered] at origins
    refine ⟨body, rfl, Option.some.inj origins, ?_⟩
    have faithful := integers_faithful (fun _ => 3) exchange_selects
    have returns : integers.execute exchanging 0 (fun _ => 3) 10 =
        some ([0, 1, 1, 1, 2], some 0) := by decide +kernel
    exact lowering_keeps_meaning ⟨_, exchangingSteps, rfl⟩ found (by decide +kernel) faithful
      lowered (startStore_holds _ _) returns

end Stackwise.Lowering
