import Stackwise.Compile
import Stackwise.Proofs.Code.Offsets
import Stackwise.Proofs.Lowering.Edges
import Stackwise.Proofs.Lowering.Variables
import Stackwise.Proofs.Peephole.Depth

/-!
# The greatest depth of a listing is sound

From the source to the listing: a function that is lowered under natural layout and optimized on
any level has a listing, and no run of the listing takes more from the stack than there is or leaves
more on it than the listing says.

What is left to show here is that a lowered function is regular as soon as its blocks end in their
only terminator (`Shaped.exits`), since other terminators than exits are not lowered, and that the
optimizer does not stop on its way, since lowered code only names variables of its table
(`Shaped.listed`).
-/

namespace Stackwise.Lowering

open Code (Instr Listing)
open Peephole (Level)
open Source (Function Instruction Module)

variable {c : Context} {function : Nat} {w : World}

/-! ## Lowered functions are regular -/

theorem isTerminator_of_isExit {opcode : Source.Opcode} (h : isExit opcode = true) :
    opcode.isTerminator = true := by
  cases opcode <;> simp_all [isExit, Source.Opcode.isTerminator]

theorem ExitCode.isExit {i : Instruction} {code : List Instr} (h : ExitCode c function w i code) :
    isExit i.opcode = true := by
  cases h with
  | ret opcode | unreachable opcode | invoke opcode | catchSwitch opcode | cleanupRet opcode =>
    rw [opcode]
    rfl
  | jump opcode =>
    cases kind : i.opcode <;> simp_all [isBranch, Lowering.isExit]

theorem BodyCode.last {instrs : List (Nat × Instruction)} {code : List Instr}
    (h : BodyCode c function w instrs code) :
    ∃ p, instrs.getLast? = some p ∧ isExit p.2.opcode = true := by
  induction h with
  | exit exits => exact ⟨_, rfl, exits.isExit⟩
  | @step id i rest here more goesOn step later ih =>
    obtain ⟨p, last, exits⟩ := ih
    refine ⟨p, ?_, exits⟩
    rw [List.getLast?_cons, last]
    rfl

/-- The last instruction of a source block that was lowered is one that can be. -/
theorem BlockCode.endsAtExit {block : Nat} {code : List Instr}
    (h : BlockCode c function w (.source block) code) {instrs : List (Nat × Instruction)}
    (listed : c.module.blockInstructions? function block = some instrs)
    (ends : endsAtTerminator instrs = true) : endsAtExit instrs = true := by
  obtain ⟨phis, instrs', front, rest, leading, listed', -, body, -⟩ := h
  cases listed.symm.trans listed'
  obtain ⟨p, last, exits⟩ := body.last
  have last : instrs.getLast? = some p := by
    rw [← List.take_append_drop phis.length instrs, List.getLast?_append, last]
    rfl
  rw [endsAtTerminator, Bool.and_eq_true, List.all_eq_true] at ends
  rw [Lowering.endsAtExit, last, Option.any_some, exits, Bool.true_and, List.all_eq_true]
  intro q mem
  have goesOn := ends.2 q mem
  rw [Bool.not_eq_true'] at goesOn ⊢
  refine Bool.eq_false_iff.2 fun exits => ?_
  rw [isTerminator_of_isExit exits] at goesOn
  cases goesOn

theorem Shaped.exits {f : Function} {body : Code.Body} {roles : List Role}
    (shaped : Shaped c function f body roles) (found : c.module.function? function = some f)
    (ends : ∀ b ∈ f.blocks, endsAtTerminator (c.module.instructionsOf b) = true) :
    ∀ b ∈ f.blocks, endsAtExit (c.module.instructionsOf b) = true := by
  intro b mem
  obtain ⟨block, inside, there⟩ := Array.mem_iff_getElem.1 mem
  have listed : c.module.blockInstructions? function block = some (c.module.instructionsOf b) := by
    rw [Module.blockInstructions?, found, Option.bind_some, Array.getElem?_eq_getElem inside, there]
    rfl
  obtain ⟨_, -, code⟩ := shaped.block_of_role (shaped.role_source inside)
  exact code.endsAtExit listed (ends b mem)

/-- Lowered code names only variables of its table. -/
theorem Shaped.listed {f : Function} {body : Code.Body} {roles : List Role}
    (shaped : Shaped c function f body roles) :
    ∀ b ∈ body.blocks, Peephole.Listed body.storage b.code :=
  fun _ mem i here => (shaped.tabled mem i here).inside

/-! ## From the source to the listing -/

/-- The greatest depth of a listing bounds every run.  Take a function of a module that can be
built, all of whose blocks end in their only terminator, whose first block has no phi, and whose
calls have the type that their callee returns; and let no constant expression or element in the
module be of type `void`.  If it is lowered under natural layout and optimized on any level, the
optimizer runs to its end and the listing of the result exists; its code is that of the optimized
blocks, one after another.  Whatever offset is reached from the first instruction, there is an
instruction, it finds what it needs on the stack, the stack is not deeper than the listing says, and
a jump goes to the first instruction of the optimized block that it names. -/
theorem maxStack_bounds_runs {m : Module} {throwing : Throwing} {function : Nat} {f : Function}
    {body : Code.Body} (built : m.Built) (solid : Solid m) (found : m.function? function = some f)
    (ends : ∀ b ∈ f.blocks, endsAtTerminator (m.instructionsOf b) = true)
    (entry : m.startsWithPhi? function 0 = some false)
    (calls : ∀ p ∈ m.bodyOf f, hasReturnType m p.1 p.2 = true)
    (lowered : (lowerFunction .natural m throwing function).1 = .ok body) (level : Level) :
    ∃ optimized stats listing, optimizeBody level body = (optimized, .ok stats) ∧
      Listing.ofBlocks optimized.name optimized.blocks = .ok listing ∧
      listing.code = optimized.blocks.flatMap Code.Block.stream ∧
      ∀ offset depth, listing.Reached offset depth → depth ≤ listing.maxStack ∧
        ∃ i, listing.code[offset]? = some i ∧ i.needs ≤ depth ∧
          ∀ label ∈ i.targets, ∃ t first rest target, optimized.blocks[label]? = some t ∧
            t.code = first :: rest ∧ listing.offset? label = some target ∧
            listing.code[target]? = some first := by
  obtain ⟨returns, homes, roles, shaped⟩ := lowering_shapes built found ends lowered
  have regular : Regular m f := ⟨shaped.exits found ends, calls⟩
  have verified : Code.verify body.name body.blocks = .ok () := by
    obtain ⟨f', returns', d, found', -, ran, -, blocks⟩ := lowerFunction_eq_ok lowered
    cases found.symm.trans found'
    have closed := lowering_closes (fun homes results block => ⟨solid.valued,
      fun ty => naturalType_eq_void_iff, found, regular, results⟩)
      (Source.numbered_of_built built found) ran
    rw [blocks]
    exact closed.verified _
  have flows := Peephole.optimize_flows body.storage level (shaped.flows found entry verified)
  obtain ⟨stats, ran⟩ := Peephole.optimize_eq_ok level shaped.listed
  obtain ⟨listing, listed, bounded⟩ := flows.bounded body.name
  refine ⟨{ body with blocks := (Peephole.optimize body.storage level body.blocks).1 }, stats,
    listing, by rw [optimizeBody, ← ran], listed, (Code.ofBlocks_eq_ok listed).1, ?_⟩
  intro offset depth reached
  obtain ⟨deep, i, there, needs, -⟩ := bounded offset depth reached
  exact ⟨deep, i, there, needs, fun label goes => Code.exists_target flows.labels flows.accepted
    listed (List.mem_of_getElem? there) goes⟩

/-- The loop reaches its comparison, at offset 8, with two values on the stack, which is the
greatest depth of the listing; behind it, a jump leads to the block that was made for an edge. -/
theorem maxStack_bounds_runs_counting : ∃ body optimized stats listing,
    (lowerFunction .natural counting (Throwing.analyze .natural counting).1 1).1 = .ok body ∧
    optimizeBody .aggressive body = (optimized, .ok stats) ∧
    Listing.ofBlocks optimized.name optimized.blocks = .ok listing ∧
    listing.code = optimized.blocks.flatMap Code.Block.stream ∧ listing.maxStack = 2 ∧
    (listing.Reached 8 2 ∧ listing.code[8]? = some (.compare .lt) ∧ 2 ≤ listing.maxStack ∧
      (Instr.compare .lt).needs ≤ 2) ∧
    listing.Reached 9 1 ∧ listing.code[9]? = some (.branchIfTrue 3) ∧
      ∃ t first rest target, optimized.blocks[3]? = some t ∧ t.code = first :: rest ∧
        listing.offset? 3 = some target ∧ listing.code[target]? = some first := by
  have found : counting.function? 1 = some count := (Option.some_get _).symm
  have laidOut : ((lowerFunction .natural counting
      (Throwing.analyze .natural counting).1 1).1.toOption.bind fun body =>
        (Listing.ofBlocks (optimizeBody .aggressive body).1.name
          (optimizeBody .aggressive body).1.blocks).toOption.map
          fun listing => (listing.code.take 10, listing.offsets, listing.maxStack)) =
      some ([.load 4, .phiEnqueue .int32, .branch 1, .phiDequeue .int32,
        .call (.function 0) ⟨[.int32], .int32⟩, .store 1, .load 1, .load 5, .compare .lt,
        .branchIfTrue 3], [0, 3, 13, 15], 2) := by
    decide +kernel
  cases lowered : (lowerFunction .natural counting (Throwing.analyze .natural counting).1 1).1 with
  | error fault =>
    rw [lowered] at laidOut
    cases laidOut
  | ok body =>
    obtain ⟨optimized, stats, listing, done, listed, code, bounded⟩ :=
      maxStack_bounds_runs ⟨_, countingSteps, rfl⟩ counting_solid found (by decide +kernel)
        (by decide +kernel) count_regular.calls lowered .aggressive
    simp only [lowered, Except.toOption, Option.bind_some, done, listed, Option.map_some,
      Option.some.injEq, Prod.mk.injEq] at laidOut
    obtain ⟨front, offsets, deepest⟩ := laidOut
    have known (k : Nat) (early : k < 10) :
        listing.code[k]? = (listing.code.take 10)[k]? := (List.getElem?_take_of_lt early).symm
    rw [front] at known
    have loop : listing.offset? 1 = some 3 := by
      rw [Listing.offset?, offsets]
      rfl
    -- The constant is handed over to the loop, which passes it to the call.
    have handed : listing.Reached 2 1 :=
      .next (.next .start (known 0 (by decide)) rfl) (known 1 (by decide)) rfl
    have entered : listing.Reached 3 1 :=
      .jump handed (known 2 (by decide)) (by decide) loop
    have stored : listing.Reached 6 0 :=
      .next (.next (.next entered (known 3 (by decide)) rfl) (known 4 (by decide)) rfl)
        (known 5 (by decide)) rfl
    have full : listing.Reached 8 2 :=
      .next (.next stored (known 6 (by decide)) rfl) (known 7 (by decide)) rfl
    have compared : listing.Reached 9 1 := .next full (known 8 (by decide)) rfl
    obtain ⟨deep, i, there, needs, -⟩ := bounded 8 2 full
    obtain ⟨-, j, there', -, leads⟩ := bounded 9 1 compared
    cases there.symm.trans (known 8 (by decide))
    cases there'.symm.trans (known 9 (by decide))
    exact ⟨body, optimized, stats, listing, rfl, done, listed, code, deepest,
      ⟨full, there, deep, needs⟩, compared, there', leads 3 (by decide)⟩

end Stackwise.Lowering
