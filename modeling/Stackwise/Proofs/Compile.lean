import Stackwise.Compile
import Stackwise.Proofs.Lowering.Access

/-!
# Compiling fails before the optimizer or not at all

A function is checked when it is lowered, and checked again if the optimizer has changed it.  The
second check never fails, since the optimizer makes an accepted body of an accepted body
(`optimize_verify`).  Nor does the optimizer stop on its way: lowered code names only variables of
its table (`lowerFunction_permits`).  So the fault with which compiling a function ends, if it does,
is one of lowering or of the first check (`compileFunction_eq_error_iff`).
-/

namespace Stackwise

open Code (Body Instr Storage verify)
open Lowering (lowerFunction lowerFunction_permits)
open Peephole (Level optimize optimize_eq_ok optimize_permits optimize_verify)
open Source (Module)

/-- What has passed the first check passes the second. -/
theorem checkIf_optimize {asked : Bool} {name : String} {blocks : List Code.Block} (changed : Bool)
    (storage : Storage) (level : Level) (passed : checkIf asked name blocks = .ok ()) :
    checkIf (asked && changed) name (optimize storage level blocks).1 = .ok () := by
  cases asked with
  | false => rfl
  | true =>
    cases changed with
    | false => rfl
    | true =>
      have verified : verify name blocks = .ok () := passed
      exact optimize_verify storage level verified

/-- The optimizer runs to its end on lowered code. -/
theorem optimize_lowered {c : Conventions} {m : Module} {throwing : Throwing} {function : Nat}
    {lowered : Body} (run : (lowerFunction c m throwing function).1 = .ok lowered)
    (level : Level) : ∃ stats, (optimize lowered.storage level lowered.blocks).2 = .ok stats :=
  (optimize_permits level (lowerFunction_permits run).2.2).1

/-- Compiling a function fails as lowering it fails, or as the first check of the lowered body does.
-/
theorem compileFunction_eq_error_iff {c : Conventions} {m : Module} {throwing : Throwing}
    {function : Nat} {options : Options} {fault : Fault} :
    (compileFunction c m throwing function options).1 = .error fault ↔
      (lowerFunction c m throwing function).1 = .error fault ∨
      ∃ lowered, (lowerFunction c m throwing function).1 = .ok lowered ∧
        checkIf options.verify lowered.name lowered.blocks = .error fault := by
  obtain ⟨result, events, run⟩ : ∃ result events,
      lowerFunction c m throwing function = (result, events) := ⟨_, _, rfl⟩
  rw [compileFunction, run]
  cases result with
  | error fault' => simp
  | ok lowered =>
    cases checked : checkIf options.verify lowered.name lowered.blocks with
    | error fault' => simp [checked]
    | ok =>
      obtain ⟨stats, ends⟩ := optimize_lowered (by rw [run]) options.level
      have again := checkIf_optimize (decide (0 < stats.changes)) lowered.storage options.level
        checked
      simp [checked, optimizeBody, ends, again, Except.map]

namespace Peephole

/-- The optimizer never breaks a verified body: on every level, a body that `verify` accepts and
whose variables have entries is optimized to a body that it accepts.  So when compiling a function
fails, it has failed before the second check: in lowering, or in the first check. -/
theorem optimizer_keeps_verified :
    (∀ (storage : Storage) (level : Level) (blocks : List Code.Block) (name : String),
      (∀ b ∈ blocks, Listed storage b.code) → verify name blocks = .ok () →
        (∃ stats, (optimize storage level blocks).2 = .ok stats) ∧
          verify name (optimize storage level blocks).1 = .ok ()) ∧
    ∀ (c : Conventions) (m : Module) (throwing : Throwing) (function : Nat) (options : Options)
      (fault : Fault),
      (compileFunction c m throwing function options).1 = .error fault ↔
        (lowerFunction c m throwing function).1 = .error fault ∨
        ∃ lowered, (lowerFunction c m throwing function).1 = .ok lowered ∧
          checkIf options.verify lowered.name lowered.blocks = .error fault :=
  ⟨fun storage level _ _ listed verified =>
    ⟨optimize_eq_ok level listed, optimize_verify storage level verified⟩,
    fun _ _ _ _ _ _ => compileFunction_eq_error_iff⟩

/-- A module with a function that has a block but no instruction in it. -/
def stub : Module :=
  Source.build "stub" [.intern .void, .intern (.function 0 [] false), .addFunction "stub" 1,
    .appendBlock 0 "entry"]

/-- The roundabout way is made shorter and stays accepted; the stub is lowered, but not accepted. -/
theorem optimizer_keeps_verified_roundabout :
    ((∃ stats, (optimize roundaboutStorage .aggressive roundabout).2 = .ok stats) ∧
      verify "roundabout" (optimize roundaboutStorage .aggressive roundabout).1 = .ok ()) ∧
    ∃ fault lowered, (compileFunction .natural stub {} 0 {}).1 = .error fault ∧
      (lowerFunction .natural stub {} 0).1 = .ok lowered ∧
      checkIf true lowered.name lowered.blocks = .error fault := by
  have listed : ∀ b ∈ roundabout, Listed roundaboutStorage b.code := by
    simp [roundabout, roundaboutStorage, Listed, Instr.var?, Storage.size]
  refine ⟨optimizer_keeps_verified.1 _ _ _ _ listed rfl, ?_⟩
  have fails : (compileFunction .natural stub {} 0 {}).1.toOption.isNone = true := by
    decide +kernel
  have lowers : (lowerFunction .natural stub {} 0).1.toOption.isSome = true := by decide +kernel
  cases failed : (compileFunction .natural stub {} 0 {}).1 with
  | ok compiled =>
    rw [failed] at fails
    cases fails
  | error fault =>
    rcases (optimizer_keeps_verified.2 .natural stub {} 0 {} fault).1 failed with refused | refused
    · rw [refused] at lowers
      cases lowers
    · obtain ⟨lowered, run, refused⟩ := refused
      exact ⟨fault, lowered, rfl, run, refused⟩

end Peephole

end Stackwise
