import Mathlib.Order.Basic
import Stackwise.Proofs.Lowering.Composition

/-!
# Pushing a value ends

Pushing walks into the members of aggregates and into the operands of constant expressions.  One
level of it asks for the parts of a constant only, since all the steps that it takes push their
operands and nothing else (`pushLevel_agree`).

Together with the walks over types and texts this gives the main result, `walks_end`: over a module
that was built, no walk reaches the bottom at which it would stop.
-/

namespace Stackwise.Lowering

open Emit (Agree)
open Source (Module TypePool)

/-- One level of pushing a value in a context. -/
def Context.pushLevel (c : Context)
    (push : Nat → Spot → Ledger → Except Fault (Emitted Unit)) (id : Nat) :
    Spot → Ledger → Except Fault (Emitted Unit) :=
  Lowering.pushLevel (fun part _ => push part) id c

/-- Pushing a value asks for the values that it is made of only. -/
theorem Context.pushLevel_consults (c : Context) : Consults c.pushLevel c.module.partsOf :=
  fun _ _ _ same => pushLevel_agree same

/-- Pushing to a depth is the recursion unrolled to it, with a fault for cyclic constants at the
bottom. -/
theorem pushWithin_eq_unroll (c : Context) (depth id : Nat) :
    pushWithin depth id c = unroll c.pushLevel (fun _ _ _ => .error .cyclic) depth id := by
  induction depth generalizing id with
  | zero => rfl
  | succ depth ih => exact pushLevel_agree fun part _ => ih part

/-- In a grounded module, pushing never reaches the bottom. -/
theorem push_ends {c : Context} (grounded : c.module.Grounded) :
    Ends c.pushLevel c.module.partsOf (fun id => push id c) :=
  ends_of_unroll c.pushLevel_consults grounded fun id => pushWithin_eq_unroll c (id + 1) id

/-- Every walk over a module that was built ends: layout, stack types and the texts of types go from
a type to its components, the texts of operands and pushing a value, in whatever context, from a
constant to its parts.  Components and parts have smaller numbers, a walk asks for nothing else, and
so what stands at its bottom does not matter once it is unrolled deeper than the number it starts
from.  An instruction has no parts: no walk follows its operands. -/
theorem walks_end {name : String} {steps : List Source.Step}
    (follows : (Source.Builder.start name).Follows steps) :
    let m := Source.build name steps
    Ends (Layout.extentLevel m.types) m.types.componentsOf (Layout.extent? m.types) ∧
    Ends (naturalTypeLevel m.types) m.types.componentsOf (naturalType m.types) ∧
    Ends m.types.renderLevel m.types.componentsOf m.types.render ∧
    Ends m.operandTextLevel m.partsOf m.operandText ∧
    (∀ c : Context, c.module = m → Ends c.pushLevel m.partsOf (fun id => push id c)) ∧
    ∀ id i, m.instruction? id = some i → m.partsOf id = [] := by
  intro m
  have ordered : m.types.Ordered := follows.ordered
  have grounded : m.Grounded := follows.grounded
  refine ⟨Layout.extent?_ends ordered, naturalType_ends ordered, TypePool.render_ends ordered,
    Module.operandText_ends grounded, fun c same => ?_, fun id i found => ?_⟩
  · rw [← same] at grounded ⊢
    exact push_ends grounded
  · exact Module.partsOf_eq_nil found

/-- A structure with an array in it, an element of a constant of that type, and a loop around a phi
that is given the sum of itself and the element. -/
def accumulator : List Source.Step :=
  [.intern (.int 32), .intern (.array 0 2), .intern (.struct none [0, 1]), .constInt 0 7,
    .constAggregate 1 [0, 0], .constAggregate 2 [0, 1], .constExpr 0 (.extractValue [0]) [2],
    .intern (.function 0 [] false), .addFunction "sum" 3, .appendBlock 0 "entry",
    .appendBlock 0 "loop", .positionAt 0 0, .br 1, .positionAt 0 1, .phi 0 [(3, 0)],
    .binary .add 6 3, .addIncoming 6 7 1, .br 1]

theorem walks_end_accumulator :
    (Source.Builder.start "m").Follows accumulator ∧
    (∀ bottom, unroll (Layout.extentLevel (Source.build "m" accumulator).types) bottom 3 2 =
      .ok (some ⟨12, 4⟩)) ∧
    (Source.build "m" accumulator).partsOf 3 = [2] ∧
    (Source.build "m" accumulator).partsOf 6 = [] ∧
    ∀ c : Context, c.module = Source.build "m" accumulator → ∀ bottom,
      unroll c.pushLevel bottom 4 3 = push 3 c := by
  have follows : (Source.Builder.start "m").Follows accumulator := by decide +kernel
  obtain ⟨extents, -, -, -, pushes, phis⟩ := walks_end follows
  have extent : Layout.extent? (Source.build "m" accumulator).types 2 =
      .ok (some ⟨12, 4⟩) := by decide +kernel
  have phi : (Source.build "m" accumulator).instruction? 6 =
      some ⟨.phi, [.value 3, .block 0, .value 7, .block 1], 0, 1⟩ := by decide +kernel
  refine ⟨follows, fun bottom => ?_, by decide +kernel, phis 6 _ phi, fun c same bottom => ?_⟩
  · exact (extents.unrolled bottom 3 2 (by decide)).trans extent
  · exact (pushes c same).unrolled bottom 4 3 (by decide)

end Stackwise.Lowering
