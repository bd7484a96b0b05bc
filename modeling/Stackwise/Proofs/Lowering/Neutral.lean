import Stackwise.Proofs.Code.ArgumentLists
import Stackwise.Proofs.Source.Recursion
import Stackwise.Proofs.Lowering.Footprint
import Stackwise.Proofs.Lowering.Switches
import Stackwise.Proofs.Lowering.Verified

/-!
# Pushing a value changes nothing else

Operands are pushed while others already wait on the stack, and while variables hold what later code
reads.  Pushing a value leaves all of that alone: its code goes to the end of the current block,
comes from any height to the one above, and writes only to slots that were made for it.

There is one way in which an earlier variable can change all the same.  A constant expression may
ask for the next argument of a list, and the routine that finds it advances the list, which may be
a global that was there before (`push_advances_earlier`).
-/

namespace Stackwise.Lowering

open Code (Instr Listed Machine climb listMachine)
open Source (Module Opcode)

/-- The second value is the first one, or a part of it at some depth. -/
def Within (m : Module) : Nat → Nat → Prop :=
  Relation.ReflTransGen fun outer part => part ∈ m.partsOf outer

/-- No constant expression within the value lowers to `void`, and none takes a `void` out of a
vector. -/
def Context.ValuedAt (c : Context) (id : Nat) : Prop :=
  ∀ ⦃part : Nat⦄ ⦃v : Source.Value⦄ ⦃opcode : Opcode⦄ ⦃operands : List Nat⦄,
    Within c.module id part → c.module.value? part = some v → v.kind = .expr opcode operands →
      c.conventions.lowerType c.module v.ty ≠ some .void ∧ c.Extracts opcode operands

theorem Context.Valued.valuedAt {c : Context} (valued : c.Valued) (id : Nat) : c.ValuedAt id :=
  fun _ _ _ _ _ found kind => ⟨valued.expr found kind, valued.extracts _ _⟩

/-- If nothing within a value lowers to `void`, then all that it is made of may be pushed. -/
theorem Context.ValuedAt.pushable {c : Context} {id : Nat} (valued : c.ValuedAt id) :
    c.Pushable (Within c.module id) where
  parts within mem := within.tail mem
  solid within _ _ _ found kind := valued within found kind

/-- What a straight-line step has written stands at the end of the current block. -/
theorem Lower.written_of_emit {α : Type} {step : Emit α} {c : Context} {before after : Draft}
    {a : α} (h : Lower.emit step c before = .ok a after) :
    ∃ b, before.blocks[before.current]? = some b ∧
      ∃ spot e, step c spot before.storage = .ok e ∧ after = before.write b e.code e.storage :=
  Lower.emit_ensures (Q := fun _ after => ∃ b, before.blocks[before.current]? = some b ∧
      ∃ spot e, step c spot before.storage = .ok e ∧ after = before.write b e.code e.storage)
    (fun b there spot e written => ⟨b, there, spot, e, written, rfl⟩) h

/-- Pushing a value writes to the current block only, and there only code that comes from any height
to the one above and writes to new slots.  Run on any stack, it leaves the stack below its value and
the earlier variables as they are, unless it advances one of them as an argument list. -/
theorem push_neutral {c : Context} {id : Nat} (valued : c.ValuedAt id) {before after : Draft}
    (pushed : Lower.emit (push id) c before = .ok () after) :
    ∃ b code, before.blocks[before.current]? = some b ∧
      after = before.write b code after.storage ∧
      before.storage.Grows c.module after.storage ∧
      (∀ i ∈ code, i.isAnchor = false) ∧
      (∀ height, climb height code = some (height + 1)) ∧
      Code.Stays (Own before.storage.size after.storage) [] code [none] ∧
      ∀ {V S : Type} {μ : Machine V S} {inside : V → Nat → Prop}, μ.Advancing inside →
        ∀ stack store, (μ.exec code stack store).ending = .stuck ∨
          ∃ x store', (μ.exec code stack store).ending = .fell (x :: stack) store' ∧
            ∀ var < before.storage.size, μ.read store' var = μ.read store var ∨
              μ.Advances inside code stack store var := by
  obtain ⟨b, there, spot, e, written, rfl⟩ := Lower.written_of_emit pushed
  obtain ⟨climbs, grown⟩ :=
    valued.pushable.pushWithin_climbs (id + 1) .refl before.storage written
  have contained := (push_contained id before.storage [] (Nat.le_refl _) written).2
  -- That the height is right is what makes contained code stay within its own slots.
  refine ⟨b, e.code, there, rfl, grown, ?_, ?_, ?_, ?_⟩
  · exact fun i mem => Code.Instr.not_anchor_of_isLocal (contained.isLocal i mem)
  · exact fun height => Code.climb_add height climbs
  · exact contained.stays (Code.netEffect_of_climb climbs)
  · intro V S μ inside laws stack store
    rcases laws.pushes contained climbs stack store with stuck | ⟨x, store', fell, keeps⟩
    · exact .inl stuck
    · refine .inr ⟨x, store', fell, fun var earlier => keeps var ?_⟩
      rintro ⟨new, -⟩
      exact Nat.not_le.2 earlier new

/-! ## A list that was there before -/

/-- A module with an argument list for a global.  Its constants are the list's address, the next
argument, seven, and the sum of the two. -/
def listing : Module :=
  Source.build "listing" [.intern .ptr, .intern (.int 32), .addGlobal "list" 0 none,
    .constExpr 1 .vaArg [0], .constInt 1 7, .constExpr 1 (.binary .add) [1, 2]]

/-- The context of code outside of functions. -/
def listingContext : Context where
  module := listing
  conventions := .natural
  throwing := (Throwing.analyze .natural listing).1
  function := none
  name := "listing"

theorem listing_valued : listingContext.Valued :=
  Solid.valued (m := listing) ⟨by decide +kernel, by decide +kernel⟩

/-- A draft in which the address of the list was pushed. -/
def listingDraft : Draft :=
  ((Lower.emit (push 0)).finish? listingContext { blocks := #[{ origin := none }] }).get
    (by decide +kernel)

/-- The list is at its beginning, and other variables hold seven. -/
def listingStore : Nat → Listed := fun var => if var = 0 then .list 0 else .int 7

/-- The code that fetches the next argument by way of a slot. -/
def nextArgument (slot : Nat) : List Instr :=
  [.addressOf 0, .call (.helper .vaArg) Code.Helper.vaArg.signature, .loadIndirect .pointer,
    .loadIndirect .int32, .store slot, .load slot]

/-- Pushing the next argument advances a list that was there before. -/
theorem push_advances_earlier :
    listingContext.ValuedAt 1 ∧ listingDraft.storage.size = 1 ∧
    listingDraft.blocks = #[{ origin := none, code := [.addressOf 0] }] ∧
    ∃ after, Lower.emit (push 1) listingContext listingDraft = .ok () after ∧
      after.blocks = #[{ origin := none, code := .addressOf 0 :: nextArgument 1 }] ∧
      ∃ store', ((listMachine fun _ => 5).exec (nextArgument 1) [] listingStore).ending =
        .fell [.int 5] store' ∧ store' 0 ≠ listingStore 0 := by
  have done : ((Lower.emit (push 1)).finish? listingContext listingDraft).map (·.blocks) =
      some #[{ origin := none, code := .addressOf 0 :: nextArgument 1 }] := by decide +kernel
  obtain ⟨after, finished, blocks⟩ := Option.map_eq_some_iff.1 done
  refine ⟨listing_valued.valuedAt 1, by decide +kernel, by decide +kernel, after,
    Lower.eq_ok_of_finish? finished, blocks, _, rfl, ?_⟩
  decide

/-- The sum is pushed onto four values and leaves five, and its code writes to slots made meanwhile.
-/
theorem push_neutral_listing :
    listingContext.ValuedAt 3 ∧ ∃ after,
      Lower.emit (push 3) listingContext listingDraft = .ok () after ∧
      ∃ b code, after = listingDraft.write b code after.storage ∧ climb 4 code = some 5 ∧
        Code.Stays (Own 1 after.storage) [] code [none] ∧
        ∃ store', ((listMachine fun _ => 5).exec code [.int 1] listingStore).ending =
            .fell [.int 12, .int 1] store' ∧
          (store' 0 = listingStore 0 ∨ (listMachine fun _ => 5).Advances
            (fun a var => a = .address var) code [.int 1] listingStore 0) := by
  have valued := listing_valued.valuedAt 3
  have done : ((Lower.emit (push 3)).finish? listingContext listingDraft).map (·.blocks) =
      some #[{ origin := none, code := .addressOf 0 ::
        (nextArgument 2 ++ [.load 3, .binary .add, .store 1, .load 1]) }] := by decide +kernel
  obtain ⟨after, finished, blocks⟩ := Option.map_eq_some_iff.1 done
  have pushed := Lower.eq_ok_of_finish? finished
  obtain ⟨b, code, there, same, -, -, climbs, stays, runs⟩ := push_neutral valued pushed
  have start : listingDraft.blocks = #[{ origin := none, code := [.addressOf 0] }] := by
    decide +kernel
  have size : listingDraft.storage.size = 1 := by decide +kernel
  have current : listingDraft.current = 0 := by decide +kernel
  rw [start, current] at there
  cases there
  rw [same, Draft.write, start, current] at blocks
  cases blocks
  rw [size] at stays
  have ran := runs (Code.listMachine_advancing fun _ => 5) [.int 1] listingStore
  rcases ran with stuck | ⟨x, store', fell, keeps⟩
  · cases stuck
  · cases fell
    exact ⟨valued, after, pushed, _, _, same, climbs 4, stays, _, rfl, keeps 0 (by decide +kernel)⟩

end Stackwise.Lowering
