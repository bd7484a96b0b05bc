import Stackwise.Proofs.Peephole.Windows

/-!
# The optimizer leaves effects alone

Pushing a value or an address, reading and writing through one, and everything done with a
candidate for the peephole rules may change under the optimizer.  The other instructions are
*effects*.  A window has the same effects before and after (`Windows.effects_eq`), so every block
keeps its effects, in their order, through all rounds (`optimizer_keeps_effects`).
-/

namespace Stackwise.Peephole

open Code
open Relation (ReflTransGen)

/-- Whether an instruction may neither go away nor come, whatever stands around it.  A store or a
zeroing is such an instruction unless its variable is a candidate for the peephole rules. -/
def isEffect (storage : Storage) : Instr → Bool
  | .call _ _ | .callIndirect _ | .binary _ | .compare _ | .negate | .convert _ _ => true
  | .nop | .enterFrame | .leaveFrame => true
  | .store var | .clear var => !(storage.get? var).any (·.access.temporary)
  | i => i.isAnchor

/-- The effects of a list of instructions, in order. -/
def effects (storage : Storage) (code : List Instr) : List Instr :=
  code.filter (isEffect storage)

/-- What of a block the optimizer may not change. -/
def outline (storage : Storage) (b : Block) : Nat × Option Nat × List Instr :=
  (b.label, b.origin, effects storage b.code)

variable {storage : Storage} {temps : Marks}

/-- The effects of joined code are those of its parts, in order. -/
theorem effects_append (a b : List Instr) :
    effects storage (a ++ b) = effects storage a ++ effects storage b :=
  List.filter_append ..

theorem effects_cons_of_not {i : Instr} (none : isEffect storage i = false)
    (code : List Instr) : effects storage (i :: code) = effects storage code := by
  rw [effects, List.filter_cons_of_neg]
  · rfl
  · rw [none]
    exact Bool.false_ne_true

theorem effects_snoc_of_not {i : Instr} (none : isEffect storage i = false)
    (code : List Instr) : effects storage (code ++ [i]) = effects storage code := by
  rw [effects_append, effects_cons_of_not none]
  exact List.append_nil _

/-- What is done to a marked variable is no effect. -/
theorem not_isEffect_of_marked (within : temps.Within storage) {var : Nat}
    (marked : temps.has var = true) :
    isEffect storage (.store var) = false ∧ isEffect storage (.clear var) = false := by
  obtain ⟨v, listed, candidate⟩ := within var marked
  have temporary : (storage.get? var).any (·.access.temporary) = true := by
    rw [listed]
    exact candidate
  constructor
  · show (!_) = false
    rw [temporary]
    rfl
  · show (!_) = false
    rw [temporary]
    rfl

/-- Folding a temporary is no effect. -/
theorem Folds.effects_eq (within : temps.Within storage) {old new : List Instr}
    (h : Folds storage temps old new) : effects storage new = effects storage old := by
  cases h with
  | load | loadField | deadLoad | deadAddress | deadSize => rfl
  | @store var v passed _ _ marked _ =>
    have stored := (not_isEffect_of_marked within marked).1
    show _ = effects storage (.addressOf var :: (passed ++ [.storeIndirect v.ty]))
    rw [effects_snoc_of_not stored, effects_cons_of_not rfl, effects_snoc_of_not rfl]
  | @storeField field passed _ =>
    show _ = effects storage (.fieldAddress field :: (passed ++ [.storeIndirect field.ty]))
    rw [effects_snoc_of_not rfl, effects_cons_of_not rfl, effects_snoc_of_not rfl]

theorem Cleans.effects_eq (within : temps.Within storage) {old new : List Instr}
    (h : Cleans temps old new) : effects storage new = effects storage old := by
  cases h with
  | clear var marked =>
    rw [effects_cons_of_not (not_isEffect_of_marked within marked).2]
  | store var marked =>
    rw [effects_cons_of_not (not_isEffect_of_marked within marked).1, effects_cons_of_not rfl]
  | pair var _ marked =>
    show _ = effects storage (.store var :: (new ++ [.load var]))
    rw [effects_cons_of_not (not_isEffect_of_marked within marked).1, effects_snoc_of_not rfl]

/-- Every window of the optimizer keeps the effects in order. -/
theorem Windows.effects_eq {level : Level} {old new : List Instr}
    (h : Windows storage level old new) : effects storage new = effects storage old := by
  cases h with
  | fold folds within => exact folds.effects_eq within
  | clean _ cleans within => exact cleans.effects_eq within

theorem Rewrites.effects_eq {level : Level} {code code' : List Instr}
    (h : Rewrites (Windows storage level) code code') :
    effects storage code' = effects storage code := by
  obtain ⟨front, old, new, rest, window, rfl, rfl⟩ := h
  rw [effects_append, effects_append, effects_append, effects_append, window.effects_eq]

/-- One step of the optimizer, seen from all blocks. -/
theorem BodyRewrites.map_outline {level : Level} {blocks blocks' : List Block}
    (h : BodyRewrites (Windows storage level) blocks blocks') :
    blocks'.map (outline storage) = blocks.map (outline storage) := by
  obtain ⟨front, b, rest, code, rewritten, rfl, rfl⟩ := h
  have same : outline storage { b with code } = outline storage b := by
    rw [outline, rewritten.effects_eq]
    rfl
  rw [List.map_append, List.map_cons, List.map_append, List.map_cons, same]

/-- **The optimizer never drops, adds, repeats or moves an effect.**  On every level and whatever
the body, also one that the optimizer stops at, there are as many blocks afterwards as before, and
block by block they have the same label, the same origin and the same effects in the same order. -/
theorem optimizer_keeps_effects (storage : Storage) (level : Level) (blocks : List Block) :
    (optimize storage level blocks).1.length = blocks.length ∧
      (optimize storage level blocks).1.map (outline storage) = blocks.map (outline storage) := by
  have chain := optimize_rewrites storage level blocks
  generalize (optimize storage level blocks).1 = done at chain ⊢
  have same : done.map (outline storage) = blocks.map (outline storage) := by
    induction chain with
    | refl => rfl
    | tail _ step ih => exact step.map_outline.trans ih
  constructor
  · rw [← List.length_map (f := outline storage), same, List.length_map]
  · exact same

end Stackwise.Peephole
