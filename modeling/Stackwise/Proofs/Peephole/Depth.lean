import Stackwise.Proofs.Code.Depth
import Stackwise.Proofs.Peephole.Balance

/-!
# The optimizer and the physical stack

A body that can be followed on the physical stack (`Flows`) is optimized to such a body.  A window
holds no anchors, so the anchors of a block stay what they are, and with them what the block takes
over and hands over.  Up to its last takeover a block pushes nothing but takeovers; a window in
there can only be a `clear` that goes or a `store` that becomes a `pop`.
-/

namespace Stackwise.Peephole

open Code
open Relation (ReflTransGen)

/-- What takes the place of a window has no anchors. -/
theorem Windows.straight {storage : Storage} {level : Level} {old new : List Instr}
    (h : Windows storage level old new) : ∀ i ∈ new, i.isAnchor = false := by
  have behind {passed : List Instr} {last : Instr} {low high : Nat}
      (h : climb low passed = some high) (plain : last.isAnchor = false) :
      ∀ i ∈ passed ++ [last], i.isAnchor = false :=
    List.forall_mem_append.2 ⟨not_anchor_of_climb h, List.forall_mem_singleton.2 plain⟩
  cases h with
  | fold folds =>
    cases folds with
    | load | loadField => exact List.forall_mem_singleton.2 rfl
    | deadLoad | deadAddress | deadSize => exact List.forall_mem_nil _
    | store _ pushesOne => exact behind pushesOne rfl
    | storeField _ pushesOne => exact behind pushesOne rfl
  | clean _ cleans =>
    cases cleans with
    | clear => exact List.forall_mem_nil _
    | store => exact List.forall_mem_singleton.2 rfl
    | pair _ level => exact not_anchor_of_climb level

/-- Rewriting keeps the anchors of code. -/
theorem Rewrites.anchors_eq {storage : Storage} {level : Level} {code code' : List Instr}
    (h : Rewrites (Windows storage level) code code') : anchors code' = anchors code := by
  obtain ⟨front, old, new, rest, window, rfl, rfl⟩ := h
  rw [anchors_append, anchors_append, anchors_append, anchors_append,
    anchors_eq_nil window.straight, anchors_eq_nil window.levels.straight]

/-- Among instructions that push nothing, a window leaves only such instructions. -/
theorem Windows.pushes_eq_zero {storage : Storage} {level : Level} {old new : List Instr}
    (h : Windows storage level old new) (none : ∀ i ∈ old, i.pushes = 0) :
    ∀ i ∈ new, i.pushes = 0 := by
  cases h with
  | fold folds =>
    cases folds with
    | load | loadField | deadLoad | deadAddress | deadSize | store | storeField =>
      cases none _ List.mem_cons_self
  | clean _ cleans =>
    cases cleans with
    | clear => exact List.forall_mem_nil _
    | store => exact List.forall_mem_singleton.2 rfl
    | pair var level =>
      cases none (.load var) (List.mem_append_right _ (List.mem_singleton_self _))

/-- It keeps takeovers in front of everything else that pushes. -/
theorem Rewrites.opens {storage : Storage} {level : Level} {code code' : List Instr}
    (h : Rewrites (Windows storage level) code code') (opens : Opens code) : Opens code' := by
  obtain ⟨front, old, new, rest, window, rfl, rfl⟩ := h
  have unmarked {window : List Instr} (plain : ∀ i ∈ window, i.isAnchor = false) :
      taken window = [] := by
    rw [← taken_anchors, anchors_eq_nil plain]
    rfl
  have old_takes := unmarked window.levels.straight
  have new_takes := unmarked window.straight
  rw [List.append_assoc, opens_append, taken_append, old_takes, List.nil_append] at opens
  rw [List.append_assoc, opens_append, taken_append, new_takes, List.nil_append]
  refine ⟨opens.1, ?_⟩
  by_cases done : taken rest = []
  · exact opens_of_taken_eq_nil (by rw [taken_append, new_takes, done]; rfl)
  · -- The window stands before a takeover.
    obtain ⟨modest, later⟩ := opens_append.1 opens.2
    rw [opens_append, if_neg done]
    rw [if_neg done] at modest
    have silent : ∀ i ∈ old, i.pushes = 0 := by
      intro i mem
      have modest := modest i mem
      rw [Instr.taken?_of_not_anchor (window.levels.straight i mem)] at modest
      exact Nat.eq_zero_of_le_zero modest
    refine ⟨fun i mem => ?_, later⟩
    rw [window.pushes_eq_zero silent i mem]
    exact Nat.zero_le _

/-- It keeps what blocks take over. -/
theorem BodyRewrites.map_taken {storage : Storage} {level : Level} {blocks blocks' : List Block}
    (h : BodyRewrites (Windows storage level) blocks blocks') :
    blocks'.map (taken ·.code) = blocks.map (taken ·.code) := by
  obtain ⟨front, b, rest, code, rewritten, rfl, rfl⟩ := h
  have same : taken code = taken b.code := by
    rw [← taken_anchors, rewritten.anchors_eq, taken_anchors]
  rw [List.map_append, List.map_cons, List.map_append, List.map_cons, same]

/-- So a body can still be followed on the physical stack. -/
theorem BodyRewrites.flows {storage : Storage} {level : Level} {blocks blocks' : List Block}
    (h : BodyRewrites (Windows storage level) blocks blocks') (flows : Flows blocks) :
    Flows blocks' := by
  have taking := h.map_taken
  have takes : TakesOver blocks' = TakesOver blocks := by
    funext label types
    rw [TakesOver, TakesOver, ← List.getElem?_map, ← List.getElem?_map, taking]
  have verified : Code.verify "" blocks = .ok () := verify_eq_ok_iff.2 flows.accepted
  have accepted := verify_eq_ok_iff.1 (h.verify verified)
  obtain ⟨front, b, rest, code, rewritten, rfl, rfl⟩ := h
  -- What is kept block by block is kept in the block that is rewritten.
  have each {P : List Instr → Prop} (kept : P b.code → P code)
      (all : ∀ c ∈ front ++ b :: rest, P c.code) :
      ∀ c ∈ front ++ { b with code } :: rest, P c.code := by
    rw [List.forall_mem_append, List.forall_mem_cons] at all ⊢
    exact ⟨all.1, kept all.2.1, all.2.2⟩
  refine ⟨?_, accepted, each rewritten.opens flows.opens, ?_, ?_⟩
  · have labels := flows.labels
    simp only [List.map_append, List.map_cons, List.length_append, List.length_cons] at labels ⊢
    exact labels
  · rw [takes]
    refine each (fun hands => ?_) flows.hands
    rwa [Hands, rewritten.anchors_eq]
  · obtain ⟨first, there, none⟩ := flows.first
    have none' : (List.map (taken ·.code) (front ++ { b with code } :: rest))[0]? = some [] := by
      rw [taking, List.getElem?_map, there, Option.map_some, none]
    rw [List.getElem?_map, Option.map_eq_some_iff] at none'
    exact none'

/-- The optimizer keeps a body such that it can be followed on the physical stack. -/
theorem optimize_flows (storage : Storage) (level : Level) {blocks : List Block}
    (flows : Flows blocks) : Flows (optimize storage level blocks).1 := by
  have chain := optimize_rewrites storage level blocks
  generalize (optimize storage level blocks).1 = done at chain ⊢
  induction chain with
  | refl => exact flows
  | tail _ step ih => exact step.flows ih

end Stackwise.Peephole
