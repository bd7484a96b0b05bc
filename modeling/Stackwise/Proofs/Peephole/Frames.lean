import Stackwise.Proofs.Peephole.Windows

/-!
# The optimizer keeps frames balanced

A body with a heap frame enters it first and leaves it right before each return.  Both ends are
single instructions that touch no value, so nothing in the machine would notice if a rule moved code
between them; what keeps them in place is that no window begins with a return or ends with
`leaveFrame`.

* `Framed`: code in which every return is right behind a `leaveFrame` and every `leaveFrame` right
  before a return; without a frame there is no `leaveFrame`.
* `Balanced`: a body whose first block enters the frame, if there is one, and is framed from there
  on, like all other blocks.
* `optimize_balanced`: the optimizer keeps bodies balanced.
-/

namespace Stackwise

namespace Code

/-- Whether an instruction returns to the caller, whatever the state. -/
def Instr.isReturn : Instr → Bool
  | .ret _ | .retDefault _ => true
  | _ => false

/-- Whether an instruction is right where it stands, by itself, in a body with or without a frame: a
return alone only without one, the two ends of a frame never. -/
def Instr.standsAlone (framed : Bool) : Instr → Bool
  | .enterFrame | .leaveFrame => false
  | .ret _ | .retDefault _ => !framed
  | .retIfPending _ leaves => leaves == framed
  | _ => true

/-- Code that leaves the frame right before each return and nowhere else. -/
inductive Framed (framed : Bool) : List Instr → Prop
  | nil : Framed framed []
  | step {i : Instr} {rest : List Instr} (alone : i.standsAlone framed = true)
      (later : Framed framed rest) : Framed framed (i :: rest)
  | leave {i : Instr} {rest : List Instr} (isFramed : framed = true) (returns : i.isReturn = true)
      (later : Framed framed rest) : Framed framed (.leaveFrame :: i :: rest)

namespace Framed

variable {framed : Bool} {code code' front rest : List Instr} {i : Instr}

theorem singleton (alone : i.standsAlone framed = true) : Framed framed [i] := .step alone .nil

/-- Code all of whose instructions may stand alone is framed. -/
theorem of_forall (alone : ∀ i ∈ code, i.standsAlone framed = true) : Framed framed code := by
  induction code with
  | nil => exact .nil
  | cons i rest ih =>
    rw [List.forall_mem_cons] at alone
    exact .step alone.1 (ih alone.2)

/-- Framed code can be joined. -/
theorem append (h : Framed framed code) (h' : Framed framed code') :
    Framed framed (code ++ code') := by
  induction h with
  | nil => exact h'
  | step alone _ ih => exact .step alone ih
  | leave isFramed returns _ ih => exact .leave isFramed returns ih

/-- Framed code can be cut anywhere but behind a `leaveFrame`. -/
theorem cut (h : Framed framed (front ++ rest)) (last : front.getLast? ≠ some .leaveFrame) :
    Framed framed front ∧ Framed framed rest := by
  generalize same : front ++ rest = code at h
  induction h generalizing front with
  | nil =>
    obtain ⟨rfl, rfl⟩ := List.append_eq_nil_iff.1 same
    exact ⟨.nil, .nil⟩
  | @step i more alone later ih =>
    cases front with
    | nil =>
      cases same
      exact ⟨.nil, .step alone later⟩
    | cons j front =>
      rw [List.cons_append, List.cons.injEq] at same
      obtain ⟨rfl, same⟩ := same
      have last' : front.getLast? ≠ some .leaveFrame := by
        intro found
        rw [List.getLast?_cons, found] at last
        exact last rfl
      obtain ⟨before, after⟩ := ih last' same
      exact ⟨.step alone before, after⟩
  | @leave i more isFramed returns later ih =>
    cases front with
    | nil =>
      cases same
      exact ⟨.nil, .leave isFramed returns later⟩
    | cons j front =>
      rw [List.cons_append, List.cons.injEq] at same
      obtain ⟨rfl, same⟩ := same
      cases front with
      | nil => exact absurd rfl last
      | cons k front =>
        rw [List.cons_append, List.cons.injEq] at same
        obtain ⟨rfl, same⟩ := same
        have last' : front.getLast? ≠ some .leaveFrame := by
          intro found
          rw [List.getLast?_cons, List.getLast?_cons, found] at last
          exact last rfl
        obtain ⟨before, after⟩ := ih last' same
        exact ⟨.leave isFramed returns before, after⟩

/-- Right behind a `leaveFrame` there is a return. -/
theorem return_behind (h : Framed framed (front ++ .leaveFrame :: rest)) :
    framed = true ∧ ∃ i more, rest = i :: more ∧ i.isReturn = true := by
  generalize same : front ++ Instr.leaveFrame :: rest = code at h
  induction h generalizing front with
  | nil => simp at same
  | @step i more alone later ih =>
    cases front with
    | nil =>
      obtain ⟨rfl, -⟩ := List.cons.inj same
      cases alone
    | cons j front => exact ih (List.cons.inj same).2
  | @leave i more isFramed returns later ih =>
    cases front with
    | nil => exact ⟨isFramed, i, more, (List.cons.inj same).2, returns⟩
    | cons j front =>
      obtain ⟨-, same⟩ := List.cons.inj same
      cases front with
      | nil =>
        obtain ⟨rfl, -⟩ := List.cons.inj same
        cases returns
      | cons k front => exact ih (List.cons.inj same).2

/-- A cut in front of an instruction that does not return. -/
theorem cut_before (h : Framed framed (front ++ i :: rest)) (goesOn : i.isReturn = false) :
    Framed framed front ∧ Framed framed (i :: rest) := by
  refine h.cut fun last => ?_
  obtain ⟨before, rfl⟩ := List.getLast?_eq_some_iff.1 last
  rw [List.append_assoc] at h
  obtain ⟨-, j, more, same, returns⟩ := h.return_behind
  obtain ⟨rfl, -⟩ := List.cons.inj same
  rw [goesOn] at returns
  cases returns

theorem tail (h : Framed framed (i :: rest)) (other : i ≠ .leaveFrame) : Framed framed rest := by
  have whole : Framed framed ([i] ++ rest) := h
  exact (whole.cut fun same => other (Option.some.inj same)).2

/-- With a frame, every return is right behind a `leaveFrame`. -/
theorem leave_before (h : Framed true (front ++ i :: rest)) (returns : i.isReturn = true) :
    front.getLast? = some .leaveFrame := by
  refine Classical.byContradiction fun other => ?_
  obtain ⟨-, later⟩ := h.cut other
  cases later with
  | step alone =>
    cases i with
    | ret | retDefault => cases alone
    | _ => cases returns
  | leave => cases returns

/-- Framed code does not start a frame. -/
theorem enterFrame_not_mem (h : Framed framed code) : .enterFrame ∉ code := by
  induction h with
  | nil => exact List.not_mem_nil
  | @step i rest alone _ ih =>
    rw [List.mem_cons, not_or]
    refine ⟨?_, ih⟩
    rintro rfl
    cases alone
  | @leave i rest _ returns _ ih =>
    rw [List.mem_cons, List.mem_cons, not_or, not_or]
    refine ⟨nofun, ?_, ih⟩
    rintro rfl
    cases returns

/-- A check for an exception in flight leaves the frame if there is one. -/
theorem leaves_eq (h : Framed framed code) {ty : Ty} {leaves : Bool}
    (mem : .retIfPending ty leaves ∈ code) : leaves = framed := by
  obtain ⟨front, rest, rfl⟩ := List.append_of_mem mem
  obtain ⟨-, later⟩ := h.cut_before rfl
  cases later with
  | step alone => exact beq_iff_eq.1 alone

end Framed

/-- A body that enters its frame first, if it has one, and leaves it right before each return. -/
def Balanced (framed : Bool) (blocks : List Block) : Prop :=
  ∃ first rest code, blocks = first :: rest ∧ first.label = 0 ∧
    first.code = (if framed then [.enterFrame] else []) ++ code ∧
    Framed framed code ∧ ∀ b ∈ rest, Framed framed b.code

/-- An instruction that does not start the frame stands in framed code, which begins somewhere in
front of it. -/
theorem Balanced.framed_around {framed : Bool} {blocks : List Block} (h : Balanced framed blocks)
    {b : Block} (mem : b ∈ blocks) {front rest : List Instr} {i : Instr}
    (same : b.code = front ++ i :: rest) (other : i ≠ .enterFrame) :
    ∃ near, near <:+ front ∧ Framed framed (near ++ i :: rest) := by
  obtain ⟨first, others, code, rfl, -, enters, here, elsewhere⟩ := h
  rcases List.mem_cons.1 mem with rfl | later
  · rw [enters] at same
    cases framed with
    | false => exact ⟨front, List.suffix_rfl, same ▸ here⟩
    | true =>
      cases front with
      | nil => exact absurd (List.cons.inj same).1.symm other
      | cons j front =>
        rw [if_pos rfl, List.singleton_append, List.cons_append, List.cons.injEq] at same
        exact ⟨front, List.suffix_cons j front, same.2 ▸ here⟩
  · exact ⟨front, List.suffix_rfl, same ▸ elsewhere b later⟩

end Code

namespace Peephole

open Code
open Relation (ReflTransGen)

variable {storage : Storage} {level : Level} {framed : Bool}

/-- A window that may be cut out of framed code, and that is framed after it is rewritten if it was
before. -/
structure Loose (framed : Bool) (old new : List Instr) : Prop where
  starts : ∃ i more, old = i :: more ∧ i.isReturn = false ∧ i ≠ .enterFrame
  last : old.getLast? ≠ some .leaveFrame
  kept : Framed framed old → Framed framed new

/-- A last instruction in place of another. -/
theorem framed_replaceLast {i j : Instr} {passed : List Instr} (goesOn : i.isReturn = false)
    (alone : j.standsAlone framed = true) (h : Framed framed (passed ++ [i])) :
    Framed framed (passed ++ [j]) :=
  (h.cut_before goesOn).1.append (.singleton alone)

/-- Folding touches neither returns nor the frame. -/
theorem Folds.loose {temps : Marks} {old new : List Instr} (h : Folds storage temps old new)
    (framed : Bool) : Loose framed old new := by
  cases h with
  | load | loadField =>
    exact ⟨⟨_, _, rfl, rfl, nofun⟩, nofun, fun _ => .singleton rfl⟩
  | deadLoad | deadAddress | deadSize =>
    exact ⟨⟨_, _, rfl, rfl, nofun⟩, nofun, fun _ => .nil⟩
  | store | storeField =>
    refine ⟨⟨_, _, rfl, rfl, nofun⟩, ?_, fun whole => ?_⟩
    · rw [List.getLast?_concat]
      nofun
    · exact framed_replaceLast rfl rfl (whole.tail nofun)

theorem Cleans.loose {temps : Marks} {old new : List Instr} (h : Cleans temps old new)
    (framed : Bool) : Loose framed old new := by
  cases h with
  | clear => exact ⟨⟨_, _, rfl, rfl, nofun⟩, nofun, fun _ => .nil⟩
  | store => exact ⟨⟨_, _, rfl, rfl, nofun⟩, nofun, fun _ => .singleton rfl⟩
  | pair =>
    refine ⟨⟨_, _, rfl, rfl, nofun⟩, ?_, fun whole => ?_⟩
    · rw [List.getLast?_concat]
      nofun
    · exact ((whole.tail nofun).cut_before rfl).1

theorem Windows.loose {old new : List Instr} (h : Windows storage level old new)
    (framed : Bool) : Loose framed old new := by
  cases h with
  | fold folds => exact folds.loose framed
  | clean _ cleans => exact cleans.loose framed

/-- Rewriting keeps code framed. -/
theorem Rewrites.keeps_framed {code code' : List Instr}
    (h : Rewrites (Windows storage level) code code') (before : Framed framed code) :
    Framed framed code' := by
  obtain ⟨front, old, new, rest, window, rfl, rfl⟩ := h
  obtain ⟨⟨i, more, rfl, goesOn, -⟩, last, kept⟩ := window.loose framed
  rw [List.append_assoc] at before
  obtain ⟨start, behind⟩ := before.cut_before goesOn
  obtain ⟨middle, ending⟩ := behind.cut last
  exact (start.append (kept middle)).append ending

/-- The start of the frame is in no window. -/
theorem Rewrites.of_enterFrame {code code' : List Instr}
    (h : Rewrites (Windows storage level) (.enterFrame :: code) code') :
    ∃ more, code' = .enterFrame :: more ∧ Rewrites (Windows storage level) code more := by
  obtain ⟨front, old, new, rest, window, same, rfl⟩ := h
  obtain ⟨⟨i, more, rfl, -, other⟩, -, -⟩ := window.loose false
  cases front with
  | nil =>
    obtain ⟨rfl, -⟩ := List.cons.inj same
    exact absurd rfl other
  | cons j front =>
    rw [List.cons_append, List.cons_append, List.cons.injEq] at same
    obtain ⟨rfl, same⟩ := same
    exact ⟨front ++ new ++ rest, rfl, front, _, new, rest, window, same, rfl⟩

/-- It keeps the start of the frame in front. -/
theorem Rewrites.keeps_entered {code code' : List Instr}
    (h : Rewrites (Windows storage level) ((if framed then [.enterFrame] else []) ++ code) code')
    (before : Framed framed code) :
    ∃ more, code' = (if framed then [.enterFrame] else []) ++ more ∧ Framed framed more := by
  cases framed with
  | false => exact ⟨code', rfl, h.keeps_framed before⟩
  | true =>
    obtain ⟨more, rfl, rewritten⟩ := h.of_enterFrame
    exact ⟨more, rfl, rewritten.keeps_framed before⟩

/-- So frames stay balanced in the body. -/
theorem BodyRewrites.keeps_balanced {blocks blocks' : List Block}
    (h : BodyRewrites (Windows storage level) blocks blocks') (before : Balanced framed blocks) :
    Balanced framed blocks' := by
  obtain ⟨front, b, rest, code, rewritten, rfl, rfl⟩ := h
  obtain ⟨first, others, body, same, label, enters, here, elsewhere⟩ := before
  cases front with
  | nil =>
    obtain ⟨rfl, rfl⟩ := List.cons.inj same
    rw [enters] at rewritten
    obtain ⟨more, rfl, framed⟩ := rewritten.keeps_entered here
    exact ⟨_, rest, more, rfl, label, rfl, framed, elsewhere⟩
  | cons top front =>
    rw [List.cons_append, List.cons.injEq] at same
    obtain ⟨rfl, rfl⟩ := same
    rw [List.forall_mem_append, List.forall_mem_cons] at elsewhere
    refine ⟨top, front ++ { b with code } :: rest, body, rfl, label, enters, here, ?_⟩
    rw [List.forall_mem_append, List.forall_mem_cons]
    exact ⟨elsewhere.1, rewritten.keeps_framed elsewhere.2.1, elsewhere.2.2⟩

/-- The optimizer keeps bodies balanced. -/
theorem optimize_balanced (level : Level) {blocks : List Block} (h : Balanced framed blocks) :
    Balanced framed (optimize storage level blocks).1 := by
  have chain := optimize_rewrites storage level blocks
  generalize (optimize storage level blocks).1 = done at chain ⊢
  induction chain with
  | refl => exact h
  | tail _ step ih => exact step.keeps_balanced ih

end Peephole

end Stackwise
