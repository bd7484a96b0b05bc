import Stackwise.Code.Block
import Stackwise.Code.Variable

/-!
# Temporaries

The peephole rules only change accesses to *temporaries*: variables that are marked as candidates
and whose every mention stands in one block, so that no change can be seen across a jump.

A set of variables is a table of marks, one for each variable of the body.  `mentioned` collects
what a block names into such a table in one pass over its code, and `has_temporaries` says in terms
of `mentions` which variables end up as temporaries.

Code may name a variable that its table does not have.  Nothing is wrong with that until the entry
is asked for: `classify` asks for the entry of every variable that exactly one block mentions, and
stops at one that is not there.
-/

namespace Stackwise.Peephole

open Code

/-- A set of variables: the mark of every variable of the body. -/
abbrev Marks := Array Bool

namespace Marks

/-- Whether a variable is marked; none outside the table is. -/
def has (marks : Marks) (var : Nat) : Bool := marks[var]?.getD false

/-- Marks the variable that an instruction names. -/
def note (marks : Marks) (i : Instr) : Marks :=
  match i.var? with
  | some var => marks.setIfInBounds var true
  | none => marks

end Marks

/-- Whether a list of instructions names the variable. -/
def mentions (var : Nat) (code : List Instr) : Bool :=
  code.any (·.var? == some var)

/-- The variables below `size` that a list of instructions names. -/
def mentioned (size : Nat) (code : List Instr) : Marks :=
  code.foldl Marks.note (Array.replicate size false)

/-- The candidates that exactly one block mentions. -/
def temporaries (storage : Storage) (blocks : List Block) : Marks :=
  let named := blocks.map fun b => mentioned storage.size b.code
  storage.entries.mapIdx fun id v => v.access.temporary && named.countP (·.has id) == 1

/-- A variable whose entry is asked for and is not in the table. -/
structure Unlisted where
  var : Nat
deriving DecidableEq, Repr

/-- The variables that a list of instructions names and a table of `size` variables does not
have. -/
def strangers (size : Nat) (code : List Instr) : List Nat :=
  (code.filterMap Instr.var?).filter (size ≤ ·)

/-- The first variable without an entry that exactly one block mentions. -/
def loneStranger? (storage : Storage) (blocks : List Block) : Option Nat :=
  (blocks.flatMap fun b => strangers storage.size b.code).find? fun var =>
    blocks.countP (fun b => mentions var b.code) == 1

/-- The temporaries of a body, unless a variable that only one block mentions has no entry. -/
def classify (storage : Storage) (blocks : List Block) : Except Unlisted Marks :=
  match loneStranger? storage blocks with
  | some var => .error ⟨var⟩
  | none => .ok (temporaries storage blocks)

/-- Instructions weighed so that every rule makes code lighter: two for each instruction, and
one more for a store. -/
def weight : List Instr → Nat
  | [] => 0
  | .store _ :: rest => weight rest + 3
  | _ :: rest => weight rest + 2

/-! ## What the tables hold -/

@[simp] theorem Marks.size_note (marks : Marks) (i : Instr) : (marks.note i).size = marks.size := by
  unfold Marks.note
  split <;> simp

/-- Noting an instruction marks the variable that it names, if there is room for it. -/
theorem Marks.has_note (marks : Marks) (i : Instr) (var : Nat) :
    (marks.note i).has var
      = (marks.has var || (i.var? == some var && decide (var < marks.size))) := by
  unfold Marks.note Marks.has
  split
  · rename_i named eq
    by_cases same : named = var
    · subst same
      by_cases inside : named < marks.size <;> simp [eq, inside]
    · simp [eq, same, Array.getElem?_setIfInBounds_ne]
  · rename_i eq
    simp [eq]

/-- Noting code marks the variables that it mentions. -/
theorem Marks.has_foldl_note (marks : Marks) (code : List Instr) (var : Nat) :
    Marks.has (code.foldl Marks.note marks) var
      = (marks.has var || (mentions var code && decide (var < marks.size))) := by
  induction code generalizing marks with
  | nil => simp [mentions]
  | cons i rest ih =>
    simp only [List.foldl_cons, ih, Marks.has_note, Marks.size_note, mentions, List.any_cons]
    cases marks.has var <;> cases i.var? == some var <;> simp

/-- The table of a block marks exactly the variables below its size that the code names. -/
theorem has_mentioned (size : Nat) (code : List Instr) (var : Nat) :
    (mentioned size code).has var = (mentions var code && decide (var < size)) := by
  unfold mentioned
  rw [Marks.has_foldl_note]
  by_cases inside : var < size <;> simp [Marks.has, inside]

/-- A variable is a temporary exactly if it is a candidate that one block mentions. -/
theorem has_temporaries (storage : Storage) (blocks : List Block) (var : Nat) :
    (temporaries storage blocks).has var
      = (storage.get? var).any fun v =>
          v.access.temporary && blocks.countP (fun b => mentions var b.code) == 1 := by
  have counted : var < storage.size →
      (blocks.map fun b => mentioned storage.size b.code).countP (·.has var)
        = blocks.countP fun b => mentions var b.code := by
    intro inside
    rw [List.countP_map]
    simp [Function.comp_def, has_mentioned, inside]
  unfold temporaries Storage.get?
  by_cases inside : var < storage.entries.size
  · simp [Marks.has, inside] at counted ⊢
    simp [counted inside]
  · simp [Marks.has, inside]

end Stackwise.Peephole
