import Stackwise.Lowering.Branch
import Stackwise.Proofs.Lowering.Execution

/-!
# Selecting a case

A switch selects one of its cases by a jump table, if they are `0, 1, 2, …`, or by a chain of
comparisons with a copy of the index.  On a machine that knows integers (`Dispatches`) both jump to
the first case with the value of the index, and control comes out behind them if there is none
(`table_picks`, `Comparing.picks_stored`).

What the code sees is not the index and the values themselves but how they stand on the stack.
Constants are narrowed to 32 or 64 bits, and a truth value, which is 0 or -1 as a word of one bit,
is held as 0 or 1.  Two values of one type never become one that way (`held_inj`), and a table,
which looks at positions, still finds the right one (`labelAt?_eq`).
-/

namespace Stackwise

namespace Word

theorem isSigned_iff {bits : Nat} {n : Int} :
    isSigned bits n = true ↔ -(count (bits - 1) : Int) ≤ n ∧ n < count (bits - 1) := by
  rw [isSigned, Bool.and_eq_true, decide_eq_true_eq, decide_eq_true_eq]

theorem isSigned_one {n : Int} : isSigned 1 n = true ↔ n = -1 ∨ n = 0 := by
  rw [isSigned_iff]
  show -(1 : Int) ≤ n ∧ n < 1 ↔ _
  omega

/-- A number that fits into a word fits into a wider one. -/
theorem isSigned_mono {bits width : Nat} {n : Int} (h : isSigned bits n = true)
    (wider : bits ≤ width) : isSigned width n = true := by
  rw [isSigned_iff] at h ⊢
  have more : count (bits - 1) ≤ count (width - 1) :=
    Nat.pow_le_pow_right (by decide) (Nat.sub_le_sub_right wider 1)
  omega

/-- Narrowing keeps a number that fits. -/
theorem signed_eq_self {bits : Nat} {n : Int} (h : isSigned (bits + 1) n = true) :
    signed (bits + 1) n = n := by
  have doubled : count (bits + 1) = count bits * 2 := rfl
  rw [isSigned_iff, Nat.add_sub_cancel] at h
  exact Int.bmod_eq_of_le (by omega) (by omega)

end Word

namespace Lowering

open Code (Constant Instr Machine Storage)
open Source (Instruction Module)

/-! ## Integers on the stack -/

/-- The width with which an integer of `bits` bits stands on the stack. -/
def stackBits (bits : Nat) : Nat := if bits ≤ 32 then 32 else 64

/-- The number that stands on the stack for an integer of `bits` bits: the integer itself, but 0 or
1 for a truth value. -/
def held (bits : Nat) (n : Int) : Int :=
  if bits = 1 then (if n = 0 then 0 else 1) else n

/-- The constant that is pushed for an integer of `bits` bits. -/
def literal (bits : Nat) (n : Int) : Constant :=
  if bits = 1 then .i4 (if n = 0 then 0 else 1)
  else if bits ≤ 32 then .i4 (Word.signed 32 n)
  else .i8 (Word.signed 64 n)

theorem held_of_ne {bits : Nat} (wide : bits ≠ 1) (n : Int) : held bits n = n := if_neg wide

/-- Two integers of one width are not held as one. -/
theorem held_inj {bits : Nat} {a b : Int} (ha : Word.isSigned bits a = true)
    (hb : Word.isSigned bits b = true) : held bits a = held bits b ↔ a = b := by
  by_cases bit : bits = 1
  · subst bit
    rw [Word.isSigned_one] at ha hb
    rcases ha with rfl | rfl <;> rcases hb with rfl | rfl <;> decide
  · rw [held_of_ne bit, held_of_ne bit]

/-- What is held fits into every word that is wide enough. -/
theorem isSigned_held_of_le {bits width : Nat} (wide : bits ≤ width) (two : 2 ≤ width) {n : Int}
    (h : Word.isSigned bits n = true) : Word.isSigned width (held bits n) = true := by
  by_cases bit : bits = 1
  · subst bit
    apply Word.isSigned_mono _ two
    rw [Word.isSigned_one] at h
    rcases h with rfl | rfl <;> decide
  · rw [held_of_ne bit]
    exact Word.isSigned_mono h wide

theorem isSigned_held {bits : Nat} (narrow : bits ≤ 64) {n : Int}
    (h : Word.isSigned bits n = true) : Word.isSigned (stackBits bits) (held bits n) = true := by
  apply isSigned_held_of_le _ _ h <;> rw [stackBits] <;> split <;> omega

/-! ## Machines that know integers -/

section Semantics

variable {V S : Type}

/-- The value that stands on the stack for an integer of `bits` bits. -/
def onStack (num : Nat → Int → V) (bits : Nat) (n : Int) : V := num (stackBits bits) (held bits n)

/-- What a jump table has for an index: nothing, if the index is out of range. -/
def labelAt? (labels : List Nat) (n : Int) : Option Nat :=
  if 0 ≤ n then labels[n.toNat]? else none

/-- A machine that knows integers: `num` gives the value for an integer of a width.  Marking an
operand of a phi leaves it on the stack and may be recorded in the store, by `enqueue`. -/
structure Dispatches (μ : Machine V S) (num : Nat → Int → V) (enqueue : Code.Ty → V → S → S) :
    Prop where
  /-- Variables are cells. -/
  read_write : ∀ store var x other,
    μ.read (μ.write store var x) other = if other = var then x else μ.read store other
  phiEnqueue : ∀ ty x stack store,
    μ.control (.phiEnqueue ty) (x :: stack) store = .next (x :: stack) (enqueue ty x store)
  branch : ∀ label stack store, μ.control (.branch label) stack store = .jump label stack store
  /-- Two integers of one width are compared. -/
  branchIfEqual : ∀ {width a b} label stack store,
    Word.isSigned width a = true → Word.isSigned width b = true →
      μ.control (.branchIfEqual label) (num width b :: num width a :: stack) store =
        if a = b then .jump label stack store else .next stack store
  /-- The table is indexed by what is popped, and passed by if that is out of range. -/
  switch : ∀ {width n} labels stack store, Word.isSigned width n = true →
    μ.control (.switch labels) (num width n :: stack) store =
      (labelAt? labels n).elim (.next stack store) (.jump · stack store)

/-- The cells of integer constants hold the integers. -/
structure HoldsNumbers (μ : Machine V S) (num : Nat → Int → V) (storage : Storage) (store : S) :
    Prop where
  narrow : ∀ {var v k}, storage.get? var = some v → v.place = .constant (.i4 k) →
    μ.read store var = num 32 k
  wide : ∀ {var v k}, storage.get? var = some v → v.place = .constant (.i8 k) →
    μ.read store var = num 64 k

variable {μ : Machine V S} {num : Nat → Int → V} {enqueue : Code.Ty → V → S → S}
  {storage : Storage}

/-- The variable is a method slot. -/
def IsSlot (storage : Storage) (var : Nat) : Prop :=
  ∃ v, storage.get? var = some v ∧ v.place = .slot

/-- Writing to a slot changes no constant. -/
theorem HoldsNumbers.write (laws : Dispatches μ num enqueue) {store : S}
    (h : HoldsNumbers μ num storage store) {var : Nat} (slot : IsSlot storage var) (x : V) :
    HoldsNumbers μ num storage (μ.write store var x) := by
  obtain ⟨v, there, place⟩ := slot
  have elsewhere {other : Nat} {w : Code.Variable} {value : Constant}
      (there' : storage.get? other = some w) (constant : w.place = .constant value) :
      μ.read (μ.write store var x) other = μ.read store other := by
    rw [laws.read_write, if_neg]
    rintro rfl
    rw [there] at there'
    cases there'
    rw [place] at constant
    cases constant
  constructor
  · intro other w k there' constant
    rw [elsewhere there' constant, h.narrow there' constant]
  · intro other w k there' constant
    rw [elsewhere there' constant, h.wide there' constant]

/-- The constant pushed for an integer holds what the integer is held as. -/
theorem HoldsNumbers.read_literal {store : S} (h : HoldsNumbers μ num storage store)
    {bits : Nat} (narrow : bits ≤ 64) {n : Int} (fits : Word.isSigned bits n = true)
    {ty : Code.Ty} {var : Nat} (isLiteral : IsConstant storage (literal bits n) ty var) :
    μ.read store var = onStack num bits n := by
  obtain ⟨v, there, place, -⟩ := isLiteral
  rw [literal] at place
  by_cases bit : bits = 1
  · rw [if_pos bit] at place
    rw [h.narrow there place, bit]
    rfl
  rw [if_neg bit] at place
  rw [onStack, held_of_ne bit, stackBits]
  by_cases short : bits ≤ 32
  · rw [if_pos short] at place
    rw [if_pos short, h.narrow there place,
      Word.signed_eq_self (Word.isSigned_mono fits short)]
  · rw [if_neg short] at place
    rw [if_neg short, h.wide there place, Word.signed_eq_self (Word.isSigned_mono fits narrow)]

/-! ## Selecting a case -/

/-- The code jumps to a label, or control comes out behind it if there is none. -/
def Picks (μ : Machine V S) (code : List Instr) (stack : List V) (store : S) (stack' : List V)
    (store' : S) : Option Nat → Prop
  | some label => μ.Ends code stack store (.jumped label stack' store')
  | none => μ.Leads code stack store stack' store'

theorem Picks.after (code : List Instr) {code' : List Instr} {stack stack₁ stack' : List V}
    {store store₁ store' : S} {label? : Option Nat}
    (first : μ.Leads code stack store stack₁ store₁)
    (h : Picks μ code' stack₁ store₁ stack' store' label?) :
    Picks μ (code ++ code') stack store stack' store' label? := by
  cases label? with
  | none => exact first.append h
  | some label => exact first.ends h

/-- A chain of comparisons of a variable with the values of cases. -/
inductive Comparing (storage : Storage) (bits copy : Nat) : List Case → List Instr → Prop
  | nil : Comparing storage bits copy [] []
  | cons {k : Case} {rest : List Case} {var : Nat} {ty : Code.Ty} {code : List Instr}
      (isLiteral : IsConstant storage (literal bits k.value) ty var)
      (later : Comparing storage bits copy rest code) :
    Comparing storage bits copy (k :: rest)
      (.load copy :: .load var :: .branchIfEqual k.label :: code)

/-- Code that selects a case by the index on top of the stack. -/
inductive Selecting (storage : Storage) (bits floor : Nat) (cases : List Case) :
    List Instr → Prop
  | table (dense : isDense 0 cases = true) :
    Selecting storage bits floor cases [.switch (cases.map (·.label))]
  /-- The index is kept in a slot that is as new as `floor` says. -/
  | chain {copy : Nat} {code : List Instr} (new : floor ≤ copy) (slot : IsSlot storage copy)
      (comparing : Comparing storage bits copy cases code) :
    Selecting storage bits floor cases (.store copy :: code)

/-- The first case with a value. -/
def caseOf? (cases : List Case) (n : Int) : Option Case := cases.find? fun k => k.value = n

@[simp] theorem caseOf?_nil (n : Int) : caseOf? [] n = none := rfl

theorem caseOf?_cons (k : Case) (rest : List Case) (n : Int) :
    caseOf? (k :: rest) n = if k.value = n then some k else caseOf? rest n := by
  by_cases same : k.value = n
  · rw [if_pos same]
    exact List.find?_cons_of_pos (by simpa using same)
  · rw [if_neg same]
    exact List.find?_cons_of_neg (by simpa using same)

/-- Among cases that count up, the value of a case is its position. -/
theorem caseOf?_dense {first : Int} {cases : List Case} (dense : isDense first cases = true)
    (n : Int) : caseOf? cases n = if first ≤ n then cases[(n - first).toNat]? else none := by
  induction cases generalizing first with
  | nil => simp
  | cons k rest ih =>
    rw [isDense, Bool.and_eq_true, beq_iff_eq] at dense
    rw [caseOf?_cons, dense.1, ih dense.2]
    by_cases here : first = n
    · subst here
      simp
    rw [if_neg here]
    by_cases less : first ≤ n
    · have next : (n - first).toNat = (n - (first + 1)).toNat + 1 := by omega
      rw [if_pos less, if_pos (by omega), next, List.getElem?_cons_succ]
    · rw [if_neg less, if_neg (by omega)]

/-- Among cases that count up, the case of an index is at the position that its stack form says. -/
theorem labelAt?_eq {cases : List Case} (dense : isDense 0 cases = true) {bits : Nat}
    (fits : ∀ k ∈ cases, Word.isSigned bits k.value = true) {n : Int}
    (small : Word.isSigned bits n = true) :
    labelAt? (cases.map (·.label)) (held bits n) = (caseOf? cases n).map (·.label) := by
  have table (n : Int) :
      labelAt? (cases.map (·.label)) n = (caseOf? cases n).map (·.label) := by
    rw [caseOf?_dense dense, labelAt?, Int.sub_zero]
    split
    · rw [List.getElem?_map]
    · rfl
  rw [table]
  by_cases bit : bits = 1
  · subst bit
    rw [Word.isSigned_one] at small
    rcases small with rfl | rfl
    · -- True is -1 as a value and 1 on the stack; no case that counts up is either.
      have noCase : caseOf? cases 1 = none := by
        refine List.find?_eq_none.2 fun k mem => ?_
        have value := Word.isSigned_one.1 (fits k mem)
        simp only [decide_eq_true_eq]
        omega
      show (caseOf? cases 1).map _ = _
      rw [noCase, caseOf?_dense dense]
      rfl
    · rfl
  · rw [held_of_ne bit]

/-- One step of a chain: jumps if the values are equal, and goes on if they are not. -/
theorem compare_picks (laws : Dispatches μ num enqueue) {store : S} {copy var width : Nat}
    {a b : Int} (label : Nat) (index : μ.read store copy = num width a)
    (value : μ.read store var = num width b) (ha : Word.isSigned width a = true)
    (hb : Word.isSigned width b = true) (stack : List V) :
    Picks μ [.load copy, .load var, .branchIfEqual label] stack store stack store
      (if a = b then some label else none) := by
  have loaded : μ.Leads [.load copy, .load var] stack store (num width b :: num width a :: stack)
      store := by
    have first := Machine.leads_load (μ := μ) copy stack store
    have second := Machine.leads_load (μ := μ) var (μ.read store copy :: stack) store
    rw [index] at first second
    rw [value] at second
    exact first.append second
  have jump := laws.branchIfEqual label stack store ha hb
  refine Picks.after [.load copy, .load var] loaded ?_
  split
  · rename_i same
    rw [if_pos same] at jump
    exact Machine.ends_jump rfl (Nat.le_add_left 2 _) jump
  · rename_i other
    rw [if_neg other] at jump
    exact Machine.leads_next rfl (Nat.le_add_left 2 _) jump

/-- A chain jumps to the first case with the value of the variable. -/
theorem Comparing.picks (laws : Dispatches μ num enqueue) {store : S}
    (holds : HoldsNumbers μ num storage store) {bits copy : Nat} (narrow : bits ≤ 64)
    {cases : List Case} {code : List Instr} (h : Comparing storage bits copy cases code)
    (fits : ∀ k ∈ cases, Word.isSigned bits k.value = true) {n : Int}
    (small : Word.isSigned bits n = true)
    (index : μ.read store copy = onStack num bits n) (stack : List V) :
    Picks μ code stack store stack store ((caseOf? cases n).map (·.label)) := by
  induction h with
  | nil => exact Machine.Leads.refl stack store
  | @cons k rest var ty code isLiteral later ih =>
    have here := fits k List.mem_cons_self
    have step := compare_picks laws k.label index
      (holds.read_literal narrow here isLiteral) (isSigned_held narrow small)
      (isSigned_held narrow here) stack
    rw [caseOf?_cons]
    by_cases same : k.value = n
    · rw [if_pos ((held_inj small here).2 same.symm)] at step
      rw [if_pos same]
      intro behind
      exact step (code ++ behind)
    · rw [if_neg fun equal => same ((held_inj small here).1 equal).symm] at step
      rw [if_neg same]
      exact Picks.after [.load copy, .load var, .branchIfEqual k.label] step
        (ih fun k mem => fits k (List.mem_cons_of_mem _ mem))

/-- A table jumps to the first case with the value of the index on top of the stack. -/
theorem table_picks (laws : Dispatches μ num enqueue) {bits : Nat} (narrow : bits ≤ 64)
    {cases : List Case} (dense : isDense 0 cases = true)
    (fits : ∀ k ∈ cases, Word.isSigned bits k.value = true) {n : Int}
    (small : Word.isSigned bits n = true) (stack : List V) (store : S) :
    Picks μ [.switch (cases.map (·.label))] (onStack num bits n :: stack) store stack store
      ((caseOf? cases n).map (·.label)) := by
  have jump := laws.switch (cases.map (·.label)) stack store (isSigned_held narrow small)
  rw [labelAt?_eq dense fits small] at jump
  cases found : (caseOf? cases n).map (·.label) with
  | none =>
    rw [found] at jump
    exact Machine.leads_next rfl (Nat.le_add_left 1 _) jump
  | some label =>
    rw [found] at jump
    exact Machine.ends_jump rfl (Nat.le_add_left 1 _) jump

/-- A chain does so too, once the index is copied. -/
theorem Comparing.picks_stored (laws : Dispatches μ num enqueue) {store : S}
    (holds : HoldsNumbers μ num storage store) {bits copy : Nat} (narrow : bits ≤ 64)
    (slot : IsSlot storage copy) {cases : List Case} {code : List Instr}
    (h : Comparing storage bits copy cases code)
    (fits : ∀ k ∈ cases, Word.isSigned bits k.value = true) {n : Int}
    (small : Word.isSigned bits n = true) (stack : List V) :
    Picks μ (.store copy :: code) (onStack num bits n :: stack) store stack
      (μ.write store copy (onStack num bits n)) ((caseOf? cases n).map (·.label)) := by
  refine Picks.after [.store copy] (Machine.leads_store copy _ stack store) ?_
  refine h.picks laws (holds.write laws slot _) narrow fits small ?_ stack
  rw [laws.read_write, if_pos rfl]

/-- The stores are the same, but for a slot that is as new as `floor` says. -/
def SameBut (μ : Machine V S) (storage : Storage) (floor : Nat) (x : V) (store store' : S) : Prop :=
  store' = store ∨ ∃ copy, floor ≤ copy ∧ IsSlot storage copy ∧ store' = μ.write store copy x

theorem SameBut.holdsNumbers (laws : Dispatches μ num enqueue) {floor : Nat} {x : V}
    {store store' : S} (h : SameBut μ storage floor x store store')
    (holds : HoldsNumbers μ num storage store) : HoldsNumbers μ num storage store' := by
  rcases h with rfl | ⟨copy, -, slot, rfl⟩
  · exact holds
  · exact holds.write laws slot x

/-- Either kind of code jumps to the first case with the value of the index on top of the stack. -/
theorem Selecting.picks (laws : Dispatches μ num enqueue) {store : S}
    (holds : HoldsNumbers μ num storage store) {bits floor : Nat} (narrow : bits ≤ 64)
    {cases : List Case} {code : List Instr} (h : Selecting storage bits floor cases code)
    (fits : ∀ k ∈ cases, Word.isSigned bits k.value = true) {n : Int}
    (small : Word.isSigned bits n = true) (stack : List V) :
    ∃ store', SameBut μ storage floor (onStack num bits n) store store' ∧
      Picks μ code (onStack num bits n :: stack) store stack store'
        ((caseOf? cases n).map (·.label)) := by
  cases h with
  | table dense => exact ⟨store, .inl rfl, table_picks laws narrow dense fits small stack store⟩
  | @chain copy code new slot comparing =>
    exact ⟨_, .inr ⟨copy, new, slot, rfl⟩,
      comparing.picks_stored laws holds narrow slot fits small stack⟩

end Semantics

end Lowering

end Stackwise
