import Mathlib.Data.Int.Order.Basic
import Mathlib.Order.Lattice
import Stackwise.Proofs.Lowering.Addresses

/-!
# Comparisons decide their predicates

The stack machine has five comparisons and no negation, so a source predicate is tested by one of
them, and the outcome is perhaps compared with zero.  `IntPredicate.holds` and
`FloatPredicate.holds` say what predicates mean, `Comparison.ofWords` and `Comparison.ofFloats` what
the comparisons of a machine say (`Compares`).

* `outcome_intTest`, `outcome_floatTest`: the outcome of a test against the predicate.  Integers are
  extended with their sign even for an unsigned comparison, which keeps the unsigned order
  (`emod_held_lt_iff`).
* `leads_testCode`: the code of a test leaves that outcome on the stack.
* `comparisons_decide`: both together, for the whole code of a comparison.

Two tests slip (`comparisons_slip`).  Truth values are held as 0 and 1, so they are in the opposite
order when they are compared as signed numbers.  And `one` and `ueq` share the tests of `une` and
`oeq`, which answer differently if an operand is no number.
-/

namespace Stackwise

/-! ## What predicates mean -/

namespace Source

/-- Whether a predicate holds of two integers of one width. -/
def IntPredicate.holds {bits : Nat} (x y : BitVec bits) : IntPredicate → Bool
  | .eq => x = y
  | .ne => x ≠ y
  | .ugt => y.ult x
  | .uge => y.ule x
  | .ult => x.ult y
  | .ule => x.ule y
  | .sgt => y.slt x
  | .sge => y.sle x
  | .slt => x.slt y
  | .sle => x.sle y

/-- Whether a predicate reads its operands as signed numbers. -/
def IntPredicate.isSigned : IntPredicate → Bool
  | .sgt | .sge | .slt | .sle => true
  | _ => false

section Floats

variable {α : Type} [LinearOrder α]

/-- Whether a predicate holds of two floats that are numbers. -/
def FloatPredicate.holdsOf (x y : α) : FloatPredicate → Bool
  | .oeq | .ueq => x = y
  | .ogt | .ugt => y < x
  | .oge | .uge => y ≤ x
  | .olt | .ult => x < y
  | .ole | .ule => x ≤ y
  | .one | .une => x ≠ y
  | .ord | .always => true
  | .uno | .never => false

/-- Whether a predicate holds as soon as one of the floats is no number. -/
def FloatPredicate.unordered : FloatPredicate → Bool
  | .ueq | .ugt | .uge | .ult | .ule | .une | .uno | .always => true
  | _ => false

/-- Whether a predicate holds of two floats. -/
def FloatPredicate.holds (p : FloatPredicate) : (x y : Option α) → Bool
  | some x, some y => p.holdsOf x y
  | _, _ => p.unordered

end Floats

end Source

/-! ## What the machine compares -/

namespace Code

/-- What a comparison says of two integers that stand on the stack in a width. -/
def Comparison.ofWords (width : Nat) (a b : Int) : Comparison → Bool
  | .eq => a = b
  | .gt => b < a
  | .lt => a < b
  | .gtUn => b % Word.count width < a % Word.count width
  | .ltUn => a % Word.count width < b % Word.count width

/-- What a comparison says of two floats; none is no number. -/
def Comparison.ofFloats {α : Type} [LinearOrder α] (op : Comparison) : (x y : Option α) → Bool
  | some x, some y =>
    match op with
    | .eq => x = y
    | .gt | .gtUn => y < x
    | .lt | .ltUn => x < y
  | _, _ => op = .gtUn || op = .ltUn

end Code

namespace Lowering

open Code (Comparison Constant Instr Machine Storage)
open Emit (Writes)
open Source (FloatPredicate IntPredicate Module)

/-! ## Integers -/

section Integers

variable {bits width : Nat} (x y : BitVec bits)

/-- A number of a width is itself or less by a power of two when it is read as signed. -/
theorem toInt_cases :
    2 * x.toNat < Word.count bits ∧ x.toInt = x.toNat ∨
      Word.count bits ≤ 2 * x.toNat ∧ x.toInt = x.toNat - Word.count bits := by
  have same := BitVec.toInt_eq_toNat_cond x
  change x.toInt = if 2 * x.toNat < Word.count bits then (x.toNat : Int)
    else x.toNat - (Word.count bits : Int) at same
  split at same
  next small => exact .inl ⟨small, same⟩
  next large => exact .inr ⟨Nat.le_of_not_lt large, same⟩

/-- It fits its width. -/
theorem isSigned_toInt : Word.isSigned bits x.toInt = true := by
  have below : x.toNat < Word.count bits := x.isLt
  have either := toInt_cases x
  rw [Word.isSigned_iff]
  cases bits with
  | zero =>
    have one : Word.count 0 = 1 := rfl
    rw [Nat.zero_sub]
    omega
  | succ bits =>
    have doubled : Word.count (bits + 1) = Word.count bits * 2 := rfl
    rw [Nat.add_sub_cancel]
    omega

/-- On the stack, a negative number takes the upper half of the words. -/
theorem emod_toInt (wide : bits ≤ width) :
    x.toInt % Word.count width =
      if 2 * x.toNat < Word.count bits then (x.toNat : Int)
      else x.toNat - Word.count bits + Word.count width := by
  have below : x.toNat < Word.count bits := x.isLt
  have more : Word.count bits ≤ Word.count width := Nat.pow_le_pow_right Nat.zero_lt_two wide
  rcases toInt_cases x with ⟨small, same⟩ | ⟨large, same⟩
  · rw [same, if_pos small]
    exact Int.emod_eq_of_lt (by omega) (by omega)
  · rw [same, if_neg (Nat.not_lt.2 large), ← Int.add_emod_right]
    exact Int.emod_eq_of_lt (by omega) (by omega)

/-- A truth value stands on the stack as zero or one, not as its signed number. -/
theorem held_bit (x : BitVec 1) : held 1 x.toInt = x.toNat := by
  revert x
  decide

/-- Signed extension keeps the unsigned order. -/
theorem emod_held_lt_iff (wide : bits ≤ width) :
    held bits x.toInt % Word.count width < held bits y.toInt % Word.count width ↔
      x.toNat < y.toNat := by
  have x_lt : x.toNat < Word.count bits := x.isLt
  have y_lt : y.toNat < Word.count bits := y.isLt
  have more : Word.count bits ≤ Word.count width := Nat.pow_le_pow_right Nat.zero_lt_two wide
  by_cases bit : bits = 1
  · subst bit
    rw [held_bit, held_bit, Int.emod_eq_of_lt (by omega) (by omega),
      Int.emod_eq_of_lt (by omega) (by omega)]
    omega
  · rw [held_of_ne bit, held_of_ne bit, emod_toInt x wide, emod_toInt y wide]
    split <;> split <;> omega

/-- Numbers of other widths keep their signed order on the stack. -/
theorem held_lt_iff (wide : bits ≠ 1) :
    held bits x.toInt < held bits y.toInt ↔ x.toInt < y.toInt := by
  rw [held_of_ne wide, held_of_ne wide]

/-- Truth values are held in the opposite order. -/
theorem held_bit_lt_iff (x y : BitVec 1) : held 1 x.toInt < held 1 y.toInt ↔ y.toInt < x.toInt := by
  revert x y
  decide

/-- Different numbers are different on the stack, in every width. -/
theorem held_eq_iff : held bits x.toInt = held bits y.toInt ↔ x = y := by
  rw [held_inj (isSigned_toInt x) (isSigned_toInt y), BitVec.toInt_inj]

end Integers

/-- The outcome of a test, given what the comparisons say. -/
def Test.outcome (answers : Comparison → Bool) (test : Test) : Bool :=
  answers test.comparison ^^ test.inverted

section

variable {bits width : Nat} (x y : BitVec bits)

/-- Two different truth values are compared the wrong way round. -/
def intSlips (p : IntPredicate) : Bool := bits = 1 && p.isSigned && x ≠ y

/-- A test of integers answers as its predicate does, except where two truth values slip. -/
theorem outcome_intTest (wide : bits ≤ width) (p : IntPredicate) :
    (intTest p).outcome (Comparison.ofWords width (held bits x.toInt) (held bits y.toInt)) =
      (p.holds x y ^^ intSlips x y p) := by
  cases p with
  | eq | ne =>
    simp [Test.outcome, intTest, Comparison.ofWords, IntPredicate.holds, intSlips,
      IntPredicate.isSigned, held_eq_iff]
  | ugt | uge | ult | ule =>
    simp [Test.outcome, intTest, Comparison.ofWords, IntPredicate.holds, intSlips,
      IntPredicate.isSigned, emod_held_lt_iff _ _ wide, BitVec.ule_eq_not_ult, BitVec.ult]
  | sgt | sge | slt | sle =>
    by_cases bit : bits = 1
    · subst bit
      simp only [Test.outcome, intTest, Comparison.ofWords, held_bit_lt_iff]
      revert x y
      decide
    · simp [Test.outcome, intTest, Comparison.ofWords, IntPredicate.holds, intSlips,
        IntPredicate.isSigned, held_lt_iff _ _ bit, bit, BitVec.sle_eq_not_slt, BitVec.slt]

end

/-! ## Floats -/

/-- The outcome of a comparison of floats, if there is a way to decide it. -/
def FloatTest.outcome (answers : Comparison → Bool) : FloatTest → Option Bool
  | .test t => some (t.outcome answers)
  | .fixed outcome => some outcome
  | .none => Option.none

theorem floatTest_ne_none (p : FloatPredicate) :
    decide (p ≠ .ord ∧ p ≠ .uno) = decide (floatTest p ≠ .none) := by
  cases p <;> rfl

section

variable {α : Type} [LinearOrder α] (x y : Option α)

/-- Two predicates are tested like others that answer differently where there is no number. -/
def floatSlips (p : FloatPredicate) : Bool := (p = .one || p = .ueq) && (x.isNone || y.isNone)

/-- A test of floats answers as its predicate does, except where a missing number slips. -/
theorem outcome_floatTest {p : FloatPredicate} {outcome : Bool}
    (h : (floatTest p).outcome (fun op => op.ofFloats x y) = some outcome) :
    outcome = (p.holds x y ^^ floatSlips x y p) := by
  cases x with
  | none => cases p <;> cases h <;> rfl
  | some x =>
    cases y with
    | none => cases p <;> cases h <;> rfl
    | some y =>
      have slipless : floatSlips (some x) (some y) p = false := Bool.and_false _
      rw [slipless, Bool.xor_false]
      cases p <;> cases h <;>
        simp [Test.outcome, Comparison.ofFloats, FloatPredicate.holds, FloatPredicate.holdsOf,
          ← not_lt]

end

/-! ## The code of a test -/

section Semantics

variable {V S α : Type} [LinearOrder α]

/-- How a truth value stands on the stack. -/
def truth (num : Nat → Int → V) (outcome : Bool) : V := num 32 (if outcome then 1 else 0)

/-- A machine that compares: `num` gives the value for an integer of a width, `float` the one for a
float. -/
structure Compares (μ : Machine V S) (num : Nat → Int → V) (float : Option α → V) : Prop where
  words : ∀ {width a b} op store, Word.isSigned width a = true → Word.isSigned width b = true →
    μ.plain (.compare op) [num width b, num width a] store =
      some ([truth num (op.ofWords width a b)], store)
  floats : ∀ x y op store, μ.plain (.compare op) [float y, float x] store =
    some ([truth num (op.ofFloats x y)], store)

/-- What the comparisons of a machine say of two values. -/
def ComparedAs (μ : Machine V S) (num : Nat → Int → V) (x y : V) (answers : Comparison → Bool) :
    Prop :=
  ∀ op store, μ.plain (.compare op) [y, x] store = some ([truth num (answers op)], store)

variable {μ : Machine V S} {num : Nat → Int → V} {float : Option α → V} {c : Context}
  {final : Storage} {pushValue : Nat → Emit Unit}

/-- The code of a test pushes the outcome that the comparisons give. -/
theorem leads_testCode (laws : Compares μ num float) {x y : V} {answers : Comparison → Bool}
    (compared : ComparedAs μ num x y answers) {test : Test} {z : Nat}
    (zero : test.inverted = true → IsConstant final (.i4 0) .int32 z) {store : S}
    (holds : HoldsNumbers μ num final store) (stack : List V) :
    μ.Leads (testCode test z) (y :: x :: stack) store (truth num (test.outcome answers) :: stack)
      store := by
  obtain ⟨op, inverted⟩ := test
  have first := Machine.leads_plain (.compare op) [y, x] [truth num (answers op)] rfl rfl
    (compared op store) stack
  cases inverted with
  | false =>
    rw [Test.outcome, Bool.xor_false]
    exact first
  | true =>
    -- The outcome is 0 or 1, and equal to 0 in the opposite case.
    obtain ⟨v, there, place, -⟩ := zero rfl
    have second := Machine.leads_load (μ := μ) z (truth num (answers op) :: stack) store
    rw [holds.narrow there place] at second
    have fits : Word.isSigned 32 (if answers op then 1 else 0) = true := by
      cases answers op <;> decide
    have third := Machine.leads_plain (.compare .eq) [num 32 0, truth num (answers op)]
      [truth num (Comparison.ofWords 32 (if answers op then 1 else 0) 0 .eq)] rfl rfl
      (laws.words .eq store fits (by decide)) stack
    have opposite : Comparison.ofWords 32 (if answers op then 1 else 0) 0 .eq =
        (answers op ^^ true) := by
      cases answers op <;> rfl
    rw [opposite] at third
    exact first.append (second.append third)

/-- Code that pops two operands, which stand on the stack as `operand` gives them, and stores in
`result` what `answers` tells of them. -/
def Tests {β : Type} (μ : Machine V S) (num : Nat → Int → V) (result : Nat) (operand : β → V)
    (answers : β → β → Bool) (final : Storage) (code : List Instr) : Prop :=
  ∀ ⦃x y : β⦄ ⦃store : S⦄, HoldsNumbers μ num final store → ∀ stack,
    μ.Leads code (operand y :: operand x :: stack) store stack
      (μ.write store result (truth num (answers x y)))

/-- Code that pushes the first two operands and stores in `result` what `answers` tells of them. -/
def StoresOutcome {β : Type} (μ : Machine V S) (num : Nat → Int → V) (c : Context)
    (pushValue : Nat → Emit Unit) (operands : List Nat) (result : Nat) (operand : β → V)
    (answers : β → β → Bool) (final : Storage) (code : List Instr) : Prop :=
  ∃ a b more first second, operands = a :: b :: more ∧ CodeOf c final (pushValue a) first ∧
    CodeOf c final (pushValue b) second ∧
    ∀ ⦃x y : β⦄ ⦃stack : List V⦄ ⦃store between after : S⦄, HoldsNumbers μ num final after →
      μ.Leads first stack store (operand x :: stack) between →
      μ.Leads second (operand x :: stack) between (operand y :: operand x :: stack) after →
      μ.Leads code stack store stack (μ.write after result (truth num (answers x y)))

theorem operand_writes (adds : ∀ value s, Emit.Adds c s (pushValue value)) (s : Ledger)
    (start : Spot) (operands : List Nat) (k : Nat) (broken : Breach) :
    Writes c s (Emit.operandAt start operands k broken >>= pushValue) fun final code =>
      ∃ value, operands[k]? = some value ∧ CodeOf c final (pushValue value) code := by
  refine .read (Emit.operandAt_reads _ _ _ _) fun value found => ?_
  exact (writes_codeOf (adds value) s).imp fun final code _ isPush => ⟨value, found, isPush⟩

/-- The two operands are pushed in their order, and then tested. -/
theorem operands_write (adds : ∀ value s, Emit.Adds c s (pushValue value)) (s : Ledger)
    (start : Spot) (operands : List Nat) (broken broken' : Breach) (result : Nat) {β : Type}
    {operand : β → V} {answers : β → β → Bool} {test : Emit Unit}
    (tests : ∀ s, Writes c s test (Tests μ num result operand answers)) :
    Writes c s (do
      Emit.operandAt start operands 0 broken >>= pushValue
      Emit.operandAt start operands 1 broken' >>= pushValue
      test) (StoresOutcome μ num c pushValue operands result operand answers) := by
  refine Writes.bind (operand_writes adds s start operands 0 broken)
    (Q := fun final code => ∃ b second own, operands[1]? = some b ∧
      CodeOf c final (pushValue b) second ∧ Tests μ num result operand answers final own ∧
      code = second ++ own) (fun _ s _ => ?_) ?_
  · refine Writes.bind (operand_writes adds s start operands 1 broken') (fun _ s _ => tests s) ?_
    rintro final second own _ ⟨b, found, isPush⟩ isTest
    exact ⟨b, second, own, found, isPush, isTest, rfl⟩
  · rintro final first _ _ ⟨a, found, isPush⟩ ⟨b, second, own, found', isPush', isTest, rfl⟩
    obtain _ | ⟨a', _ | ⟨b', more⟩⟩ := operands
    · cases found
    · cases found'
    · cases found
      cases found'
      refine ⟨a, b, more, first, second, rfl, isPush, isPush', ?_⟩
      intro x y stack store between after holds led led'
      exact led.append (led'.append (isTest holds stack))

/-- A test with a comparison of the machine. -/
theorem runTest_tests (laws : Compares μ num float) (s : Ledger) (test : Test) (result : Nat)
    {β : Type} {operand : β → V} {answers : β → β → Comparison → Bool}
    (compared : ∀ x y, ComparedAs μ num (operand x) (operand y) (answers x y)) :
    Writes c s (do runTest test; Emit.instr (.store result))
      (Tests μ num result operand fun x y => test.outcome (answers x y)) := by
  refine ((runTest_writes s test).code_after [.store result]).imp ?_
  rintro final _ _ ⟨_, ⟨z, rfl, zero⟩, rfl⟩ x y store holds stack
  exact (leads_testCode laws (compared x y) zero holds stack).append
    (Machine.leads_store result _ stack store)

/-- A test whose outcome is known: the operands are dropped. -/
theorem fixed_tests (s : Ledger) (outcome : Bool) (result : Nat) {β : Type} (operand : β → V) :
    Writes c s (do
      Emit.code [.pop, .pop]
      Emit.constant (.i4 (if outcome then 1 else 0)) .bool
      Emit.instr (.store result)) (Tests μ num result operand fun _ _ => outcome) := by
  refine (Writes.code_before [.pop, .pop] fun s =>
    (constant_loads s _ _).code_after [.store result]).imp ?_
  rintro final _ _ ⟨_, ⟨_, ⟨var, rfl, v, there, place, -⟩, rfl⟩, rfl⟩ x y store holds stack
  have pop (z : V) (stack : List V) : μ.Leads [.pop] (z :: stack) store stack store :=
    Machine.leads_step rfl (Nat.le_add_left 1 _) (μ.step_pop z stack store)
  have loads := Machine.leads_load (μ := μ) var stack store
  rw [holds.narrow there place] at loads
  have stores := Machine.leads_store (μ := μ) result (truth num outcome) stack store
  exact (pop _ _).append ((pop _ _).append (loads.append stores))

/-- A comparison of integers stores what its predicate answers, apart from slips. -/
theorem icmp_writes (laws : Compares μ num float)
    (adds : ∀ value s, Emit.Adds c s (pushValue value)) (s : Ledger) (p : IntPredicate)
    (operands : List Nat) (ty result origin : Nat) {bits width : Nat} (wide : bits ≤ width)
    (word : 32 ≤ width) :
    Writes c s (operation pushValue (.icmp p) operands ty result origin)
      (StoresOutcome μ num c pushValue operands result
        (fun x : BitVec bits => num width (held bits x.toInt))
        fun x y => p.holds x y ^^ intSlips x y p) := by
  have fits (x : BitVec bits) : Word.isSigned width (held bits x.toInt) = true :=
    isSigned_held_of_le wide (by omega) (isSigned_toInt x)
  simp only [← outcome_intTest _ _ wide]
  refine .read Emit.spot_reads fun start _ => .read Emit.module_reads fun _ _ => ?_
  refine operands_write adds s start operands _ _ result fun s => ?_
  exact runTest_tests laws s _ result fun x y op store => laws.words op store (fits x) (fits y)

/-- A comparison of floats stores what its predicate answers, apart from slips. -/
theorem fcmp_writes (laws : Compares μ num float)
    (adds : ∀ value s, Emit.Adds c s (pushValue value)) (s : Ledger) (p : FloatPredicate)
    (operands : List Nat) (ty result origin : Nat) :
    Writes c s (operation pushValue (.fcmp p) operands ty result origin)
      (StoresOutcome μ num c pushValue operands result float
        fun x y => p.holds x y ^^ floatSlips x y p) := by
  unfold operation
  dsimp only
  refine .read Emit.spot_reads fun start _ => .read Emit.module_reads fun _ _ => ?_
  refine operands_write adds s start operands _ _ result fun s => ?_
  cases decided : floatTest p with
  | test t =>
    have outcome (x y : Option α) : (p.holds x y ^^ floatSlips x y p) =
        t.outcome (fun op => op.ofFloats x y) :=
      (outcome_floatTest x y (by rw [decided]; rfl)).symm
    simp only [outcome]
    exact runTest_tests laws s t result laws.floats
  | fixed answer =>
    have outcome (x y : Option α) : (p.holds x y ^^ floatSlips x y p) = answer :=
      (outcome_floatTest x y (by rw [decided]; rfl)).symm
    simp only [outcome]
    exact fixed_tests s answer result float
  | none =>
    exact Emit.Ensures.bind (P := fun _ => False) (Emit.unsupported_ensures _ _ _)
      fun _ no => no.elim

/-! ## Which comparisons are lowered -/

namespace Emit

variable {β γ δ : Type} {x : Emit β} {f : β → Emit γ} {spot : Spot} {s : Ledger} {also : Bool}

theorem pure_bind (a : β) (f : β → Emit γ) : (pure a >>= f) = f a := by
  funext c spot s
  change Emit.bind (Emit.pure a) f c spot s = f a c spot s
  unfold Emit.bind Emit.pure
  dsimp only [List.length_nil, Nat.add_zero, List.nil_append]
  cases f a c spot s <;> rfl

/-- The second step goes through as another one does, on a condition. -/
theorem succeeds_bind_and {g : β → Emit δ}
    (later : ∀ a spot s, (f a).succeeds c spot s = ((g a).succeeds c spot s && also)) :
    (x >>= f).succeeds c spot s = ((x >>= g).succeeds c spot s && also) := by
  rw [Bool.eq_iff_iff, Bool.and_eq_true, succeeds_bind_iff, succeeds_bind_iff]
  simp only [later, Bool.and_eq_true]
  constructor
  · rintro ⟨e, run, goes, also⟩
    exact ⟨⟨e, run, goes⟩, also⟩
  · rintro ⟨⟨e, run, goes⟩, also⟩
    exact ⟨e, run, goes, also⟩

/-- If the second step goes through or not whatever the first gives, then both together go through
if both do. -/
theorem succeeds_bind_const (later : ∀ a spot s, (f a).succeeds c spot s = also) :
    (x >>= f).succeeds c spot s = (x.succeeds c spot s && also) := by
  rw [Bool.eq_iff_iff, Bool.and_eq_true, succeeds_bind_iff, succeeds_iff]
  simp only [later]
  exact exists_and_right

end Emit

theorem succeeds_runTest (test : Test) (result : Nat) (spot : Spot) (s : Ledger) :
    (do runTest test; Emit.instr (.store result) : Emit Unit).succeeds c spot s = true := by
  obtain ⟨op, inverted⟩ := test
  refine Emit.succeeds_bind (Emit.succeeds_bind rfl fun _ spot s => ?_) fun _ _ _ => rfl
  cases inverted with
  | false => rfl
  | true => exact Emit.succeeds_bind (Emit.succeeds_constant _ _ spot s) fun _ _ _ => rfl

/-- Behind two operands only the test can fail. -/
theorem succeeds_operands (a b : Nat) {test : Emit Unit} {also : Bool}
    (later : ∀ spot s, test.succeeds c spot s = also) (spot : Spot) (s : Ledger) :
    (do (pure a >>= pushValue); (pure b >>= pushValue); test : Emit Unit).succeeds c spot s =
      ((do pushValue a; pushValue b : Emit Unit).succeeds c spot s && also) := by
  simp only [Emit.pure_bind]
  exact Emit.succeeds_bind_and fun _ _ _ => Emit.succeeds_bind_const fun _ => later

/-- Every comparison of integers is lowered if its operands can be pushed. -/
theorem succeeds_icmp (p : IntPredicate) (a b : Nat) (more : List Nat) (ty result origin : Nat)
    (spot : Spot) (s : Ledger) :
    (operation pushValue (.icmp p) (a :: b :: more) ty result origin).succeeds c spot s =
      (do pushValue a; pushValue b : Emit Unit).succeeds c spot s := by
  rw [operation, Emit.succeeds_read (a := spot) rfl, Emit.succeeds_read (a := c.module) rfl]
  refine (succeeds_operands a b (fun spot s => succeeds_runTest _ result spot s) spot s).trans ?_
  exact Bool.and_true _

/-- A comparison of floats is not lowered if it only asks whether both are numbers. -/
theorem succeeds_fcmp (p : FloatPredicate) (a b : Nat) (more : List Nat) (ty result origin : Nat)
    (spot : Spot) (s : Ledger) :
    (operation pushValue (.fcmp p) (a :: b :: more) ty result origin).succeeds c spot s =
      ((do pushValue a; pushValue b : Emit Unit).succeeds c spot s && (p ≠ .ord ∧ p ≠ .uno)) := by
  unfold operation
  dsimp only
  rw [Emit.succeeds_read (a := spot) rfl, Emit.succeeds_read (a := c.module) rfl,
    floatTest_ne_none]
  refine succeeds_operands a b (fun spot s => ?_) spot s
  cases floatTest p with
  | test t => exact succeeds_runTest t result spot s
  | fixed answer =>
    exact Emit.succeeds_bind rfl fun _ spot s =>
      Emit.succeeds_bind (Emit.succeeds_constant _ _ spot s) fun _ _ _ => rfl
  | none => rfl

/-- A comparison stores whether its predicate holds, but for two slips.

Integers of any width stand on the stack extended with their sign, truth values as 0 or 1; floats
are numbers of some order or no number.  Code for a comparison pushes both operands and then stores
1 or 0.  That is the answer of the predicate, except that the opposite is stored for two different
truth values in the signed order, and for the predicates `one` and `ueq` if an operand is no number.

A comparison is lowered exactly if its operands are and there is a test for its predicate, which
`ord` and `uno` do not have. -/
theorem comparisons_decide (laws : Compares μ num float) (c : Context)
    (pushValue : Nat → Emit Unit) (adds : ∀ value s, Emit.Adds c s (pushValue value))
    (operands : List Nat) (ty result origin : Nat) (spot : Spot) (s : Ledger) :
    (∀ p e, operation pushValue (.icmp p) operands ty result origin c spot s = .ok e →
      ∀ final, e.storage.Grows c.module final → ∀ bits width, bits ≤ width → 32 ≤ width →
        StoresOutcome μ num c pushValue operands result
          (fun x : BitVec bits => num width (held bits x.toInt))
          (fun x y => p.holds x y ^^ (bits = 1 && p.isSigned && x ≠ y)) final e.code) ∧
    (∀ p e, operation pushValue (.fcmp p) operands ty result origin c spot s = .ok e →
      ∀ final, e.storage.Grows c.module final →
        StoresOutcome μ num c pushValue operands result float
          (fun x y => p.holds x y ^^ ((p = .one || p = .ueq) && (x.isNone || y.isNone)))
          final e.code) ∧
    ∀ a b more, operands = a :: b :: more →
      (∀ p, (operation pushValue (.icmp p) operands ty result origin).succeeds c spot s =
        (do pushValue a; pushValue b : Emit Unit).succeeds c spot s) ∧
      ∀ p, (operation pushValue (.fcmp p) operands ty result origin).succeeds c spot s =
        ((do pushValue a; pushValue b : Emit Unit).succeeds c spot s && (p ≠ .ord ∧ p ≠ .uno)) := by
  refine ⟨?_, ?_, ?_⟩
  · intro p e lowered final later bits width wide word
    exact (icmp_writes laws adds s p operands ty result origin wide word lowered).2 final later
  · intro p e lowered final later
    exact (fcmp_writes laws adds s p operands ty result origin lowered).2 final later
  · rintro a b more rfl
    exact ⟨fun p => succeeds_icmp p a b more ty result origin spot s,
      fun p => succeeds_fcmp p a b more ty result origin spot s⟩

end Semantics

/-! ## Three comparisons -/

/-- A value on the stack: an integer with its width, or a float. -/
abbrev Scalar : Type := (Nat × Int) ⊕ Option Int

/-- An integer of a width. -/
def wordOf (width : Nat) (n : Int) : Scalar := .inl (width, n)

/-- What the cell of a place holds: constants and arguments are fixed. -/
def scalarCell (args : Nat → Scalar) (cell : Scalar) : Option Code.Place → Scalar
  | some (.constant (.i4 k)) => wordOf 32 k
  | some (.constant (.i8 k)) => wordOf 64 k
  | some (.parameter index) => args index
  | _ => cell

/-- A machine that only compares. -/
def scalarMachine (storage : Storage) (args : Nat → Scalar) :
    Machine Scalar (Nat → Scalar) where
  read store var := scalarCell args (store var) ((storage.get? var).map (·.place))
  write store var x := fun other => if other = var then x else store other
  address var := wordOf 64 var
  field _ _ := none
  fetch _ _ _ := none
  assign _ _ _ _ := none
  size _ := wordOf 64 0
  plain
    | .compare op, [.inl (width, b), .inl (_, a)], store =>
      some ([truth wordOf (op.ofWords width a b)], store)
    | .compare op, [.inr y, .inr x], store => some ([truth wordOf (op.ofFloats x y)], store)
    | _, _, _ => none
  length_plain h := by
    split at h <;> cases h <;> rfl
  control
    | .ret true, x :: _, store => .leave (some x) store
    | _, stack, store => .next stack store

/-- The machine compares as it should. -/
theorem scalarMachine_compares (storage : Storage) (args : Nat → Scalar) :
    Compares (scalarMachine storage args) wordOf (.inr : Option Int → Scalar) where
  words _ _ _ _ := rfl
  floats _ _ _ _ := rfl

theorem read_scalarMachine {storage : Storage} {var : Nat} {v : Code.Variable}
    (args : Nat → Scalar) (store : Nat → Scalar) (there : storage.get? var = some v) :
    (scalarMachine storage args).read store var =
      scalarCell args (store var) (some v.place) := by
  change scalarCell args (store var) _ = _
  rw [there]
  rfl

theorem scalarMachine_holdsNumbers (storage : Storage) (args store : Nat → Scalar) :
    HoldsNumbers (scalarMachine storage args) wordOf storage store where
  narrow there place := by
    rw [read_scalarMachine args store there, place]
    rfl
  wide there place := by
    rw [read_scalarMachine args store there, place]
    rfl

/-- Pushing an argument loads it. -/
theorem PushCode.leads_argument {c : Context} {final : Storage} {value : Nat}
    {code : List Instr} (h : PushCode c final value code) (function index : Nat)
    (isArgument : (c.module.value? value).map (·.kind) = some (.argument function index))
    (args store : Nat → Scalar) (stack : List Scalar) :
    (scalarMachine final args).Leads code stack store (args index :: stack) store := by
  obtain ⟨v, found, kind⟩ := Option.map_eq_some_iff.1 isArgument
  obtain ⟨var, w, rfl, there, place⟩ := h.argument found kind
  have loads := Machine.leads_load (μ := scalarMachine final args) var stack store
  rw [read_scalarMachine args store there, place] at loads
  exact loads

/-- Three functions, each of which compares its arguments: `above` numbers of eight bits, `below`
truth values in the signed order, `apart` floats. -/
def comparingSteps : List Source.Step :=
  [.intern (.int 8), .intern (.int 1), .intern .double, .intern (.function 1 [0, 0] false),
    .intern (.function 1 [1, 1] false), .intern (.function 1 [2, 2] false),
    .addFunction "above" 3, .addFunction "below" 4, .addFunction "apart" 5,
    .appendBlock 0 "entry", .appendBlock 1 "entry", .appendBlock 2 "entry",
    .positionAt 0 0, .icmp .ugt 1 2, .ret (some 9),
    .positionAt 1 0, .icmp .slt 4 5, .ret (some 11),
    .positionAt 2 0, .fcmp .one 7 8, .ret (some 13)]

/-- The module that they build. -/
def comparing : Module := Source.build "comparing" comparingSteps

/-- The context in which the body of one of them is lowered. -/
def comparingContext (function : Nat) : Context where
  module := comparing
  conventions := .natural
  throwing := (Throwing.analyze .natural comparing).1
  function := some function
  name := "compare"
  returns := .bool

/-- A table with a variable for the outcome. -/
def outcomeSlot : Ledger := (Ledger.empty.addSlot .bool none).2

/-- Arguments of a comparison. -/
def pair (x y : Scalar) (index : Nat) : Scalar := if index = 0 then x else y

/-- Of numbers of eight bits 200 is above 100, though it is held as -56.  What is no number is not
at least 3.  Whether floats are ordered is not lowered. -/
theorem comparisons_decide_above :
    (∃ e, operation push (.icmp .ugt) [1, 2] 1 0 9 (comparingContext 0) ⟨0, 0⟩ outcomeSlot = .ok e ∧
      let μ := scalarMachine e.storage (pair (wordOf 32 (-56)) (wordOf 32 100))
      μ.Leads e.code [] (fun _ => wordOf 32 7) []
        (μ.write (fun _ => wordOf 32 7) 0 (wordOf 32 1))) ∧
    (∃ e, operation push (.fcmp .oge) [7, 8] 1 0 13 (comparingContext 2) ⟨0, 0⟩ outcomeSlot =
        .ok e ∧
      let μ := scalarMachine e.storage (pair (.inr none) (.inr (some 3)))
      μ.Leads e.code [] (fun _ => wordOf 32 7) []
        (μ.write (fun _ => wordOf 32 7) 0 (wordOf 32 0))) ∧
    (operation push (.fcmp .ord) [7, 8] 1 0 13).succeeds (comparingContext 2) ⟨0, 0⟩ outcomeSlot =
      false := by
  refine ⟨?_, ?_, ?_⟩
  · have done : (operation push (.icmp .ugt) [1, 2] 1 0 9).succeeds (comparingContext 0) ⟨0, 0⟩
        outcomeSlot = true := by decide +kernel
    obtain ⟨e, lowered⟩ := Emit.succeeds_iff.1 done
    let args := pair (wordOf 32 (-56)) (wordOf 32 100)
    obtain ⟨a, b, more, first, second, listed, isPush, isPush', outcome⟩ :=
      (comparisons_decide (scalarMachine_compares e.storage args) (comparingContext 0) push
        push_adds [1, 2] 1 0 9 ⟨0, 0⟩ outcomeSlot).1 .ugt e lowered e.storage (.refl _ _) 8 32
        (by decide) (by decide)
    cases listed
    exact ⟨e, lowered, outcome (x := 200#8) (y := 100#8)
      (scalarMachine_holdsNumbers e.storage args _)
      (PushCode.leads_argument isPush 0 0 (by decide +kernel) args _ [])
      (PushCode.leads_argument isPush' 0 1 (by decide +kernel) args _ _)⟩
  · have done : (operation push (.fcmp .oge) [7, 8] 1 0 13).succeeds (comparingContext 2) ⟨0, 0⟩
        outcomeSlot = true := by decide +kernel
    obtain ⟨e, lowered⟩ := Emit.succeeds_iff.1 done
    let args := pair (.inr none) (.inr (some 3))
    obtain ⟨a, b, more, first, second, listed, isPush, isPush', outcome⟩ :=
      (comparisons_decide (scalarMachine_compares e.storage args) (comparingContext 2) push
        push_adds [7, 8] 1 0 13 ⟨0, 0⟩ outcomeSlot).2.1 .oge e lowered e.storage (.refl _ _)
    cases listed
    exact ⟨e, lowered, outcome (x := none) (y := some 3)
      (scalarMachine_holdsNumbers e.storage args _)
      (PushCode.leads_argument isPush 2 0 (by decide +kernel) args _ [])
      (PushCode.leads_argument isPush' 2 1 (by decide +kernel) args _ _)⟩
  · have lowered := (comparisons_decide (scalarMachine_compares outcomeSlot fun _ => wordOf 32 0)
      (comparingContext 2) push push_adds [7, 8] 1 0 13 ⟨0, 0⟩ outcomeSlot).2.2 7 8 [] rfl
    exact (lowered.2 .ord).trans (Bool.and_false _)

/-- What a function returns, given its arguments as they stand on the stack. -/
def comparisonResult? (function : Nat) (args : Nat → Scalar) : Option Scalar := do
  let body ← (lowerFunction .natural comparing (Throwing.analyze .natural comparing).1
    function).1.toOption
  match ((scalarMachine body.storage args).exec (body.blocks.flatMap (·.code)) []
    fun _ => wordOf 32 7).ending with
  | .left value _ => value
  | _ => none

/-- The set bit is below the unset one in the signed order, but `below` denies it; and `apart` says
that what is no number is less or greater than zero. -/
theorem comparisons_slip :
    IntPredicate.holds 1#1 0#1 .slt = true ∧
    comparisonResult? 1 (pair (wordOf 32 (held 1 (1#1).toInt)) (wordOf 32 (held 1 (0#1).toInt))) =
      some (wordOf 32 0) ∧
    FloatPredicate.holds .one none (some (0 : Int)) = false ∧
    comparisonResult? 2 (pair (.inr none) (.inr (some 0))) = some (wordOf 32 1) := by
  decide +kernel

end Lowering

end Stackwise
