import Stackwise.Proofs.Lowering.AddressCode

/-!
# Address arithmetic is exact

On a machine with native integers of `w` bits (`NativeArithmetic`) the code for a list of indices
yields the base address plus, modulo `2 ^ w`, the number of bytes that the indices stand for
(`displacement`).  That number is a function of the types and of the values of the indices alone: it
does not matter which of them are constants, or whether the size of an element is known or measured
at run time.

* `Scaling.leads`, `Walk.leads`: what one step and what a walk adds to an address.
* `succeeds_advance_known`: which constant indices are refused.
* `addresses_exact`: instructions, constant expressions and refusals together.

An index of one bit is the exception that `bit_index_runs_ahead` shows.  As a constant it is 0 or
-1, but a truth value stands on the stack as 0 or 1, and that is what is added.
-/

namespace Stackwise.Lowering

open Code (Constant Field Instr Machine Storage)
open Emit (Writes)
open Source (Instruction Module Value)

/-! ## What indices stand for -/

section Specification

variable (c : Context) (measure : Code.Ty → Int) (offset : Field → Int)

/-- The size of an element: what the conventions say, or else what is measured at run time.  Of an
element that has no size at all only the zeroth can be reached. -/
def elementSize (element : Nat) : Int :=
  match c.conventions.sizeOf c.module element with
  | .ok (some size) => size
  | _ => ((c.conventions.lowerType c.module element).map measure).getD 0

/-- How far indices with these values lead from the address of a value of type `ty`. -/
def displacement : (ty : Nat) → List Int → Option Int
  | _, [] => some 0
  | ty, n :: rest =>
    match c.module.types.get? ty with
    | some (.array element _) | some (.vector element _) =>
      (displacement element rest).map (n * elementSize c measure element + ·)
    | some (.struct _ _) => do
      let member ← c.conventions.fieldType c.module ty n.toNat
      let owner ← c.conventions.lowerType c.module ty
      let fieldTy ← c.conventions.lowerType c.module member
      (displacement member rest).map (offset ⟨owner, n.toNat, fieldTy⟩ + ·)
    | _ => none

/-- How far indices lead from a base address, the first one over whole elements. -/
def elementOffset (element : Nat) : List Int → Option Int
  | [] => some 0
  | n :: rest =>
    (displacement c measure offset element rest).map (n * elementSize c measure element + ·)

/-- A constant number of elements that cannot be written down: the bytes of one element cannot be
counted, or there are elements to go over and their bytes together do not fit into 64 bits, or if
the size is not known, their number itself. -/
def Overflows (element : Nat) (n : Int) : Prop :=
  match c.conventions.sizeOf c.module element with
  | .error _ => True
  | .ok (some size) => n ≠ 0 ∧ Word.isSigned 64 (n * size) = false
  | .ok none => n ≠ 0 ∧ Word.isSigned 64 n = false

variable {c measure offset}

/-- An element with a known size takes that many bytes. -/
theorem elementSize_of_sized {element size : Nat}
    (sized : c.conventions.sizeOf c.module element = .ok (some size)) :
    elementSize c measure element = size := by
  rw [elementSize, sized]

/-- An element without one is measured at run time. -/
theorem elementSize_of_unsized {element : Nat} {ty : Code.Ty}
    (unsized : c.conventions.sizeOf c.module element = .ok none)
    (lowered : c.conventions.lowerType c.module element = some ty) :
    elementSize c measure element = measure ty := by
  rw [elementSize, unsized, lowered]
  rfl

/-- An index into an array goes over as many elements. -/
theorem displacement_element {ty element : Nat} (array : IsArray c ty element) (n : Int)
    (rest : List Int) :
    displacement c measure offset ty (n :: rest) =
      (displacement c measure offset element rest).map (n * elementSize c measure element + ·) := by
  obtain ⟨length, isArray | isVector⟩ := array
  · rw [displacement, isArray]
  · rw [displacement, isVector]

/-- An index into a structure goes to the field. -/
theorem displacement_field {ty member : Nat} {n : Int} {owner fieldTy : Code.Ty}
    (struct : IsStruct c ty) (typed : c.conventions.fieldType c.module ty n.toNat = some member)
    (owned : c.conventions.lowerType c.module ty = some owner)
    (lowered : c.conventions.lowerType c.module member = some fieldTy) (rest : List Int) :
    displacement c measure offset ty (n :: rest) =
      (displacement c measure offset member rest).map
        (offset ⟨owner, n.toNat, fieldTy⟩ + ·) := by
  obtain ⟨name, fields, isStruct⟩ := struct
  simp only [displacement, isStruct, typed, owned, lowered, Option.bind_eq_bind, Option.bind_some]

end Specification

variable {c : Context}

/-! ## Machines with native integers -/

section Semantics

variable {V S : Type} {w : Nat}

/-- A machine with native integers of `w` bits, which are also its addresses: `native` gives the
value for such a word, `num` the one for an integer of another width. -/
structure NativeArithmetic (μ : Machine V S) (num : Nat → Int → V) (native : BitVec w → V)
    (measure : Code.Ty → Int) (offset : Field → Int) : Prop where
  /-- Signed conversion extends or truncates. -/
  convert : ∀ {width n} store, Word.isSigned width n = true →
    μ.plain (.convert .nativeInt false) [num width n] store =
      some ([native (BitVec.ofInt w n)], store)
  add : ∀ a b store, μ.plain (.binary .add) [native b, native a] store =
    some ([native (a + b)], store)
  mul : ∀ a b store, μ.plain (.binary .mul) [native b, native a] store =
    some ([native (a * b)], store)
  size : ∀ ty, μ.size ty = native (BitVec.ofInt w (measure ty))
  field : ∀ field a, μ.field field (native a) =
    some (native (a + BitVec.ofInt w (offset field)))

/-- The cells of 64-bit constants hold the constants, whatever is written elsewhere, and the cell of
a slot holds what was written to it. -/
structure HoldsOffsets (μ : Machine V S) (num : Nat → Int → V) (native : BitVec w → V)
    (storage : Storage) : Prop where
  wide : ∀ {var k}, IsConstant storage (.i8 k) .int64 var → ∀ store, μ.read store var = num 64 k
  word : ∀ {var k}, IsConstant storage (.i8 k) .nativeInt var → ∀ store,
    μ.read store var = native (BitVec.ofInt w k)
  slot : ∀ {var}, IsSlot storage var → ∀ store x, μ.read (μ.write store var x) var = x

/-- An index that is known counts as what it is; one that is not, as the number which stands on the
stack once it is pushed. -/
def Index.Counts (μ : Machine V S) (num : Nat → Int → V) :
    Index → List Instr → S → Int → S → Prop
  | .known k, _, store, n, store' => n = k ∧ store' = store
  | .runtime _, code, store, n, store' => ∃ width, Word.isSigned width n = true ∧
    ∀ stack, μ.Leads code stack store (num width n :: stack) store'

/-- What several indices count as, when they are pushed one after another. -/
inductive Counts (μ : Machine V S) (num : Nat → Int → V) :
    List Index → List (List Instr) → S → List Int → S → Prop
  | nil {store : S} : Counts μ num [] [] store [] store
  | cons {index : Index} {indices : List Index} {code : List Instr} {codes : List (List Instr)}
      {store between store' : S} {n : Int} {ns : List Int}
      (first : index.Counts μ num code store n between)
      (later : Counts μ num indices codes between ns store') :
    Counts μ num (index :: indices) (code :: codes) store (n :: ns) store'

variable {μ : Machine V S} {num : Nat → Int → V} {native : BitVec w → V}
  {measure : Code.Ty → Int} {offset : Field → Int} {final : Storage}

/-- No code leads by no bytes. -/
theorem leads_stay (a : BitVec w) (stack : List V) (store : S) :
    μ.Leads [] (native a :: stack) store (native (a + BitVec.ofInt w 0) :: stack) store := by
  rw [show BitVec.ofInt w 0 = 0#w from BitVec.ofInt_natCast w 0, BitVec.add_zero]
  exact Machine.Leads.refl _ _

/-- Two moves of an address make one. -/
theorem leads_moves {code code' : List Instr} {a : BitVec w} {x y : Int} {stack : List V}
    {store between store' : S}
    (first : μ.Leads code (native a :: stack) store (native (a + BitVec.ofInt w x) :: stack)
      between)
    (second : ∀ a, μ.Leads code' (native a :: stack) between
      (native (a + BitVec.ofInt w y) :: stack) store') :
    μ.Leads (code ++ code') (native a :: stack) store
      (native (a + BitVec.ofInt w (x + y)) :: stack) store' := by
  rw [BitVec.ofInt_add, ← BitVec.add_assoc]
  exact first.append (second _)

namespace NativeArithmetic

variable (laws : NativeArithmetic μ num native measure offset)

include laws

/-- A number that fits its width is converted to the word with the same sign. -/
theorem leads_convert {width : Nat} {n : Int} (fits : Word.isSigned width n = true)
    (stack : List V) (store : S) :
    μ.Leads [.convert .nativeInt false] (num width n :: stack) store
      (native (BitVec.ofInt w n) :: stack) store :=
  Machine.leads_plain (.convert .nativeInt false) [num width n] [native (BitVec.ofInt w n)] rfl rfl
    (laws.convert store fits) stack

theorem leads_add (a : BitVec w) (n : Int) (stack : List V) (store : S) :
    μ.Leads [.binary .add] (native (BitVec.ofInt w n) :: native a :: stack) store
      (native (a + BitVec.ofInt w n) :: stack) store :=
  Machine.leads_plain (.binary .add) [native (BitVec.ofInt w n), native a]
    [native (a + BitVec.ofInt w n)] rfl rfl (laws.add a _ store) stack

/-- Words are multiplied as numbers are, modulo the size of a word. -/
theorem leads_mul (n size : Int) (stack : List V) (store : S) :
    μ.Leads [.binary .mul] (native (BitVec.ofInt w size) :: native (BitVec.ofInt w n) :: stack)
      store (native (BitVec.ofInt w (n * size)) :: stack) store := by
  rw [BitVec.ofInt_mul]
  exact Machine.leads_plain (.binary .mul) [native (BitVec.ofInt w size), native (BitVec.ofInt w n)]
    [native (BitVec.ofInt w n * BitVec.ofInt w size)] rfl rfl (laws.mul _ _ store) stack

theorem leads_sizeOf (ty : Code.Ty) (stack : List V) (store : S) :
    μ.Leads [.sizeOf ty] stack store (native (BitVec.ofInt w (measure ty)) :: stack) store := by
  rw [← laws.size]
  exact Machine.leads_step rfl (Nat.zero_le _) (μ.step_sizeOf ty stack store)

theorem leads_fieldAddress (field : Field) (a : BitVec w) (stack : List V) (store : S) :
    μ.Leads [.fieldAddress field] (native a :: stack) store
      (native (a + BitVec.ofInt w (offset field)) :: stack) store := by
  refine Machine.leads_step rfl (Nat.le_add_left 1 _) ?_
  rw [μ.step_fieldAddress, laws.field]
  rfl

/-- A number of elements is multiplied by their size and added to the address below. -/
theorem leads_scale (a : BitVec w) (n size : Int) (stack : List V) (store : S) :
    μ.Leads [.binary .mul, .binary .add]
      (native (BitVec.ofInt w size) :: native (BitVec.ofInt w n) :: native a :: stack) store
      (native (a + BitVec.ofInt w (n * size)) :: stack) store :=
  (laws.leads_mul n size _ store).append (laws.leads_add a (n * size) stack store)

end NativeArithmetic

/-- Loading a constant of 64 bits pushes it. -/
theorem HoldsOffsets.leads_wide (holds : HoldsOffsets μ num native final) {var : Nat} {k : Int}
    (isConstant : IsConstant final (.i8 k) .int64 var) (stack : List V) (store : S) :
    μ.Leads [.load var] stack store (num 64 k :: stack) store := by
  rw [← holds.wide isConstant store]
  exact Machine.leads_load var stack store

/-- Loading a constant word pushes it. -/
theorem HoldsOffsets.leads_word (holds : HoldsOffsets μ num native final) {var : Nat} {k : Int}
    (isConstant : IsConstant final (.i8 k) .nativeInt var) (stack : List V) (store : S) :
    μ.Leads [.load var] stack store (native (BitVec.ofInt w k) :: stack) store := by
  rw [← holds.word isConstant store]
  exact Machine.leads_load var stack store

/-! ## Walks -/

/-- All seven ways to advance an address add the number of elements times their size. -/
theorem Scaling.leads (laws : NativeArithmetic μ num native measure offset)
    (holds : HoldsOffsets μ num native final) {element : Nat} {index : Index}
    {own code : List Instr} (h : Scaling c final element index own code) {n : Int}
    {store store' : S} (counts : index.Counts μ num own store n store') (a : BitVec w)
    (stack : List V) :
    μ.Leads code (native a :: stack) store
      (native (a + BitVec.ofInt w (n * elementSize c measure element)) :: stack) store' := by
  cases h with
  | zeroth =>
    obtain ⟨rfl, rfl⟩ := counts
    rw [Int.zero_mul]
    exact leads_stay a stack _
  | folded sized fits isConstant =>
    obtain ⟨rfl, rfl⟩ := counts
    rw [elementSize_of_sized sized]
    exact (holds.leads_wide isConstant _ _).append
      ((laws.leads_convert fits _ _).append (laws.leads_add a _ stack _))
  | bytes sized =>
    obtain ⟨width, fits, pushed⟩ := counts
    rw [elementSize_of_sized sized, Int.natCast_one, Int.mul_one]
    exact (pushed _).append ((laws.leads_convert fits _ _).append (laws.leads_add a _ stack _))
  | scaled sized isConstant =>
    obtain ⟨width, fits, pushed⟩ := counts
    rw [elementSize_of_sized sized]
    exact (pushed _).append ((laws.leads_convert fits _ _).append
      ((holds.leads_word isConstant _ _).append (laws.leads_scale a n _ stack _)))
  | next unsized lowered =>
    obtain ⟨rfl, rfl⟩ := counts
    rw [elementSize_of_unsized unsized lowered, Int.one_mul]
    exact (laws.leads_sizeOf _ _ _).append (laws.leads_add a _ stack _)
  | foldedMeasured unsized lowered fits isConstant =>
    obtain ⟨rfl, rfl⟩ := counts
    rw [elementSize_of_unsized unsized lowered]
    exact (holds.leads_wide isConstant _ _).append ((laws.leads_convert fits _ _).append
      ((laws.leads_sizeOf _ _ _).append (laws.leads_scale a _ _ stack _)))
  | measured unsized lowered =>
    obtain ⟨width, fits, pushed⟩ := counts
    rw [elementSize_of_unsized unsized lowered]
    exact (pushed _).append ((laws.leads_convert fits _ _).append
      ((laws.leads_sizeOf _ _ _).append (laws.leads_scale a n _ stack _)))

/-- A walk along indices adds what they lead to, one after another. -/
theorem Walk.leads (laws : NativeArithmetic μ num native measure offset)
    (holds : HoldsOffsets μ num native final) {written : Nat → List Instr → Prop} {ty : Nat}
    {indices : List Index} {codes : List (List Instr)} {code : List Instr}
    (h : Walk c final written ty indices codes code) {ns : List Int} {store store' : S}
    (counts : Counts μ num indices codes store ns store') :
    ∃ total, displacement c measure offset ty ns = some total ∧ ∀ a stack,
      μ.Leads code (native a :: stack) store (native (a + BitVec.ofInt w total) :: stack)
        store' := by
  induction h generalizing ns store with
  | nil =>
    cases counts
    exact ⟨0, rfl, fun a stack => leads_stay a stack _⟩
  | element array pushed scaled later ih =>
    cases counts with
    | cons first rest =>
      obtain ⟨total, measured, moves⟩ := ih rest
      refine ⟨_, by rw [displacement_element array, measured]; rfl, fun a stack => ?_⟩
      exact leads_moves (scaled.leads laws holds first a stack) fun a => moves a stack
  | field struct typed owned lowered later ih =>
    cases counts with
    | cons first rest =>
      obtain ⟨rfl, rfl⟩ := first
      obtain ⟨total, measured, moves⟩ := ih rest
      refine ⟨_, by rw [displacement_field struct typed owned lowered, measured]; rfl,
        fun a stack => ?_⟩
      exact leads_moves (laws.leads_fieldAddress _ a stack _) fun a => moves a stack

/-- Code for an address adds to the base what all indices lead to. -/
theorem AddressCode.leads (laws : NativeArithmetic μ num native measure offset)
    (holds : HoldsOffsets μ num native final) {written : Nat → List Instr → Prop} {element : Nat}
    {indices : List Index} {codes : List (List Instr)} {code : List Instr}
    (h : AddressCode c final written element indices codes code) {ns : List Int} {store store' : S}
    (counts : Counts μ num indices codes store ns store') :
    ∃ total, elementOffset c measure offset element ns = some total ∧ ∀ a stack,
      μ.Leads code (native a :: stack) store (native (a + BitVec.ofInt w total) :: stack)
        store' := by
  cases h with
  | base =>
    cases counts
    exact ⟨0, rfl, fun a stack => leads_stay a stack _⟩
  | elements pushed scaled later =>
    cases counts with
    | cons first rest =>
      obtain ⟨total, measured, moves⟩ := later.leads laws holds rest
      refine ⟨_, by rw [elementOffset, measured]; rfl, fun a stack => ?_⟩
      exact leads_moves (scaled.leads laws holds first a stack) fun a => moves a stack

/-! ## Instructions and constant expressions -/

/-- The code computes the address that the indices lead to from the base, whatever they count as,
and leaves stack and store behind as `finish` says. -/
def ComputesAddress (μ : Machine V S) (num : Nat → Int → V) (native : BitVec w → V)
    (measure : Code.Ty → Int) (offset : Field → Int) (c : Context) (pushValue : Nat → Emit Unit)
    (final : Storage) (element base : Nat) (indices : List Nat)
    (finish : V → List V → S → List V × S) (code : List Instr) : Prop :=
  ∃ pushed codes, CodeOf c final (pushValue base) pushed ∧
    IndexCodes (CodeOf c final <| pushValue ·) (indices.map (Index.ofValue c.module)) codes ∧
    ∀ ⦃b : BitVec w⦄ ⦃ns : List Int⦄ ⦃stack : List V⦄ ⦃store between store' : S⦄,
      HoldsOffsets μ num native final →
      μ.Leads pushed stack store (native b :: stack) between →
      Counts μ num (indices.map (Index.ofValue c.module)) codes between ns store' →
      ∃ total, elementOffset c measure offset element ns = some total ∧
        let address := native (b + BitVec.ofInt w total)
        μ.Leads code stack store (finish address stack store').1 (finish address stack store').2

/-- With the base pushed before it, such code computes the address. -/
theorem AddressCode.computes (laws : NativeArithmetic μ num native measure offset)
    {pushValue : Nat → Emit Unit} {element base : Nat} {indices : List Nat}
    {pushed code rest : List Instr} {codes : List (List Instr)}
    (isPush : CodeOf c final (pushValue base) pushed)
    (h : AddressCode c final (CodeOf c final <| pushValue ·) element
      (indices.map (Index.ofValue c.module)) codes code)
    {finish : V → List V → S → List V × S}
    (finishes : HoldsOffsets μ num native final → ∀ address stack store,
      μ.Leads rest (address :: stack) store (finish address stack store).1
        (finish address stack store).2) :
    ComputesAddress μ num native measure offset c pushValue final element base indices finish
      (pushed ++ (code ++ rest)) := by
  refine ⟨pushed, codes, isPush, h.indexCodes, ?_⟩
  intro b ns stack store between store' holds led counts
  obtain ⟨total, measured, moves⟩ := h.leads laws holds counts
  exact ⟨total, measured, led.append ((moves b stack).append (finishes holds _ _ _))⟩

theorem operands_eq_values {operands : List Source.Operand} {values : List Nat}
    (h : operands.mapM Source.Operand.value? = some values) : operands = values.map .value := by
  rw [mapM_eq_some_iff] at h
  induction operands generalizing values with
  | nil =>
    cases values with
    | nil => rfl
    | cons => cases h
  | cons o rest ih =>
    cases values with
    | nil => cases h
    | cons value values =>
      rw [List.map_cons, List.map_cons, List.cons.injEq] at h
      cases o with
      | block => cases h.1
      | value id =>
        cases h.1
        rw [ih h.2, List.map_cons]

/-- The instruction for an address computes it and stores it in the variable of its result. -/
theorem lowerInstruction_computes_address (laws : NativeArithmetic μ num native measure offset)
    {source : SourceBlock} {id element : Nat} {i : Instruction} {d d' : Draft}
    (opcode : i.opcode = .getElementPtr element)
    (lowered : lowerInstruction source id i c d = .ok () d') :
    ∀ final, d'.Continues c.module final → ∃ base indices result code,
      i.operands = (base :: indices).map .value ∧ c.homes.results.find? id = some result ∧
        final.rest d = code ++ final.rest d' ∧
        ComputesAddress μ num native measure offset c push final.storage element base indices
          (fun address stack store => (stack, μ.write store result address)) code := by
  have lowered' : Lower.emit (lowerOperation id i) c d = .ok () d' := by
    rw [← lowered, lowerInstruction, opcode]
  have writes : Writes c d.storage (lowerOperation id i) fun final code =>
      ∃ base indices result pushed codes more, i.operands = (base :: indices).map .value ∧
        c.homes.results.find? id = some result ∧ CodeOf c final (push base) pushed ∧
        AddressCode c final (CodeOf c final <| push ·) element
          (indices.map (Index.ofValue c.module)) codes more ∧
        code = pushed ++ (more ++ [.store result]) := by
    unfold lowerOperation
    split
    · exact Emit.unsupported_ensures _ _ _
    · rename_i operands listed
      refine .read (Emit.resultOf_reads _) fun result found => ?_
      refine .read (Emit.typeOf_reads _) fun ty _ => ?_
      rw [opcode]
      refine Writes.imp (operation_writes_address push_adds _ element operands ty result id) ?_
      rintro final _ - ⟨base, indices, pushed, codes, more, rfl, isPush, isAddress, rfl⟩
      exact ⟨base, indices, result, pushed, codes, more, operands_eq_values listed, found, isPush,
        isAddress, rfl⟩
  intro final later
  obtain ⟨code, rest, base, indices, result, pushed, codes, more, listed, found, isPush, isAddress,
    rfl⟩ := (Lower.emit_writes writes lowered').rest later
  exact ⟨base, indices, result, _, listed, found, rest, isAddress.computes laws isPush
    fun _ address stack store => Machine.leads_store result address stack store⟩

/-- A constant expression for an address pushes it. -/
theorem pushWithin_computes_address (laws : NativeArithmetic μ num native measure offset)
    {depth id element : Nat} {v : Value} {operands : List Nat}
    (found : c.module.value? id = some v)
    (kind : v.kind = .expr (.getElementPtr element) operands) {spot : Spot} {s : Ledger}
    {e : Emitted Unit} (pushed : pushWithin (depth + 1) id c spot s = .ok e) :
    ∀ final, e.storage.Grows c.module final → ∃ base indices, operands = base :: indices ∧
      ComputesAddress μ num native measure offset c (pushWithin depth) final element base indices
        (fun address stack store => (address :: stack, μ.write store s.size address)) e.code := by
  have apart (id' : Nat) (same : some id = some id') : c.module.instruction? id' = none := by
    cases same
    rw [Module.instruction?, found, Option.bind_some, Value.instruction?, kind]
  have writes : Writes c s (pushWithin (depth + 1) id) fun final code => ∃ base indices,
      operands = base :: indices ∧ ComputesAddress μ num native measure offset c
        (pushWithin depth) final element base indices
        (fun address stack store => (address :: stack, μ.write store s.size address)) code := by
    refine .read (Emit.sourceValue_reads _) fun v' found' => ?_
    cases found.symm.trans found'
    rw [kind]
    refine .read (Emit.lowerType_reads _ _ _) fun ty _ => .slot ty apart fun s' _ slot => ?_
    have computed := operation_writes_address (c := c) (pushWithin_adds depth) s' element operands
      v.ty s.size id
    refine Writes.imp (computed.code_after [.load s.size]) ?_
    rintro final _ later ⟨_, ⟨base, indices, pushed, codes, more, listed, isPush, isAddress, rfl⟩,
      rfl⟩
    refine ⟨base, indices, listed, ?_⟩
    rw [List.append_assoc, List.append_assoc]
    refine isAddress.computes laws isPush fun holds address stack store => ?_
    have loads := Machine.leads_load (μ := μ) s.size stack (μ.write store s.size address)
    rw [holds.slot (slot.grows later)] at loads
    exact (Machine.leads_store s.size address stack store).append loads
  exact (writes pushed).2

/-! ## Refusals -/

/-- Whether a step goes through without a fault. -/
def Emit.succeeds {α : Type} (step : Emit α) (c : Context) (spot : Spot) (s : Ledger) : Bool :=
  (step c spot s).isOk

namespace Emit

variable {α β : Type} {x : Emit α} {f : α → Emit β} {spot : Spot} {s : Ledger}

theorem succeeds_read {a : α} (h : x c spot s = .ok ⟨a, s, []⟩) :
    (x >>= f).succeeds c spot s = (f a).succeeds c spot s := by
  show (Emit.bind x f c spot s).isOk = (f a c spot s).isOk
  unfold Emit.bind
  rw [h]
  dsimp only [List.length_nil, Nat.add_zero, List.nil_append]
  cases f a c spot s <;> rfl

theorem succeeds_iff : x.succeeds c spot s = true ↔ ∃ e, x c spot s = .ok e := by
  rw [succeeds]
  cases x c spot s with
  | error fault =>
    constructor
    · intro no
      cases no
    · rintro ⟨e, no⟩
      cases no
  | ok e => exact ⟨fun _ => ⟨e, rfl⟩, fun _ => rfl⟩

/-- A chain of steps goes through if each does, from where the one before has ended. -/
theorem succeeds_bind_iff :
    (x >>= f).succeeds c spot s = true ↔
      ∃ e, x c spot s = .ok e ∧ (f e.value).succeeds c
        { spot with position := spot.position + e.code.length } e.storage = true := by
  simp only [succeeds_iff, bind_eq_ok]
  constructor
  · rintro ⟨_, e, run, e', run', -⟩
    exact ⟨e, run, e', run'⟩
  · rintro ⟨e, run, e', run'⟩
    exact ⟨_, e, run, e', run', rfl⟩

/-- It goes through if the first step does and the second always does. -/
theorem succeeds_bind (first : x.succeeds c spot s = true)
    (second : ∀ a spot s, (f a).succeeds c spot s = true) :
    (x >>= f).succeeds c spot s = true := by
  obtain ⟨e, run⟩ := succeeds_iff.1 first
  exact succeeds_bind_iff.2 ⟨e, run, second _ _ _⟩

/-- Constants can always be pushed. -/
theorem succeeds_constant (value : Constant) (ty : Code.Ty) (spot : Spot) (s : Ledger) :
    (constant value ty).succeeds c spot s = true := by
  refine succeeds_bind ?_ fun _ _ _ => rfl
  rw [shared, succeeds_read (a := s) rfl]
  split <;> rfl

/-- A constant that has to fit. -/
theorem succeeds_guarded (fits : Bool) (value : Constant) (ty : Code.Ty) (instrs : List Instr)
    (site : String) (construct : Construct) (origin : Nat) (spot : Spot) (s : Ledger) :
    (if fits = true then do
      constant value ty
      code instrs
    else unsupported site construct origin).succeeds c spot s = fits := by
  cases fits with
  | false => rfl
  | true => exact succeeds_bind (succeeds_constant value ty spot s) fun _ _ _ => rfl

end Emit

/-- Going over a constant number of elements fails only if their bytes cannot be written down. -/
theorem succeeds_advance_known {push : Nat → Emit Unit} {n : Int} {element : Nat} {ty : Code.Ty}
    (lowered : c.conventions.lowerType c.module element = some ty) (origin : Nat) (spot : Spot)
    (s : Ledger) :
    (advance push (.known n) element origin).succeeds c spot s = false ↔
      Overflows c element n := by
  have typed : Emit.lowerType element origin "getelementptr" c spot s = .ok ⟨ty, s, []⟩ := by
    refine Emit.bind_eq_ok.2 ⟨⟨c, s, []⟩, rfl, ⟨ty, s, []⟩, ?_, rfl⟩
    rw [lowered]
    rfl
  cases answer : c.conventions.sizeOf c.module element with
  | error overflow =>
    have stops : ¬ (advance push (.known n) element origin).succeeds c spot s = true := by
      rw [advance, Emit.succeeds_bind_iff]
      rintro ⟨e, run, -⟩
      cases answer.symm.trans (Emit.sizeOf_reads element run).2.2
    rw [Overflows, answer]
    exact iff_true_intro (Bool.not_eq_true _ ▸ stops)
  | ok size =>
    have sized : Emit.sizeOf element c spot s = .ok ⟨size, s, []⟩ := by
      refine Emit.bind_eq_ok.2 ⟨⟨c, s, []⟩, rfl, ⟨size, s, []⟩, ?_, rfl⟩
      rw [answer]
      rfl
    rw [advance, Emit.succeeds_read sized, Overflows, answer]
    split
    case h_1 size _ _ zero =>
      cases zero
      cases size <;> exact ⟨nofun, fun wide => absurd rfl wide.1⟩
    case h_2 nonzero same =>
      cases same
      rw [Emit.succeeds_guarded]
      exact ⟨fun wide => ⟨nonzero, wide⟩, And.right⟩
    case h_3 same => cases same
    case h_4 same => cases same
    case h_5 same =>
      cases same
      rw [Emit.succeeds_read typed]
      exact ⟨nofun, fun wide => nomatch wide.2⟩
    case h_6 nonzero _ same =>
      cases same
      rw [Emit.succeeds_read typed, Emit.succeeds_guarded]
      exact ⟨fun wide => ⟨nonzero, wide⟩, And.right⟩
    case h_7 same => cases same

/-- Addresses are exact.  An instruction that is lowered computes the address into the variable of
its result; a constant expression leaves it on the stack; and a step by a constant number of
elements is refused exactly if the number overflows.  The total depends on what the indices count
as, not on which of them are known, so a constant and a run-time index of the same value give the
same address. -/
theorem addresses_exact (laws : NativeArithmetic μ num native measure offset) (c : Context) :
    (∀ ⦃source : SourceBlock⦄ ⦃id element : Nat⦄ ⦃i : Instruction⦄ ⦃d d' : Draft⦄,
      i.opcode = .getElementPtr element → lowerInstruction source id i c d = .ok () d' →
      ∀ final, d'.Continues c.module final → ∃ base indices result code,
        i.operands = (base :: indices).map .value ∧ c.homes.results.find? id = some result ∧
          final.rest d = code ++ final.rest d' ∧
          ComputesAddress μ num native measure offset c push final.storage element base indices
            (fun address stack store => (stack, μ.write store result address)) code) ∧
    (∀ ⦃depth id element : Nat⦄ ⦃v : Value⦄ ⦃operands : List Nat⦄ ⦃spot : Spot⦄ ⦃s : Ledger⦄
      ⦃e : Emitted Unit⦄, c.module.value? id = some v →
      v.kind = .expr (.getElementPtr element) operands →
      pushWithin (depth + 1) id c spot s = .ok e →
      ∀ final, e.storage.Grows c.module final → ∃ base indices, operands = base :: indices ∧
        ComputesAddress μ num native measure offset c (pushWithin depth) final element base indices
          (fun address stack store => (address :: stack, μ.write store s.size address)) e.code) ∧
    ∀ ⦃element : Nat⦄ ⦃ty : Code.Ty⦄, c.conventions.lowerType c.module element = some ty →
      ∀ (pushValue : Nat → Emit Unit) (n : Int) (origin : Nat) (spot : Spot) (s : Ledger),
        (advance pushValue (.known n) element origin).succeeds c spot s = false ↔
          Overflows c element n :=
  ⟨fun _ _ _ _ _ _ opcode lowered => lowerInstruction_computes_address laws opcode lowered,
    fun _ _ _ _ _ _ _ _ found kind pushed => pushWithin_computes_address laws found kind pushed,
    fun _ _ lowered _ _ => succeeds_advance_known lowered⟩

end Semantics

/-! ## Steps along memory -/

/-- What the cell of a place holds: constants and arguments are fixed. -/
def wordCell (args : Nat → Int) (cell : BitVec 64) : Option Code.Place → BitVec 64
  | some (.constant (.i8 k)) => BitVec.ofInt 64 k
  | some (.parameter index) => BitVec.ofInt 64 (args index)
  | _ => cell

/-- A machine whose values are words of 64 bits.  Fields are 8 bytes apart. -/
def wordMachine (storage : Storage) (args : Nat → Int) :
    Machine (BitVec 64) (Nat → BitVec 64) where
  read store var := wordCell args (store var) ((storage.get? var).map (·.place))
  write store var x := fun other => if other = var then x else store other
  address var := BitVec.ofNat 64 var
  field f a := some (a + BitVec.ofInt 64 (8 * f.index))
  fetch _ _ _ := none
  assign _ _ _ _ := none
  size ty := BitVec.ofInt 64 (if ty.isPointer then 8 else 40)
  plain
    | .convert .nativeInt false, [x], store => some ([x], store)
    | .binary .add, [y, x], store => some ([x + y], store)
    | .binary .mul, [y, x], store => some ([x * y], store)
    | _, _, _ => none
  length_plain h := by
    split at h <;> cases h <;> rfl
  control
    | .ret true, x :: _, store => .leave (some x) store
    | _, stack, store => .next stack store

/-- The machine with words of 64 bits computes with them as native integers. -/
theorem wordMachine_arithmetic (storage : Storage) (args : Nat → Int) :
    NativeArithmetic (w := 64) (wordMachine storage args) (fun _ n => BitVec.ofInt 64 n) id
      (fun ty => if ty.isPointer then 8 else 40) (fun f => 8 * f.index) where
  convert _ _ := rfl
  add _ _ _ := rfl
  mul _ _ _ := rfl
  size _ := rfl
  field _ _ := rfl

theorem read_wordMachine {storage : Storage} {var : Nat} {v : Code.Variable} (args : Nat → Int)
    (store : Nat → BitVec 64) (there : storage.get? var = some v) :
    (wordMachine storage args).read store var = wordCell args (store var) (some v.place) := by
  show wordCell args (store var) _ = _
  rw [there]
  rfl

/-- Its constants stay what they are. -/
theorem wordMachine_holdsOffsets (storage : Storage) (args : Nat → Int) :
    HoldsOffsets (w := 64) (wordMachine storage args) (fun _ n => BitVec.ofInt 64 n) id
      storage where
  wide isConstant store := by
    obtain ⟨v, there, place, -⟩ := isConstant
    rw [read_wordMachine args store there, place]
    rfl
  word isConstant store := by
    obtain ⟨v, there, place, -⟩ := isConstant
    rw [read_wordMachine args store there, place]
    rfl
  slot slot store x := by
    obtain ⟨v, there, place⟩ := slot
    rw [read_wordMachine args _ there, place]
    exact if_pos rfl

/-- Three functions.  `reach` goes to an element of an array of pointers inside of a structure,
whose size is not known; `ahead` and `back` go to a number of 16 bits, by an argument and by a
constant, both of one bit. -/
def stridingSteps : List Source.Step :=
  [.intern .ptr, .intern (.int 32), .intern (.array 0 4), .intern (.struct none [1, 2]),
    .intern (.function 0 [0, 1] false), .intern (.int 1), .intern (.int 16),
    .intern (.function 0 [0, 5] false), .intern (.function 0 [0] false),
    .addFunction "reach" 4, .addFunction "ahead" 7, .addFunction "back" 8,
    .appendBlock 0 "entry", .appendBlock 1 "entry", .appendBlock 2 "entry",
    .constInt 1 1, .constInt 1 2, .constInt 5 (-1),
    .positionAt 0 0, .gep 3 1 [2, 8, 9], .ret (some 11),
    .positionAt 1 0, .gep 6 4 [5], .ret (some 13),
    .positionAt 2 0, .gep 6 7 [10], .ret (some 15)]

/-- The module that they build. -/
def striding : Module := Source.build "striding" stridingSteps

/-- The first function. -/
def reach : Source.Function := (striding.function? 0).get (by decide +kernel)

/-- The instruction in it that computes an address. -/
def reachStep : Instruction := (striding.instruction? 11).get (by decide +kernel)

/-- The table with a variable for the address, which is the first. -/
def reachLedger : Ledger := (Ledger.empty.addSlot .pointer (some 11)).2

/-- The context in which its body is lowered. -/
def reachContext : Context :=
  functionContext .natural striding (Throwing.analyze .natural striding).1 0 reach .pointer
    (Homes.addResult {} 11 0)

/-- The draft with a variable for the address. -/
def reachDraft : Draft := { startDraft reach with storage := reachLedger }

/-- From 1000, three structures of 40 bytes back, then to the second field, then over two pointers.
-/
theorem addresses_exact_reach : ∃ d' result code,
    lowerInstruction ⟨0, 0⟩ 11 reachStep reachContext reachDraft = .ok () d' ∧
    d'.rest reachDraft = code ++ d'.rest d' ∧
    (wordMachine d'.storage fun k => if k = 0 then 1000 else -3).Leads code [] (fun _ => 0) []
      ((wordMachine d'.storage fun k => if k = 0 then 1000 else -3).write (fun _ => 0) result
        904) := by
  have done : ((lowerInstruction ⟨0, 0⟩ 11 reachStep).finish? reachContext
      reachDraft).isSome = true := by decide +kernel
  obtain ⟨d', finished⟩ := Option.isSome_iff_exists.1 done
  have lowered := Lower.eq_ok_of_finish? finished
  let args : Nat → Int := fun k => if k = 0 then 1000 else -3
  have opcode : reachStep.opcode = .getElementPtr 3 := by decide +kernel
  obtain ⟨base, indices, result, code, listed, -, rest, pushed, codes, isPush, isCodes, computes⟩ :=
    (addresses_exact (wordMachine_arithmetic d'.storage args) reachContext).1 opcode lowered d'
      (Draft.Advances.refl _ d').continues
  have listed' : reachStep.operands = [1, 2, 8, 9].map .value := by decide +kernel
  cases (List.map_inj_right fun _ _ => Source.Operand.value.inj).1 (listed'.symm.trans listed)
  have read : [2, 8, 9].map (Index.ofValue reachContext.module) =
      [.runtime 2, .known 1, .known 2] := by decide +kernel
  rw [read] at isCodes computes
  have argument (value index : Nat) {code : List Instr}
      (isArgument : (reachContext.module.value? value).map (·.kind) = some (.argument 0 index))
      (isPush : PushCode reachContext d'.storage value code) (stack : List (BitVec 64)) :
      (wordMachine d'.storage args).Leads code stack (fun _ => 0)
        (BitVec.ofInt 64 (args index) :: stack) (fun _ => 0) := by
    obtain ⟨v, found, kind⟩ := Option.map_eq_some_iff.1 isArgument
    obtain ⟨var, w, rfl, there, place⟩ := isPush.argument found kind
    have loads := Machine.leads_load (μ := wordMachine d'.storage args) var stack fun _ => 0
    rw [read_wordMachine args _ there, place] at loads
    exact loads
  have led := argument 1 0 (by decide +kernel) isPush []
  cases isCodes with
  | cons first later =>
    have counted := argument 2 1 (by decide +kernel) first
    cases later with
    | cons _ later =>
      cases later with
      | cons _ later =>
        cases later
        obtain ⟨total, measured, leads⟩ := computes (b := BitVec.ofInt 64 (args 0))
          (wordMachine_holdsOffsets d'.storage args) led
          (.cons ⟨32, by decide, counted⟩ (.cons ⟨rfl, rfl⟩ (.cons ⟨rfl, rfl⟩ .nil)))
        have measured' : elementOffset reachContext (fun ty => if ty.isPointer then 8 else 40)
            (fun f => 8 * f.index) 3 [-3, 1, 2] = some (-96) := by decide +kernel
        cases measured'.symm.trans measured
        have lands : id (BitVec.ofInt 64 (args 0) + BitVec.ofInt 64 (-96)) = 904 := by decide
        rw [lands] at leads
        exact ⟨d', result, code, lowered, rest, leads⟩

/-- What a function returns, given its arguments as they stand on the stack. -/
def strideResult? (function : Nat) (args : Nat → Int) : Option (BitVec 64) := do
  let body ← (lowerFunction .natural striding (Throwing.analyze .natural striding).1
    function).1.toOption
  match ((wordMachine body.storage args).exec (body.blocks.flatMap (·.code)) []
    fun _ => 0).ending with
  | .left value _ => value
  | _ => none

/-- An index of one bit with the value -1 leads one element back as a constant, and one element
ahead as an argument. -/
theorem bit_index_runs_ahead :
    strideResult? 2 (fun _ => 1000) = some 998 ∧
    strideResult? 1 (fun k => if k = 0 then 1000 else held 1 (-1)) = some 1002 := by
  decide +kernel

end Stackwise.Lowering
