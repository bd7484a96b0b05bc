import Stackwise.Proofs.Lowering.Switches

/-!
# Code for addresses

What is written for a list of indices.  A step to another element pushes how far it is, as a
constant or as a product, and adds it to the address below (`Scaling`); a step to a field is one
instruction; a list of indices is a walk of such steps (`Walk`), behind one over whole elements
(`AddressCode`).

Constant expressions push their operands to a smaller depth than instructions do.  So all this is
stated for any way to push values, of which it is only known that the code has some property
(`written`).
-/

namespace Stackwise.Lowering

open Code (Instr Storage)
open Emit (Writes)

variable {c : Context}

/-! ## Code before and behind a step -/

/-- Fixed code may be written behind a step. -/
theorem Emit.Writes.code_after {α : Type} {s : Ledger} {x : Emit α}
    {P : Storage → List Instr → Prop} (h : Writes c s x P) (instrs : List Instr) :
    Writes c s (x >>= fun _ => Emit.code instrs) fun final code =>
      ∃ own, P final own ∧ code = own ++ instrs := by
  refine Writes.bind h (fun _ _ _ => Emit.code_writes (Q := fun _ code => code = instrs)
    fun _ _ => rfl) ?_
  rintro final own _ _ holds rfl
  exact ⟨own, holds, rfl⟩

/-- Fixed code may be written in front of a step. -/
theorem Emit.Writes.code_before {α : Type} {s : Ledger} {x : Emit α}
    {Q : Storage → List Instr → Prop} (instrs : List Instr) (h : ∀ s', Writes c s' x Q) :
    Writes c s (Emit.code instrs >>= fun _ => x) fun final code =>
      ∃ rest, Q final rest ∧ code = instrs ++ rest := by
  refine Writes.bind (Emit.code_writes (Q := fun _ code => code = instrs) fun _ _ => rfl)
    (fun _ s' _ => h s') ?_
  rintro final _ rest _ rfl holds
  exact ⟨rest, holds, rfl⟩

/-- The code that a step has written, if all its variables are in the finished table. -/
def CodeOf (c : Context) (final : Storage) (step : Emit Unit) (code : List Instr) : Prop :=
  ∃ spot s, ∃ e : Emitted Unit,
    step c spot s = .ok e ∧ e.code = code ∧ e.storage.Grows c.module final

/-- A step that only adds variables writes its code, whatever table is there before it. -/
theorem writes_codeOf {step : Emit Unit} (adds : ∀ s, Emit.Adds c s step) (s : Ledger) :
    Writes c s step (CodeOf c · step) := by
  intro spot e run
  exact ⟨adds s run, fun final later => ⟨spot, s, e, run, rfl, later⟩⟩

/-! ## Shapes -/

/-- The code that pushes an index: none, if it is known. -/
def Index.IsCode (written : Nat → List Instr → Prop) : Index → List Instr → Prop
  | .known _, code => code = []
  | .runtime value, code => written value code

/-- The code that pushes each of several indices. -/
inductive IndexCodes (written : Nat → List Instr → Prop) : List Index → List (List Instr) → Prop
  | nil : IndexCodes written [] []
  | cons {index : Index} {indices : List Index} {code : List Instr} {codes : List (List Instr)}
      (first : index.IsCode written code) (later : IndexCodes written indices codes) :
    IndexCodes written (index :: indices) (code :: codes)

/-- The code that advances an address by a number of elements, made from the code that pushes the
number. -/
inductive Scaling (c : Context) (final : Storage) (element : Nat) :
    Index → List Instr → List Instr → Prop
  | zeroth : Scaling c final element (.known 0) [] []
  | folded {n : Int} {size var : Nat}
      (sized : c.conventions.sizeOf c.module element = .ok (some size))
      (fits : Word.isSigned 64 (n * size) = true)
      (isConstant : IsConstant final (.i8 (n * size)) .int64 var) :
    Scaling c final element (.known n) [] [.load var, .convert .nativeInt false, .binary .add]
  | bytes {value : Nat} {own : List Instr}
      (sized : c.conventions.sizeOf c.module element = .ok (some 1)) :
    Scaling c final element (.runtime value) own
      (own ++ [.convert .nativeInt false, .binary .add])
  | scaled {value size var : Nat} {own : List Instr}
      (sized : c.conventions.sizeOf c.module element = .ok (some size))
      (isConstant : IsConstant final (.i8 size) .nativeInt var) :
    Scaling c final element (.runtime value) own
      (own ++ [.convert .nativeInt false, .load var, .binary .mul, .binary .add])
  | next {ty : Code.Ty} (unsized : c.conventions.sizeOf c.module element = .ok none)
      (lowered : c.conventions.lowerType c.module element = some ty) :
    Scaling c final element (.known 1) [] [.sizeOf ty, .binary .add]
  | foldedMeasured {n : Int} {var : Nat} {ty : Code.Ty}
      (unsized : c.conventions.sizeOf c.module element = .ok none)
      (lowered : c.conventions.lowerType c.module element = some ty)
      (fits : Word.isSigned 64 n = true) (isConstant : IsConstant final (.i8 n) .int64 var) :
    Scaling c final element (.known n) []
      [.load var, .convert .nativeInt false, .sizeOf ty, .binary .mul, .binary .add]
  | measured {value : Nat} {own : List Instr} {ty : Code.Ty}
      (unsized : c.conventions.sizeOf c.module element = .ok none)
      (lowered : c.conventions.lowerType c.module element = some ty) :
    Scaling c final element (.runtime value) own
      (own ++ [.convert .nativeInt false, .sizeOf ty, .binary .mul, .binary .add])

/-- A type that indices step into by any number, and the type of its elements. -/
def IsArray (c : Context) (ty element : Nat) : Prop :=
  ∃ length, c.module.types.get? ty = some (.array element length) ∨
    c.module.types.get? ty = some (.vector element length)

/-- A type that indices step into by the number of a field. -/
def IsStruct (c : Context) (ty : Nat) : Prop :=
  ∃ name fields, c.module.types.get? ty = some (.struct name fields)

/-- The code that follows indices from the address of a value of some type. -/
inductive Walk (c : Context) (final : Storage) (written : Nat → List Instr → Prop) :
    Nat → List Index → List (List Instr) → List Instr → Prop
  | nil {ty : Nat} : Walk c final written ty [] [] []
  | element {ty element : Nat} {index : Index} {indices : List Index} {own step rest : List Instr}
      {codes : List (List Instr)} (array : IsArray c ty element)
      (pushed : index.IsCode written own) (scaled : Scaling c final element index own step)
      (later : Walk c final written element indices codes rest) :
    Walk c final written ty (index :: indices) (own :: codes) (step ++ rest)
  | field {ty member : Nat} {n : Int} {owner fieldTy : Code.Ty} {indices : List Index}
      {rest : List Instr} {codes : List (List Instr)} (struct : IsStruct c ty)
      (typed : c.conventions.fieldType c.module ty n.toNat = some member)
      (owned : c.conventions.lowerType c.module ty = some owner)
      (lowered : c.conventions.lowerType c.module member = some fieldTy)
      (later : Walk c final written member indices codes rest) :
    Walk c final written ty (.known n :: indices) ([] :: codes)
      (.fieldAddress ⟨owner, n.toNat, fieldTy⟩ :: rest)

/-- The code behind the base address: the first index counts whole elements. -/
inductive AddressCode (c : Context) (final : Storage) (written : Nat → List Instr → Prop)
    (element : Nat) : List Index → List (List Instr) → List Instr → Prop
  | base : AddressCode c final written element [] [] []
  | elements {index : Index} {indices : List Index} {own step rest : List Instr}
      {codes : List (List Instr)} (pushed : index.IsCode written own)
      (scaled : Scaling c final element index own step)
      (later : Walk c final written element indices codes rest) :
    AddressCode c final written element (index :: indices) (own :: codes) (step ++ rest)

section Shapes

variable {final : Storage} {written : Nat → List Instr → Prop} {indices : List Index}
  {codes : List (List Instr)} {code : List Instr}

/-- A walk has one piece of code for each index. -/
theorem Walk.indexCodes {ty : Nat} (h : Walk c final written ty indices codes code) :
    IndexCodes written indices codes := by
  induction h with
  | nil => exact .nil
  | element _ pushed _ _ ih => exact .cons pushed ih
  | field _ _ _ _ _ ih => exact .cons rfl ih

theorem AddressCode.indexCodes {element : Nat}
    (h : AddressCode c final written element indices codes code) :
    IndexCodes written indices codes := by
  cases h with
  | base => exact .nil
  | elements pushed _ later => exact .cons pushed later.indexCodes

end Shapes

/-! ## Steps -/

/-- Going to a field of a structure writes one instruction and takes no variable. -/
theorem memberAddress_field {push : Nat → Emit Unit} (s : Ledger) {ty : Nat}
    (struct : IsStruct c ty) (index origin : Nat) :
    Emit.Ensures c s (memberAddress push ty index origin) fun e => e.storage = s ∧
      c.conventions.fieldType c.module ty index = some e.value ∧
      ∃ owner fieldTy, c.conventions.lowerType c.module ty = some owner ∧
        c.conventions.lowerType c.module e.value = some fieldTy ∧
        e.code = [.fieldAddress ⟨owner, index, fieldTy⟩] := by
  obtain ⟨name, fields, isStruct⟩ := struct
  refine .read Emit.context_reads fun _ same => ?_
  rw [same, isStruct]
  refine .read (Emit.supported_reads _ _ _ _) fun member typed => ?_
  refine .read (Emit.lowerType_reads _ _ _) fun owner owned => ?_
  refine .read (Emit.lowerType_reads _ _ _) fun fieldTy lowered => ?_
  intro spot e run
  cases run
  exact ⟨rfl, typed, owner, fieldTy, owned, lowered, rfl⟩

section Parts

variable {push : Nat → Emit Unit} {written : Nat → Storage → List Instr → Prop}
  (pushes : ∀ value s, Writes c s (push value) (written value))

include pushes

/-- Going over elements adds the index times the size of an element, computed beforehand where both
are known. -/
theorem advance_writes_scaling (s : Ledger) (index : Index) (element origin : Nat) :
    Writes c s (advance push index element origin) fun final code =>
      ∃ own, index.IsCode (written · final) own ∧ Scaling c final element index own code := by
  refine .read (Emit.sizeOf_reads element) fun _ answer => ?_
  dsimp only
  split
  case h_1 => exact .pure fun _ _ => ⟨[], rfl, .zeroth⟩
  case h_2 _ _ size n _ =>
    split
    · rename_i fits
      refine Writes.imp ((constant_loads s _ _).code_after _) ?_
      rintro final _ _ ⟨_, ⟨var, rfl, isConstant⟩, rfl⟩
      exact ⟨[], rfl, .folded answer fits isConstant⟩
    · exact Emit.unsupported_ensures _ _ _
  case h_3 _ _ value =>
    refine Writes.imp ((pushes value s).code_after _) ?_
    rintro final _ _ ⟨own, isPush, rfl⟩
    exact ⟨own, isPush, .bytes answer⟩
  case h_4 _ _ size value _ =>
    split
    · refine Writes.bind (pushes value s) (fun _ s' _ => Writes.code_before
        [.convert .nativeInt false] fun s' => (constant_loads s' _ _).code_after _) ?_
      rintro final own _ _ isPush ⟨_, ⟨_, ⟨var, rfl, isConstant⟩, rfl⟩, rfl⟩
      exact ⟨own, isPush, .scaled answer isConstant⟩
    · exact Emit.unsupported_ensures _ _ _
  case h_5 =>
    refine .read (Emit.lowerType_reads _ _ _) fun ty lowered => Emit.code_writes fun _ _ => ?_
    exact ⟨[], rfl, .next answer lowered⟩
  case h_6 _ _ n _ _ =>
    refine .read (Emit.lowerType_reads _ _ _) fun ty lowered => ?_
    split
    · rename_i fits
      refine Writes.imp ((constant_loads s _ _).code_after _) ?_
      rintro final _ _ ⟨_, ⟨var, rfl, isConstant⟩, rfl⟩
      exact ⟨[], rfl, .foldedMeasured answer lowered fits isConstant⟩
    · exact Emit.unsupported_ensures _ _ _
  case h_7 _ _ value =>
    refine .read (Emit.lowerType_reads _ _ _) fun ty lowered => ?_
    refine Writes.imp ((pushes value s).code_after _) ?_
    rintro final _ _ ⟨own, isPush, rfl⟩
    exact ⟨own, isPush, .measured answer lowered⟩

/-- Following indices writes a walk along them. -/
theorem followIndices_writes_walk (s : Ledger) (origin ty : Nat) (indices : List Nat) :
    Writes c s (followIndices push origin ty indices) fun final code =>
      ∃ codes, Walk c final (written · final) ty (indices.map (Index.ofValue c.module)) codes
        code := by
  induction indices generalizing s ty with
  | nil => exact .pure fun _ _ => ⟨[], .nil⟩
  | cons index rest ih =>
    refine .read Emit.module_reads fun m same => ?_
    rw [same]
    have array {element : Nat} (isArray : IsArray c ty element) :
        Writes c s (do
            advance push (Index.ofValue c.module index) element origin
            followIndices push origin element rest) fun final code =>
          ∃ codes, Walk c final (written · final) ty
            ((index :: rest).map (Index.ofValue c.module)) codes code := by
      refine Writes.bind (advance_writes_scaling pushes s _ _ _) (fun _ s' _ => ih s' element) ?_
      rintro final step rest _ ⟨own, isPush, scaled⟩ ⟨codes, later⟩
      exact ⟨own :: codes, .element isArray isPush scaled later⟩
    split
    case h_1 length isArray => exact array ⟨length, .inl isArray⟩
    case h_2 length isVector => exact array ⟨length, .inr isVector⟩
    case h_3 name fields n isStruct constant =>
      split
      · refine Emit.Ensures.bind (memberAddress_field s ⟨name, fields, isStruct⟩ _ _) ?_
        intro e ⟨same, typed, owner, fieldTy, owned, lowered, code⟩
        rw [same, code]
        refine Emit.Ensures.imp (ih s e.value) fun e' ⟨grown, holds⟩ =>
          ⟨grown, fun final later => ?_⟩
        obtain ⟨codes, walk⟩ := holds final later
        refine ⟨[] :: codes, ?_⟩
        rw [List.map_cons, constant]
        exact .field ⟨name, fields, isStruct⟩ typed owned lowered walk
      · exact Emit.unsupported_ensures _ _ _
    case h_4 => exact Emit.unsupported_ensures _ _ _

/-- The address of an element is computed from its base by the first index, over whole elements, and
by a walk along the others. -/
theorem elementAddress_writes (s : Ledger) (operands : List Nat) (element origin : Nat) :
    Writes c s (elementAddress push operands element origin) fun final code =>
      ∃ base indices pushed codes more, operands = base :: indices ∧ written base final pushed ∧
        AddressCode c final (written · final) element (indices.map (Index.ofValue c.module)) codes
          more ∧ code = pushed ++ more := by
  unfold elementAddress
  split
  · exact Emit.breach_ensures _ _
  · rename_i base
    refine Writes.imp (pushes base s) fun final code _ isPush => ?_
    exact ⟨base, [], code, [], [], rfl, isPush, .base, (List.append_nil _).symm⟩
  · rename_i base first rest
    refine Writes.bind (pushes base s) (Q := fun final code => ∃ codes,
        AddressCode c final (written · final) element
          ((first :: rest).map (Index.ofValue c.module)) codes code) (fun _ s' _ => ?_) ?_
    · refine .read Emit.module_reads fun m same => ?_
      rw [same]
      refine Writes.bind (advance_writes_scaling pushes s' _ _ _)
        (fun _ s' _ => followIndices_writes_walk pushes s' _ _ _) ?_
      rintro final step rest _ ⟨own, isPush, scaled⟩ ⟨codes, walk⟩
      exact ⟨own :: codes, .elements isPush scaled walk⟩
    · rintro final pushed more _ isPush ⟨codes, isAddress⟩
      exact ⟨base, first :: rest, pushed, codes, more, rfl, isPush, isAddress, rfl⟩

end Parts

/-- The operation for addresses writes this code, and stores the address in the variable of its
result. -/
theorem operation_writes_address {pushValue : Nat → Emit Unit}
    (adds : ∀ value s, Emit.Adds c s (pushValue value)) (s : Ledger) (element : Nat)
    (operands : List Nat) (ty result origin : Nat) :
    Writes c s (operation pushValue (.getElementPtr element) operands ty result origin)
      fun final code => ∃ base indices pushed codes more, operands = base :: indices ∧
        CodeOf c final (pushValue base) pushed ∧
        AddressCode c final (CodeOf c final <| pushValue ·) element
          (indices.map (Index.ofValue c.module)) codes more ∧
        code = pushed ++ (more ++ [.store result]) := by
  refine .read Emit.spot_reads fun start _ => .read Emit.module_reads fun _ _ => ?_
  have addresses := elementAddress_writes (fun value s => writes_codeOf (adds value) s) s
    operands element origin
  refine Writes.imp (addresses.code_after [.store result]) ?_
  rintro final _ _ ⟨_, ⟨base, indices, pushed, codes, more, listed, isPush, isAddress, rfl⟩, rfl⟩
  exact ⟨base, indices, pushed, codes, more, listed, isPush, isAddress,
    List.append_assoc pushed more _⟩

end Stackwise.Lowering
