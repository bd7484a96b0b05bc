import Stackwise.Binary.Code
import Stackwise.Proofs.Binary.Stream

/-!
# The binary form of assemblies is exact

Reading an assembly accepts exactly the binary forms of assemblies, with anything behind them
(`readAssembly_mirrors`).  The law is put together datum by datum, each reader mirroring its writer.
-/

namespace Stackwise

/-! ## What fits -/

namespace Code

/-- Whether every number in the type fits its width. -/
def Ty.fits : Ty → Bool
  | .struct id => id < Word.count 32
  | .inlineArray element length => element.fits && length < Word.count 64
  | _ => true

/-- The same for a signature. -/
def Signature.fits (s : Signature) : Bool := Binary.fitsList Ty.fits s.params && s.result.fits

/-- The same for a constant. -/
def Constant.fits : Constant → Bool
  | .i4 value => Word.isSigned 32 value
  | .i8 value => Word.isSigned 64 value
  | .r4 _ | .r8 _ | .null | .allZero => true

/-- The same for a place. -/
def Place.fits : Place → Bool
  | .frameField n | .parameter n | .global n | .functionPointer n => n < Word.count 32
  | .constant value => value.fits
  | .slot | .exceptionSlot => true

/-- The same for a variable. -/
def Variable.fits (v : Variable) : Bool :=
  v.place.fits && v.ty.fits && v.origin.all (· < Word.count 32)

/-- The same for a table of variables. -/
def Storage.fits (s : Storage) : Bool :=
  Binary.fitsList Variable.fits s.entries.toList && s.frameSlots < Word.count 32

/-- The same for a support routine. -/
def Helper.fits : Helper → Bool
  | .inlineArrayAsSpan length => length < Word.count 32
  | .select ty => ty.fits
  | .bitCast first second | .extractElement first second | .insertElement first second =>
    first.fits && second.fits
  | .shuffleVector vector mask result => vector.fits && mask.fits && result.fits
  | .spanGetItem | .spanAsReadOnly | .exceptionDispose | .vaStart | .vaArg => true

/-- The same for a callee. -/
def Callee.fits : Callee → Bool
  | .function id => id < Word.count 32
  | .helper routine => routine.fits

/-- The same for a field. -/
def Field.fits (f : Field) : Bool := f.owner.fits && f.index < Word.count 32 && f.ty.fits

/-- The same for an instruction. -/
def Instr.fits : Instr → Bool
  | .load n | .store n | .addressOf n | .clear n => n < Word.count 32
  | .branch n | .branchIfTrue n | .branchIfFalse n | .branchIfEqual n => n < Word.count 32
  | .switch labels => Binary.fitsList (· < Word.count 32) labels
  | .fieldAddress field | .loadField field | .storeField field => field.fits
  | .loadIndirect ty | .storeIndirect ty | .sizeOf ty | .phiEnqueue ty | .phiDequeue ty => ty.fits
  | .retDefault ty | .convert ty _ | .retIfPending ty _ => ty.fits
  | .call callee sig => callee.fits && sig.fits
  | .callIndirect sig => sig.fits
  | .binary _ | .compare _ | .negate | .pop | .nop | .ret _ => true
  | .enterFrame | .leaveFrame | .unreachable => true

/-- The same for a block. -/
def Block.fits (b : Block) : Bool :=
  b.label < Word.count 32 && b.origin.all (· < Word.count 32) && Binary.fitsList Instr.fits b.code

/-- The same for a body. -/
def Body.fits (b : Body) : Bool :=
  b.function < Word.count 32 && Binary.fitsText b.name && b.signature.fits && b.storage.fits &&
    Binary.fitsList Block.fits b.blocks

/-- The same for an initializer. -/
def Initializer.fits (i : Initializer) : Bool :=
  i.global < Word.count 32 && Binary.fitsText i.name && i.storage.fits && i.block.fits

/-- Whether every number in the assembly fits its width: numbers of types, variables, functions,
globals, blocks and source values are words of four bytes, lengths are words of eight, and constants
are signed words of four or eight. -/
def Assembly.fits (a : Assembly) : Bool :=
  Binary.fitsText a.name && Binary.fitsList Body.fits a.bodies &&
    Binary.fitsList Initializer.fits a.initializers

end Code

namespace Binary

open Code

/-! ## Types and signatures -/

/-- Four bytes are the written form of the number they stand for. -/
theorem cons_eq_write32 {b0 b1 b2 b3 : UInt8} {rest : List UInt8} {n : Nat}
    (number : b0.toNat + 256 * (b1.toNat + 256 * (b2.toNat + 256 * b3.toNat)) = n) :
    b0 :: b1 :: b2 :: b3 :: rest = write32 n ++ rest := by
  refine (read32_mirrors.eq_ok_iff.1 ?_).2
  rw [← number]
  rfl

/-- Reading a type takes the bytes that it is written as, and its numbers fit. -/
theorem readTy_eq_ok {bytes rest : List UInt8} {ty : Ty} (h : readTy bytes = .ok (ty, rest)) :
    ty.fits = true ∧ bytes = writeTy ty ++ rest := by
  fun_induction readTy bytes generalizing ty rest with
  | case12 b0 b1 b2 b3 behind number =>
    rcases read : read32 behind with _ | ⟨id, rest'⟩
    · rw [read] at h
      cases h
    · rw [read] at h
      cases h
      obtain ⟨fitting, rfl⟩ := read32_mirrors.1 read
      refine ⟨fitting, ?_⟩
      rw [cons_eq_write32 number, writeTy, List.append_assoc]
  | case13 => cases h
  | case14 b0 b1 b2 b3 behind number element behind' found ih =>
    obtain ⟨fitting, rfl⟩ := ih found
    rcases read : read64 behind' with _ | ⟨length, rest'⟩
    · rw [read] at h
      cases h
    · rw [read] at h
      cases h
      obtain ⟨small, rfl⟩ := read64_mirrors.1 read
      refine ⟨Bool.and_eq_true_iff.2 ⟨fitting, small⟩, ?_⟩
      rw [cons_eq_write32 number, writeTy, List.append_assoc, List.append_assoc]
  | case19 => cases h
  | case20 => cases h
  | _ b0 b1 b2 b3 behind number =>
    cases h
    exact ⟨rfl, cons_eq_write32 number⟩

/-- A type whose numbers fit is read back. -/
theorem readTy_writeTy {ty : Ty} (fitting : ty.fits = true) (rest : List UInt8) :
    readTy (writeTy ty ++ rest) = .ok (ty, rest) := by
  induction ty generalizing rest with
  | struct id =>
    rw [writeTy, List.append_assoc]
    show readTy (11 :: 0 :: 0 :: 0 :: (write32 id ++ rest)) = _
    rw [readTy]
    show Except.map _ (read32 _) = _
    rw [read32_mirrors.2 ⟨fitting, rfl⟩]
    rfl
  | inlineArray element length ih =>
    rw [Ty.fits, Bool.and_eq_true] at fitting
    rw [writeTy, List.append_assoc, List.append_assoc]
    show readTy (12 :: 0 :: 0 :: 0 :: (writeTy element ++ (write64 length ++ rest))) = _
    rw [readTy, ih fitting.1]
    show Except.map _ (read64 _) = _
    rw [read64_mirrors.2 ⟨fitting.2, rfl⟩]
    rfl
  | _ => rfl

theorem readTy_mirrors : Mirrors readTy writeTy Ty.fits := by
  intro bytes ty rest
  constructor
  · exact readTy_eq_ok
  · rintro ⟨fitting, rfl⟩
    exact readTy_writeTy fitting rest

/-- Signatures are read as they are written. -/
theorem readSignature_mirrors : Mirrors readSignature writeSignature Signature.fits := by
  intro bytes s rest
  rw [readSignature, (readList_mirrors readTy_mirrors).bind_eq_ok]
  simp only [readTy_mirrors.bind_eq_ok, pure_eq_ok, Prod.mk.injEq, Signature.fits,
    Bool.and_eq_true, writeSignature, List.append_assoc]
  constructor
  · rintro ⟨params, _, fitting, rfl, result, _, fitting', rfl, rfl, rfl⟩
    exact ⟨⟨fitting, fitting'⟩, rfl⟩
  · rintro ⟨⟨fitting, fitting'⟩, rfl⟩
    exact ⟨_, _, fitting, rfl, _, _, fitting', rfl, rfl, rfl⟩

/-! ## Variables -/

theorem readConstant_mirrors : Mirrors readConstant writeConstant Constant.fits := by
  refine mirrors_of_branches ?_ ?_
  · intro number behind c rest h
    split at h
    · obtain ⟨value, _, fitting, rfl, done⟩ := (readInt_mirrors 3).bind_eq_ok.1 h
      cases done
      exact ⟨fitting, (List.append_assoc ..).symm⟩
    · obtain ⟨value, _, fitting, rfl, done⟩ := (readInt_mirrors 7).bind_eq_ok.1 h
      cases done
      exact ⟨fitting, (List.append_assoc ..).symm⟩
    · obtain ⟨bits, _, fitting, rfl, done⟩ := read32_mirrors.bind_eq_ok.1 h
      cases done
      have small : bits < Word.count 32 := of_decide_eq_true fitting
      rw [writeConstant, UInt32.toNat_ofNat_of_lt' small, List.append_assoc]
      exact ⟨rfl, rfl⟩
    · obtain ⟨bits, _, fitting, rfl, done⟩ := read64_mirrors.bind_eq_ok.1 h
      cases done
      have small : bits < Word.count 64 := of_decide_eq_true fitting
      rw [writeConstant, UInt64.toNat_ofNat_of_lt' small, List.append_assoc]
      exact ⟨rfl, rfl⟩
    · cases h
      exact ⟨rfl, rfl⟩
    · cases h
      exact ⟨rfl, rfl⟩
    · cases h
  · intro c rest fitting
    cases c with
    | i4 value =>
      rw [writeConstant, List.append_assoc, bind_write_number (by decide)]
      exact (readInt_mirrors 3).bind_write fitting _ _
    | i8 value =>
      rw [writeConstant, List.append_assoc, bind_write_number (by decide)]
      exact (readInt_mirrors 7).bind_write fitting _ _
    | r4 bits =>
      rw [writeConstant, List.append_assoc, bind_write_number (by decide)]
      refine (read32_mirrors.bind_write (decide_eq_true bits.toNat_lt) _ _).trans ?_
      rw [UInt32.ofNat_toNat]
      rfl
    | r8 bits =>
      rw [writeConstant, List.append_assoc, bind_write_number (by decide)]
      refine (read64_mirrors.bind_write (decide_eq_true bits.toNat_lt) _ _).trans ?_
      rw [UInt64.ofNat_toNat]
      rfl
    | null => rfl
    | allZero => rfl

theorem readPlace_mirrors : Mirrors readPlace writePlace Place.fits := by
  refine mirrors_of_branches ?_ ?_
  · intro number behind p rest h
    split at h
    case h_1 | h_7 =>
      cases h
      exact ⟨rfl, rfl⟩
    case h_2 | h_3 | h_4 | h_5 =>
      obtain ⟨n, _, fitting, rfl, done⟩ := read32_mirrors.bind_eq_ok.1 h
      cases done
      exact ⟨fitting, (List.append_assoc ..).symm⟩
    case h_6 =>
      obtain ⟨value, _, fitting, rfl, done⟩ := readConstant_mirrors.bind_eq_ok.1 h
      cases done
      exact ⟨fitting, (List.append_assoc ..).symm⟩
    case h_8 => cases h
  · intro p rest fitting
    cases p with
    | slot | exceptionSlot => rfl
    | frameField n | parameter n | global n | functionPointer n =>
      rw [writePlace, List.append_assoc, bind_write_number (by decide)]
      exact read32_mirrors.bind_write fitting _ _
    | constant value =>
      rw [writePlace, List.append_assoc, bind_write_number (by decide)]
      exact readConstant_mirrors.bind_write fitting _ _

theorem toNat_bit (n : Nat) : (n % 2 == 1).toNat = n % 2 := by
  rcases Nat.mod_two_eq_zero_or_one n with even | odd
  · rw [even]
    rfl
  · rw [odd]
    rfl

/-- No bit of the byte is lost, also none of those without a meaning. -/
theorem toByte_ofByte (byte : UInt8) : (Access.ofByte byte).toByte = byte.toNat := by
  simp only [Access.toByte, Access.ofByte, toNat_bit]
  omega

theorem eq_bit_iff (b : Bool) (n : Nat) : b = (n % 2 == 1) ↔ b.toNat = n % 2 := by
  rw [← toNat_bit n]
  cases b <;> cases n % 2 == 1 <;> decide

theorem toByte_lt (a : Access) : a.toByte < 256 := by
  have load_lt := Bool.toNat_lt a.load
  have store_lt := Bool.toNat_lt a.store
  have address_lt := Bool.toNat_lt a.address
  have temporary_lt := Bool.toNat_lt a.temporary
  have reserved_lt := a.reserved.isLt
  rw [Access.toByte]
  omega

/-- All capabilities are those of a byte. -/
theorem exists_ofByte (a : Access) : ∃ byte, Access.ofByte byte = a := by
  refine ⟨UInt8.ofNat a.toByte, ?_⟩
  have number := Utf8.toNat_ofNat_byte (toByte_lt a)
  obtain ⟨load, store, address, temporary, reserved⟩ := a
  have load_lt := Bool.toNat_lt load
  have store_lt := Bool.toNat_lt store
  have address_lt := Bool.toNat_lt address
  have temporary_lt := Bool.toNat_lt temporary
  rw [eq_comm, Access.ofByte, Access.mk.injEq, eq_bit_iff, eq_bit_iff, eq_bit_iff, eq_bit_iff,
    Fin.ext_iff]
  simp only [Access.toByte] at number ⊢
  omega

/-- The byte of an access is written as it was read. -/
theorem writeNat_toByte (byte : UInt8) : writeNat 1 (Access.ofByte byte).toByte = [byte] := by
  rw [toByte_ofByte, writeNat, ofNat_toNat_mod]
  rfl

/-- Variables are read as they are written. -/
theorem readVariable_mirrors : Mirrors readVariable writeVariable Variable.fits := by
  intro bytes v rest
  rw [readVariable, readPlace_mirrors.bind_eq_ok]
  simp only [readTy_mirrors.bind_eq_ok, readByte_mirrors.bind_eq_ok,
    (readOption_mirrors read32_mirrors).bind_eq_ok, pure_eq_ok, Prod.mk.injEq, Variable.fits,
    Bool.and_eq_true, writeVariable, List.append_assoc]
  constructor
  · rintro ⟨place, _, fits₁, rfl, ty, _, fits₂, rfl, byte, _, -, rfl, origin, _, fits₃, rfl, rfl,
      rfl⟩
    rw [writeNat_toByte]
    exact ⟨⟨⟨fits₁, fits₂⟩, fits₃⟩, rfl⟩
  · rintro ⟨⟨⟨fits₁, fits₂⟩, fits₃⟩, rfl⟩
    obtain ⟨place, ty, access, origin⟩ := v
    obtain ⟨byte, rfl⟩ := exists_ofByte access
    rw [writeNat_toByte]
    exact ⟨_, _, fits₁, rfl, _, _, fits₂, rfl, _, _, trivial, rfl, _, _, fits₃, rfl, rfl, rfl⟩

theorem readStorage_mirrors : Mirrors readStorage writeStorage Storage.fits := by
  intro bytes s rest
  rw [readStorage, (readList_mirrors readVariable_mirrors).bind_eq_ok]
  simp only [read32_mirrors.bind_eq_ok, pure_eq_ok, Prod.mk.injEq, Storage.fits,
    Bool.and_eq_true, writeStorage, List.append_assoc]
  constructor
  · rintro ⟨entries, _, fits₁, rfl, frameSlots, _, fits₂, rfl, rfl, rfl⟩
    exact ⟨⟨fits₁, fits₂⟩, rfl⟩
  · rintro ⟨⟨fits₁, fits₂⟩, rfl⟩
    exact ⟨_, _, fits₁, rfl, _, _, fits₂, rfl, rfl, rfl⟩

/-! ## Instructions -/

/-- Members of a list by their positions, if everything is in the list, and only once. -/
theorem readChoice_mirrors {α : Type} [DecidableEq α] {choices : List α}
    (distinct : choices.Nodup) (complete : ∀ a, a ∈ choices)
    (small : choices.length < Word.count 32) :
    Mirrors (readChoice choices) (writeChoice choices) fun _ => true := by
  refine mirrors_of_branches ?_ ?_
  · intro number behind a rest h
    rcases found : choices[number]? with _ | a'
    · rw [found] at h
      cases h
    · rw [found] at h
      cases h
      obtain ⟨inside, rfl⟩ := List.getElem?_eq_some_iff.1 found
      rw [writeChoice, distinct.idxOf_getElem]
      exact ⟨rfl, rfl⟩
  · intro a rest _
    have inside := List.idxOf_lt_length_of_mem (complete a)
    have fitting : choices.idxOf a < Word.count 32 := Nat.lt_trans inside small
    refine (read32_mirrors.bind_write (decide_eq_true fitting) _ _).trans ?_
    rw [List.getElem?_eq_getElem inside, List.getElem_idxOf inside]
    rfl

theorem readBinaryOp_mirrors :
    Mirrors (readChoice binaryOps) (writeChoice binaryOps) fun _ => true :=
  readChoice_mirrors (by decide) (fun op => by cases op <;> decide) (by decide)

theorem readComparison_mirrors :
    Mirrors (readChoice comparisons) (writeChoice comparisons) fun _ => true :=
  readChoice_mirrors (by decide) (fun op => by cases op <;> decide) (by decide)

theorem readHelper_mirrors : Mirrors readHelper writeHelper Helper.fits := by
  refine mirrors_of_branches ?_ ?_
  · intro number behind routine rest h
    split at h
    case h_1 =>
      obtain ⟨n, _, fitting, rfl, done⟩ := read32_mirrors.bind_eq_ok.1 h
      cases done
      exact ⟨fitting, (List.append_assoc ..).symm⟩
    case h_2 | h_3 | h_4 | h_7 | h_8 =>
      cases h
      exact ⟨rfl, rfl⟩
    case h_5 =>
      obtain ⟨ty, _, fitting, rfl, done⟩ := readTy_mirrors.bind_eq_ok.1 h
      cases done
      exact ⟨fitting, (List.append_assoc ..).symm⟩
    case h_6 | h_9 | h_10 =>
      obtain ⟨first, _, fits₁, rfl, later⟩ := readTy_mirrors.bind_eq_ok.1 h
      obtain ⟨second, _, fits₂, rfl, done⟩ := readTy_mirrors.bind_eq_ok.1 later
      cases done
      rw [writeHelper, List.append_assoc, List.append_assoc]
      exact ⟨Bool.and_eq_true_iff.2 ⟨fits₁, fits₂⟩, rfl⟩
    case h_11 =>
      obtain ⟨vector, _, fits₁, rfl, later⟩ := readTy_mirrors.bind_eq_ok.1 h
      obtain ⟨mask, _, fits₂, rfl, last⟩ := readTy_mirrors.bind_eq_ok.1 later
      obtain ⟨result, _, fits₃, rfl, done⟩ := readTy_mirrors.bind_eq_ok.1 last
      cases done
      rw [writeHelper, List.append_assoc, List.append_assoc, List.append_assoc, Helper.fits, fits₁,
        fits₂, fits₃]
      exact ⟨rfl, rfl⟩
    case h_12 => cases h
  · intro routine rest fitting
    cases routine with
    | inlineArrayAsSpan n =>
      rw [writeHelper, List.append_assoc, bind_write_number (by decide)]
      exact read32_mirrors.bind_write fitting _ _
    | spanGetItem | spanAsReadOnly | exceptionDispose | vaStart | vaArg => rfl
    | select ty =>
      rw [writeHelper, List.append_assoc, bind_write_number (by decide)]
      exact readTy_mirrors.bind_write fitting _ _
    | bitCast first second | extractElement first second | insertElement first second =>
      rw [Helper.fits, Bool.and_eq_true] at fitting
      rw [writeHelper, List.append_assoc, List.append_assoc, bind_write_number (by decide)]
      refine (readTy_mirrors.bind_write fitting.1 _ _).trans ?_
      exact readTy_mirrors.bind_write fitting.2 _ _
    | shuffleVector vector mask result =>
      rw [Helper.fits, Bool.and_eq_true, Bool.and_eq_true] at fitting
      rw [writeHelper, List.append_assoc, List.append_assoc, List.append_assoc,
        bind_write_number (by decide)]
      refine (readTy_mirrors.bind_write fitting.1.1 _ _).trans ?_
      refine (readTy_mirrors.bind_write fitting.1.2 _ _).trans ?_
      exact readTy_mirrors.bind_write fitting.2 _ _

theorem readCallee_mirrors : Mirrors readCallee writeCallee Callee.fits := by
  refine mirrors_of_branches ?_ ?_
  · intro number behind callee rest h
    split at h
    · obtain ⟨id, _, fitting, rfl, done⟩ := read32_mirrors.bind_eq_ok.1 h
      cases done
      exact ⟨fitting, (List.append_assoc ..).symm⟩
    · obtain ⟨routine, _, fitting, rfl, done⟩ := readHelper_mirrors.bind_eq_ok.1 h
      cases done
      exact ⟨fitting, (List.append_assoc ..).symm⟩
    · cases h
  · intro callee rest fitting
    cases callee with
    | function id =>
      rw [writeCallee, List.append_assoc, bind_write_number (by decide)]
      exact read32_mirrors.bind_write fitting _ _
    | helper routine =>
      rw [writeCallee, List.append_assoc, bind_write_number (by decide)]
      exact readHelper_mirrors.bind_write fitting _ _

theorem readField_mirrors : Mirrors readField writeField Field.fits := by
  intro bytes f rest
  rw [readField, readTy_mirrors.bind_eq_ok]
  simp only [read32_mirrors.bind_eq_ok, readTy_mirrors.bind_eq_ok, pure_eq_ok, Prod.mk.injEq,
    Field.fits, Bool.and_eq_true, writeField, List.append_assoc]
  constructor
  · rintro ⟨owner, _, fits₁, rfl, index, _, fits₂, rfl, ty, _, fits₃, rfl, rfl, rfl⟩
    exact ⟨⟨⟨fits₁, fits₂⟩, fits₃⟩, rfl⟩
  · rintro ⟨⟨⟨fits₁, fits₂⟩, fits₃⟩, rfl⟩
    exact ⟨_, _, fits₁, rfl, _, _, fits₂, rfl, _, _, fits₃, rfl, rfl, rfl⟩

/-- Instructions with one number, type, field and so on go together: what is read behind the number
of the variant is the same. -/
theorem readInstr_mirrors : Mirrors readInstr writeInstr Instr.fits := by
  refine mirrors_of_branches ?_ ?_
  · intro number behind i rest h
    split at h
    case h_1 | h_2 | h_3 | h_4 | h_19 | h_20 | h_21 | h_22 =>
      obtain ⟨n, _, fitting, rfl, done⟩ := read32_mirrors.bind_eq_ok.1 h
      cases done
      exact ⟨fitting, (List.append_assoc ..).symm⟩
    case h_5 | h_6 | h_14 | h_24 | h_25 | h_27 =>
      obtain ⟨ty, _, fitting, rfl, done⟩ := readTy_mirrors.bind_eq_ok.1 h
      cases done
      exact ⟨fitting, (List.append_assoc ..).symm⟩
    case h_7 | h_8 | h_9 =>
      obtain ⟨field, _, fitting, rfl, done⟩ := readField_mirrors.bind_eq_ok.1 h
      cases done
      exact ⟨fitting, (List.append_assoc ..).symm⟩
    case h_10 =>
      obtain ⟨op, _, -, rfl, done⟩ := readBinaryOp_mirrors.bind_eq_ok.1 h
      cases done
      exact ⟨rfl, (List.append_assoc ..).symm⟩
    case h_11 =>
      obtain ⟨op, _, -, rfl, done⟩ := readComparison_mirrors.bind_eq_ok.1 h
      cases done
      exact ⟨rfl, (List.append_assoc ..).symm⟩
    case h_12 | h_17 | h_18 | h_29 | h_30 | h_31 =>
      cases h
      exact ⟨rfl, rfl⟩
    case h_13 | h_28 =>
      obtain ⟨ty, _, fitting, rfl, later⟩ := readTy_mirrors.bind_eq_ok.1 h
      obtain ⟨flag, _, -, rfl, done⟩ := readBool_mirrors.bind_eq_ok.1 later
      cases done
      rw [writeInstr, List.append_assoc, List.append_assoc]
      exact ⟨fitting, rfl⟩
    case h_15 =>
      obtain ⟨callee, _, fits₁, rfl, later⟩ := readCallee_mirrors.bind_eq_ok.1 h
      obtain ⟨sig, _, fits₂, rfl, done⟩ := readSignature_mirrors.bind_eq_ok.1 later
      cases done
      rw [writeInstr, List.append_assoc, List.append_assoc]
      exact ⟨Bool.and_eq_true_iff.2 ⟨fits₁, fits₂⟩, rfl⟩
    case h_16 =>
      obtain ⟨sig, _, fitting, rfl, done⟩ := readSignature_mirrors.bind_eq_ok.1 h
      cases done
      exact ⟨fitting, (List.append_assoc ..).symm⟩
    case h_23 =>
      obtain ⟨labels, _, fitting, rfl, done⟩ := (readList_mirrors read32_mirrors).bind_eq_ok.1 h
      cases done
      exact ⟨fitting, (List.append_assoc ..).symm⟩
    case h_26 =>
      obtain ⟨flag, _, -, rfl, done⟩ := readBool_mirrors.bind_eq_ok.1 h
      cases done
      exact ⟨rfl, (List.append_assoc ..).symm⟩
    case h_32 => cases h
  · intro i rest fitting
    cases i with
    | load n | store n | addressOf n | clear n | branch n | branchIfTrue n | branchIfFalse n
    | branchIfEqual n =>
      rw [writeInstr, List.append_assoc, bind_write_number (by decide)]
      exact read32_mirrors.bind_write fitting _ _
    | loadIndirect ty | storeIndirect ty | sizeOf ty | phiEnqueue ty | phiDequeue ty
    | retDefault ty =>
      rw [writeInstr, List.append_assoc, bind_write_number (by decide)]
      exact readTy_mirrors.bind_write fitting _ _
    | fieldAddress field | loadField field | storeField field =>
      rw [writeInstr, List.append_assoc, bind_write_number (by decide)]
      exact readField_mirrors.bind_write fitting _ _
    | binary op =>
      rw [writeInstr, List.append_assoc, bind_write_number (by decide)]
      exact readBinaryOp_mirrors.bind_write rfl _ _
    | compare op =>
      rw [writeInstr, List.append_assoc, bind_write_number (by decide)]
      exact readComparison_mirrors.bind_write rfl _ _
    | negate | pop | nop | enterFrame | leaveFrame | unreachable => rfl
    | convert ty flag | retIfPending ty flag =>
      rw [writeInstr, List.append_assoc, List.append_assoc, bind_write_number (by decide)]
      refine (readTy_mirrors.bind_write fitting _ _).trans ?_
      exact readBool_mirrors.bind_write rfl _ _
    | call callee sig =>
      rw [Instr.fits, Bool.and_eq_true] at fitting
      rw [writeInstr, List.append_assoc, List.append_assoc, bind_write_number (by decide)]
      refine (readCallee_mirrors.bind_write fitting.1 _ _).trans ?_
      exact readSignature_mirrors.bind_write fitting.2 _ _
    | callIndirect sig =>
      rw [writeInstr, List.append_assoc, bind_write_number (by decide)]
      exact readSignature_mirrors.bind_write fitting _ _
    | switch labels =>
      rw [writeInstr, List.append_assoc, bind_write_number (by decide)]
      exact (readList_mirrors read32_mirrors).bind_write fitting _ _
    | ret flag =>
      rw [writeInstr, List.append_assoc, bind_write_number (by decide)]
      exact readBool_mirrors.bind_write rfl _ _

/-! ## Assemblies -/

/-- Blocks are read as they are written. -/
theorem readBlock_mirrors : Mirrors readBlock writeBlock Block.fits := by
  intro bytes b rest
  rw [readBlock, read32_mirrors.bind_eq_ok]
  simp only [(readOption_mirrors read32_mirrors).bind_eq_ok,
    (readList_mirrors readInstr_mirrors).bind_eq_ok, pure_eq_ok, Prod.mk.injEq, Block.fits,
    Bool.and_eq_true, writeBlock, List.append_assoc]
  constructor
  · rintro ⟨label, _, fits₁, rfl, origin, _, fits₂, rfl, code, _, fits₃, rfl, rfl, rfl⟩
    exact ⟨⟨⟨fits₁, fits₂⟩, fits₃⟩, rfl⟩
  · rintro ⟨⟨⟨fits₁, fits₂⟩, fits₃⟩, rfl⟩
    exact ⟨_, _, fits₁, rfl, _, _, fits₂, rfl, _, _, fits₃, rfl, rfl, rfl⟩

theorem readBody_mirrors : Mirrors readBody writeBody Body.fits := by
  intro bytes b rest
  rw [readBody, read32_mirrors.bind_eq_ok]
  simp only [readText_mirrors.bind_eq_ok, readSignature_mirrors.bind_eq_ok,
    readStorage_mirrors.bind_eq_ok, (readList_mirrors readBlock_mirrors).bind_eq_ok,
    readBool_mirrors.bind_eq_ok, pure_eq_ok, Prod.mk.injEq, Body.fits, Bool.and_eq_true,
    writeBody, List.append_assoc]
  constructor
  · rintro ⟨function, _, fits₁, rfl, name, _, fits₂, rfl, signature, _, fits₃, rfl, storage, _,
      fits₄, rfl, blocks, _, fits₅, rfl, needsFrame, _, -, rfl, rfl, rfl⟩
    exact ⟨⟨⟨⟨⟨fits₁, fits₂⟩, fits₃⟩, fits₄⟩, fits₅⟩, rfl⟩
  · rintro ⟨⟨⟨⟨⟨fits₁, fits₂⟩, fits₃⟩, fits₄⟩, fits₅⟩, rfl⟩
    exact ⟨_, _, fits₁, rfl, _, _, fits₂, rfl, _, _, fits₃, rfl, _, _, fits₄, rfl, _, _, fits₅, rfl,
      _, _, trivial, rfl, rfl, rfl⟩

theorem readInitializer_mirrors :
    Mirrors readInitializer writeInitializer Initializer.fits := by
  intro bytes i rest
  rw [readInitializer, read32_mirrors.bind_eq_ok]
  simp only [readText_mirrors.bind_eq_ok, readStorage_mirrors.bind_eq_ok,
    readBlock_mirrors.bind_eq_ok, pure_eq_ok, Prod.mk.injEq, Initializer.fits, Bool.and_eq_true,
    writeInitializer, List.append_assoc]
  constructor
  · rintro ⟨global, _, fits₁, rfl, name, _, fits₂, rfl, storage, _, fits₃, rfl, block, _, fits₄,
      rfl, rfl, rfl⟩
    exact ⟨⟨⟨⟨fits₁, fits₂⟩, fits₃⟩, fits₄⟩, rfl⟩
  · rintro ⟨⟨⟨⟨fits₁, fits₂⟩, fits₃⟩, fits₄⟩, rfl⟩
    exact ⟨_, _, fits₁, rfl, _, _, fits₂, rfl, _, _, fits₃, rfl, _, _, fits₄, rfl, rfl, rfl⟩

/-- Reading an assembly takes exactly the binary forms of the assemblies that fit. -/
theorem readAssembly_mirrors : Mirrors readAssembly encode Assembly.fits := by
  intro bytes a rest
  rw [readAssembly, readText_mirrors.bind_eq_ok]
  simp only [(readList_mirrors readBody_mirrors).bind_eq_ok,
    (readList_mirrors readInitializer_mirrors).bind_eq_ok, pure_eq_ok, Prod.mk.injEq,
    Assembly.fits, Bool.and_eq_true, encode, List.append_assoc]
  constructor
  · rintro ⟨name, _, fits₁, rfl, bodies, _, fits₂, rfl, initializers, _, fits₃, rfl, rfl, rfl⟩
    exact ⟨⟨⟨fits₁, fits₂⟩, fits₃⟩, rfl⟩
  · rintro ⟨⟨⟨fits₁, fits₂⟩, fits₃⟩, rfl⟩
    exact ⟨_, _, fits₁, rfl, _, _, fits₂, rfl, _, _, fits₃, rfl, rfl, rfl⟩

/-- What is decoded is what the input begins with the binary form of. -/
theorem decode_eq_ok_iff {bytes : List UInt8} {a : Assembly} :
    decode bytes = .ok a ↔ a.fits = true ∧ encode a <+: bytes := by
  rw [decode]
  constructor
  · intro h
    rcases read : readAssembly.run bytes with _ | ⟨a', rest⟩
    · rw [read] at h
      cases h
    · rw [read] at h
      cases h
      obtain ⟨fitting, written⟩ := readAssembly_mirrors.1 read
      exact ⟨fitting, rest, written.symm⟩
  · rintro ⟨fitting, rest, rfl⟩
    have read : readAssembly.run (encode a ++ rest) = .ok (a, rest) :=
      readAssembly_mirrors.2 ⟨fitting, rfl⟩
    rw [read]
    rfl

/-- **The binary form can be read back.**  The binary form of any assembly whose numbers are words
of their widths gives that assembly again; so it does with anything behind it, and then exactly what
stands behind is left. -/
theorem encoded_assembly_reloads (a : Assembly) (fitting : a.fits = true) :
    decode (encode a) = .ok a ∧
      ∀ rest, readAssembly.run (encode a ++ rest) = .ok (a, rest) ∧
        decode (encode a ++ rest) = .ok a := by
  refine ⟨decode_eq_ok_iff.2 ⟨fitting, List.prefix_rfl⟩, ?_⟩
  intro rest
  constructor
  · exact readAssembly_mirrors.2 ⟨fitting, rfl⟩
  · exact decode_eq_ok_iff.2 ⟨fitting, rest, rfl⟩

/-- An assembly with a nested array, a call of a support routine, a switch and an initializer. -/
def sampler : Assembly where
  name := "größe"
  bodies := [{
    function := 3
    name := "main"
    signature := ⟨[.inlineArray (.inlineArray (.struct 7) 2) 5, .pointer], .int32⟩
    storage := {
      entries := #[⟨.constant (.i8 (-5)), .int64, Access.loadOnly, none⟩,
        ⟨.slot, .inlineArray .int8 4, Access.free, some 9⟩]
      frameSlots := 0 }
    blocks := [⟨0, some 0, [.addressOf 1, .call (.helper (.bitCast .int64 .pointer))
      ⟨[.int64], .pointer⟩, .pop, .load 0, .switch [1, 1]]⟩, ⟨1, none, [.retDefault .int32]⟩]
    needsFrame := true }]
  initializers := [{
    global := 2
    name := "counter"
    storage := { entries := #[⟨.global 2, .int32, Access.pinned, none⟩], frameSlots := 0 }
    block := ⟨0, none, [.nop, .ret false]⟩ }]

/-- The sample is read back, also with bytes behind it. -/
theorem encoded_assembly_reloads_sampler :
    sampler.fits = true ∧ decode (encode sampler) = .ok sampler ∧
      decode (encode sampler ++ [0, 1]) = .ok sampler :=
  have fitting : sampler.fits = true := by decide +kernel
  ⟨fitting, (encoded_assembly_reloads sampler fitting).1,
    ((encoded_assembly_reloads sampler fitting).2 [0, 1]).2⟩

/-- **Each assembly has one binary form, and no part of it is ignored.**  A byte string is accepted
exactly if it begins with the binary form of an assembly, and it is that assembly that is decoded.
Two byte strings with the same assembly differ at most behind its binary form.  A binary form of
which the end is missing, be it one byte, is an error. -/
theorem accepted_bytes_canonical :
    (∀ bytes a, decode bytes = .ok a ↔ a.fits = true ∧ encode a <+: bytes) ∧
    (∀ bytes bytes' a, decode bytes = .ok a → decode bytes' = .ok a →
      bytes.take (encode a).length = bytes'.take (encode a).length) ∧
    (∀ a bytes, a.fits = true → bytes <+: encode a → bytes ≠ encode a →
      ∃ fault, decode bytes = .error fault) := by
  refine ⟨fun _ _ => decode_eq_ok_iff, ?_, ?_⟩
  · intro bytes bytes' a accepted accepted'
    obtain ⟨-, rest, rfl⟩ := decode_eq_ok_iff.1 accepted
    obtain ⟨-, rest', rfl⟩ := decode_eq_ok_iff.1 accepted'
    rw [List.take_left, List.take_left]
  · rintro a bytes fitting ⟨cut, whole⟩ strict
    have nonempty : cut ≠ [] := by
      rintro rfl
      rw [List.append_nil] at whole
      exact strict whole
    obtain ⟨fault, failed⟩ := readAssembly_mirrors.error_of_truncated fitting whole nonempty
    refine ⟨fault, ?_⟩
    rw [decode]
    show Except.map _ (readAssembly bytes) = _
    rw [failed]
    rfl

/-- The bytes behind the sample do not matter, and without its last byte it is refused. -/
theorem accepted_bytes_canonical_sampler :
    decode (encode sampler ++ [0]) = .ok sampler ∧ decode (encode sampler ++ [1]) = .ok sampler ∧
      (encode sampler ++ [0]).take (encode sampler).length
        = (encode sampler ++ [1]).take (encode sampler).length ∧
      ∃ fault, decode (encode sampler).dropLast = .error fault := by
  have fitting : sampler.fits = true := by decide +kernel
  obtain ⟨accepts, agrees, detects⟩ := accepted_bytes_canonical
  have zero := (accepts (encode sampler ++ [0]) sampler).2 ⟨fitting, [0], rfl⟩
  have one := (accepts (encode sampler ++ [1]) sampler).2 ⟨fitting, [1], rfl⟩
  refine ⟨zero, one, agrees _ _ _ zero one, ?_⟩
  refine detects sampler _ fitting (List.dropLast_prefix _) ?_
  intro same
  have length := congrArg List.length same
  have nonempty : 0 < (encode sampler).length := by decide +kernel
  rw [List.length_dropLast] at length
  omega

/-- What stands behind the binary form may be anything, so two byte strings of the same length need
not be equal to have the same assembly. -/
theorem equal_lengths_trailing :
    ∃ bytes bytes' a, bytes.length = bytes'.length ∧ decode bytes = .ok a ∧
      decode bytes' = .ok a ∧ bytes ≠ bytes' := by
  have fitting : Assembly.fits ⟨"", [], []⟩ = true := by decide +kernel
  refine ⟨encode ⟨"", [], []⟩ ++ [0], encode ⟨"", [], []⟩ ++ [1], ⟨"", [], []⟩, ?_, ?_, ?_, ?_⟩
  · rw [List.length_append, List.length_append]
    rfl
  · exact decode_eq_ok_iff.2 ⟨fitting, [0], rfl⟩
  · exact decode_eq_ok_iff.2 ⟨fitting, [1], rfl⟩
  · intro same
    cases List.append_cancel_left same

end Binary

end Stackwise
