import Stackwise.Binary.Stream
import Stackwise.Proofs.Binary.Utf8

/-!
# Readers that mirror writers

A reader *mirrors* a writer if it takes a datum off the front of the input exactly when the input
begins with the written form of that datum, and then leaves exactly what stands behind
(`Mirrors`).  Both directions are in one equivalence: what is written is read back, whatever follows
it, and nothing is accepted but what would have been written.

Only data that fit are written faithfully, since a number is cut to its width; which do is part of
the law, and a reader never gives one that does not.

`Mirrors.bind_eq_ok` is the rule for reading one thing after another; with it the law of a record or
a list follows from the laws of its parts.  A written form is never cut short unnoticed
(`Mirrors.error_of_truncated`): this follows from the law alone.
-/

namespace Stackwise.Binary

/-- The reader takes exactly the written forms of the data that fit. -/
def Mirrors {α : Type} (read : Reader α) (write : α → List UInt8) (fits : α → Bool) : Prop :=
  ∀ ⦃bytes : List UInt8⦄ ⦃a : α⦄ ⦃rest : List UInt8⦄,
    read bytes = .ok (a, rest) ↔ fits a = true ∧ bytes = write a ++ rest

variable {α β : Type} {read : Reader α} {write : α → List UInt8} {fits : α → Bool}

/-! ## Reading in sequence -/

theorem bind_eq_ok {next : α → Reader β} {bytes : List UInt8} {result : β × List UInt8} :
    (read >>= next) bytes = .ok result ↔
      ∃ a rest, read bytes = .ok (a, rest) ∧ next a rest = .ok result := by
  show (read bytes >>= fun p => next p.1 p.2) = .ok result ↔ _
  cases read bytes with
  | error fault =>
    constructor
    · intro h
      cases h
    · rintro ⟨a, rest, h, -⟩
      cases h
  | ok p =>
    obtain ⟨a, rest⟩ := p
    constructor
    · intro h
      exact ⟨a, rest, rfl, h⟩
    · rintro ⟨_, _, h, later⟩
      cases h
      exact later

theorem pure_eq_ok {a : α} {bytes : List UInt8} {result : α × List UInt8} :
    (pure a : Reader α) bytes = .ok result ↔ (a, bytes) = result := by
  show Except.ok (a, bytes) = .ok result ↔ _
  rw [Except.ok.injEq]

/-- Reading gives a value exactly if it fits and the bytes begin with what it is written as. -/
theorem Mirrors.eq_ok_iff (law : Mirrors read write fits) {bytes rest : List UInt8} {a : α} :
    read bytes = .ok (a, rest) ↔ fits a = true ∧ bytes = write a ++ rest :=
  @law bytes a rest

/-- Reading one thing after another. -/
theorem Mirrors.bind_eq_ok (law : Mirrors read write fits) {next : α → Reader β}
    {bytes : List UInt8} {result : β × List UInt8} :
    (read >>= next) bytes = .ok result ↔
      ∃ a rest, fits a = true ∧ bytes = write a ++ rest ∧ next a rest = .ok result := by
  rw [Binary.bind_eq_ok]
  constructor
  · rintro ⟨a, rest, h, later⟩
    obtain ⟨fitting, written⟩ := law.1 h
    exact ⟨a, rest, fitting, written, later⟩
  · rintro ⟨a, rest, fitting, written, later⟩
    exact ⟨a, rest, law.2 ⟨fitting, written⟩, later⟩

/-- What has been written is read back, and the rest of the reader goes on behind it. -/
theorem Mirrors.bind_write (law : Mirrors read write fits) {a : α} (fitting : fits a = true)
    (next : α → Reader β) (rest : List UInt8) :
    (read >>= next) (write a ++ rest) = next a rest := by
  show (read (write a ++ rest) >>= fun p => next p.1 p.2) = _
  rw [law.2 ⟨fitting, rfl⟩]
  rfl

/-- What is left of a written form after its end has been cut off is not accepted. -/
theorem Mirrors.error_of_truncated (law : Mirrors read write fits) {a : α}
    (fitting : fits a = true) {bytes cut : List UInt8} (written : bytes ++ cut = write a)
    (nonempty : cut ≠ []) : ∃ fault, read bytes = .error fault := by
  cases found : read bytes with
  | error fault => exact ⟨fault, rfl⟩
  | ok p =>
    obtain ⟨b, rest⟩ := p
    obtain ⟨fitting', same⟩ := law.1 found
    -- With its end put back, the input would be the written form of two data at once.
    have whole : read (write a) = .ok (a, []) := law.2 ⟨fitting, (List.append_nil _).symm⟩
    have again : read (write a) = .ok (b, rest ++ cut) := by
      refine law.2 ⟨fitting', ?_⟩
      rw [← written, same, List.append_assoc]
    rw [whole, Except.ok.injEq, Prod.mk.injEq] at again
    exact absurd (List.append_eq_nil_iff.1 again.2.symm).2 nonempty

/-! ## Numbers -/

theorem readByte_mirrors : Mirrors readByte (fun b => [b]) fun _ => true := by
  intro bytes b rest
  cases bytes with
  | nil => simp [readByte]
  | cons b' rest' => simp [readByte]

theorem ofNat_toNat_mod (b : UInt8) : UInt8.ofNat (b.toNat % 256) = b := by
  rw [Nat.mod_eq_of_lt b.toNat_lt, UInt8.ofNat_toNat]

theorem count_add_eight (bits : Nat) : Word.count (bits + 8) = 256 * Word.count bits := by
  have doubled : Word.count (bits + 8) = Word.count bits * 2 * 2 * 2 * 2 * 2 * 2 * 2 * 2 := rfl
  omega

/-- A number fits its width if a word of as many bytes has it. -/
theorem readNat_mirrors (width : Nat) :
    Mirrors (readNat width) (writeNat width) fun n => n < Word.count (8 * width) := by
  induction width with
  | zero =>
    intro bytes n rest
    rw [readNat, pure_eq_ok]
    simp [writeNat, Word.count, eq_comm]
  | succ width ih =>
    intro bytes n rest
    have count : Word.count (8 * (width + 1)) = 256 * Word.count (8 * width) :=
      count_add_eight (8 * width)
    rw [readNat, readByte_mirrors.bind_eq_ok, count]
    simp only [ih.bind_eq_ok, pure_eq_ok, Prod.mk.injEq, decide_eq_true_eq, true_and]
    constructor
    · rintro ⟨low, _, rfl, high, _, small, rfl, rfl, rfl⟩
      have bound := low.toNat_lt
      have digit : (low.toNat + 256 * high) % 256 = low.toNat % 256 := by omega
      have others : (low.toNat + 256 * high) / 256 = high := by omega
      refine ⟨by omega, ?_⟩
      rw [writeNat, digit, others, ofNat_toNat_mod]
      rfl
    · rintro ⟨small, rfl⟩
      refine ⟨UInt8.ofNat (n % 256), _, rfl, n / 256, rest, by omega, rfl, ?_, rfl⟩
      rw [Utf8.toNat_ofNat_byte (Nat.mod_lt _ (by decide))]
      omega

theorem read32_mirrors : Mirrors read32 write32 fun n => n < Word.count 32 := readNat_mirrors 4

theorem read64_mirrors : Mirrors read64 write64 fun n => n < Word.count 64 := readNat_mirrors 8

/-- The number of a variant is always read back. -/
theorem bind_write_number {number : Nat} (small : number < 256) (next : Nat → Reader β)
    (rest : List UInt8) : (read32 >>= next) (write32 number ++ rest) = next number rest := by
  have fitting : number < Word.count 32 := Nat.lt_trans small (by decide)
  exact read32_mirrors.bind_write (decide_eq_true fitting) next rest

/-- A variant, from what its branches accept and from what is read back. -/
theorem mirrors_of_branches {next : Nat → Reader α}
    (accepted : ∀ {number : Nat} {behind : List UInt8} {a : α} {rest : List UInt8},
      (next number).run behind = .ok (a, rest) →
        fits a = true ∧ write32 number ++ behind = write a ++ rest)
    (written : ∀ {a : α} (rest : List UInt8), fits a = true →
      (read32 >>= next) (write a ++ rest) = .ok (a, rest)) :
    Mirrors (read32 >>= next) write fits := by
  intro bytes a rest
  constructor
  · intro h
    obtain ⟨number, behind, -, rfl, found⟩ := read32_mirrors.bind_eq_ok.1 h
    exact accepted found
  · rintro ⟨fitting, rfl⟩
    exact written rest fitting

/-- Which unsigned word stands for a signed one. -/
theorem signed_eq_iff (bits : Nat) {k : Nat} {n : Int} (small : k < Word.count (bits + 1)) :
    Word.signed (bits + 1) k = n ↔
      Word.isSigned (bits + 1) n = true ∧ k = (n % Word.count (bits + 1)).toNat := by
  have doubled : Word.count (bits + 1) = Word.count bits * 2 := rfl
  have positive : 0 < Word.count bits := Nat.two_pow_pos bits
  have remainder := Int.emod_nonneg n (b := Word.count (bits + 1)) (by omega)
  have same : (Word.count (bits + 1) : Int) ∣ n - k ↔ n % Word.count (bits + 1) = k := by
    rw [Int.dvd_iff_emod_eq_zero, ← Int.emod_eq_emod_iff_emod_sub_eq_zero,
      Int.emod_eq_of_lt (a := k) (by omega) (by omega)]
  simp only [Word.signed, Word.isSigned, Bool.and_eq_true, decide_eq_true_eq,
    Nat.add_sub_cancel]
  rw [Int.bmod_eq_iff (by omega), same]
  omega

/-- Signed numbers are read as they are written, in every positive width. -/
theorem readInt_mirrors (width : Nat) :
    Mirrors (readInt (width + 1)) (writeInt (width + 1)) (Word.isSigned (8 * (width + 1))) := by
  intro bytes n rest
  rw [readInt, (readNat_mirrors _).bind_eq_ok]
  simp only [pure_eq_ok, Prod.mk.injEq, decide_eq_true_eq, writeInt]
  constructor
  · rintro ⟨k, _, small, rfl, signed, rfl⟩
    obtain ⟨fitting, rfl⟩ := (signed_eq_iff (8 * width + 7) small).1 signed
    exact ⟨fitting, rfl⟩
  · rintro ⟨fitting, rfl⟩
    have positive : 0 < Word.count (8 * (width + 1)) := Nat.two_pow_pos _
    have below := Int.emod_lt_of_pos n (b := Word.count (8 * (width + 1))) (by omega)
    have small : (n % Word.count (8 * (width + 1))).toNat < Word.count (8 * (width + 1)) := by
      omega
    exact ⟨_, rest, small, rfl, (signed_eq_iff (8 * width + 7) small).2 ⟨fitting, rfl⟩, rfl⟩

/-! ## Flags, options, texts, lists -/

theorem readBool_mirrors : Mirrors readBool writeBool fun _ => true := by
  intro bytes b rest
  rw [readBool, readByte_mirrors.bind_eq_ok]
  constructor
  · rintro ⟨byte, _, -, rfl, h⟩
    rcases number : byte.toNat with _ | _ | n
    · rw [number] at h
      cases h
      rw [show byte = 0 from UInt8.toNat_inj.1 number]
      exact ⟨rfl, rfl⟩
    · rw [number] at h
      cases h
      rw [show byte = 1 from UInt8.toNat_inj.1 number]
      exact ⟨rfl, rfl⟩
    · rw [number] at h
      cases h
  · rintro ⟨-, rfl⟩
    cases b with
    | false => exact ⟨0, rest, rfl, rfl, rfl⟩
    | true => exact ⟨1, rest, rfl, rfl, rfl⟩

theorem readOption_mirrors (law : Mirrors read write fits) :
    Mirrors (readOption read) (writeOption write) fun a? => a?.all fits := by
  intro bytes a? rest
  rw [readOption, readByte_mirrors.bind_eq_ok]
  constructor
  · rintro ⟨byte, _, -, rfl, h⟩
    rcases number : byte.toNat with _ | _ | n
    · rw [number] at h
      cases h
      rw [show byte = 0 from UInt8.toNat_inj.1 number]
      exact ⟨rfl, rfl⟩
    · rw [number] at h
      obtain ⟨a, _, fitting, rfl, done⟩ := law.bind_eq_ok.1 h
      cases done
      rw [show byte = 1 from UInt8.toNat_inj.1 number]
      exact ⟨fitting, rfl⟩
    · rw [number] at h
      cases h
  · rintro ⟨fitting, rfl⟩
    cases a? with
    | none => exact ⟨0, rest, rfl, rfl, rfl⟩
    | some a => exact ⟨1, _, rfl, rfl, law.bind_eq_ok.2 ⟨a, rest, fitting, rfl, rfl⟩⟩

/-- Reading several values gives that many, each of which fits, and takes what they are written as.
-/
theorem readMany_eq_ok_iff (law : Mirrors read write fits) {count : Nat} {bytes rest : List UInt8}
    {l : List α} : readMany read count bytes = .ok (l, rest) ↔
      l.length = count ∧ l.all fits = true ∧ bytes = l.flatMap write ++ rest := by
  induction count generalizing bytes l rest with
  | zero =>
    rw [readMany, pure_eq_ok]
    cases l with
    | nil => simp
    | cons a l => simp
  | succ count ih =>
    rw [readMany, law.bind_eq_ok]
    simp only [bind_eq_ok, ih, pure_eq_ok, Prod.mk.injEq]
    constructor
    · rintro ⟨a, _, fitting, rfl, l, _, ⟨rfl, fitting', rfl⟩, rfl, rfl⟩
      refine ⟨rfl, ?_, by simp⟩
      rw [List.all_cons, fitting, fitting']
      rfl
    · rintro ⟨length, fitting, rfl⟩
      cases l with
      | nil => cases length
      | cons a l =>
        rw [List.all_cons, Bool.and_eq_true] at fitting
        refine ⟨a, l.flatMap write ++ rest, fitting.1, by simp, l, rest, ⟨?_, fitting.2, rfl⟩,
          rfl, rfl⟩
        exact Nat.succ.inj length

/-- Whether a list has a length that can be written, and all its members fit. -/
def fitsList (fits : α → Bool) (l : List α) : Bool := l.length < Word.count 64 && l.all fits

/-- Lists are read as they are written, behind their length. -/
theorem readList_mirrors (law : Mirrors read write fits) :
    Mirrors (readList read) (writeList write) (fitsList fits) := by
  intro bytes l rest
  rw [readList, read64_mirrors.bind_eq_ok]
  simp only [readMany_eq_ok_iff law, decide_eq_true_eq, fitsList, Bool.and_eq_true, writeList,
    List.append_assoc]
  constructor
  · rintro ⟨_, _, small, rfl, rfl, fitting, rfl⟩
    exact ⟨⟨small, fitting⟩, rfl⟩
  · rintro ⟨⟨small, fitting⟩, rfl⟩
    exact ⟨_, _, small, rfl, rfl, fitting, rfl⟩

/-- Whether a text has a length that can be written. -/
def fitsText (s : String) : Bool := (Utf8.encode s).length < Word.count 64

/-- Texts are read as they are written. -/
theorem readText_mirrors : Mirrors readText writeText fitsText := by
  intro bytes s rest
  rw [readText, read64_mirrors.bind_eq_ok]
  constructor
  · rintro ⟨length, behind, small, rfl, h⟩
    obtain ⟨_, _, same, read⟩ := bind_eq_ok.1 h
    cases same
    by_cases short : behind.length < length
    · rw [if_pos short] at read
      cases read
    rw [if_neg short] at read
    cases spelled : Utf8.decode (behind.take length) with
    | error fault =>
      rw [spelled] at read
      cases read
    | ok s' =>
      rw [spelled] at read
      cases read
      have taken := Utf8.decode_eq_ok_iff.1 spelled
      have measured : length = (Utf8.encode s).length := by
        rw [← taken, List.length_take, Nat.min_eq_left (Nat.le_of_not_lt short)]
      refine ⟨by rw [fitsText, ← measured]; exact small, ?_⟩
      rw [writeText, ← measured, ← taken, List.append_assoc, List.take_append_drop]
  · rintro ⟨fitting, rfl⟩
    refine ⟨_, _, fitting, List.append_assoc _ _ _, ?_⟩
    have enough : ¬ (Utf8.encode s ++ rest).length < (Utf8.encode s).length := by
      rw [List.length_append]
      omega
    refine bind_eq_ok.2 ⟨_, _, rfl, ?_⟩
    rw [if_neg enough, List.take_left, List.drop_left, Utf8.decode_eq_ok_iff.2 rfl]
    rfl

end Stackwise.Binary
