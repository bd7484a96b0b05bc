import Stackwise.Binary.Utf8

/-!
# UTF-8 is exact

Decoding accepts exactly the bytes that encoding writes, and gives back the characters they were
written for (`decode_eq_ok_iff`).  So every text has one spelling, and every spelling one text.

All of the argument is in a single character.  The tests on the bytes of a character are just strict
enough that the number put together from them is a scalar value, and one that cannot be written in
fewer bytes: `bytes_of_decodeChar` reads the bytes off the character that was found, and
`decodeChar_encodeChar` finds the character again.
-/

namespace Stackwise.Binary.Utf8

/-! ## Bytes and characters as numbers -/

theorem toNat_ofNat_char {n : Nat} (valid : n.isValidChar) : (Char.ofNat n).toNat = n := by
  rw [Char.ofNat, dif_pos valid]
  exact UInt32.toNat_ofNatLT

theorem toNat_ofNat_byte {n : Nat} (small : n < 256) : (UInt8.ofNat n).toNat = n := by
  rw [UInt8.toNat_ofNat']
  exact Nat.mod_eq_of_lt small

theorem byte_eq_iff {b : UInt8} {n : Nat} (small : n < 256) : b = UInt8.ofNat n ↔ b.toNat = n := by
  rw [← UInt8.toNat_inj, toNat_ofNat_byte small]

/-- A continuation byte is between two bounds. -/
theorem isContinuation_iff {b : UInt8} :
    isContinuation b = true ↔ 0x80 ≤ b.toNat ∧ b.toNat < 0xC0 := by
  simp [isContinuation]

/-- The second byte is one whose character is neither written too long nor outside of the range. -/
theorem isSecond_iff {first second : UInt8} :
    isSecond first second = true ↔ 0x80 ≤ second.toNat ∧ second.toNat < 0xC0 ∧
      (first.toNat = 0xE0 → 0xA0 ≤ second.toNat) ∧ (first.toNat = 0xED → second.toNat < 0xA0) ∧
      (first.toNat = 0xF0 → 0x90 ≤ second.toNat) ∧ (first.toNat = 0xF4 → second.toNat < 0x90) := by
  have e0 : first = 0xE0 ↔ first.toNat = 0xE0 := byte_eq_iff (by decide)
  have ed : first = 0xED ↔ first.toNat = 0xED := byte_eq_iff (by decide)
  have f0 : first = 0xF0 ↔ first.toNat = 0xF0 := byte_eq_iff (by decide)
  have f4 : first = 0xF4 ↔ first.toNat = 0xF4 := byte_eq_iff (by decide)
  simp only [isSecond, beq_iff_eq, Bool.and_eq_true, decide_eq_true_eq, e0, ed, f0, f4]
  repeat' split
  all_goals omega

/-! ## One character -/

theorem decodeTail_nil {start taken number : Nat} {bytes behind : List UInt8} {c : Char} :
    decodeTail start taken number [] bytes = .ok (c, behind) ↔
      c = Char.ofNat number ∧ bytes = behind := by
  rw [decodeTail, Except.ok.injEq, Prod.mk.injEq, eq_comm]

/-- Each further byte has to pass its test and adds six bits. -/
theorem decodeTail_cons {start taken number : Nat} {test : UInt8 → Bool}
    {tests : List (UInt8 → Bool)} {bytes : List UInt8} {found : Char × List UInt8} :
    decodeTail start taken number (test :: tests) bytes = .ok found ↔
      ∃ b rest, test b = true ∧
        decodeTail start (taken + 1) (number * 64 + payload b) tests rest = .ok found ∧
        bytes = b :: rest := by
  cases bytes with
  | nil => simp [decodeTail]
  | cons b rest =>
    rw [decodeTail]
    split
    · rename_i passes
      constructor
      · intro h
        exact ⟨b, rest, passes, h, rfl⟩
      · rintro ⟨_, _, _, h, same⟩
        cases same
        exact h
    · rename_i fails
      constructor
      · intro h
        cases h
      · rintro ⟨_, _, passes, _, same⟩
        cases same
        exact absurd passes fails

/-- The bytes of a character with the number `n`, from the range that `n` lies in. -/
theorem encodeChar_ofNat {n : Nat} (valid : n.isValidChar) :
    encodeChar (Char.ofNat n) =
      if n < 0x80 then [UInt8.ofNat n]
      else if n < 0x800 then [UInt8.ofNat (0xC0 + n / 64), UInt8.ofNat (0x80 + n % 64)]
      else if n < 0x10000 then
        [UInt8.ofNat (0xE0 + n / 4096), UInt8.ofNat (0x80 + n / 64 % 64),
          UInt8.ofNat (0x80 + n % 64)]
      else
        [UInt8.ofNat (0xF0 + n / 262144), UInt8.ofNat (0x80 + n / 4096 % 64),
          UInt8.ofNat (0x80 + n / 64 % 64), UInt8.ofNat (0x80 + n % 64)] := by
  rw [encodeChar, toNat_ofNat_char valid]

theorem payload_eq {b : UInt8} (low : 0x80 ≤ b.toNat) (high : b.toNat < 0xC0) :
    payload b = b.toNat - 0x80 := by
  rw [payload]
  omega

/-- The bytes that a character was read from are the bytes of that character. -/
theorem bytes_of_decodeChar {start : Nat} {first : UInt8} {rest behind : List UInt8} {c : Char}
    (h : decodeChar start first rest = .ok (c, behind)) :
    first :: rest = encodeChar c ++ behind := by
  have bound := first.toNat_lt
  simp only [decodeChar] at h
  split at h
  · obtain ⟨rfl, rfl⟩ := decodeTail_nil.1 h
    rw [encodeChar_ofNat (by omega), if_pos (by omega), UInt8.ofNat_toNat]
    rfl
  split at h
  · cases h
  split at h
  · -- Two bytes: the first is at least `C2`, so the number needs more than seven bits.
    obtain ⟨b, tail, continues, found, rfl⟩ := decodeTail_cons.1 h
    obtain ⟨rfl, rfl⟩ := decodeTail_nil.1 found
    obtain ⟨low, high⟩ := isContinuation_iff.1 continues
    rw [payload_eq low high]
    generalize number : (first.toNat - 0xC0) * 64 + (b.toNat - 0x80) = n
    have one : first = UInt8.ofNat (0xC0 + n / 64) := (byte_eq_iff (by omega)).2 (by omega)
    have two : b = UInt8.ofNat (0x80 + n % 64) := (byte_eq_iff (by omega)).2 (by omega)
    rw [encodeChar_ofNat (by omega), if_neg (by omega), if_pos (by omega), ← one, ← two]
    rfl
  split at h
  · -- Three bytes: the second one rules out shorter forms and surrogates.
    obtain ⟨b, tail, second, more, rfl⟩ := decodeTail_cons.1 h
    obtain ⟨b', tail, continues, found, rfl⟩ := decodeTail_cons.1 more
    obtain ⟨rfl, rfl⟩ := decodeTail_nil.1 found
    obtain ⟨low, high, shorter, surrogate, -, -⟩ := isSecond_iff.1 second
    obtain ⟨low', high'⟩ := isContinuation_iff.1 continues
    rw [payload_eq low high, payload_eq low' high']
    generalize number :
      ((first.toNat - 0xE0) * 64 + (b.toNat - 0x80)) * 64 + (b'.toNat - 0x80) = n
    have one : first = UInt8.ofNat (0xE0 + n / 4096) := (byte_eq_iff (by omega)).2 (by omega)
    have two : b = UInt8.ofNat (0x80 + n / 64 % 64) := (byte_eq_iff (by omega)).2 (by omega)
    have three : b' = UInt8.ofNat (0x80 + n % 64) := (byte_eq_iff (by omega)).2 (by omega)
    rw [encodeChar_ofNat (by omega), if_neg (by omega), if_neg (by omega), if_pos (by omega),
      ← one, ← two, ← three]
    rfl
  split at h
  · -- Four bytes: the second one rules out shorter forms and numbers above the last scalar value.
    obtain ⟨b, tail, second, more, rfl⟩ := decodeTail_cons.1 h
    obtain ⟨b', tail, continues, more', rfl⟩ := decodeTail_cons.1 more
    obtain ⟨b'', tail, continues', found, rfl⟩ := decodeTail_cons.1 more'
    obtain ⟨rfl, rfl⟩ := decodeTail_nil.1 found
    obtain ⟨low, high, -, -, shorter, last⟩ := isSecond_iff.1 second
    obtain ⟨low', high'⟩ := isContinuation_iff.1 continues
    obtain ⟨low'', high''⟩ := isContinuation_iff.1 continues'
    rw [payload_eq low high, payload_eq low' high', payload_eq low'' high'']
    generalize number : (((first.toNat - 0xF0) * 64 + (b.toNat - 0x80)) * 64 + (b'.toNat - 0x80))
      * 64 + (b''.toNat - 0x80) = n
    have one : first = UInt8.ofNat (0xF0 + n / 262144) := (byte_eq_iff (by omega)).2 (by omega)
    have two : b = UInt8.ofNat (0x80 + n / 4096 % 64) := (byte_eq_iff (by omega)).2 (by omega)
    have three : b' = UInt8.ofNat (0x80 + n / 64 % 64) := (byte_eq_iff (by omega)).2 (by omega)
    have four : b'' = UInt8.ofNat (0x80 + n % 64) := (byte_eq_iff (by omega)).2 (by omega)
    rw [encodeChar_ofNat (by omega), if_neg (by omega), if_neg (by omega), if_neg (by omega),
      ← one, ← two, ← three, ← four]
    rfl
  · cases h

/-- A continuation byte made from six bits. -/
theorem isContinuation_ofNat (k : Nat) : isContinuation (UInt8.ofNat (0x80 + k % 64)) = true := by
  rw [isContinuation_iff, toNat_ofNat_byte (by omega)]
  omega

/-- Six bits are read as they are written. -/
theorem payload_ofNat (k : Nat) : payload (UInt8.ofNat (0x80 + k % 64)) = k % 64 := by
  rw [payload, toNat_ofNat_byte (by omega)]
  omega

/-- The bytes of a character, whatever stands behind them, are read as that character. -/
theorem decodeChar_encodeChar (start : Nat) (c : Char) (behind : List UInt8) :
    ∃ first rest, encodeChar c ++ behind = first :: rest ∧
      decodeChar start first rest = .ok (c, behind) := by
  have valid : c.toNat.isValidChar := c.valid
  have back : c = Char.ofNat c.toNat := (Char.ofNat_toNat c).symm
  rw [encodeChar]
  generalize c.toNat = n at valid back
  split
  · refine ⟨_, _, rfl, ?_⟩
    rw [decodeChar, toNat_ofNat_byte (by omega), if_pos (by omega)]
    exact decodeTail_nil.2 ⟨back, rfl⟩
  split
  · refine ⟨_, _, rfl, ?_⟩
    rw [decodeChar, toNat_ofNat_byte (by omega), if_neg (by omega), if_neg (by omega),
      if_pos (by omega)]
    refine decodeTail_cons.2 ⟨_, _, isContinuation_ofNat n, decodeTail_nil.2 ⟨?_, rfl⟩, rfl⟩
    rw [payload_ofNat, back]
    congr 1
    omega
  split
  · refine ⟨_, _, rfl, ?_⟩
    have second : isSecond (UInt8.ofNat (0xE0 + n / 4096)) (UInt8.ofNat (0x80 + n / 64 % 64)) =
        true := by
      rw [isSecond_iff, toNat_ofNat_byte (by omega), toNat_ofNat_byte (by omega)]
      omega
    rw [decodeChar, toNat_ofNat_byte (by omega), if_neg (by omega), if_neg (by omega),
      if_neg (by omega), if_pos (by omega)]
    refine decodeTail_cons.2 ⟨_, _, second, decodeTail_cons.2 ⟨_, _, isContinuation_ofNat n,
      decodeTail_nil.2 ⟨?_, rfl⟩, rfl⟩, rfl⟩
    rw [payload_ofNat, payload_ofNat, back]
    congr 1
    omega
  · refine ⟨_, _, rfl, ?_⟩
    have second : isSecond (UInt8.ofNat (0xF0 + n / 262144)) (UInt8.ofNat (0x80 + n / 4096 % 64)) =
        true := by
      rw [isSecond_iff, toNat_ofNat_byte (by omega), toNat_ofNat_byte (by omega)]
      omega
    rw [decodeChar, toNat_ofNat_byte (by omega), if_neg (by omega), if_neg (by omega),
      if_neg (by omega), if_neg (by omega), if_pos (by omega)]
    refine decodeTail_cons.2 ⟨_, _, second, decodeTail_cons.2 ⟨_, _, isContinuation_ofNat (n / 64),
      decodeTail_cons.2 ⟨_, _, isContinuation_ofNat n, decodeTail_nil.2 ⟨?_, rfl⟩, rfl⟩, rfl⟩, rfl⟩
    rw [payload_ofNat, payload_ofNat, payload_ofNat, back]
    congr 1
    omega

/-! ## Texts -/

theorem decodeFrom_of_decodeChar {start : Nat} {first : UInt8} {rest behind : List UInt8} {c : Char}
    {chars : List Char} (read : decodeChar start first rest = .ok (c, behind))
    (later : decodeFrom (start + c.utf8Size) behind = .ok chars) :
    decodeFrom start (first :: rest) = .ok (c :: chars) := by
  rw [decodeFrom]
  split
  · rename_i fault failed
    cases read.symm.trans failed
  · rename_i c' behind' found
    cases read.symm.trans found
    rw [later]

/-- Characters are read back. -/
theorem decodeFrom_encode (start : Nat) (chars : List Char) :
    decodeFrom start (chars.flatMap encodeChar) = .ok chars := by
  induction chars generalizing start with
  | nil => rw [List.flatMap_nil, decodeFrom]
  | cons c chars ih =>
    obtain ⟨first, rest, same, read⟩ :=
      decodeChar_encodeChar start c (chars.flatMap encodeChar)
    rw [List.flatMap_cons, same]
    exact decodeFrom_of_decodeChar read (ih _)

/-- Bytes that are accepted are those that the characters are written as. -/
theorem bytes_of_decodeFrom {start : Nat} {bytes : List UInt8} {chars : List Char}
    (h : decodeFrom start bytes = .ok chars) : bytes = chars.flatMap encodeChar := by
  fun_induction decodeFrom start bytes generalizing chars with
  | case1 =>
    cases h
    rfl
  | case2 => cases h
  | case3 => cases h
  | case4 start first rest c behind found later read ih =>
    cases h
    rw [List.flatMap_cons, ← ih read]
    exact bytes_of_decodeChar found

/-- A byte string spells a text exactly if it is the text's encoding. -/
theorem decode_eq_ok_iff {bytes : List UInt8} {s : String} :
    decode bytes = .ok s ↔ bytes = encode s := by
  rw [decode, encode]
  constructor
  · intro h
    cases read : decodeFrom 0 bytes with
    | error fault =>
      rw [read] at h
      cases h
    | ok chars =>
      rw [read] at h
      cases h
      rw [String.toList_ofList]
      exact bytes_of_decodeFrom read
  · rintro rfl
    rw [decodeFrom_encode]
    show Except.ok (String.ofList s.toList) = .ok s
    rw [String.ofList_toList]

end Stackwise.Binary.Utf8
