/-!
# UTF-8

Characters as bytes and back.  `decode` takes exactly the shortest forms of the Unicode scalar
values, and says of anything else where the offending character starts and how many of its bytes
could not be continued, or that the bytes end inside it.
-/

namespace Stackwise.Binary.Utf8

/-- The bytes of a character. -/
def encodeChar (c : Char) : List UInt8 :=
  let n := c.toNat
  if n < 0x80 then [UInt8.ofNat n]
  else if n < 0x800 then [UInt8.ofNat (0xC0 + n / 64), UInt8.ofNat (0x80 + n % 64)]
  else if n < 0x10000 then
    [UInt8.ofNat (0xE0 + n / 4096), UInt8.ofNat (0x80 + n / 64 % 64), UInt8.ofNat (0x80 + n % 64)]
  else
    [UInt8.ofNat (0xF0 + n / 262144), UInt8.ofNat (0x80 + n / 4096 % 64),
      UInt8.ofNat (0x80 + n / 64 % 64), UInt8.ofNat (0x80 + n % 64)]

/-- The bytes of a text. -/
def encode (s : String) : List UInt8 :=
  s.toList.flatMap encodeChar

/-- What is wrong with the character that starts at `start`. -/
inductive Fault where
  /-- Its first `length` bytes begin no character. -/
  | invalid (length start : Nat)
  /-- The bytes end inside it. -/
  | incomplete (start : Nat)
deriving DecidableEq, Repr

/-- The words for a fault. -/
def Fault.render : Fault → String
  | invalid length start => s!"invalid utf-8 sequence of {length} bytes from index {start}"
  | incomplete start => s!"incomplete utf-8 byte sequence from index {start}"

/-- Whether a byte continues a character. -/
def isContinuation (b : UInt8) : Bool := 0x80 ≤ b.toNat && b.toNat < 0xC0

/-- The second bytes that may follow the first byte of a character of three or four bytes: those
that lead to no shorter form, no surrogate and nothing above the last scalar value. -/
def isSecond (first second : UInt8) : Bool :=
  let low := if first == 0xE0 then 0xA0 else if first == 0xF0 then 0x90 else 0x80
  let high := if first == 0xED then 0xA0 else if first == 0xF4 then 0x90 else 0xC0
  low ≤ second.toNat && second.toNat < high

/-- The low six bits of a continuation byte. -/
def payload (b : UInt8) : Nat := b.toNat % 64

/-- Reads the bytes behind the first `taken` bytes of a character, one for each test, and adds
their six bits each to `number`. -/
def decodeTail (start : Nat) :
    (taken number : Nat) → List (UInt8 → Bool) → List UInt8 → Except Fault (Char × List UInt8)
  | _, number, [], rest => .ok (Char.ofNat number, rest)
  | _, _, _ :: _, [] => .error (.incomplete start)
  | taken, number, test :: tests, b :: rest =>
    if test b then decodeTail start (taken + 1) (number * 64 + payload b) tests rest
    else .error (.invalid taken start)

/-- The character that begins with the byte `first`, and the bytes behind it. -/
def decodeChar (start : Nat) (first : UInt8) (rest : List UInt8) :
    Except Fault (Char × List UInt8) :=
  let n := first.toNat
  if n < 0x80 then decodeTail start 1 n [] rest
  else if n < 0xC2 then .error (.invalid 1 start)
  else if n < 0xE0 then decodeTail start 1 (n - 0xC0) [isContinuation] rest
  else if n < 0xF0 then decodeTail start 1 (n - 0xE0) [isSecond first, isContinuation] rest
  else if n < 0xF5 then
    decodeTail start 1 (n - 0xF0) [isSecond first, isContinuation, isContinuation] rest
  else .error (.invalid 1 start)

/-- Reading the rest of a character leaves no more bytes than there were. -/
theorem length_decodeTail {start taken number : Nat} {tests : List (UInt8 → Bool)}
    {rest : List UInt8} {found : Char × List UInt8}
    (h : decodeTail start taken number tests rest = .ok found) :
    found.2.length ≤ rest.length := by
  fun_induction decodeTail start taken number tests rest with
  | case1 => cases h; simp
  | case2 => simp at h
  | case3 taken number test tests b rest _ ih =>
    have := ih h
    simp
    omega
  | case4 => simp at h

/-- So does reading a character. -/
theorem length_decodeChar {start : Nat} {first : UInt8} {rest : List UInt8}
    {found : Char × List UInt8} (h : decodeChar start first rest = .ok found) :
    found.2.length ≤ rest.length := by
  simp only [decodeChar] at h
  split at h
  · exact length_decodeTail h
  · split at h
    · simp at h
    · split at h
      · exact length_decodeTail h
      · split at h
        · exact length_decodeTail h
        · split at h
          · exact length_decodeTail h
          · simp at h

/-- The characters of a byte string that starts at `start`. -/
def decodeFrom (start : Nat) : List UInt8 → Except Fault (List Char)
  | [] => .ok []
  | first :: rest =>
    match _found : decodeChar start first rest with
    | .error fault => .error fault
    | .ok (c, behind) =>
      match decodeFrom (start + c.utf8Size) behind with
      | .error fault => .error fault
      | .ok chars => .ok (c :: chars)
termination_by bytes => bytes.length
decreasing_by
  have := length_decodeChar _found
  simp at this ⊢
  omega

/-- The text that a byte string spells. -/
def decode (bytes : List UInt8) : Except Fault String :=
  (decodeFrom 0 bytes).map String.ofList

end Stackwise.Binary.Utf8
