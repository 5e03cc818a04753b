/-!
# Reading UTF-8

Bytes are read as characters and ill-formed runs.  A run is as long as it could still have become
a character, so that every byte belongs to exactly one character or run.  Strict reading refuses a
text with ill-formed runs; lenient reading puts U+FFFD in the place of each.
-/

namespace StyleDoc.Utf8

/-- What the first byte of a character announces. -/
structure Lead where
  /-- The number of bytes that follow the second one. -/
  more : Nat
  bits : Nat
  low : Nat
  high : Nat
deriving DecidableEq, Repr

/-- What a byte announces, if it is the first of several.  The bounds on the second byte leave out
overlong forms, surrogates and what lies beyond the last code point. -/
def lead? (byte : UInt8) : Option Lead :=
  let n := byte.toNat
  if n < 0xC2 then none
  else if n < 0xE0 then some ⟨0, n - 0xC0, 0x80, 0xBF⟩
  else if n = 0xE0 then some ⟨1, 0, 0xA0, 0xBF⟩
  else if n = 0xED then some ⟨1, 0xD, 0x80, 0x9F⟩
  else if n < 0xF0 then some ⟨1, n - 0xE0, 0x80, 0xBF⟩
  else if n = 0xF0 then some ⟨2, 0, 0x90, 0xBF⟩
  else if n < 0xF4 then some ⟨2, n - 0xF0, 0x80, 0xBF⟩
  else if n = 0xF4 then some ⟨2, 4, 0x80, 0x8F⟩
  else none

def continuation : Nat → Nat → List UInt8 → Option Char × List UInt8
  | 0, bits, rest => (some (Char.ofNat bits), rest)
  | _ + 1, _, [] => (none, [])
  | more + 1, bits, byte :: rest =>
      if 0x80 ≤ byte.toNat ∧ byte.toNat ≤ 0xBF then
        continuation more (bits * 64 + (byte.toNat - 0x80)) rest
      else (none, byte :: rest)

/-- Reads what starts with a byte: a character, or `none` for an ill-formed run. -/
def next (byte : UInt8) (rest : List UInt8) : Option Char × List UInt8 :=
  if byte.toNat < 0x80 then (some (Char.ofNat byte.toNat), rest)
  else
    match lead? byte, rest with
    | some lead, second :: others =>
        if lead.low ≤ second.toNat ∧ second.toNat ≤ lead.high then
          continuation lead.more (lead.bits * 64 + (second.toNat - 0x80)) others
        else (none, rest)
    | _, _ => (none, rest)

theorem continuation_length (more bits : Nat) (rest : List UInt8) :
    (continuation more bits rest).2.length ≤ rest.length := by
  fun_induction continuation more bits rest with
  | case1 => exact Nat.le_refl _
  | case2 => exact Nat.le_refl _
  | case3 _ _ _ _ _ ih => exact Nat.le_succ_of_le ih
  | case4 => exact Nat.le_refl _

theorem next_length (byte : UInt8) (rest : List UInt8) :
    (next byte rest).2.length ≤ rest.length := by
  unfold next
  split
  · exact Nat.le_refl _
  · split
    · split
      · exact Nat.le_succ_of_le (continuation_length _ _ _)
      · exact Nat.le_refl _
    · exact Nat.le_refl _

def unitsAux (read : List (Option Char)) : List UInt8 → List (Option Char)
  | [] => read.reverse
  | byte :: rest =>
      have : (next byte rest).2.length < rest.length + 1 :=
        Nat.lt_succ_of_le (next_length byte rest)
      unitsAux ((next byte rest).1 :: read) (next byte rest).2
termination_by bytes => bytes.length

/-- The characters of a byte sequence, with `none` for each ill-formed run. -/
def units (bytes : List UInt8) : List (Option Char) := unitsAux [] bytes

def decode? (bytes : List UInt8) : Option (List Char) := (units bytes).mapM fun unit => unit

/-- The text of a byte sequence, with U+FFFD for each ill-formed run. -/
def decodeLossy (bytes : List UInt8) : List Char := (units bytes).map fun unit => unit.getD '\ufffd'

end StyleDoc.Utf8
