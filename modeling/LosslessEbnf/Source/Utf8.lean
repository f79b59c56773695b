/-!
# UTF-8

## Main Definitions

* `Utf8.width?` — how many bytes belong to a character, by its first byte
* `Utf8.encode` — the bytes of a character
* `Utf8.decode?` — the character of some bytes

## Design Notes

The first byte alone tells how many bytes to take. Whether they are a character is decided
afterwards, and strictly: bytes stand for a character if they are just the ones that the character
is written with. That rules out overlong forms, surrogates, numbers that are too great and bad
continuation bytes.
-/

namespace LosslessEbnf.Utf8

/-- How many bytes belong to the character that begins with `lead`; `none` if no character does. -/
def width? (lead : UInt8) : Option Nat :=
  if lead < 0x80 then some 1
  else if lead < 0xC0 then none
  else if lead < 0xE0 then some 2
  else if lead < 0xF0 then some 3
  else if lead < 0xF8 then some 4
  else none

/-- The bytes of a character. -/
def encode (c : Char) : List UInt8 := String.utf8EncodeChar c

/-- The number that the free bits of some bytes write. -/
def payload : List UInt8 → Nat
  | [a] => a.toNat
  | [a, b] => a.toNat % 32 * 64 + b.toNat % 64
  | [a, b, c] => a.toNat % 16 * 4096 + b.toNat % 64 * 64 + c.toNat % 64
  | [a, b, c, d] =>
    a.toNat % 8 * 262144 + b.toNat % 64 * 4096 + c.toNat % 64 * 64 + d.toNat % 64
  | _ => 0

/-- The character that is written with the given bytes. -/
def decode? (bytes : List UInt8) : Option Char :=
  let c := Char.ofNat (payload bytes)
  if encode c = bytes then some c else none

/-- The free bits of the bytes of a character write its code point. -/
theorem payload_encode (c : Char) : payload (encode c) = c.toNat := by
  have hc : c.val.toNat < 1114112 := by
    have := c.valid
    simp only [UInt32.isValidChar, Nat.isValidChar] at this
    omega
  simp only [encode, String.utf8EncodeChar]
  change _ = c.val.toNat
  generalize c.val.toNat = v at hc ⊢
  split
  · simp [payload]; omega
  · split
    · simp [payload]; omega
    · split
      · simp [payload]; omega
      · simp [payload]; omega

/-- The bytes of a character are read back as the character, with no bytes in front or behind. -/
theorem decode?_encode (c : Char) : decode? (encode c) = some c := by
  simp [decode?, payload_encode, Char.ofNat_toNat]

/-- Bytes that are read as a character are the bytes of that character. -/
theorem encode_of_decode? {bytes : List UInt8} {c : Char} (h : decode? bytes = some c) :
    encode c = bytes := by
  simp only [decode?] at h
  split at h
  · simp only [Option.some.injEq] at h
    rw [← h]
    assumption
  · simp at h

end LosslessEbnf.Utf8
