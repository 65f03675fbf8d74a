/-!
# Little-endian numbers

A natural number as a fixed number of bytes, least significant byte first, and back. Encoding
drops the bits that do not fit (`decode_encode`), and decoding loses nothing (`encode_decode`).
-/

set_option autoImplicit false

namespace CilCoverage.LittleEndian

/-- Number of values of `width` bytes. -/
def modulus : (width : Nat) → Nat
  | 0 => 1
  | width + 1 => 256 * modulus width

/-- The `width` low bytes of `value`, least significant first. -/
def encode : (width value : Nat) → List UInt8
  | 0, _ => []
  | width + 1, value => UInt8.ofNat (value % 256) :: encode width (value / 256)

/-- The number whose bytes are given, least significant first. -/
def decode : List UInt8 → Nat
  | [] => 0
  | byte :: rest => byte.toNat + 256 * decode rest

/-- The number in the first `width` bytes, if there are as many. -/
def decodeFirst? : (width : Nat) → List UInt8 → Option Nat
  | 0, _ => some 0
  | _ + 1, [] => none
  | width + 1, byte :: rest =>
    match decodeFirst? width rest with
    | some high => some (byte.toNat + 256 * high)
    | none => none

/-- The first bytes stand for a number if there are enough of them. -/
theorem decodeFirst?_eq (width : Nat) (bytes : List UInt8) : decodeFirst? width bytes =
    if width ≤ bytes.length then some (decode (bytes.take width)) else none := by
  induction width generalizing bytes with
  | zero => simp [decodeFirst?, decode]
  | succ width ih =>
    cases bytes with
    | nil => rfl
    | cons byte rest =>
      rw [decodeFirst?, ih]
      by_cases room : width ≤ rest.length
      · simp [room, decode]
      · simp [room]

/-- An encoding has the width that was asked for. -/
@[simp] theorem length_encode (width value : Nat) : (encode width value).length = width := by
  induction width generalizing value with
  | zero => rfl
  | succ width ih => simp [encode, ih]

/-- Bytes stand for a number below the modulus of their count. -/
theorem decode_lt (bytes : List UInt8) : decode bytes < modulus bytes.length := by
  induction bytes with
  | nil => simp [decode, modulus]
  | cons byte rest ih =>
    have hbyte := byte.toNat_lt
    simp only [decode, List.length_cons, modulus]
    omega

/-- Encoding keeps the residue that fits the width. -/
theorem decode_encode (width value : Nat) : decode (encode width value) = value % modulus width := by
  induction width generalizing value with
  | zero => simp [encode, decode, modulus, Nat.mod_one]
  | succ width ih =>
    have byte : (UInt8.ofNat (value % 256)).toNat = value % 256 := by
      simp [UInt8.toNat_ofNat']
    rw [encode, decode, modulus, ih, byte, Nat.mod_mul]

/-- Encoding looks only at the residue that fits the width. -/
theorem encode_mod (width value : Nat) : encode width (value % modulus width) = encode width value := by
  induction width generalizing value with
  | zero => rfl
  | succ width ih =>
    rw [encode, encode, modulus, Nat.mod_mul_right_mod, Nat.mod_mul_right_div_self, ih]

/-- Decoding determines the bytes. -/
theorem encode_decode (bytes : List UInt8) : encode bytes.length (decode bytes) = bytes := by
  induction bytes with
  | nil => rfl
  | cons byte rest ih =>
    have hbyte := byte.toNat_lt
    simp only [List.length_cons, encode, decode]
    congr 1
    · rw [Nat.add_mul_mod_self_left, Nat.mod_eq_of_lt hbyte, UInt8.ofNat_toNat]
    · rw [Nat.add_mul_div_left _ _ (by omega), Nat.div_eq_of_lt hbyte, Nat.zero_add, ih]

end CilCoverage.LittleEndian
