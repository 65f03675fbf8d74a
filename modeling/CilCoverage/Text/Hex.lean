/-!
# Hexadecimal text

Numbers in base sixteen with a least number of digits, in lower or upper case. A signed number is
shown through its residue modulo `2 ^ 64`, so that `-1` reads `ffffffffffffffff`.
-/

set_option autoImplicit false

namespace CilCoverage.Text

/-- Fills `digits` up with zeros on the left to at least `width` characters. -/
def zeroFilled (width : Nat) (digits : List Char) : List Char :=
  List.replicate (width - digits.length) '0' ++ digits

/-- `value` in lower-case hexadecimal, with at least `width` digits. -/
def hex (width value : Nat) : String :=
  String.ofList (zeroFilled width (Nat.toDigits 16 value))

/-- `value` in upper-case hexadecimal, with at least `width` digits. -/
def hexUpper (width value : Nat) : String :=
  String.ofList (zeroFilled width ((Nat.toDigits 16 value).map Char.toUpper))

/-- The residue of a signed number that a 32-bit word holds. -/
def word32 (value : Int) : Nat := (value % UInt32.size).toNat

/-- The residue of a signed number that a 64-bit word holds. -/
def word64 (value : Int) : Nat := (value % UInt64.size).toNat

/-- The two digits of each byte, without separators. -/
def hexOfBytes (bytes : List UInt8) : String :=
  String.join (bytes.map fun byte => hex 2 byte.toNat)

end CilCoverage.Text
