import CilCoverage.Error
import CilCoverage.Bytes.LittleEndian

/-!
# Primitive values in a byte sequence

The ten fixed-width types that method bodies are made of, read from and written to a position of
a byte sequence. Values are integers; a floating point number stands for its bit pattern. An
access that would leave the sequence fails and changes nothing.
-/

set_option autoImplicit false

namespace CilCoverage

/-- Whether there are at least `count` bytes. No more of them are looked at, so that asking for a
few of many bytes takes few steps. -/
def hasRoom : (count : Nat) → List UInt8 → Bool
  | 0, _ => true
  | _ + 1, [] => false
  | count + 1, _ :: rest => hasRoom count rest

/-- Looking at no more bytes than needed tells whether there are enough. -/
@[simp] theorem hasRoom_iff {count : Nat} {bytes : List UInt8} :
    hasRoom count bytes = true ↔ count ≤ bytes.length := by
  induction bytes generalizing count with
  | nil => cases count <;> simp [hasRoom]
  | cons byte rest ih => cases count <;> simp [hasRoom, ih]

/-- A fixed-width little-endian type. -/
inductive Primitive
  | u8 | i8 | u16 | i16 | u32 | i32 | u64 | i64 | f32 | f64
deriving DecidableEq, Repr

namespace Primitive

/-- All types, by width. -/
def all : List Primitive := [u8, i8, u16, i16, u32, i32, u64, i64, f32, f64]

/-- The name of the type: unsigned, signed or floating point, and its number of bits. -/
def name : Primitive → String
  | u8 => "u8"
  | i8 => "i8"
  | u16 => "u16"
  | i16 => "i16"
  | u32 => "u32"
  | i32 => "i32"
  | u64 => "u64"
  | i64 => "i64"
  | f32 => "f32"
  | f64 => "f64"

/-- The type with the given name. -/
def ofName? (name : String) : Option Primitive := all.find? fun type => type.name == name

/-- Width in bytes. -/
def width : Primitive → Nat
  | u8 | i8 => 1
  | u16 | i16 => 2
  | u32 | i32 | f32 => 4
  | u64 | i64 | f64 => 8

/-- Whether the top bit counts negatively. Floating point types travel as unsigned bit patterns. -/
def isSigned : Primitive → Bool
  | i8 | i16 | i32 | i64 => true
  | _ => false

/-- Number of values of the type. -/
def modulus (type : Primitive) : Nat := LittleEndian.modulus type.width

/-- The value that is stored as the given number. -/
def ofStored (type : Primitive) (number : Nat) : Int :=
  if type.isSigned then Int.bmod number type.modulus else number

/-- The value that bytes of the type's width stand for. -/
def decode (type : Primitive) (bytes : List UInt8) : Int :=
  type.ofStored (LittleEndian.decode bytes)

/-- The bytes of a value; bits beyond the width are dropped. -/
def encode (type : Primitive) : Int → List UInt8
  | .ofNat value => LittleEndian.encode type.width value
  | .negSucc value => LittleEndian.encode type.width (.negSucc value % type.modulus : Int).toNat

/-- A value is stored as its remainder modulo the number of values. -/
theorem encode_eq (type : Primitive) (value : Int) :
    type.encode value = LittleEndian.encode type.width (value % type.modulus).toNat := by
  cases value with
  | ofNat value => exact (LittleEndian.encode_mod type.width value).symm
  | negSucc value => rfl

/-- The encoding of a value is as wide as its type. -/
@[simp] theorem length_encode (type : Primitive) (value : Int) :
    (type.encode value).length = type.width := by
  rw [encode_eq, LittleEndian.length_encode]

/-- Every type takes at least one byte. -/
theorem width_pos (type : Primitive) : 0 < type.width := by
  cases type <;> decide

/-- Reads the value at `position`. -/
def readAt (type : Primitive) (data : List UInt8) (position : Nat) : Except Error Int :=
  match LittleEndian.decodeFirst? type.width (data.drop position) with
  | some number => .ok (type.ofStored number)
  | none => .error .outOfBounds

/-- Replaces the bytes at `position` by those of `value`. This is the access for a caller that keeps
no cursor; a `Writer` keeps the bytes in another form and overwrites them there. -/
def writeAt (type : Primitive) (data : List UInt8) (position : Nat) (value : Int) :
    Except Error (List UInt8) :=
  if position + type.width ≤ data.length then
    .ok (data.take position ++ type.encode value ++ data.drop (position + type.width))
  else
    .error .outOfBounds

/-- A value is read exactly when all of its bytes lie in the sequence. -/
theorem readAt_eq (type : Primitive) (data : List UInt8) (position : Nat) :
    type.readAt data position =
      if position + type.width ≤ data.length then
        .ok (type.decode ((data.drop position).take type.width))
      else .error .outOfBounds := by
  have some := type.width_pos
  rw [readAt, LittleEndian.decodeFirst?_eq, List.length_drop]
  by_cases room : position + type.width ≤ data.length
  · rw [if_pos room, if_pos (by omega)]
    rfl
  · rw [if_neg room, if_neg (by omega)]

/-- A value that is read lies within the data. -/
theorem readAt_ok {type : Primitive} {data : List UInt8} {position : Nat} {value : Int}
    (read : type.readAt data position = .ok value) : position + type.width ≤ data.length := by
  rw [readAt_eq] at read
  split at read
  · assumption
  · cases read

end Primitive

end CilCoverage
