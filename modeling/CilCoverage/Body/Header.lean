import CilCoverage.Bytes.Reader
import CilCoverage.Bytes.Writer
import CilCoverage.Token

/-!
# Method headers

A method body starts with a header in one of two shapes. The tiny one is a single byte that holds
the code size; the fat one has fields for flags, stack depth, code size and local variables, and
may be longer than these. `Header.read` accepts both, `Header.write` only ever writes the fat one.
-/

set_option autoImplicit false

namespace CilCoverage

/-- The two shapes of a method header. -/
inductive Header.Shape
  | tiny | fat
deriving DecidableEq, Repr

/-- What a method header says about its body. -/
structure Header where
  shape : Header.Shape
  /-- Number of bytes before the code. -/
  size : Nat
  /-- Number of bytes of code. -/
  codeSize : UInt32
  /-- Depth of the evaluation stack that the method needs at most. -/
  maxStack : UInt16
  /-- Signature of the local variables, null if there are none. -/
  locals : Token
  /-- Whether the local variables start out as zero. -/
  initLocals : Bool
  /-- Whether data sections follow the code. -/
  moreSections : Bool
deriving DecidableEq, Repr

namespace Header

/-- Size of a fat header that holds nothing but the fields. -/
def fatSize : Nat := 12

/-- What four bytes of header count for in the first field of a fat header. -/
def sizeUnit : Nat := 0x1000

/-- Whether the header has the fat shape. -/
def isFat (header : Header) : Bool := header.shape == .fat

/-- The defined flag bits of the header: two bits for the shape, one for further sections and one
for initial values. -/
def flagBits (header : Header) : Nat :=
  (match header.shape with
    | .tiny => 2
    | .fat => 3)
    + (if header.moreSections then 8 else 0) + (if header.initLocals then 16 else 0)

/-- The header of `codeSize` bytes of code in the tiny shape. -/
def tiny (codeSize : UInt32) : Header :=
  { shape := .tiny, size := 1, codeSize, maxStack := 8, locals := ⟨0⟩, initLocals := false,
    moreSections := false }

/-- Reads the fields of a fat header and moves behind it. -/
def readFat : Parse Header := do
  let flags ← Reader.readWord16
  let size := flags.toNat / sizeUnit * 4
  if size < fatSize then
    throw (.malformed (.headerSize size))
  else
    let maxStack ← Reader.readWord16
    let codeSize ← Reader.readWord32
    let locals ← Reader.readWord32
    Reader.seek size
    return { shape := .fat, size, codeSize, maxStack, locals := ⟨locals⟩,
             initLocals := flags.toNat.testBit 4, moreSections := flags.toNat.testBit 3 }

/-- Reads the header at the start of a body and moves to the first byte of code. -/
def read : Parse Header := do
  let reader ← Reader.current
  if reader.isEmpty then
    throw .empty
  else
    let first := (← Reader.peek .u8).toNat
    match first % 4 with
    | 2 =>
      Reader.advance 1
      return tiny (UInt32.ofNat (first / 4))
    | 3 => readFat
    | format => throw (.malformed (.headerFormat format))

/-- Writes the header in the fat shape for a body of `codeSize` bytes of code. -/
def write (header : Header) (codeSize : UInt32) (moreSections : Bool) : Emit Unit := do
  let fat := { header with shape := .fat, moreSections }
  Writer.write .u16 (fatSize / 4 * sizeUnit + fat.flagBits : Nat)
  Writer.write .u16 header.maxStack.toNat
  Writer.write .u32 codeSize.toNat
  Writer.write .u32 header.locals.value.toNat

end Header

end CilCoverage
