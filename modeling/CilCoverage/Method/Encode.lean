import CilCoverage.Instruction.Codec
import CilCoverage.Method.Basic

/-!
# From methods to bodies

`Method.fill` fills a buffer with the encoded method: a fat header, the code, and, if there are
exception regions, padding to a multiple of four and one fat section with a clause per region.
`Method.encodedSize` is the size that the buffer must have. `Method.write` returns the filled
buffer.
-/

set_option autoImplicit false

namespace CilCoverage

/-- The clause of a region under the offsets of a layout. A range whose end lies before its start
has length zero. -/
def Region.toClause (region : Region) (offsetOf : Handle → UInt32) : Clause :=
  let length (start finish : Handle) : UInt32 :=
    UInt32.ofNat ((offsetOf finish).toNat - (offsetOf start).toNat)
  { flags := region.kind.flags
    tryOffset := offsetOf region.tryStart
    tryLength := length region.tryStart region.tryEnd
    handlerOffset := offsetOf region.handlerStart
    handlerLength := length region.handlerStart region.handlerEnd
    classOrFilter :=
      match region.handler with
      | .catching type => type.value
      | .filtering start => offsetOf start
      | .finalizing | .faulting => 0 }

namespace Method

/-- The offset of a slot as a clause stores it: one that does not fit is stored as zero. -/
def storedOffset (method : Method) (handle : Handle) : UInt32 :=
  let offset := method.offsetOf handle
  if 0 ≤ offset ∧ offset < UInt32.size then UInt32.ofNat offset.toNat else 0

/-- Size of the encoded method. -/
def encodedSize (method : Method) : Nat :=
  let codeEnd := Header.fatSize + method.codeSize
  if method.regions.isEmpty then codeEnd
  else codeEnd + padding 4 codeEnd + Section.fatSize method.regions.length

/-- Writes the section of the exception regions behind padding to a multiple of four. The size
takes the upper three of the four bytes of its head; only one that does not even fit four bytes is
refused. -/
def emitRegions (method : Method) : Emit Unit := do
  Writer.align 4
  let size := Section.fatSize method.regions.length
  if size < UInt32.size then
    Writer.write .u32 (size * 256 + Section.emittedKind : Nat)
    method.regions.forM fun region => (region.toClause method.storedOffset).write
  else
    throw (.malformed .regionCount)

/-- Writes header, code and exception regions. -/
def emit (method : Method) : Emit Unit := do
  method.header.write method.header.codeSize (!method.regions.isEmpty)
  method.instructions.forM Instruction.write
  if method.regions.isEmpty then pure () else method.emitRegions

/-- Fills a buffer, which must have exactly the size of the encoded method, and returns it with the
outcome. What was written before a failure stays in the buffer. -/
def fill (method : Method) (buffer : List UInt8) : Except Error Unit × List UInt8 :=
  if buffer.length = method.encodedSize then
    let (outcome, writer) := (Writer.ofBuffer buffer).run method.emit
    (outcome, writer.buffer)
  else
    (.error (.malformed (.bufferSize buffer.length method.encodedSize)), buffer)

/-- The buffer, once it is filled. -/
def write (method : Method) (buffer : List UInt8) : Except Error (List UInt8) :=
  match method.fill buffer with
  | (.ok (), filled) => .ok filled
  | (.error cause, _) => .error cause

/-- A buffer of the right size holds what was written, unless a step failed. -/
theorem write_of_length_eq {method : Method} {buffer : List UInt8}
    (size : buffer.length = method.encodedSize) :
    method.write buffer = match (Writer.ofBuffer buffer).run method.emit with
      | (.ok (), writer) => .ok writer.buffer
      | (.error cause, _) => .error cause := by
  rw [write, fill, if_pos size]
  rcases (Writer.ofBuffer buffer).run method.emit with ⟨_ | _, _⟩ <;> rfl

/-- A buffer of another size is refused. -/
theorem write_of_length_ne {method : Method} {buffer : List UInt8}
    (size : buffer.length ≠ method.encodedSize) :
    method.write buffer = .error (.malformed (.bufferSize buffer.length method.encodedSize)) := by
  rw [write, fill, if_neg size]

/-- The encoded method. -/
def toBytes (method : Method) : Except Error (List UInt8) :=
  method.write (List.replicate method.encodedSize 0)

end Method

end CilCoverage
