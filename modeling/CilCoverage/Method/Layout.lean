import CilCoverage.Method.Basic

/-!
# Layout

`Method.layOut` gives every instruction its offset and every branch its displacements. Offsets are
assigned first, in execution order and from the sizes of the instructions as they stand; the
displacements are then computed from the new offsets.

Offsets are signed 64-bit numbers, and the sums wrap around, as they do where overflow is not
checked. What gets them there is a `switch` that announces far more cases than it has targets.
-/

set_option autoImplicit false

namespace CilCoverage

/-- The sum of an offset and sizes as an offset of 64 bits, for instructions that are `inMemory`. -/
def offsetWord (inMemory : Bool) (sum : Int) : Int :=
  if inMemory then sum.bmod UInt64.size else sum

/-- Assigns offsets from `position` on to the instructions that `order` names, and returns the
position behind the last of them. -/
def placeFrom (inMemory : Bool) (position : Int) :
    List Handle → Array Instruction → Array Instruction × Int
  | [], slots => (slots, position)
  | handle :: rest, slots =>
    let size := (slots[handle]?.map Instruction.size).getD 0
    placeFrom inMemory (offsetWord inMemory (position + size)) rest
      (slots.modify handle fun instruction => { instruction with offset := position })

/-- The code size that ends at a position. A position that 32 bits cannot hold counts as the largest
one that they can. -/
def codeSizeAt (position : Int) : UInt32 :=
  if 0 ≤ position ∧ position < UInt32.size then UInt32.ofNat position.toNat
  else UInt32.ofNat (UInt32.size - 1)

namespace Instruction

/-- Points a branch at the offsets of its targets. The displacements count from the end of the
branch and wrap at 32 bits. An ordinary branch keeps the first one as its operand, a `switch` the
number of its targets. -/
def aimed (instruction : Instruction) (offsetOf : Handle → Int) : Instruction :=
  if instruction.isBranch && !instruction.targets.isEmpty then
    let displacements := instruction.targets.map fun target =>
      Int.bmod (offsetOf target - instruction.finish) UInt32.size
    { instruction with
      operand := if instruction.opcode = .switch then displacements.length
        else displacements.headD 0
      displacements }
  else
    instruction

end Instruction

namespace Method

/-- Number of bytes of memory that the instructions take at least. -/
def footprint (method : Method) : Nat :=
  method.instructions.foldr (fun instruction total => instruction.footprint + total) 0

/-- Whether memory has room for the instructions, as it has in every run. -/
def inMemory (method : Method) : Bool := method.footprint < memoryLimit

/-- Lays the instructions out again. -/
def layOut (method : Method) : Method :=
  let (placed, codeEnd) := placeFrom method.inMemory 0 method.order method.slots
  let offsetOf (handle : Handle) : Int := (placed[handle]?.map Instruction.offset).getD (-1)
  { method with
    header := { method.header with codeSize := codeSizeAt codeEnd }
    slots := placed.map fun instruction => instruction.aimed offsetOf }

end Method

end CilCoverage
