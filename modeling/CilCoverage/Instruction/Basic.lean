import CilCoverage.Opcode.Table

/-!
# Instructions

An `Instruction` is one operation with its operand and what the method it belongs to knows about
it: the offset it has in the current layout, the offset it had when the body was read, and the
slots it may branch to. A `Template` is an instruction to be inserted: its targets are positions
in the sequence of templates it comes with.
-/

set_option autoImplicit false

namespace CilCoverage

/-- The slot of a method that holds an instruction. -/
abbrev Handle := Nat

/-- Operand of a branch whose displacement is not laid out yet. -/
def pendingDisplacement : Int := -0x8000000000000000

/-- An instruction to be inserted; its targets are positions in its own sequence. -/
structure Template where
  opcode : Opcode
  /-- The operand as a signed 64-bit number; its meaning depends on the operand kind. -/
  operand : Int := 0
  targets : List Nat := []
deriving DecidableEq

/-- An instruction of a method. -/
structure Instruction where
  opcode : Opcode
  /-- The operand as a signed 64-bit number: tokens and floating point bits count as unsigned
  32-bit or signed 64-bit patterns. -/
  operand : Int
  /-- Offset in the current layout, -1 before the first one. -/
  offset : Int
  /-- Offset in the body as it was read; `none` for an instruction that was not read. -/
  origin : Option Nat
  /-- The slots that the instruction may branch to, in encoding order. -/
  targets : List Handle
  /-- Distances from the end of the instruction to its targets in the current layout. -/
  displacements : List Int
deriving DecidableEq

/-- Number of cases that the operand of a `switch` announces, 0 for all other operations. -/
def caseCount (opcode : Opcode) (operand : Int) : Nat :=
  if opcode = .switch then operand.toNat else 0

/-- Number of bytes of opcode, operand and jump table, counted in full. An operand of 64 bits may
announce more of them than 64 bits can count. -/
def encodedSize (opcode : Opcode) (operand : Int) : Nat :=
  opcode.length + opcode.operandKind.size + 4 * caseCount opcode operand

/-- What no memory holds, in bytes: half of the addresses of 64 bits. Sizes and offsets are machine
numbers, which wrap around at 64 bits, for everything that stays below. No run comes across data
beyond it; the numbers computed from that are left as they add up. -/
def memoryLimit : Nat := 0x8000000000000000

namespace Template

/-- The template with the given targets; the operand of a `switch` becomes their number. -/
def withTargets (template : Template) (targets : List Nat) : Template :=
  { template with
    targets
    operand := if template.opcode = .switch then targets.length else template.operand }

end Template

namespace Instruction

/-- The instruction of a template outside any method; its targets stay positions. -/
def ofTemplate (template : Template) : Instruction :=
  { opcode := template.opcode, operand := template.operand, offset := -1, origin := none,
    targets := template.targets, displacements := [] }

/-- The mark at the end of the code: it has no encoding and no size. -/
def label (offset : Int) : Instruction :=
  { opcode := .label, operand := 0, offset, origin := none, targets := [], displacements := [] }

/-- An unconditional branch that is not laid out yet. -/
def branchTo (target : Handle) : Instruction :=
  { opcode := .br, operand := 0, offset := -1, origin := none, targets := [target],
    displacements := [] }

/-- Number of cases of a `switch`, 0 for all other operations. -/
def caseCount (instruction : Instruction) : Nat :=
  CilCoverage.caseCount instruction.opcode instruction.operand

/-- Number of bytes of memory that the instruction takes at least: eight for its operand, eight for
its offset and eight for each of its targets. -/
def footprint (instruction : Instruction) : Nat := 16 + 8 * instruction.targets.length

/-- Number of bytes of the instruction, as 64 bits count it. A displacement takes four bytes of
memory. -/
def size (instruction : Instruction) : Nat :=
  if instruction.footprint + 4 * instruction.displacements.length < memoryLimit then
    encodedSize instruction.opcode instruction.operand % UInt64.size
  else
    encodedSize instruction.opcode instruction.operand

/-- The offset behind the instruction in the current layout. It is not reduced to 64 bits: only its
last 32 bits enter a displacement, and its last 64 bits a label. -/
def finish (instruction : Instruction) : Int := instruction.offset + instruction.size

/-- Whether the instruction may transfer control to a target of its own. -/
def isBranch (instruction : Instruction) : Bool := instruction.opcode.isBranch

/-- Where control goes after the instruction. -/
def flow (instruction : Instruction) : Flow := instruction.opcode.flow

/-- Whether the instruction has the operation, the operand and the number of targets of the
template. The operand of a branch with targets only holds a displacement and is not compared. -/
def matchesTemplate (instruction : Instruction) (template : Template) : Bool :=
  instruction.opcode == template.opcode
    && ((instruction.isBranch && !instruction.targets.isEmpty)
      || instruction.operand == template.operand)
    && instruction.targets.length == template.targets.length

/-- The instruction with a four-byte displacement in place of a one-byte one, and without the
displacements of an older layout. -/
def widened (instruction : Instruction) : Instruction :=
  { instruction with
    opcode := instruction.opcode.widened
    operand := if instruction.opcode.longForm?.isSome then pendingDisplacement
      else instruction.operand
    displacements := [] }

end Instruction

end CilCoverage
