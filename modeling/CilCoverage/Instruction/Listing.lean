import CilCoverage.Decimal.Shortest
import CilCoverage.Instruction.Basic
import CilCoverage.Text.Hex

/-!
# Listing of instructions

The text of one instruction: its offset as a label, the mnemonic, and the operand. Branches show
the labels of their targets, computed from the displacements of the current layout.
-/

set_option autoImplicit false

namespace CilCoverage

open Text

/-- The label of an offset: four hexadecimal digits at least. A negative offset shows all 64
bits. -/
def offsetLabel (offset : Int) : String := "IL_" ++ hex 4 (word64 offset)

namespace Instruction

/-- The label that a displacement leads to. -/
def targetLabel (instruction : Instruction) (displacement : Int) : String :=
  offsetLabel (instruction.finish + displacement)

/-- The text of the operand with the blank before it; empty if there is none. -/
def operandText (instruction : Instruction) : String :=
  match instruction.opcode.operandKind with
  | .none => ""
  | .shortBranch | .branch =>
    match instruction.displacements with
    | displacement :: _ => " " ++ instruction.targetLabel displacement
    | [] => " ?"
  | .switch =>
    " (" ++ String.intercalate ", " (instruction.displacements.map instruction.targetLabel) ++ ")"
  | .token => " 0x" ++ hex 8 (word32 instruction.operand)
  | .single => " " ++ Decimal.binary32.text (word32 instruction.operand)
  | .double => " " ++ Decimal.binary64.text (word64 instruction.operand)
  | .shortInt | .int | .long | .shortVar | .var => " " ++ toString instruction.operand

/-- Mnemonic and operand. -/
def body (instruction : Instruction) : String :=
  instruction.opcode.mnemonic ++ instruction.operandText

/-- The line of the instruction in a listing. -/
def text (instruction : Instruction) : String :=
  offsetLabel instruction.offset ++ ": " ++ instruction.body

end Instruction

end CilCoverage
