import CilCoverage.Bytes.Reader
import CilCoverage.Bytes.Writer
import CilCoverage.Instruction.Basic

/-!
# Encoding of instructions

`Instruction.read` and `Instruction.write` go between an instruction and its bytes, and
`Instruction.readAll` reads a whole code stream, one instruction off its front at a time. Reading a
stream ends because every instruction takes at least the byte of its opcode (`read_advances`).
-/

set_option autoImplicit false

namespace CilCoverage

/-- The primitive type that an operand is stored as; `none` for the missing operand. -/
def OperandKind.primitive? : OperandKind → Option Primitive
  | .none => Option.none
  | .shortBranch | .shortInt => some .i8
  | .shortVar => some .u8
  | .var => some .u16
  | .branch | .int => some .i32
  | .single | .token | .switch => some .u32
  | .long | .double => some .i64

/-- The size of an operand is the width of the type it is stored as. -/
theorem OperandKind.size_eq (kind : OperandKind) :
    kind.size = (kind.primitive?.map Primitive.width).getD 0 := by
  cases kind <;> rfl

namespace Instruction

/-- Reads an opcode of one or two bytes. -/
def readOpcode : Parse Opcode := do
  let first ← Reader.readByte
  if first = extensionByte then
    let second ← Reader.readByte
    match Opcode.decode? first (some second) with
    | some opcode => return opcode
    | none => throw (.unknownOpcode (first.toUInt16 * 256 + second.toUInt16))
  else
    match Opcode.decode? first none with
    | some opcode => return opcode
    | none => throw (.unknownOpcode first.toUInt16)

/-- Reads an operand; a missing one counts as 0. -/
def readOperand (kind : OperandKind) : Parse Int :=
  match kind.primitive? with
  | some type => Reader.read type
  | none => pure 0

/-- Reads the displacements that go with an operand: that of a branch is the operand itself, and
those of a `switch` follow it. -/
def readDisplacements (kind : OperandKind) (operand : Int) : Parse (List Int) :=
  match kind with
  | .shortBranch | .branch => pure [operand]
  | .switch => do
    let reader ← Reader.current
    if reader.remaining / 4 < operand.toNat then
      throw .outOfBounds
    else
      Reader.repeated (Reader.read .i32) operand.toNat
  | _ => pure []

/-- Reads the instruction at the cursor, which has the given offset in its code. -/
def read (offset : Nat) : Parse Instruction := do
  let opcode ← readOpcode
  let operand ← readOperand opcode.operandKind
  let displacements ← readDisplacements opcode.operandKind operand
  return { opcode, operand, offset, origin := some offset, targets := [], displacements }

open Reader in
/-- Reading an opcode moves by at least one byte, which was there. -/
theorem readOpcode_advances {reader last : Reader} {opcode : Opcode}
    (run : reader.run readOpcode = (.ok opcode, last)) :
    last.data = reader.data ∧ reader.position < last.position
      ∧ reader.position < reader.data.length := by
  obtain ⟨first, middle, hfirst, rest⟩ := run_bind_eq_ok.mp run
  obtain ⟨value, next, hread, hpure⟩ := run_bind_eq_ok.mp hfirst
  obtain ⟨readable, rfl⟩ := run_read_eq_ok.mp hread
  have room := Primitive.readAt_ok readable
  cases hpure
  have onward : last.data = reader.data ∧ reader.position + 1 ≤ last.position := by
    split at rest
    · have tail : Advances (do
          let second ← readByte
          match Opcode.decode? (UInt8.ofNat value.toNat) (some second) with
          | some opcode => pure opcode
          | none => throw (.unknownOpcode
              ((UInt8.ofNat value.toNat).toUInt16 * 256 + second.toUInt16)) : Parse Opcode) := by
        refine Advances.readByte.bind fun second => ?_
        split
        · exact .pure _
        · exact .throw _
      exact tail _ _ _ rest
    · split at rest
      · exact Advances.pure _ _ _ _ rest
      · cases rest
  refine ⟨onward.1, onward.2, ?_⟩
  simp only [Primitive.width] at room
  omega

open Reader in
/-- Reading an operand advances. -/
theorem advances_readOperand (kind : OperandKind) : Advances (readOperand kind) := by
  unfold readOperand
  split
  · exact .read _
  · exact .pure _

open Reader in
/-- Reading the displacements of an instruction advances. -/
theorem advances_readDisplacements (kind : OperandKind) (operand : Int) :
    Advances (readDisplacements kind operand) := by
  unfold readDisplacements
  split
  · exact .pure _
  · exact .pure _
  · refine Advances.current.bind fun reader => ?_
    split
    · exact .throw _
    · exact Advances.repeated (.read .i32) _
  · exact .pure _

open Reader in
/-- An instruction takes at least one byte. -/
theorem read_advances {reader last : Reader} {offset : Nat} {instruction : Instruction}
    (run : reader.run (read offset) = (.ok instruction, last)) :
    last.data = reader.data ∧ reader.position < last.position
      ∧ reader.position < reader.data.length := by
  obtain ⟨opcode, middle, hopcode, rest⟩ := run_bind_eq_ok.mp run
  have head := readOpcode_advances hopcode
  have tail : Advances (do
      let operand ← readOperand opcode.operandKind
      let displacements ← readDisplacements opcode.operandKind operand
      pure { opcode, operand, offset, origin := some offset, targets := [],
             displacements } : Parse Instruction) :=
    (advances_readOperand _).bind fun _ => (advances_readDisplacements _ _).bind fun _ => .pure _
  have onward := tail _ _ _ rest
  exact ⟨onward.1.trans head.1, Nat.lt_of_lt_of_le head.2.1 onward.2, head.2.2⟩

/-- Reads instructions up to the end of a piece of code that starts at `offset`. -/
def readAll (offset : Nat) (code : List UInt8) : Except Error (List Instruction) :=
  if code.isEmpty then .ok []
  else
    match _h : (Reader.start code).run (read offset) with
    | (.ok instruction, behind) =>
      (readAll (offset + behind.position) (code.drop behind.position)).map (instruction :: ·)
    | (.error cause, _) => .error cause
termination_by code.length
decreasing_by
  have forward := read_advances (by assumption)
  simp only [Reader.start_data, Reader.start_position, List.length_drop] at forward ⊢
  omega

/-- The instructions of a code stream. -/
def ofCode (code : List UInt8) : Except Error (List Instruction) := readAll 0 code

/-- Writes an operand, dropping the bits that do not fit its width. -/
def writeOperand (kind : OperandKind) (operand : Int) : Emit Unit :=
  match kind.primitive? with
  | some type => Writer.write type operand
  | none => pure ()

/-- Writes opcode, operand and, for a `switch`, one displacement per laid-out target. The label
leaves no bytes. -/
def write (instruction : Instruction) : Emit Unit := do
  instruction.opcode.encoding.bytes.forM fun byte => Writer.write .u8 byte.toNat
  writeOperand instruction.opcode.operandKind instruction.operand
  if instruction.opcode = .switch then
    instruction.displacements.forM fun displacement => Writer.write .i32 displacement

end Instruction

end CilCoverage
