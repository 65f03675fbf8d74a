import CilCoverage.Instruction.Codec
import CilCoverage.Proofs.Bytes.Transfer

/-!
# Instruction streams

`Instruction.bytes` is what `Instruction.write` emits. For an encodable instruction these bytes are
as many as its size (`length_bytes`), and reading them gives the instruction back (`reads_bytes`);
conversely whatever `Instruction.read` accepts is encodable and was read from exactly its bytes
(`read_spec`). Both laws carry over to streams: `ofCode_flatMap` reads a list of encodable
instructions back at the running sums of their sizes, and `ofCode_spec` says that every stream that
can be read is of this form.
-/

set_option autoImplicit false

namespace CilCoverage

/-- The place of an encoding in the order of the table. -/
def Encoding.rank : Encoding → Nat
  | .one code => code.toNat
  | .two code => UInt8.size + code.toNat
  | .pseudo => 2 * UInt8.size

namespace Opcode

/-- The table lists every operation. -/
theorem mem_all (op : Opcode) : op ∈ all :=
  List.mem_of_getElem? (i := op.ctorIdx) (by cases op <;> rfl)

/-- The table lists the operations by encoding, so no encoding stands for two of them. -/
theorem isChain_rank : (all.map fun op => op.encoding.rank).IsChain (· < ·) := by
  decide +kernel

/-- The encoding of an operation leads back to it. -/
theorem ofEncoding?_encoding (op : Opcode) : ofEncoding? op.encoding = some op := by
  have hinj := List.inj_on_of_nodup_map
    ((List.isChain_iff_pairwise.mp isChain_rank).imp Nat.ne_of_lt)
  cases hfind : ofEncoding? op.encoding with
  | none =>
    have hnone := List.find?_eq_none.mp hfind op (mem_all op)
    simp at hnone
  | some found =>
    have heq : found.encoding = op.encoding := by simpa using List.find?_some hfind
    rw [hinj (mem_all found) (mem_all op) (congrArg Encoding.rank heq)]

/-- The extension byte alone stands for no operation. -/
theorem ne_extensionByte {op : Opcode} {code : UInt8} (henc : op.encoding = .one code) :
    code ≠ extensionByte := by
  cases op <;> cases henc <;> decide

/-- All operations but the label have an encoding. -/
theorem encoding_eq_pseudo_iff (op : Opcode) : op.encoding = .pseudo ↔ op = .label := by
  cases op <;> decide

/-- Branches are told by the kinds of their operands. -/
theorem isBranch_iff (op : Opcode) :
    op.isBranch = true ↔ op.operandKind = .shortBranch ∨ op.operandKind = .branch
      ∨ op.operandKind = .switch := by
  cases op <;> decide

/-- Only branches have a short form. -/
theorem operandKind_ne_of_not_branch {op : Opcode} (hplain : op.isBranch = false) :
    op.operandKind ≠ .shortBranch := by
  intro hshort
  rw [(isBranch_iff op).mpr (Or.inl hshort)] at hplain
  cases hplain

/-- A `switch` is no short branch. -/
theorem operandKind_ne_of_switch {op : Opcode} (hswitch : op = .switch) :
    op.operandKind ≠ .shortBranch := by
  rw [hswitch]
  decide

/-- Only a `switch` has a jump table. -/
theorem operandKind_eq_switch_iff (op : Opcode) : op.operandKind = .switch ↔ op = .switch := by
  cases op <;> decide

/-- The short branches are those that have a long form. -/
theorem longForm?_isSome_iff (op : Opcode) :
    op.longForm?.isSome = true ↔ op.operandKind = .shortBranch := by
  cases op <;> decide

end Opcode

/-- Whether an operand can be stored; an absent one counts as 0. -/
def OperandKind.Holds (kind : OperandKind) (operand : Int) : Prop :=
  match kind.primitive? with
  | some type => type.Holds operand
  | Option.none => operand = 0

instance (kind : OperandKind) (operand : Int) : Decidable (kind.Holds operand) := by
  unfold OperandKind.Holds
  cases kind.primitive? <;> exact inferInstance

/-- Whether displacements go with an operand: that of a branch is its operand, a `switch` has as
many as its operand says, and there are none otherwise. -/
def OperandKind.Displaces (kind : OperandKind) (operand : Int) (displacements : List Int) : Prop :=
  match kind with
  | .shortBranch | .branch => displacements = [operand]
  | .switch => displacements.length = operand.toNat ∧ ∀ d ∈ displacements, Primitive.i32.Holds d
  | _ => displacements = []

/-- The bytes of an operand. -/
def OperandKind.bytes (kind : OperandKind) (operand : Int) : List UInt8 :=
  match kind.primitive? with
  | some type => type.encode operand
  | Option.none => []

/-- An operand takes the bytes of its kind. -/
theorem OperandKind.length_bytes (kind : OperandKind) (operand : Int) :
    (kind.bytes operand).length = kind.size := by
  rw [kind.size_eq, OperandKind.bytes]
  cases kind.primitive? <;> simp

namespace Instruction

open Reader Writer

/-- The jump table of a `switch`; all other instructions have none. -/
def table (instruction : Instruction) : List UInt8 :=
  if instruction.opcode = .switch then instruction.displacements.flatMap Primitive.i32.encode
  else []

/-- What the instruction is written as. -/
def bytes (instruction : Instruction) : List UInt8 :=
  instruction.opcode.encoding.bytes
    ++ (instruction.opcode.operandKind.bytes instruction.operand ++ instruction.table)

/-- Instructions that the encoding can represent. -/
structure Encodable (instruction : Instruction) : Prop where
  opcode : instruction.opcode ≠ .label
  operand : instruction.opcode.operandKind.Holds instruction.operand
  displacements :
    instruction.opcode.operandKind.Displaces instruction.operand instruction.displacements

/-- The instruction as a stream holds it at `offset`. -/
def readAs (instruction : Instruction) (offset : Nat) : Instruction :=
  { instruction with offset, origin := some offset, targets := [] }

/-- Values of one type take their width each. -/
theorem length_flatMap_encode (type : Primitive) (values : List Int) :
    (values.flatMap type.encode).length = type.width * values.length := by
  induction values with
  | nil => rfl
  | cons value rest ih =>
    rw [List.flatMap_cons, List.length_append, ih, Primitive.length_encode, List.length_cons,
      Nat.mul_succ, Nat.add_comm]

/-- Whether the jump table has as many entries as the operand says. -/
def Tabled (instruction : Instruction) : Prop :=
  instruction.opcode = .switch → instruction.displacements.length = instruction.operand.toNat

/-- An instruction that can be encoded has the jump table that its operand announces. -/
theorem Encodable.tabled {instruction : Instruction} (h : instruction.Encodable) :
    instruction.Tabled := by
  intro hswitch
  have hdisp := h.displacements
  rw [(Opcode.operandKind_eq_switch_iff _).mpr hswitch] at hdisp
  exact hdisp.1

/-- A jump table takes four bytes for each case. -/
theorem Tabled.length_table {instruction : Instruction} (h : instruction.Tabled) :
    instruction.table.length = 4 * instruction.caseCount := by
  unfold table caseCount CilCoverage.caseCount
  by_cases hswitch : instruction.opcode = .switch
  · rw [if_pos hswitch, if_pos hswitch, length_flatMap_encode, h hswitch]
    rfl
  · rw [if_neg hswitch, if_neg hswitch]
    rfl

/-- Besides its jump table an instruction takes ten bytes at most. -/
theorem encodedSize_le (opcode : Opcode) (operand : Int) :
    encodedSize opcode operand ≤ 10 + 4 * CilCoverage.caseCount opcode operand := by
  have hopcode : opcode.length ≤ 2 := by
    rw [Opcode.length]
    cases opcode.encoding <;> simp [Encoding.length]
  have hkind : opcode.operandKind.size ≤ 8 := by
    cases opcode.operandKind <;> simp [OperandKind.size]
  rw [encodedSize]
  omega

/-- An instruction that has a target or a displacement for each case is as long as its operand says:
it takes more room in memory than in the code. -/
theorem size_eq_encodedSize {instruction : Instruction}
    (hheld : instruction.caseCount
      ≤ max instruction.targets.length instruction.displacements.length) :
    instruction.size = encodedSize instruction.opcode instruction.operand := by
  rw [size]
  split
  · rename_i hmemory
    apply Nat.mod_eq_of_lt
    have hle := encodedSize_le instruction.opcode instruction.operand
    rw [footprint] at hmemory
    change _ < 2 ^ 63 at hmemory
    change CilCoverage.caseCount instruction.opcode instruction.operand ≤ _ at hheld
    show _ < 2 ^ 64
    omega
  · rfl

/-- The size of an instruction with a complete jump table is not wrapped. -/
theorem Tabled.size_eq {instruction : Instruction} (h : instruction.Tabled) :
    instruction.size = encodedSize instruction.opcode instruction.operand := by
  apply size_eq_encodedSize
  rw [caseCount, CilCoverage.caseCount]
  split
  · rename_i hswitch
    rw [← h hswitch]
    exact Nat.le_max_right _ _
  · exact Nat.zero_le _

/-- An instruction with a complete jump table takes as many bytes as its size says. -/
theorem Tabled.length_bytes {instruction : Instruction} (h : instruction.Tabled) :
    instruction.bytes.length = instruction.size := by
  simp only [bytes, List.length_append, OperandKind.length_bytes, Encoding.length_bytes,
    h.length_table, h.size_eq, encodedSize, caseCount, Opcode.length]
  omega

/-- The size of such an instruction is the same wherever a stream holds it. -/
theorem Tabled.size_readAs {instruction : Instruction} (h : instruction.Tabled) (offset : Nat) :
    (instruction.readAs offset).size = instruction.size := by
  have htabled : (instruction.readAs offset).Tabled := h
  rw [htabled.size_eq, h.size_eq]
  rfl

/-- An instruction that can be encoded takes its size. -/
theorem Encodable.length_bytes {instruction : Instruction} (h : instruction.Encodable) :
    instruction.bytes.length = instruction.size :=
  h.tabled.length_bytes

/-- An opcode fills the bytes of its encoding. -/
theorem fills_opcode (opcode : Opcode) (position : Nat) :
    Fills position (opcode.encoding.bytes.forM fun byte => Writer.write .u8 byte.toNat)
      opcode.encoding.bytes := by
  have hbyte (byte : UInt8) (position : Nat) :
      Fills position (Writer.write .u8 byte.toNat) [byte] :=
    Primitive.encode_u8 byte ▸ Writer.fills_write position .u8 byte.toNat
  have hfills := fills_forM opcode.encoding.bytes position fun byte _ => hbyte byte
  rwa [List.flatMap_singleton'] at hfills

/-- An operand fills its bytes. -/
theorem fills_operand (kind : OperandKind) (operand : Int) (position : Nat) :
    Fills position (writeOperand kind operand) (kind.bytes operand) := by
  unfold writeOperand OperandKind.bytes
  cases kind.primitive? with
  | none => exact fills_pure position
  | some type => exact Writer.fills_write position type operand

/-- A jump table fills its bytes. -/
theorem fills_table (instruction : Instruction) (position : Nat) :
    Fills position
      (if instruction.opcode = .switch then
        instruction.displacements.forM fun displacement => Writer.write .i32 displacement
      else pure ())
      instruction.table := by
  unfold table
  split
  · exact fills_forM _ position fun displacement _ position =>
      Writer.fills_write position .i32 displacement
  · exact fills_pure position

/-- An instruction fills its bytes. -/
theorem fills_write (instruction : Instruction) (position : Nat) :
    Fills position instruction.write instruction.bytes :=
  (fills_opcode instruction.opcode position).bind
    ((fills_operand _ _ _).bind (fills_table instruction _))

/-- The bytes of an opcode are read as it. -/
theorem reads_opcode {opcode : Opcode} (hop : opcode ≠ .label) :
    Reads readOpcode opcode.encoding.bytes opcode := by
  have hfound := Opcode.ofEncoding?_encoding opcode
  cases henc : opcode.encoding with
  | one code =>
    have hne := Opcode.ne_extensionByte henc
    have hdec : Opcode.decode? code none = some opcode := by
      rw [Opcode.decode?, if_neg (by simpa using hne), ← henc, hfound]
    refine (reads_readByte code).bind (b := []) ?_
    rw [if_neg hne, hdec]
    exact reads_pure opcode
  | two code =>
    have hdec : Opcode.decode? extensionByte (some code) = some opcode := by
      rw [Opcode.decode?, if_pos (by simp), Option.bind_some, ← henc, hfound]
    refine (reads_readByte extensionByte).bind (b := [code]) ?_
    rw [if_pos rfl]
    refine (reads_readByte code).bind (b := []) ?_
    rw [hdec]
    exact reads_pure opcode
  | pseudo => exact absurd ((Opcode.encoding_eq_pseudo_iff opcode).mp henc) hop

/-- The bytes of an operand that can be stored are read as it. -/
theorem reads_operand {kind : OperandKind} {operand : Int} (h : kind.Holds operand) :
    Reads (readOperand kind) (kind.bytes operand) operand := by
  unfold readOperand OperandKind.bytes
  unfold OperandKind.Holds at h
  cases hprim : kind.primitive? with
  | none =>
    rw [hprim] at h
    rw [h]
    exact reads_pure 0
  | some type =>
    rw [hprim] at h
    exact reads_read h

/-- The displacements that go with an operand are read from it or from the jump table. -/
theorem reads_displacements {kind : OperandKind} {operand : Int} {displacements : List Int}
    (h : kind.Displaces operand displacements) :
    Reads (readDisplacements kind operand)
      (if kind = .switch then displacements.flatMap Primitive.i32.encode else [])
      displacements := by
  cases kind with
  | switch =>
    obtain ⟨hlen, hall⟩ := h
    intro reader last hcov
    have hroom : ¬ reader.remaining / 4 < operand.toNat := by
      have hbytes := length_flatMap_encode .i32 displacements
      obtain ⟨⟨rest, hrest⟩, -⟩ := hcov
      have hcount := congrArg List.length hrest
      simp only [if_true, List.length_drop, List.length_append, hbytes, hlen] at hcount
      change _ = 4 * operand.toNat + _ at hcount
      rw [Reader.remaining, Reader.length]
      omega
    have hread : Reads (repeated (Reader.read .i32) operand.toNat)
        (displacements.flatMap Primitive.i32.encode) displacements :=
      hlen ▸ reads_repeated displacements fun d hmem => reads_read (hall d hmem)
    refine run_bind_eq_ok.mpr ⟨reader, reader, rfl, ?_⟩
    rw [if_neg hroom]
    exact hread _ _ hcov
  | shortBranch | branch => exact h ▸ reads_pure _
  | none | shortInt | int | long | shortVar | var | single | double | token =>
    exact h ▸ reads_pure _

/-- The bytes of an instruction that can be encoded are read as the instruction. -/
theorem Encodable.reads_bytes {instruction : Instruction} (h : instruction.Encodable)
    (offset : Nat) : Reads (read offset) instruction.bytes (instruction.readAs offset) := by
  have htable : instruction.table = if instruction.opcode.operandKind = .switch
      then instruction.displacements.flatMap Primitive.i32.encode else [] := by
    simp only [table, Opcode.operandKind_eq_switch_iff]
  rw [bytes, htable]
  exact (reads_opcode h.opcode).bind
    ((reads_operand h.operand).bind ((reads_displacements h.displacements).map _))

/-- No two operations have the same encoding. -/
theorem encoding_eq_of_ofEncoding? {encoding : Encoding} {opcode : Opcode}
    (h : Opcode.ofEncoding? encoding = some opcode) : opcode.encoding = encoding := by
  simpa using List.find?_some h

/-- What is read as an opcode is its encoding, and never a label. -/
theorem readOpcode_spec {reader last : Reader} {opcode : Opcode}
    (hrun : reader.run readOpcode = (.ok opcode, last)) :
    opcode ≠ .label ∧ reader.Covers opcode.encoding.bytes last := by
  obtain ⟨first, middle, hfirst, hrest⟩ := run_bind_eq_ok.mp hrun
  have hone := covers_of_readByte hfirst
  -- a found operation has the encoding that was read, which is never the one of the label
  have known {encoding : Encoding} (hreal : encoding ≠ .pseudo)
      (hfound : Opcode.ofEncoding? encoding = some opcode) :
      opcode ≠ .label ∧ opcode.encoding = encoding := by
    have henc := encoding_eq_of_ofEncoding? hfound
    refine ⟨?_, henc⟩
    rintro rfl
    exact hreal henc.symm
  split at hrest
  · rename_i hext
    obtain ⟨second, behind, hsecond, hrest⟩ := run_bind_eq_ok.mp hrest
    have htwo := covers_of_readByte hsecond
    split at hrest
    · rename_i found hdec
      cases hrest
      rw [Opcode.decode?, if_pos (by simpa using hext), Option.bind_some] at hdec
      obtain ⟨hreal, henc⟩ := known (by simp) hdec
      rw [henc]
      rw [hext] at hone
      exact ⟨hreal, hone.trans htwo⟩
    · cases hrest
  · rename_i hext
    split at hrest
    · rename_i found hdec
      cases hrest
      rw [Opcode.decode?, if_neg (by simpa using hext)] at hdec
      obtain ⟨hreal, henc⟩ := known (by simp) hdec
      rw [henc]
      exact ⟨hreal, hone⟩
    · cases hrest

/-- What is read as an operand can be stored in the bytes it was read from. -/
theorem readOperand_spec {reader last : Reader} {kind : OperandKind} {operand : Int}
    (hrun : reader.run (readOperand kind) = (.ok operand, last)) :
    kind.Holds operand ∧ reader.Covers (kind.bytes operand) last := by
  unfold readOperand at hrun
  unfold OperandKind.Holds OperandKind.bytes
  cases hprim : kind.primitive? with
  | none =>
    rw [hprim] at hrun
    cases hrun
    exact ⟨rfl, covers_nil _⟩
  | some type =>
    rw [hprim] at hrun
    exact covers_of_read hrun

/-- What is read as displacements goes with the operand. -/
theorem readDisplacements_spec {reader last : Reader} {kind : OperandKind} {operand : Int}
    {displacements : List Int}
    (hrun : reader.run (readDisplacements kind operand) = (.ok displacements, last)) :
    kind.Displaces operand displacements ∧
      reader.Covers (if kind = .switch then displacements.flatMap Primitive.i32.encode else [])
        last := by
  cases kind with
  | switch =>
    obtain ⟨_, _, hcurrent, hrest⟩ := run_bind_eq_ok.mp hrun
    cases hcurrent
    split at hrest
    · cases hrest
    · obtain ⟨hlen, hall, hcov⟩ := covers_of_repeated (fun _ _ _ => covers_of_read) hrest
      exact ⟨⟨hlen, hall⟩, hcov⟩
  | shortBranch | branch =>
    cases hrun
    exact ⟨rfl, covers_nil _⟩
  | none | shortInt | int | long | shortVar | var | single | double | token =>
    cases hrun
    exact ⟨rfl, covers_nil _⟩

/-- What was read is encodable, carries the offset it was read for, and was read from its bytes. -/
theorem read_spec {reader last : Reader} {offset : Nat} {instruction : Instruction}
    (hrun : reader.run (read offset) = (.ok instruction, last)) :
    instruction.Encodable ∧ instruction = instruction.readAs offset ∧
      reader.Covers instruction.bytes last := by
  obtain ⟨opcode, _, hopcode, hrun⟩ := run_bind_eq_ok.mp hrun
  obtain ⟨operand, _, hoperand, hrun⟩ := run_bind_eq_ok.mp hrun
  obtain ⟨displacements, _, hdisp, hpure⟩ := run_bind_eq_ok.mp hrun
  obtain ⟨hreal, hcov⟩ := readOpcode_spec hopcode
  obtain ⟨hholds, hcov'⟩ := readOperand_spec hoperand
  obtain ⟨hfits, hcov''⟩ := readDisplacements_spec hdisp
  cases hpure
  refine ⟨⟨hreal, hholds, hfits⟩, rfl, ?_⟩
  simp only [Opcode.operandKind_eq_switch_iff] at hcov''
  exact hcov.trans (hcov'.trans hcov'')

/-- An instruction that can be encoded takes a byte at least. -/
theorem Encodable.size_pos {instruction : Instruction} (h : instruction.Encodable) :
    0 < instruction.size := by
  have hlen : 0 < instruction.opcode.length := by
    rw [Opcode.length]
    cases henc : instruction.opcode.encoding with
    | one _ | two _ => simp [Encoding.length]
    | pseudo => exact absurd ((Opcode.encoding_eq_pseudo_iff _).mp henc) h.opcode
  rw [h.tabled.size_eq, encodedSize]
  omega

/-- The instructions as a stream that starts at `offset` holds them, each at the sum of the sizes
of those before it. -/
def streamed (offset : Nat) : List Instruction → List Instruction
  | [] => []
  | instruction :: rest =>
    instruction.readAs offset :: streamed (offset + instruction.size) rest

/-- Reading on behind the bytes of instructions. -/
theorem readAll_append {instructions : List Instruction}
    (henc : ∀ instruction ∈ instructions, instruction.Encodable) (offset : Nat)
    (rest : List UInt8) :
    readAll offset (instructions.flatMap bytes ++ rest)
      = (readAll (offset + (instructions.map size).sum) rest).map
          (streamed offset instructions ++ ·) := by
  induction instructions generalizing offset with
  | nil =>
    show readAll offset rest = (readAll offset rest).map ([] ++ ·)
    cases readAll offset rest <;> rfl
  | cons instruction others ih =>
    have hhead : instruction.Encodable := henc instruction (by simp)
    have htail := ih fun other hmem => henc other (List.mem_cons_of_mem _ hmem)
    have hsize := hhead.length_bytes
    have hpos := hhead.size_pos
    rw [List.flatMap_cons, List.append_assoc, readAll]
    have hnonempty : (instruction.bytes ++ (others.flatMap bytes ++ rest)).isEmpty = false := by
      cases hb : instruction.bytes with
      | nil => rw [hb, List.length_nil] at hsize; omega
      | cons byte tail => rfl
    have hrun := hhead.reads_bytes offset
      (Reader.start (instruction.bytes ++ (others.flatMap bytes ++ rest)))
      _ ⟨⟨others.flatMap bytes ++ rest, rfl⟩, rfl⟩
    rw [hnonempty, if_neg (by simp)]
    split
    · rename_i found behind heq
      rw [hrun] at heq
      cases heq
      simp only [Reader.moveTo_position, Reader.start_position, Nat.zero_add, List.drop_left, htail]
      rw [hsize, List.map_cons, List.sum_cons, ← Nat.add_assoc]
      cases readAll (offset + instruction.size + (others.map size).sum) rest <;> rfl
    · rename_i cause behind heq
      rw [hrun] at heq
      cases heq

/-- The bytes of instructions are read as the instructions, one behind the other. -/
theorem readAll_flatMap {instructions : List Instruction}
    (henc : ∀ instruction ∈ instructions, instruction.Encodable) (offset : Nat) :
    readAll offset (instructions.flatMap bytes) = .ok (streamed offset instructions) := by
  have hnothing (offset : Nat) : readAll offset [] = .ok [] := by simp [readAll]
  have happend := readAll_append henc offset []
  rw [List.append_nil, hnothing] at happend
  rw [happend]
  exact congrArg Except.ok (List.append_nil _)

/-- What is read as instructions are the bytes of these. -/
theorem readAll_spec {offset : Nat} {code : List UInt8} {instructions : List Instruction}
    (hread : readAll offset code = .ok instructions) :
    (∀ instruction ∈ instructions, instruction.Encodable) ∧
      instructions = streamed offset instructions ∧ code = instructions.flatMap bytes := by
  induction instructions generalizing offset code with
  | nil =>
    rw [readAll] at hread
    split at hread
    · rename_i hempty
      exact ⟨by simp, rfl, List.isEmpty_iff.mp hempty⟩
    · split at hread
      · rename_i first behind _
        cases hrest : readAll (offset + behind.position) (code.drop behind.position) with
        | ok rest => rw [hrest] at hread; cases hread
        | error cause => rw [hrest] at hread; cases hread
      · cases hread
  | cons instruction rest ih =>
    rw [readAll] at hread
    split at hread
    · cases hread
    · split at hread
      · rename_i first behind hrun
        obtain ⟨henc, hplace, ⟨after, hafter⟩, rfl⟩ := read_spec hrun
        cases htail : readAll (offset + (0 + first.bytes.length))
            (code.drop (0 + first.bytes.length)) with
        | error cause =>
          simp only [Reader.moveTo_position, Reader.start_position, htail] at hread
          cases hread
        | ok others =>
          simp only [Reader.moveTo_position, Reader.start_position, htail] at hread
          cases hread
          obtain ⟨hall, hstream, hbytes⟩ := ih htail
          rw [Nat.zero_add, henc.length_bytes] at hstream
          have hcode : code = instruction.bytes ++ after := hafter
          rw [Nat.zero_add, hcode, List.drop_left] at hbytes
          refine ⟨by simpa using ⟨henc, hall⟩, ?_, by rw [hcode, hbytes, List.flatMap_cons]⟩
          rw [streamed, ← hplace, ← hstream]
      · cases hread

/-- Code is read from its first byte on. -/
theorem ofCode_flatMap {instructions : List Instruction}
    (henc : ∀ instruction ∈ instructions, instruction.Encodable) :
    ofCode (instructions.flatMap bytes) = .ok (streamed 0 instructions) :=
  readAll_flatMap henc 0

/-- What is read as code are the bytes of its instructions. -/
theorem ofCode_spec {code : List UInt8} {instructions : List Instruction}
    (hread : ofCode code = .ok instructions) :
    (∀ instruction ∈ instructions, instruction.Encodable) ∧
      instructions = streamed 0 instructions ∧ code = instructions.flatMap bytes :=
  readAll_spec hread

end Instruction

end CilCoverage
