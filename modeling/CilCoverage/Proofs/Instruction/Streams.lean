import CilCoverage.Proofs.Instruction.Starts

/-!
# Code streams and their instructions

`Instruction.ReadsOn` is the reading of a code stream with one cursor, instruction after instruction
while there are bytes. It stops at the end exactly for the instructions of the stream
(`ofCode_eq_ok_iff`), and the bytes that it has passed are those that the instructions are written
as (`readsOn_iff`).

So writing undoes reading. Reading also undoes writing, for all instructions that can be
represented: their displacements go into the stream if they are branches and are left out otherwise
(`Instruction.stripped`). `streams_invert` states both directions.
-/

set_option autoImplicit false

namespace CilCoverage

namespace Instruction

open Reader Writer

/-- Reads instructions up to the end of the bytes, each at the position where the one before
ends. -/
inductive ReadsOn : Reader → List Instruction → Reader → Prop
  | finished {reader : Reader} : reader.hasMore = false → ReadsOn reader [] reader
  | further {reader behind last : Reader} {instruction : Instruction} {rest : List Instruction} :
    reader.hasMore = true → reader.run (read reader.position) = (.ok instruction, behind) →
      ReadsOn behind rest last → ReadsOn reader (instruction :: rest) last

section Reading

variable {reader last : Reader} {instructions : List Instruction}

/-- There is more as long as the reader is in front of the end. -/
theorem hasMore_iff : reader.hasMore = true ↔ reader.position < reader.data.length :=
  decide_eq_true_iff

/-- What is read up to the end are encodable instructions that lie one behind the other and end
where there are no more bytes. -/
theorem readsOn_iff (hin : reader.position ≤ reader.data.length) :
    ReadsOn reader instructions last
      ↔ (∀ instruction ∈ instructions, instruction.Encodable)
        ∧ instructions = streamed reader.position instructions
        ∧ reader.Covers (instructions.flatMap bytes) last ∧ last.hasMore = false := by
  -- the reader moves, so the induction is for all readers within their bytes
  induction instructions generalizing reader with
  | nil =>
    constructor
    · rintro ⟨hend⟩
      exact ⟨by simp, rfl, covers_nil _, hend⟩
    · rintro ⟨-, -, ⟨-, rfl⟩, hend⟩
      rw [List.flatMap_nil, List.length_nil, Nat.add_zero, moveTo_position_self] at hend ⊢
      exact .finished hend
  | cons instruction rest ih =>
    constructor
    · rintro (_ | ⟨hmore, hrun, hrest⟩)
      obtain ⟨henc, hplace, hcov⟩ := read_spec hrun
      have hbound := hcov.bound hin
      obtain rfl := hcov.2
      obtain ⟨hencs, hstream, hcovs, hend⟩ := (ih hbound).mp hrest
      rw [moveTo_position, henc.length_bytes] at hstream
      refine ⟨by simpa using ⟨henc, hencs⟩, ?_, ?_, hend⟩
      · rw [streamed, ← hplace, ← hstream]
      · rw [List.flatMap_cons]
        exact hcov.trans hcovs
    · rintro ⟨hencs, hstream, hcov, hend⟩
      have henc : instruction.Encodable := hencs instruction (by simp)
      obtain ⟨hplace, hstream⟩ := List.cons.inj hstream
      rw [List.flatMap_cons] at hcov
      obtain ⟨middle, hfirst, hrest⟩ := hcov.split
      have hbound := hfirst.bound hin
      have hrun := henc.reads_bytes reader.position reader middle hfirst
      rw [← hplace] at hrun
      refine .further ?_ hrun ?_
      · have hpos := henc.size_pos
        rw [henc.length_bytes] at hbound
        exact hasMore_iff.mpr (by omega)
      · obtain rfl := hfirst.2
        refine (ih hbound).mpr ⟨fun other hmem => hencs other (List.mem_cons_of_mem _ hmem), ?_,
          hrest, hend⟩
        rwa [moveTo_position, henc.length_bytes]

/-- The reading stops at the end of the bytes and nowhere else. -/
theorem ReadsOn.position_eq (h : ReadsOn reader instructions last)
    (hin : reader.position ≤ reader.data.length) : last.position = reader.data.length := by
  obtain ⟨-, -, hcov, hend⟩ := (readsOn_iff hin).mp h
  have hbound := hcov.bound hin
  rw [← Bool.not_eq_true, hasMore_iff] at hend
  rw [hcov.2, moveTo_data, moveTo_position] at hend
  rw [hcov.2, moveTo_position]
  omega

end Reading

/-- The instructions of a stream are those that one cursor reads. -/
theorem ofCode_eq_ok_iff {code : List UInt8} {instructions : List Instruction} :
    ofCode code = .ok instructions ↔ ∃ last, ReadsOn (Reader.start code) instructions last := by
  constructor
  · intro hread
    obtain ⟨hencs, hstream, hcode⟩ := ofCode_spec hread
    refine ⟨(Reader.start code).moveTo code.length, (readsOn_iff (Nat.zero_le _)).mpr
      ⟨hencs, hstream, ⟨⟨[], ?_⟩, ?_⟩, ?_⟩⟩
    · rw [List.append_nil]
      exact hcode
    · rw [← hcode, start_position, Nat.zero_add]
    · exact decide_eq_false (Nat.lt_irrefl _)
  · rintro ⟨last, h⟩
    have hposition := h.position_eq (Nat.zero_le _)
    obtain ⟨hencs, hstream, ⟨⟨rest, hrest⟩, hlast⟩, -⟩ := (readsOn_iff (Nat.zero_le _)).mp h
    have hcode : code = instructions.flatMap bytes ++ rest := hrest
    rw [hlast, moveTo_position, start_position, Nat.zero_add, start_data] at hposition
    have hnone : rest = [] := by
      have hlength := congrArg List.length hcode
      rw [List.length_append] at hlength
      exact List.length_eq_zero_iff.mp (by omega)
    rw [hcode, hnone, List.append_nil, ofCode_flatMap hencs]
    exact congrArg Except.ok hstream.symm

/-- Instructions fill the buffer that their bytes have room in. -/
theorem run_forM_write {instructions : List Instruction} {buffer : List UInt8}
    (hlength : buffer.length = (instructions.flatMap bytes).length) :
    (ofBuffer buffer).run (instructions.forM write)
      = (.ok (), { filled := (instructions.flatMap bytes).reverse, rest := [] }) := by
  have hfills : Fills 0 (instructions.forM write) (instructions.flatMap bytes) :=
    fills_forM instructions 0 fun instruction _ position => fills_write instruction position
  have hrun := hfills.emits (ofBuffer buffer) rfl (Nat.le_of_eq hlength.symm)
  rw [hrun]
  simp [ofBuffer, ← hlength]

/-- Instructions whose operand fits, with the displacement of a branch as its operand and as many
displacements of a `switch` as its operand says. -/
structure Representable (instruction : Instruction) : Prop where
  opcode : instruction.opcode ≠ .label
  operand : instruction.opcode.operandKind.Holds instruction.operand
  branch : instruction.isBranch = true → instruction.opcode ≠ .switch →
    instruction.displacements = [instruction.operand]
  switch : instruction.opcode = .switch →
    instruction.displacements.length = instruction.operand.toNat
      ∧ ∀ displacement ∈ instruction.displacements, Primitive.i32.Holds displacement

instance (instruction : Instruction) : Decidable instruction.Representable :=
  decidable_of_iff
    (instruction.opcode ≠ .label ∧ instruction.opcode.operandKind.Holds instruction.operand
      ∧ (instruction.isBranch = true → instruction.opcode ≠ .switch →
        instruction.displacements = [instruction.operand])
      ∧ (instruction.opcode = .switch →
        instruction.displacements.length = instruction.operand.toNat
          ∧ ∀ displacement ∈ instruction.displacements, Primitive.i32.Holds displacement))
    ⟨fun ⟨hop, hoperand, hbranch, hswitch⟩ => ⟨hop, hoperand, hbranch, hswitch⟩,
      fun h => ⟨h.opcode, h.operand, h.branch, h.switch⟩⟩

/-- The instruction with displacements only if it is a branch. No other instruction gets any when it
is laid out. -/
def stripped (instruction : Instruction) : Instruction :=
  { instruction with
    displacements := if instruction.isBranch then instruction.displacements else [] }

/-- An instruction that can be represented has the jump table that its operand announces. -/
theorem Representable.tabled {instruction : Instruction} (h : instruction.Representable) :
    instruction.Tabled :=
  fun hswitch => (h.switch hswitch).1

/-- An instruction that can be represented can be encoded without its stray displacements. -/
theorem Representable.encodable_stripped {instruction : Instruction}
    (h : instruction.Representable) : instruction.stripped.Encodable where
  opcode := h.opcode
  operand := h.operand
  displacements := by
    show instruction.opcode.operandKind.Displaces instruction.operand
      (if instruction.isBranch = true then instruction.displacements else [])
    have hbranch : instruction.isBranch = true ↔ _ := Opcode.isBranch_iff instruction.opcode
    have hswitch := Opcode.operandKind_eq_switch_iff instruction.opcode
    cases hkind : instruction.opcode.operandKind with
    | switch =>
      rw [if_pos (hbranch.mpr (by simp [hkind]))]
      exact h.switch (hswitch.mp hkind)
    | shortBranch | branch =>
      have his : instruction.isBranch = true := hbranch.mpr (by simp [hkind])
      rw [if_pos his]
      exact h.branch his fun heq => by simp [hswitch.mpr heq] at hkind
    | none | shortInt | int | long | shortVar | var | single | double | token =>
      have hnot : ¬ instruction.isBranch = true := fun his => by simpa [hkind] using hbranch.mp his
      exact if_neg hnot

/-- Stray displacements are not written. -/
theorem bytes_stripped (instruction : Instruction) : instruction.stripped.bytes = instruction.bytes := by
  by_cases hswitch : instruction.opcode = .switch
  · have hbranch : instruction.isBranch = true := by
      rw [isBranch, hswitch]
      rfl
    rw [stripped, if_pos hbranch]
  · have htable (other : Instruction) (hop : other.opcode = instruction.opcode) :
        other.table = [] := if_neg (hop ▸ hswitch)
    rw [bytes, bytes, htable instruction.stripped rfl, htable instruction rfl]
    rfl

/-- In a stream, instructions keep what does not depend on where they lie. -/
theorem map_streamed {β : Type} {f : Instruction → β}
    (hf : ∀ instruction offset, f (readAs instruction offset) = f instruction) (offset : Nat)
    (instructions : List Instruction) : (streamed offset instructions).map f = instructions.map f := by
  induction instructions generalizing offset with
  | nil => rfl
  | cons instruction rest ih => rw [streamed, List.map_cons, List.map_cons, hf, ih]

/-- One cursor that reads a stream up to its end gives its instructions, each of which lies where
those before it end, and writing them gives the bytes of the stream again.

Representable instructions fill a buffer of the sum of their sizes. Read up to its end, it gives
instructions with the same operations and operands and, for the branches, the same displacements.
The other instructions have none then, as they never get any from a template or a layout. -/
theorem streams_invert :
    (∀ (code : List UInt8) (instructions : List Instruction),
      ofCode code = .ok instructions ↔ ∃ last, ReadsOn (Reader.start code) instructions last)
      ∧ (∀ (code : List UInt8) (instructions : List Instruction) (last : Reader),
          ReadsOn (Reader.start code) instructions last →
            last.position = code.length
              ∧ (∀ buffer : List UInt8, buffer.length = code.length → ∃ writer,
                (ofBuffer buffer).run (instructions.forM write) = (.ok (), writer)
                  ∧ writer.buffer = code)
              ∧ ∀ position instruction, instructions[position]? = some instruction →
                instruction.offset = (startOf instructions position : Int))
      ∧ ∀ instructions : List Instruction,
          (∀ instruction ∈ instructions, instruction.Representable) →
          ∀ buffer : List UInt8, buffer.length = (instructions.map size).sum →
            ∃ writer reread last,
              (ofBuffer buffer).run (instructions.forM write) = (.ok (), writer)
                ∧ writer.rest = []
                ∧ ReadsOn (Reader.start writer.buffer) reread last
                ∧ last.position = buffer.length
                ∧ reread.map opcode = instructions.map opcode
                ∧ reread.map operand = instructions.map operand
                ∧ reread.map displacements = instructions.map fun instruction =>
                  if instruction.isBranch then instruction.displacements else [] := by
  refine ⟨fun code instructions => ofCode_eq_ok_iff, ?_, ?_⟩
  · intro code instructions last hread
    obtain ⟨hencs, hstream, hcode⟩ := ofCode_spec (ofCode_eq_ok_iff.mpr ⟨last, hread⟩)
    refine ⟨hread.position_eq (Nat.zero_le _), ?_, ?_⟩
    · intro buffer hlength
      rw [hcode] at hlength
      refine ⟨_, run_forM_write hlength, ?_⟩
      rw [buffer_eq, List.reverse_reverse, List.append_nil]
      exact hcode.symm
    · intro position instruction hat
      have hat' := getElem?_streamed 0 instructions position
      rw [← hstream, hat, Option.map_some, Nat.zero_add, Option.some.injEq] at hat'
      exact congrArg offset hat'
  · intro instructions hrep buffer hlength
    -- what is written are the bytes of the instructions without stray displacements, which can be
    -- encoded and so are read back
    have hencs : ∀ instruction ∈ instructions.map stripped, instruction.Encodable := by
      intro instruction hmem
      obtain ⟨other, hother, rfl⟩ := List.mem_map.mp hmem
      exact (hrep other hother).encodable_stripped
    have hbytes : (instructions.map stripped).flatMap bytes = instructions.flatMap bytes := by
      rw [List.flatMap_map]
      simp only [bytes_stripped]
    have htotal := length_flatMap_bytes fun instruction hmem => (hrep instruction hmem).tabled
    rw [startOf_length] at htotal
    have hwrite : (ofBuffer buffer).run (instructions.forM write)
        = (.ok (), { filled := (instructions.flatMap bytes).reverse, rest := [] }) :=
      run_forM_write (hlength.trans htotal.symm)
    have hbuffer : Writer.buffer { filled := (instructions.flatMap bytes).reverse, rest := [] }
        = (instructions.map stripped).flatMap bytes := by
      rw [buffer_eq, List.reverse_reverse, List.append_nil, hbytes]
    obtain ⟨last, hread⟩ := ofCode_eq_ok_iff.mp (ofCode_flatMap hencs)
    have hposition : last.position = buffer.length := by
      rw [hread.position_eq (Nat.zero_le _), start_data, hbytes]
      exact htotal.trans hlength.symm
    refine ⟨_, _, last, hwrite, rfl, hbuffer ▸ hread, hposition, ?_, ?_, ?_⟩
    · rw [map_streamed fun _ _ => rfl, List.map_map]
      rfl
    · rw [map_streamed fun _ _ => rfl, List.map_map]
      rfl
    · rw [map_streamed fun _ _ => rfl, List.map_map]
      rfl

/-- A constant, a jump table of two cases, a short branch and an operation of two bytes. -/
def tableStream : List UInt8 :=
  [0x1F, 0xF6, 0x45, 2, 0, 0, 0, 0, 0, 0, 0, 0xF1, 0xFF, 0xFF, 0xFF, 0x2D, 0xFE, 0xFE, 0x09, 3, 1]

/-- The list of those instructions, not laid out. -/
def tableInstructions : List Instruction :=
  [(.ldcI4S, -10, []), (.switch, 2, [0, -15]), (.brtrueS, -2, [-2]), (.ldarg, 0x103, [])].map
    fun (opcode, operand, displacements) =>
      { opcode, operand, offset := -1, origin := none, targets := [], displacements }

/-- The four instructions of `tableStream` are read back, with their operands and displacements, and
written again. -/
theorem streams_invert_tableStream :
    ∃ writer reread last,
      (ofBuffer (List.replicate 21 0xCC)).run (tableInstructions.forM write) = (.ok (), writer)
        ∧ writer.buffer = tableStream
        ∧ ReadsOn (Reader.start tableStream) reread last ∧ last.position = 21
        ∧ reread.map operand = [-10, 2, -2, 0x103]
        ∧ reread.map displacements = [[], [0, -15], [-2], []]
        ∧ ∀ buffer : List UInt8, buffer.length = 21 → ∃ again,
          (ofBuffer buffer).run (reread.forM write) = (.ok (), again)
            ∧ again.buffer = tableStream := by
  obtain ⟨-, hwrite, hread⟩ := streams_invert
  obtain ⟨writer, reread, last, hrun, hrest, hreads, hlast, -, hoperands, hdisplacements⟩ :=
    hread tableInstructions (by decide) (List.replicate 21 0xCC) (by decide)
  have hbytes : (ofBuffer (List.replicate 21 0xCC)).run (tableInstructions.forM write)
      = (.ok (), { filled := tableStream.reverse, rest := [] }) := by
    decide +kernel
  obtain rfl : writer = _ := (Prod.mk.inj (hrun.symm.trans hbytes)).2
  obtain ⟨-, hagain, -⟩ := hwrite tableStream reread last hreads
  exact ⟨_, reread, last, hrun, rfl, hreads, hlast, hoperands, hdisplacements, hagain⟩

end Instruction

end CilCoverage
