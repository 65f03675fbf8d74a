import CilCoverage.Proofs.Coverage.Representation

/-!
# What is read back

Decoding the bytes of an encoded method need not give back its branches, its regions or even all of
its instructions: the label may not be read, and if the code has 2³² bytes then its header cannot
tell so, and the last byte is left out. Nothing else is lost. `Valid.exists_operations` says that
the two methods agree on their operations up to ends that take up no room for an operand.
-/

set_option autoImplicit false

namespace CilCoverage

open Instruction

/-- The operation with its operand. The operand of a branch is left open. -/
def Outline.operation (outline : Outline) : Opcode × Int := (outline.opcode, outline.operand)

namespace Method

variable {method decoded : Method} {buffer data unused : List UInt8} {raw : RawBody}

/-- The operations of a method in execution order. -/
def operations (method : Method) : List (Opcode × Int) := method.outlines.map Outline.operation

/-- The code of a method that was encoded is at most one byte longer than its header tells. -/
theorem startOf_le_of_write (hv : method.Valid) (hl : method.Laid)
    (hwrite : method.write buffer = .ok data) :
    startOf method.instructions method.length ≤ method.codeSize + 1 := by
  obtain ⟨-, hroom, -⟩ := write_eq_ok hwrite
  rw [length_written, length_bytes_of_tabled (hv.tabled hl), encodedSize] at hroom
  have hsize := hl.codeSize_min
  have hmax : UInt32.size - 1 = 4294967295 := rfl
  have hpadding : padding 4 (Header.fatSize + 4294967295) = 1 := rfl
  rw [hmax] at hsize
  by_cases hlarge : startOf method.instructions method.length ≤ 4294967295
  · omega
  · rw [Nat.min_eq_right (by omega)] at hsize
    rw [hsize] at hroom ⊢
    split at hroom <;> omega

/-- The bytes of a method open with its header and its code. -/
theorem exists_written_append (method : Method) (unused : List UInt8) :
    ∃ rest, method.written ++ unused
      = method.header.bytes method.header.codeSize (!method.clauses.isEmpty)
        ++ (method.encoded.flatMap bytes ++ rest) := by
  rw [written, Body.written, List.append_assoc, List.append_assoc]
  exact ⟨_, rfl⟩

/-- The header that is read is the one that was written. -/
theorem header_of_read (hread : RawBody.read (method.written ++ unused) = .ok raw) :
    raw.header = method.header.written method.header.codeSize (!method.clauses.isEmpty) := by
  obtain ⟨code, hbody, -, -⟩ := RawBody.read_eq_ok_iff.mp hread
  obtain ⟨rest, hdata⟩ := method.exists_written_append unused
  rw [hdata] at hbody
  exact Body.header_of_read hbody

/-- The code that is read is the code that was written, up to the size that the header tells. -/
theorem code_of_read (hread : RawBody.read (method.written ++ unused) = .ok raw)
    (hsize : method.codeSize ≤ (method.encoded.flatMap bytes).length) :
    raw.instructions.flatMap bytes = (method.encoded.flatMap bytes).take method.codeSize := by
  obtain ⟨code, -, hcode, hstream⟩ := RawBody.read_eq_ok_iff.mp hread
  obtain ⟨-, -, hcoded⟩ := ofCode_spec hstream
  obtain ⟨rest, hdata⟩ := method.exists_written_append unused
  rw [Body.code, hdata] at hcode
  split at hcode
  · rw [← hcoded, ← Except.ok.inj hcode, header_of_read hread]
    show List.take method.codeSize (List.drop Header.fatSize _) = _
    rw [List.drop_left' (method.header.length_bytes _ _), List.take_append_of_le_length hsize]
  · cases hcode

/-- What is read from the bytes of a method are its instructions, but for at most a last byte. -/
theorem Valid.exists_streamed (hv : method.Valid) (hl : method.Laid)
    (hwrite : method.write buffer = .ok data) (hread : RawBody.read data = .ok raw) :
    ∃ cut, streamed 0 method.encoded = raw.instructions ++ cut
      ∧ ∀ instruction ∈ cut, instruction.size ≤ 1 := by
  have hlong := startOf_le_of_write hv hl hwrite
  have hsize := hl.codeSize_min
  have hmax : UInt32.size = 4294967296 := rfl
  have hlength := length_bytes_of_tabled (hv.tabled hl)
  have henc := hv.encodable_of_total hl (by omega)
  obtain ⟨hencodable, hstreamed⟩ := RawBody.streamed hread
  obtain ⟨-, -, unused, rfl⟩ := write_eq_ok hwrite
  have hcode := code_of_read hread (by omega)
  -- the code that was written is the code that is read and at most one more byte
  generalize hmore : (method.encoded.flatMap bytes).drop method.codeSize = more
  have hshort : more.length ≤ 1 := by
    rw [← hmore, List.length_drop]
    omega
  have hall := readAll_flatMap henc 0
  rw [← List.take_append_drop method.codeSize (method.encoded.flatMap bytes), ← hcode, hmore,
    readAll_append hencodable] at hall
  cases hcut : readAll (0 + (raw.instructions.map size).sum) more with
  | error cause =>
    rw [hcut] at hall
    cases hall
  | ok cut =>
    rw [hcut] at hall
    refine ⟨cut, ?_, ?_⟩
    · rw [← Except.ok.inj hall, ← hstreamed]
    · intro instruction hmem
      obtain ⟨hcutEncodable, -, hbytes⟩ := readAll_spec hcut
      rw [← (hcutEncodable instruction hmem).length_bytes]
      refine Nat.le_trans ?_ hshort
      rw [hbytes]
      exact (List.sublist_flatten_of_mem (List.mem_map_of_mem hmem)).length_le

/-- The operations of a method are those of its instructions and then that of its label. -/
theorem Valid.operations_eq (hv : method.Valid) :
    ∃ labels, method.operations
        = (method.handles.map fun handle => (method.get handle).outline).map Outline.operation
          ++ labels
      ∧ ∀ operation ∈ labels, operation.1 = .label := by
  obtain ⟨tail, horder, -⟩ := hv.order_eq
  refine ⟨(tail.map fun handle => (method.get handle).outline).map Outline.operation, ?_, ?_⟩
  · rw [operations, Method.outlines, horder, List.map_append, List.map_append]
  · intro operation hmem
    simp only [List.mem_map] at hmem
    obtain ⟨outline, ⟨handle, htail, rfl⟩, rfl⟩ := hmem
    by_contra hreal
    have hmem : handle ∈ method.order := horder ▸ List.mem_append_right _ htail
    have hnodup := hv.ordered.nodup
    rw [horder] at hnodup
    exact List.disjoint_of_nodup_append hnodup (mem_handles.mpr ⟨hmem, hreal⟩) htail

/-- An instruction that is read back has its operation, whatever its targets are bound to. -/
theorem Valid.operation_readOutline (hv : method.Valid) (hl : method.Laid) {handle : Handle}
    (hmem : handle ∈ method.order) (offset : Nat) :
    ((method.get handle).readAs offset).readOutline.operation
      = (method.get handle).outline.operation := by
  have hw := hv.wellFormed handle
  have hempty : ((method.get handle).displacements.map fun _ => (0 : Handle)).isEmpty
      = (method.get handle).targets.isEmpty := by
    rw [hl.displacements_eq hv hmem, distances, List.isEmpty_map, List.isEmpty_map]
  have hopcode : (method.get handle).opcode.widened = (method.get handle).opcode :=
    Opcode.widened_of_ne hw.long
  have hoperand (targets : List Handle) :
      (((method.get handle).readAs offset).linked targets).operand = (method.get handle).operand :=
    operand_linked _ hw.long
  apply Prod.ext
  · exact hopcode
  · show (if (method.get handle).opcode.widened.isBranch && !List.isEmpty _ then _ else _) = _
    rw [hopcode, hoperand]
    exact congrArg (fun empty => if (method.get handle).isBranch && !empty then pendingDisplacement
      else (method.get handle).operand) hempty

/-- The instructions that are written have the operations of the method. -/
theorem Valid.operations_streamed (hv : method.Valid) (hl : method.Laid) :
    (streamed 0 method.encoded).map (fun instruction => instruction.readOutline.operation)
      = (method.handles.map fun handle => (method.get handle).outline).map Outline.operation := by
  apply List.ext_getElem?
  intro k
  simp only [List.getElem?_map, getElem?_streamed, encoded_eq_map]
  cases hk : method.handles[k]? with
  | none => rfl
  | some handle =>
    have hmem := (mem_handles.mp (List.mem_of_getElem? hk)).1
    simp only [Option.map_some]
    rw [hv.operation_readOutline hl hmem]

/-- An instruction of one byte has no operand. -/
theorem Valid.operandless (hv : method.Valid) (hl : method.Laid) {instruction : Instruction}
    (hmem : instruction ∈ streamed 0 method.encoded) (hsize : instruction.size ≤ 1) :
    instruction.readOutline.opcode.length + instruction.readOutline.opcode.operandKind.size ≤ 1 := by
  obtain ⟨k, hk⟩ := List.getElem?_of_mem hmem
  rw [getElem?_streamed, encoded_eq_map, List.getElem?_map, Option.map_map,
    Option.map_eq_some_iff] at hk
  obtain ⟨handle, -, rfl⟩ := hk
  have htabled := hv.tabled hl handle
  rw [Function.comp_apply, htabled.size_readAs, htabled.size_eq] at hsize
  show (method.get handle).opcode.widened.length + (method.get handle).opcode.widened.operandKind.size
    ≤ 1
  rw [Opcode.widened_of_ne (hv.wellFormed handle).long]
  exact Nat.le_trans (Nat.le_add_right _ _) hsize

/-- A method whose bytes are decoded again has the same operations up to ends without operands. -/
theorem Valid.exists_operations (hv : method.Valid) (hl : method.Laid)
    (hwrite : method.write buffer = .ok data) (hdecode : decode data = .ok decoded) :
    ∃ common cut rest, method.operations = common ++ cut ∧ decoded.operations = common ++ rest
      ∧ ∀ operation ∈ cut ++ rest, operation.1.length + operation.1.operandKind.size ≤ 1 := by
  obtain ⟨raw, regions, targets, hread, hd⟩ := decode_spec hdecode
  obtain ⟨cut, hstreamed, hcut⟩ := hv.exists_streamed hl hwrite hread
  obtain ⟨labels, hmethod, hlabels⟩ := hv.operations_eq
  obtain ⟨rest, hdecoded, hrest⟩ := hd.recodable.toValid.operations_eq
  have hlabel (operation : Opcode × Int) (hop : operation.1 = .label) :
      operation.1.length + operation.1.operandKind.size ≤ 1 := by
    rw [hop]
    decide
  rw [← hv.operations_streamed hl, hstreamed, List.map_append, List.append_assoc] at hmethod
  rw [hd.outlines_handles, List.map_map] at hdecoded
  refine ⟨_, _, rest, hmethod, hdecoded, ?_⟩
  intro operation hmem
  rcases List.mem_append.mp hmem with hmem | hmem
  · rcases List.mem_append.mp hmem with hmem | hmem
    · obtain ⟨instruction, hin, rfl⟩ := List.mem_map.mp hmem
      exact hv.operandless hl (hstreamed ▸ List.mem_append_right _ hin) (hcut instruction hin)
    · exact hlabel operation (hlabels operation hmem)
  · exact hlabel operation (hrest operation hmem)

end Method

end CilCoverage
