import CilCoverage.Method.Encode
import CilCoverage.Proofs.Body.RoundTrip
import CilCoverage.Proofs.Method.Validity

/-!
# What a method is encoded as

`Valid.toBytes_eq`: a valid method that is laid out, whose code is shorter than 2³¹ bytes and whose
section of exception clauses has a size of three bytes, is encoded as the fat body of its
instructions and clauses. The instructions are encodable because they are well-formed and aimed
(`WellFormed.encodable`); the label leaves no bytes, so `Method.encoded` are the instructions
without it.
-/

set_option autoImplicit false

namespace CilCoverage

open Instruction Writer

/-- A word is written as its low 32 bits. -/
theorem Primitive.encode_u32_natCast (value : Nat) :
    Primitive.u32.encode value = Primitive.u32.encode (UInt32.ofNat value).toNat := by
  rw [encode_eq, encode_eq, UInt32.toNat_ofNat']
  congr 1
  show ((value : Int) % (2 ^ 32 : Nat)).toNat = (((value % 2 ^ 32 : Nat) : Int) % (2 ^ 32 : Nat)).toNat
  omega

namespace Instruction

/-- An instruction that is no branch can be encoded. -/
theorem WellFormed.encodable_of_plain {instruction : Instruction} (hw : instruction.WellFormed)
    (hlabel : instruction.opcode ≠ .label) (hplain : instruction.isBranch = false) :
    instruction.Encodable := by
  refine ⟨hlabel, hw.operand hplain, ?_⟩
  have hnone := hw.bare (hw.targets_eq_nil hplain)
  have hkind : ¬ instruction.opcode.isBranch = true := by
    rw [show instruction.opcode.isBranch = false from hplain]
    exact Bool.false_ne_true
  rw [Opcode.isBranch_iff, not_or, not_or] at hkind
  unfold OperandKind.Displaces
  split
  · exact absurd ‹_› hkind.1
  · exact absurd ‹_› hkind.2.1
  · exact absurd ‹_› hkind.2.2
  · exact hnone

/-- A `switch` that is aimed can be encoded if its size fits 32 bits. -/
theorem WellFormed.encodable_of_switch {instruction : Instruction} (hw : instruction.WellFormed)
    {offsetOf : Handle → Int} (haimed : instruction.aimed offsetOf = instruction)
    (hswitch : instruction.opcode = .switch) (hsize : instruction.size ≤ UInt32.size) :
    instruction.Encodable := by
  have hcount := hw.counted hswitch
  have hkind := (Opcode.operandKind_eq_switch_iff _).mpr hswitch
  have hdisp : instruction.displacements = instruction.distances offsetOf := by
    by_cases hbranch : (instruction.isBranch && !instruction.targets.isEmpty) = true
    · rw [aimed_of_branch _ _ hbranch] at haimed
      exact (congrArg displacements haimed).symm
    · have hnil : instruction.targets = [] := by
        simpa [isBranch, hswitch, show Opcode.switch.isBranch = true from rfl] using hbranch
      rw [hw.bare hnil, distances, hnil]
      rfl
  refine ⟨by rw [hswitch]; decide, ?_, ?_⟩
  · rw [hkind, hcount]
    refine ⟨by omega, ?_⟩
    rw [hw.counted.size_eq, if_pos hswitch] at hsize
    show _ < ((4294967296 : Nat) : Int)
    change _ ≤ 4294967296 at hsize
    omega
  · rw [hkind, hdisp, hcount]
    refine ⟨by simp [distances], ?_⟩
    intro d hmem
    obtain ⟨target, _, rfl⟩ := List.mem_map.mp hmem
    exact Primitive.holds_bmod .i32 rfl _

/-- Any other branch that is aimed can be encoded. -/
theorem WellFormed.encodable_of_branch {instruction : Instruction} (hw : instruction.WellFormed)
    {offsetOf : Handle → Int} (haimed : instruction.aimed offsetOf = instruction)
    (hbranch : instruction.isBranch = true) (hswitch : instruction.opcode ≠ .switch) :
    instruction.Encodable := by
  have hone := hw.targets
  rw [Opcode.Targets, if_neg hswitch, if_pos (show instruction.opcode.isBranch = true from hbranch)]
    at hone
  obtain ⟨target, htarget⟩ := List.length_eq_one_iff.mp hone
  have hkind : instruction.opcode.operandKind = .branch := by
    rcases (Opcode.isBranch_iff _).mp hbranch with h | h | h
    · exact absurd h hw.long
    · exact h
    · exact absurd ((Opcode.operandKind_eq_switch_iff _).mp h) hswitch
  rw [aimed_of_branch _ _ (by simp [hbranch, htarget])] at haimed
  have hdisp := congrArg Instruction.displacements haimed
  have hoperand := congrArg Instruction.operand haimed
  simp only [distances, htarget, List.map_cons, List.map_nil, if_neg hswitch, List.headD_cons]
    at hdisp hoperand
  refine ⟨?_, ?_, ?_⟩
  · intro hlabel
    rw [hlabel] at hkind
    cases hkind
  · rw [hkind, ← hoperand]
    exact Primitive.holds_bmod .i32 rfl _
  · rw [hkind, ← hoperand]
    exact hdisp.symm

/-- Well-formed instructions that point at their targets can be encoded. -/
theorem WellFormed.encodable {instruction : Instruction} (hw : instruction.WellFormed)
    {offsetOf : Handle → Int} (haimed : instruction.aimed offsetOf = instruction)
    (hlabel : instruction.opcode ≠ .label) (hsize : instruction.size ≤ UInt32.size) :
    instruction.Encodable := by
  by_cases hswitch : instruction.opcode = .switch
  · exact hw.encodable_of_switch haimed hswitch hsize
  · cases hbranch : instruction.isBranch with
    | false => exact hw.encodable_of_plain hlabel hbranch
    | true => exact hw.encodable_of_branch haimed hbranch hswitch

/-- A label leaves no bytes. -/
theorem bytes_of_label {instruction : Instruction} (hlabel : instruction.opcode = .label) :
    instruction.bytes = [] := by
  rw [bytes, table, hlabel]
  rfl

/-- A label takes no bytes. -/
theorem size_of_label {instruction : Instruction} (hlabel : instruction.opcode = .label) :
    instruction.size = 0 := by
  have htabled : instruction.Tabled := fun hswitch => nomatch hlabel.symm.trans hswitch
  rw [← htabled.length_bytes, bytes_of_label hlabel, List.length_nil]

end Instruction

namespace Method

/-- The instructions that leave bytes, in execution order. -/
def encoded (method : Method) : List Instruction :=
  method.instructions.filter fun instruction => instruction.opcode != .label

/-- The handles of the instructions that leave bytes, in execution order. -/
def handles (method : Method) : List Handle :=
  method.order.filter fun handle => (method.get handle).opcode != .label

/-- The clauses of the regions in the current layout. -/
def clauses (method : Method) : List Clause :=
  method.regions.map fun region => region.toClause method.storedOffset

/-- To leave labels out does not matter to what they do not add to. -/
theorem foldr_encoded {α : Type} (method : Method) (add : Instruction → α → α) (start : α)
    (hlabel : ∀ (instruction : Instruction) (total : α), instruction.opcode = .label →
      add instruction total = total) :
    method.encoded.foldr add start = method.instructions.foldr add start := by
  rw [encoded, List.foldr_filter]
  congr 1
  funext instruction total
  split
  · rfl
  · rename_i hskipped
    exact (hlabel instruction total (by simpa using hskipped)).symm

/-- The bytes of the code are those of all instructions. -/
theorem flatMap_bytes_encoded (method : Method) :
    method.encoded.flatMap bytes = method.instructions.flatMap bytes := by
  have hbytes := method.foldr_encoded (fun instruction total => instruction.bytes ++ total) []
    fun instruction total hlabel => by rw [bytes_of_label hlabel, List.nil_append]
  rwa [List.foldr_append_eq_append, List.foldr_append_eq_append, List.append_nil, List.append_nil,
    ← List.flatMap_def, ← List.flatMap_def] at hbytes

/-- Labels do not move the end of the code. -/
theorem startOf_encoded_length (method : Method) :
    startOf method.encoded method.encoded.length = startOf method.instructions method.length := by
  have hlen : method.length = method.instructions.length := (List.length_map _).symm
  rw [hlen, startOf_length, startOf_length, List.sum_eq_foldr, List.sum_eq_foldr, List.foldr_map,
    List.foldr_map]
  apply method.foldr_encoded
  intro instruction total hlabel
  rw [size_of_label hlabel, Nat.zero_add]

/-- The encoded instructions are those of their handles. -/
theorem encoded_eq_map (method : Method) : method.encoded = method.handles.map method.get :=
  List.filter_map

/-- The instruction at a position of the code, as it is read. -/
theorem getElem?_streamed_encoded {method : Method} {k : Nat} {handle : Handle}
    (hk : method.handles[k]? = some handle) :
    (streamed 0 method.encoded)[k]?
      = some ((method.get handle).readAs (startOf method.encoded k)) := by
  have hread := getElem?_streamed 0 method.encoded k
  rwa [encoded_eq_map, List.getElem?_map, hk, ← encoded_eq_map, Nat.zero_add] at hread

/-- The encoded instructions are the listed ones that are no label. -/
theorem mem_encoded {method : Method} {instruction : Instruction} :
    instruction ∈ method.encoded
      ↔ ∃ handle ∈ method.order, method.get handle = instruction ∧ instruction.opcode ≠ .label := by
  rw [encoded, List.mem_filter, instructions, List.mem_map]
  constructor
  · rintro ⟨⟨handle, hmem, hget⟩, hreal⟩
    exact ⟨handle, hmem, hget, by simpa using hreal⟩
  · rintro ⟨handle, hmem, hget, hreal⟩
    exact ⟨⟨handle, hmem, hget⟩, by simpa using hreal⟩

/-- The handles of encoded instructions are the listed ones that hold no label. -/
theorem mem_handles {method : Method} {handle : Handle} :
    handle ∈ method.handles ↔ handle ∈ method.order ∧ (method.get handle).opcode ≠ .label := by
  simp [handles]

/-- Only the last handle can be that of a label. -/
theorem Valid.order_eq {method : Method} (hv : method.Valid) :
    ∃ tail, method.order = method.handles ++ tail ∧ tail.length ≤ 1 := by
  have hending : ∀ {k handle : Nat}, method.order[k]? = some handle →
      (method.get handle).opcode = .label → k + 1 = method.order.length := hv.ending
  unfold handles
  generalize method.order = order at hending
  induction order with
  | nil => exact ⟨[], rfl, Nat.zero_le _⟩
  | cons first rest ih =>
    by_cases hlabel : (method.get first).opcode = .label
    · have hone := hending (k := 0) rfl hlabel
      have hrest : rest = [] := List.eq_nil_of_length_eq_zero (by
        rw [List.length_cons] at hone
        omega)
      subst hrest
      exact ⟨[first], by simp [hlabel], Nat.le_refl _⟩
    · obtain ⟨tail, heq, hlen⟩ := ih fun {k handle} hk hopcode => by
        have hnext := hending (k := k + 1) (by rwa [List.getElem?_cons_succ]) hopcode
        rw [List.length_cons] at hnext
        omega
      refine ⟨tail, ?_, hlen⟩
      rw [List.filter_cons_of_pos (by simp [hlabel]), List.cons_append, ← heq]

/-- At most one instruction leaves no bytes. -/
theorem Valid.length_handles_le {method : Method} (hv : method.Valid) :
    method.handles.length ≤ method.length ∧ method.length ≤ method.handles.length + 1 := by
  obtain ⟨tail, heq, hlen⟩ := hv.order_eq
  have htotal := congrArg List.length heq
  rw [List.length_append] at htotal
  show _ ≤ method.order.length ∧ method.order.length ≤ _
  omega

/-- The handles that leave bytes have the positions that they have in the order. -/
theorem Valid.getElem?_handles {method : Method} (hv : method.Valid) {k : Nat} {handle : Handle} :
    method.handles[k]? = some handle
      ↔ method.order[k]? = some handle ∧ (method.get handle).opcode ≠ .label := by
  obtain ⟨tail, heq, hlen⟩ := hv.order_eq
  constructor
  · intro hk
    refine ⟨?_, (mem_handles.mp (List.mem_of_getElem? hk)).2⟩
    rw [heq, List.getElem?_append_left (List.getElem?_eq_some_iff.mp hk).1, hk]
  · rintro ⟨hk, hreal⟩
    have hmem := mem_handles.mpr ⟨List.mem_of_getElem? hk, hreal⟩
    obtain ⟨j, hj⟩ := List.getElem?_of_mem hmem
    have hj' : method.order[j]? = some handle := by
      rw [heq, List.getElem?_append_left (List.getElem?_eq_some_iff.mp hj).1, hj]
    have hsame : j = k := (hv.ordered.idxOf_eq hj').symm.trans (hv.ordered.idxOf_eq hk)
    rw [← hsame, hj]

/-- The label has no size, so it does not move the instructions. -/
theorem Valid.startOf_encoded {method : Method} (hv : method.Valid) {k : Nat}
    (hk : k ≤ method.handles.length) :
    startOf method.encoded k = startOf method.instructions k := by
  obtain ⟨tail, heq, -⟩ := hv.order_eq
  rw [instructions, heq, List.map_append, startOf_append_left (by rwa [List.length_map]),
    encoded_eq_map]

/-- No instruction is larger than the code. -/
theorem size_le_startOf {method : Method} {handle : Handle} (hmem : handle ∈ method.order) :
    (method.get handle).size ≤ startOf method.instructions method.length := by
  obtain ⟨k, hk⟩ := List.getElem?_of_mem hmem
  have hlt : k < method.order.length := (List.getElem?_eq_some_iff.mp hk).1
  calc (method.get handle).size
      ≤ startOf method.instructions (k + 1) := by
        rw [startOf_succ (getElem?_instructions hk)]
        exact Nat.le_add_left _ _
    _ ≤ startOf method.instructions method.length := startOf_le_startOf _ hlt

/-- The instructions can be encoded if their code has at most 2³² bytes. -/
theorem Valid.encodable_of_total {method : Method} (hv : method.Valid) (hl : method.Laid)
    (htotal : startOf method.instructions method.length ≤ UInt32.size) :
    ∀ instruction ∈ method.encoded, instruction.Encodable := by
  intro instruction hmem
  obtain ⟨handle, horder, rfl, hreal⟩ := mem_encoded.mp hmem
  exact (hv.wellFormed handle).encodable (hl.aimed handle horder) hreal
    (Nat.le_trans (size_le_startOf horder) htotal)

/-- The instructions of a laid out method with less than 2³¹ bytes of code can be encoded. -/
theorem Valid.encodable {method : Method} (hv : method.Valid) (hl : method.Laid)
    (hsmall : method.codeSize < 2 ^ 31) :
    ∀ instruction ∈ method.encoded, instruction.Encodable := by
  apply hv.encodable_of_total hl
  rw [← hl.codeSize_eq hsmall]
  exact Nat.le_of_lt (Nat.lt_trans hsmall (by decide))

/-- Their bytes fill the code. -/
theorem Valid.length_code {method : Method} (hv : method.Valid) (hl : method.Laid)
    (hsmall : method.codeSize < 2 ^ 31) :
    (method.encoded.flatMap bytes).length = method.codeSize := by
  rw [length_flatMap_bytes fun instruction hmem => (hv.encodable hl hsmall instruction hmem).tabled,
    startOf_encoded_length, hl.codeSize_eq hsmall]

/-- Instructions with the jump tables that they announce fill the code. -/
theorem length_bytes_of_tabled {method : Method}
    (htabled : ∀ handle, (method.get handle).Tabled) :
    (method.encoded.flatMap bytes).length = startOf method.instructions method.length := by
  have hlength : method.length = method.instructions.length := (List.length_map _).symm
  rw [flatMap_bytes_encoded, hlength, ← length_flatMap_bytes (forall_mem_instructions htabled)]

/-- Whether the size of the section of exception clauses fits four bytes. -/
def RegionsFit (method : Method) : Prop := Section.fatSize method.regions.length < UInt32.size

instance (method : Method) : Decidable method.RegionsFit := by
  unfold RegionsFit
  exact inferInstance

/-- There is a clause for each region. -/
theorem length_clauses (method : Method) : method.clauses.length = method.regions.length :=
  List.length_map _

/-- There are clauses if there are regions. -/
theorem isEmpty_clauses (method : Method) : method.clauses.isEmpty = method.regions.isEmpty := by
  simp [clauses]

/-- Regions are written behind padding, as one fat section, if its size fits. -/
theorem emitRegions_eq (method : Method) : method.emitRegions = Writer.align 4 >>= fun _ =>
    if method.RegionsFit then do
      Writer.write .u32 (Section.fatSize method.regions.length * 256 + Section.emittedKind : Nat)
      method.regions.forM fun region => (region.toClause method.storedOffset).write
    else throw (.malformed .regionCount) := rfl

/-- Regions fill the bytes of their section. -/
theorem fills_emitRegions {method : Method} (hfit : method.RegionsFit) (position : Nat) :
    Fills position method.emitRegions (Section.bytes position method.clauses) := by
  have hclauses (position : Nat) : Fills position
      (method.regions.forM fun region => (region.toClause method.storedOffset).write)
      (method.regions.flatMap fun region => (region.toClause method.storedOffset).bytes) :=
    fills_forM method.regions position fun region _ position =>
      (region.toClause method.storedOffset).fills_write position
  have hword (position : Nat) := fills_write position .u32
    (Section.fatSize method.regions.length * 256 + Section.emittedKind : Nat)
  rw [Section.bytes, length_clauses, clauses, List.flatMap_map, Section.word,
    ← Primitive.encode_u32_natCast, emitRegions_eq, if_pos hfit]
  exact (fills_align position 4).bind ((hword _).bind (hclauses _))

/-- The bytes of the method: header, code and clauses. -/
def written (method : Method) : List UInt8 :=
  Body.written method.header method.header.codeSize (method.encoded.flatMap bytes) method.clauses

/-- A method fills its bytes. -/
theorem fills_emit {method : Method} (hfit : method.RegionsFit) :
    Fills 0 method.emit method.written := by
  have hcode (position : Nat) := fills_forM method.instructions position
    fun instruction _ position => instruction.fills_write position
  rw [written, flatMap_bytes_encoded, Body.written, isEmpty_clauses, List.append_assoc]
  refine (method.header.fills_write _ _ 0).bind (Fills.bind (hcode _) ?_)
  split
  · exact fills_pure _
  · rw [Header.length_bytes, Nat.zero_add]
    exact fills_emitRegions hfit _

/-- A buffer of the right size is filled from its start, if the bytes of the method fit. -/
theorem write_eq {method : Method} (hfit : method.RegionsFit) {buffer : List UInt8}
    (hbuffer : buffer.length = method.encodedSize) :
    method.write buffer
      = if method.written.length ≤ method.encodedSize
        then .ok (method.written ++ buffer.drop method.written.length)
        else .error .outOfBounds := by
  have hfills := fills_emit hfit
  rw [write_of_length_eq hbuffer, ← hbuffer]
  by_cases hroom : method.written.length ≤ buffer.length
  · obtain ⟨last, hrun, hlast⟩ := hfills.emits.run_ofBuffer hroom
    rw [if_pos hroom, hrun, ← hlast]
  · rw [if_neg hroom]
    have hfail := hfills.overruns (ofBuffer buffer) rfl (Nat.lt_of_not_le hroom)
    cases hrun : (ofBuffer buffer).run method.emit with
    | mk outcome last =>
      rw [hrun] at hfail
      rw [show outcome = .error .outOfBounds from hfail]

/-- Too many regions are refused when all else is written. -/
theorem run_emit_ne_ok {method : Method} (hfit : ¬ method.RegionsFit) (writer last : Writer) :
    writer.run method.emit ≠ (.ok (), last) := by
  have hregions : method.regions.isEmpty = false := by
    cases hempty : method.regions with
    | nil => exact absurd (by rw [RegionsFit, hempty]; decide) hfit
    | cons region rest => rfl
  have hrefused (writer : Writer) : ∀ last, writer.run method.emitRegions ≠ (.ok (), last) := by
    intro last hrun
    rw [emitRegions_eq, if_neg hfit, run_bind] at hrun
    split at hrun <;> cases hrun
  intro hrun
  rw [emit, run_bind] at hrun
  split at hrun
  · rw [run_bind] at hrun
    split at hrun
    · rw [hregions] at hrun
      exact hrefused _ last hrun
    · cases hrun
  · cases hrun

/-- Only a buffer of the right size is filled. -/
theorem length_of_write {method : Method} {buffer data : List UInt8}
    (hwrite : method.write buffer = .ok data) : buffer.length = method.encodedSize := by
  by_contra hlength
  rw [write_of_length_ne hlength] at hwrite
  cases hwrite

/-- What it means that a buffer is filled. -/
theorem write_eq_ok {method : Method} {buffer data : List UInt8}
    (hwrite : method.write buffer = .ok data) :
    method.RegionsFit ∧ method.written.length ≤ method.encodedSize
      ∧ ∃ unused, data = method.written ++ unused := by
  have hbuffer := length_of_write hwrite
  by_cases hfit : method.RegionsFit
  · rw [write_eq hfit hbuffer] at hwrite
    split at hwrite
    · rename_i hroom
      exact ⟨hfit, hroom, _, (Except.ok.inj hwrite).symm⟩
    · cases hwrite
  · rw [write_of_length_eq hbuffer] at hwrite
    split at hwrite
    · rename_i last hrun
      exact absurd hrun (run_emit_ne_ok hfit _ last)
    · cases hwrite

/-- Number of bytes of a method whose code has the given number of bytes. -/
theorem length_written (method : Method) :
    method.written.length
      = Header.fatSize + (method.encoded.flatMap bytes).length
        + if method.regions.isEmpty then 0
          else padding 4 (Header.fatSize + (method.encoded.flatMap bytes).length)
            + Section.fatSize method.regions.length := by
  rw [written, Body.written, List.length_append, List.length_append, Header.length_bytes,
    isEmpty_clauses]
  split
  · rfl
  · rw [Section.length_bytes, length_clauses]

/-- The bytes of a method are as many as it asks for. -/
theorem Valid.length_written_eq {method : Method} (hv : method.Valid) (hl : method.Laid)
    (hsmall : method.codeSize < 2 ^ 31) : method.written.length = method.encodedSize := by
  rw [length_written, hv.length_code hl hsmall, encodedSize]
  split
  · rfl
  · exact (Nat.add_assoc _ _ _).symm

/-- A valid method that is laid out and not too large fills every buffer of its size with a fat
body. -/
theorem Valid.write_eq_written {method : Method} (hv : method.Valid) (hl : method.Laid)
    (hsmall : method.codeSize < 2 ^ 31) (hfit : method.RegionsFit) {buffer : List UInt8}
    (hbuffer : buffer.length = method.encodedSize) :
    method.write buffer = .ok method.written := by
  have hlen := hv.length_written_eq hl hsmall
  rw [write_eq hfit hbuffer, if_pos (Nat.le_of_eq hlen),
    List.drop_eq_nil_of_le (by rw [hbuffer, hlen]), List.append_nil]

/-- Up to the capacity of a section the regions fit. -/
theorem regionsFit_of_le_capacity {method : Method}
    (hcount : method.regions.length ≤ Section.capacity) : method.RegionsFit := by
  change method.regions.length ≤ 699050 at hcount
  show 4 + method.regions.length * 24 < 4294967296
  omega

/-- A laid out method with less than 2³¹ bytes of code is encoded as its bytes. -/
theorem Valid.toBytes_eq {method : Method} (hv : method.Valid) (hl : method.Laid)
    (hsmall : method.codeSize < 2 ^ 31) (hfit : method.RegionsFit) :
    method.toBytes = .ok method.written :=
  hv.write_eq_written hl hsmall hfit List.length_replicate

end Method

end CilCoverage
