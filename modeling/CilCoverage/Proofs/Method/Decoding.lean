import CilCoverage.Proofs.Method.Binding
import CilCoverage.Proofs.Method.Encoding

/-!
# Decoded methods

`RawBody.read` is what the bytes of a body say before anything is bound: header, instructions as
they stand in the code, and clauses. `decode_eq_ok_iff` describes a decoded method by the raw body
it came from and by the links that were found for it, and `Linked.recodable` shows that such a
method can be encoded and decoded again. `Valid.read_written` gives the raw body that a method is
encoded as.
-/

set_option autoImplicit false

namespace CilCoverage

open Instruction

/-- A body as it stands in its bytes. -/
structure RawBody where
  header : Header
  instructions : List Instruction
  clauses : List Clause
deriving DecidableEq

namespace RawBody

/-- Reads header, clauses and instructions one by one. -/
def read (data : List UInt8) : Except Error RawBody := do
  let body ← Body.read data
  let code ← body.code data
  let instructions ← ofCode code
  return { header := body.header, instructions, clauses := body.clauses }

/-- A raw body is a body whose code was read as instructions. -/
theorem read_eq_ok_iff {data : List UInt8} {raw : RawBody} :
    read data = .ok raw ↔ ∃ code, Body.read data = .ok { header := raw.header, clauses := raw.clauses }
      ∧ Body.code { header := raw.header, clauses := raw.clauses } data = .ok code
      ∧ ofCode code = .ok raw.instructions := by
  unfold read
  rw [bind_eq_ok_iff]
  constructor
  · rintro ⟨body, hbody, h⟩
    obtain ⟨code, hcode, h⟩ := bind_eq_ok_iff.mp h
    obtain ⟨instructions, hread, h⟩ := bind_eq_ok_iff.mp h
    cases h
    exact ⟨code, hbody, hcode, hread⟩
  · rintro ⟨code, hbody, hcode, hread⟩
    exact ⟨_, hbody, bind_eq_ok_iff.mpr ⟨code, hcode, bind_eq_ok_iff.mpr ⟨_, hread, rfl⟩⟩⟩

/-- Instructions that are read as code are streamed. -/
theorem streamed_of_ofCode {code : List UInt8} {instructions : List Instruction}
    (hread : ofCode code = .ok instructions) : Streamed instructions := by
  obtain ⟨hencodable, hstream, -⟩ := ofCode_spec hread
  exact ⟨hencodable, hstream⟩

/-- The code has the size that the header gives. -/
theorem length_code {body : Body} {data code : List UInt8} (hcode : body.code data = .ok code) :
    code.length = body.header.codeSize.toNat := by
  by_cases hroom : body.header.size + body.header.codeSize.toNat ≤ data.length
  · rw [Body.code, if_pos hroom] at hcode
    cases hcode
    rw [List.length_take, List.length_drop]
    omega
  · rw [Body.code, if_neg hroom] at hcode
    cases hcode

/-- The instructions of a raw body are streamed. -/
theorem streamed {data : List UInt8} {raw : RawBody} (hread : read data = .ok raw) :
    Streamed raw.instructions := by
  obtain ⟨code, -, -, hcode⟩ := read_eq_ok_iff.mp hread
  exact streamed_of_ofCode hcode

/-- The instructions fill the code. -/
theorem codeSize_eq {data : List UInt8} {raw : RawBody} (hread : read data = .ok raw) :
    raw.header.codeSize.toNat = startOf raw.instructions raw.instructions.length := by
  obtain ⟨code, -, hcode, hstream⟩ := read_eq_ok_iff.mp hread
  obtain ⟨hencodable, -, hbytes⟩ := ofCode_spec hstream
  rw [← length_flatMap_bytes fun instruction hmem => (hencodable instruction hmem).tabled, ← hbytes]
  exact (length_code hcode).symm

end RawBody

namespace Method

/-- A body is decoded by linking what stands in its bytes. -/
theorem decode_eq_ok_iff {data : List UInt8} {method : Method} :
    decode data = .ok method ↔ ∃ raw regions targets, RawBody.read data = .ok raw
      ∧ Linked raw.instructions raw.clauses regions targets
      ∧ method = (assembled raw.header raw.instructions regions targets).layOut := by
  unfold decode
  rw [bind_eq_ok_iff]
  constructor
  · rintro ⟨body, hbody, h⟩
    obtain ⟨code, hcode, h⟩ := bind_eq_ok_iff.mp h
    have hparts := h
    unfold ofParts at hparts
    obtain ⟨instructions, hstream, -⟩ := bind_eq_ok_iff.mp hparts
    have hread : RawBody.read data
        = .ok { header := body.header, instructions, clauses := body.clauses } :=
      RawBody.read_eq_ok_iff.mpr ⟨code, hbody, hcode, hstream⟩
    obtain ⟨regions, targets, hlinked, hmethod⟩ := (ofParts_eq_ok_iff (RawBody.streamed hread)
      hstream (RawBody.codeSize_eq hread)).mp h
    exact ⟨_, regions, targets, hread, hlinked, hmethod⟩
  · rintro ⟨raw, regions, targets, hread, hlinked, hmethod⟩
    obtain ⟨code, hbody, hcode, hstream⟩ := RawBody.read_eq_ok_iff.mp hread
    refine ⟨_, hbody, bind_eq_ok_iff.mpr ⟨code, hcode, ?_⟩⟩
    exact (ofParts_eq_ok_iff (RawBody.streamed hread) hstream (RawBody.codeSize_eq hread)).mpr
      ⟨regions, targets, hlinked, hmethod⟩

end Method

/-- An instruction that can be encoded asks for as many targets as it has displacements. -/
theorem Instruction.Encodable.targets {instruction : Instruction} (he : instruction.Encodable)
    {count : Nat} (hcount : instruction.displacements.length = count) :
    instruction.opcode.Targets instruction.operand count := by
  have hdisp := he.displacements
  have hoperand := he.operand
  by_cases hswitch : instruction.opcode = .switch
  · have hkind := (Opcode.operandKind_eq_switch_iff _).mpr hswitch
    rw [hkind] at hdisp hoperand
    rw [Opcode.Targets, if_pos hswitch]
    have hnonneg : 0 ≤ instruction.operand := hoperand.1
    have hlength := hdisp.1
    omega
  · have hkind := (Opcode.operandKind_eq_switch_iff _).not.mpr hswitch
    rw [Opcode.Targets, if_neg hswitch, ← hcount]
    by_cases hbranch : instruction.opcode.isBranch = true
    · rw [if_pos hbranch]
      rcases (Opcode.isBranch_iff _).mp hbranch with h | h | h
      · rw [h] at hdisp
        rw [show instruction.displacements = [instruction.operand] from hdisp]
        rfl
      · rw [h] at hdisp
        rw [show instruction.displacements = [instruction.operand] from hdisp]
        rfl
      · exact absurd h hkind
    · rw [if_neg hbranch]
      rw [Opcode.isBranch_iff, not_or, not_or] at hbranch
      unfold OperandKind.Displaces at hdisp
      split at hdisp
      · exact absurd ‹_› hbranch.1
      · exact absurd ‹_› hbranch.2.1
      · exact absurd ‹_› hkind
      · rw [hdisp]
        rfl

section Assembly

variable (header : Header) {instructions : List Instruction} {clauses : List Clause}
  {regions : List Region} {targets : List (List Handle)}

open Method

/-- Every instruction has its list of targets. -/
theorem Linked.length_targets (hl : Linked instructions clauses regions targets) :
    targets.length = instructions.length := hl.landed.length_eq.symm

/-- Linking adds no slot. -/
theorem Linked.size_slots (hl : Linked instructions clauses regions targets) :
    (assembled header instructions regions targets).slots.size
      = (readSlots instructions (needsLabel instructions regions)).size := by
  have hlen := hl.length_targets
  simp [assembled, readSlots, hlen]

/-- An instruction as read and the targets that were found for it. -/
theorem Linked.get_of_getElem? (hl : Linked instructions clauses regions targets) {k : Nat}
    {instruction : Instruction} (hk : instructions[k]? = some instruction) :
    ∃ links, targets[k]? = some links
      ∧ List.Forall₂ (instruction.LandsAt instructions) instruction.displacements links
      ∧ (assembled header instructions regions targets).get k = instruction.linked links := by
  have hlen := hl.length_targets
  obtain ⟨hlt, hget⟩ := List.getElem?_eq_some_iff.mp hk
  have hlinks : targets[k]? = some targets[k] := List.getElem?_eq_getElem (by omega)
  have hlanded := (List.forall₂_iff_get.mp hl.landed).2 k hlt (by omega)
  simp only [List.get_eq_getElem, hget] at hlanded
  refine ⟨_, hlinks, hlanded, ?_⟩
  rw [Method.get, Method.get?, assembled]
  simp only [List.getElem?_toArray]
  rw [List.getElem?_append_left (by simp [hlen, hlt]), List.getElem?_zipWith, hk, hlinks]
  rfl

/-- The other handles name the label or nothing. -/
theorem Linked.get_of_le (hl : Linked instructions clauses regions targets) {handle : Nat}
    (hle : instructions.length ≤ handle) :
    ∃ offset, (assembled header instructions regions targets).get handle = label offset := by
  have hlen := hl.length_targets
  rw [Method.get, Method.get?, assembled]
  simp only [List.getElem?_toArray]
  rw [List.getElem?_append_right (by simp [hlen, hle])]
  cases needsLabel instructions regions with
  | false => exact ⟨-1, rfl⟩
  | true =>
    rw [if_pos rfl]
    cases handle - (instructions.zipWith linked targets).length with
    | zero => exact ⟨_, rfl⟩
    | succ k => exact ⟨-1, rfl⟩

/-- Displacements land in instructions. -/
theorem LandsAt.lt_of_mem {instruction : Instruction} {displacements : List Int}
    {links : List Handle}
    (hall : List.Forall₂ (instruction.LandsAt instructions) displacements links) :
    ∀ link ∈ links, link < instructions.length := by
  induction hall with
  | nil => simp
  | cons hland _ ih => simpa using ⟨hland.2, ih⟩

/-- The slots of a linked method are well-formed. -/
theorem Linked.wellFormed (hs : Streamed instructions)
    (hl : Linked instructions clauses regions targets) (handle : Nat) :
    ((assembled header instructions regions targets).get handle).WellFormed := by
  by_cases hlt : handle < instructions.length
  · have hk := List.getElem?_eq_getElem hlt
    have hencodable := hs.encodable _ (List.mem_of_getElem? hk)
    obtain ⟨links, -, hlanded, hget⟩ := hl.get_of_getElem? header hk
    rw [hget]
    exact wellFormed_linked (fun _ => hencodable.operand) (hencodable.targets hlanded.length_eq)
  · obtain ⟨offset, hget⟩ := hl.get_of_le header (Nat.le_of_not_lt hlt)
    rw [hget]
    exact wellFormed_label offset

/-- Only the slot behind the instructions is a label. -/
theorem Linked.opcode_ne_label_iff (hs : Streamed instructions)
    (hl : Linked instructions clauses regions targets) (handle : Nat) :
    ((assembled header instructions regions targets).get handle).opcode ≠ .label
      ↔ handle < instructions.length := by
  constructor
  · intro hreal
    by_contra hle
    obtain ⟨offset, hget⟩ := hl.get_of_le header (Nat.le_of_not_lt hle)
    rw [hget] at hreal
    exact hreal rfl
  · intro hlt
    have hk := List.getElem?_eq_getElem hlt
    obtain ⟨links, -, -, hget⟩ := hl.get_of_getElem? header hk
    rw [hget]
    exact (Opcode.widened_eq_label_iff _).not.mpr
      (hs.encodable _ (List.mem_of_getElem? hk)).opcode

/-- Targets are instructions. -/
theorem Linked.targets_lt (hl : Linked instructions clauses regions targets) {handle target : Nat}
    (hmem : target ∈ ((assembled header instructions regions targets).get handle).targets) :
    target < instructions.length := by
  by_cases hlt : handle < instructions.length
  · obtain ⟨links, -, hlanded, hget⟩ := hl.get_of_getElem? header (List.getElem?_eq_getElem hlt)
    rw [hget] at hmem
    exact LandsAt.lt_of_mem hlanded target hmem
  · obtain ⟨offset, hget⟩ := hl.get_of_le header (Nat.le_of_not_lt hlt)
    rw [hget] at hmem
    cases hmem

/-- Every region was bound from a clause. -/
theorem Linked.exists_clause (hl : Linked instructions clauses regions targets) {region : Region}
    (hmem : region ∈ regions) : ∃ clause ∈ clauses, Region.Binds instructions clause region := by
  obtain ⟨k, hk⟩ := List.getElem?_of_mem hmem
  obtain ⟨hlt, rfl⟩ := List.getElem?_eq_some_iff.mp hk
  have hlen := hl.bound.length_eq
  have hbinds := (List.forall₂_iff_get.mp hl.bound).2 k (by omega) hlt
  exact ⟨_, List.getElem_mem _, hbinds⟩

/-- A range does not end before it starts, since its length is not negative. -/
theorem le_of_startOf_le (hs : Streamed instructions) {i j : Nat} (hi : i ≤ instructions.length)
    (hle : startOf instructions i ≤ startOf instructions j) : i ≤ j := by
  by_contra hlt
  have := startOf_lt_startOf hs.size_pos (Nat.lt_of_not_le hlt) hi
  omega

/-- In the order of handles a handle is its own position. -/
theorem idxOf_range {count handle : Nat} (hlt : handle < count) :
    (List.range count).idxOf handle = handle := by
  have hnodup := List.nodup_range (n := count)
  have hlen : handle < (List.range count).length := by rwa [List.length_range]
  have hidx := hnodup.idxOf_getElem handle hlen
  rwa [List.getElem_range] at hidx

/-- Boundaries are slots. -/
theorem Linked.boundary_lt (hl : Linked instructions clauses regions targets)
    {boundary : Handle × Bool} (hmem : boundary ∈ regions.flatMap Region.boundaries) :
    boundary.1 < (assembled header instructions regions targets).slots.size := by
  obtain ⟨region, hregion, hboundary⟩ := List.mem_flatMap.mp hmem
  obtain ⟨clause, -, hbinds⟩ := hl.exists_clause hregion
  have hle : boundary.1 ≤ instructions.length := hbinds.bound boundary hboundary
  rw [hl.size_slots, Streamed.size_readSlots]
  by_cases hend : boundary.1 = instructions.length
  · have hneeds : needsLabel instructions regions = true :=
      List.any_eq_true.mpr ⟨boundary, hmem, beq_iff_eq.mpr hend⟩
    rw [hneeds, hend]
    exact Nat.lt_succ_self _
  · exact Nat.lt_of_lt_of_le (Nat.lt_of_le_of_ne hle hend) (Nat.le_add_right _ _)

/-- The handles of a region are positions, since the execution order is that of the code. -/
theorem Linked.position (hl : Linked instructions clauses regions targets) {region : Region}
    (hregion : region ∈ regions) {boundary : Handle × Bool} (hmem : boundary ∈ region.boundaries) :
    (assembled header instructions regions targets).order.idxOf boundary.1 = boundary.1 := by
  have hlt := hl.boundary_lt header (List.mem_flatMap.mpr ⟨region, hregion, hmem⟩)
  rw [hl.size_slots] at hlt
  exact idxOf_range hlt

/-- The slots of a linked method are listed once each. -/
theorem Linked.ordered (hl : Linked instructions clauses regions targets) :
    (assembled header instructions regions targets).Ordered := by
  refine ⟨List.nodup_range, ?_⟩
  intro handle
  rw [hl.size_slots]
  exact List.mem_range

/-- A method that was assembled from linked parts can be encoded and read back. -/
theorem Linked.recodable (hs : Streamed instructions)
    (hl : Linked instructions clauses regions targets) :
    (assembled header instructions regions targets).Recodable where
  ordered := hl.ordered header
  wellFormed := hl.wellFormed header hs
  targets := by
    intro handle target hmem
    rw [hl.size_slots, Streamed.size_readSlots]
    exact Nat.lt_of_lt_of_le (hl.targets_lt header hmem) (Nat.le_add_right _ _)
  boundaries := fun boundary hmem => hl.boundary_lt header hmem
  tries := by
    intro region hregion
    have hstart := region.tryStart_mem
    obtain ⟨clause, -, hbinds⟩ := hl.exists_clause hregion
    rw [hl.position header hregion hstart, hl.position header hregion region.tryEnd_mem]
    apply le_of_startOf_le hs (hbinds.bound _ hstart)
    rw [hbinds.tryStart, hbinds.tryEnd]
    exact Nat.le_add_right _ _
  handlers := by
    intro region hregion
    have hstart := region.handlerStart_mem
    obtain ⟨clause, -, hbinds⟩ := hl.exists_clause hregion
    rw [hl.position header hregion hstart, hl.position header hregion region.handlerEnd_mem]
    apply le_of_startOf_le hs (hbinds.bound _ hstart)
    rw [hbinds.handlerStart, hbinds.handlerEnd]
    exact Nat.le_add_right _ _
  ending := by
    intro k handle hk hlabel
    -- the slots are the instructions and at most one more, so a label is the last one
    have hcount := Streamed.size_readSlots instructions (needsLabel instructions regions)
    have hone := (needsLabel instructions regions).toNat_le
    obtain ⟨hlt, heq⟩ := List.getElem?_eq_some_iff.mp hk
    have hhandle : handle = k := by
      rw [← heq]
      exact List.getElem_range _
    have hout : ¬ k < instructions.length := by
      rw [← hl.opcode_ne_label_iff header hs, ← hhandle]
      exact not_not.mpr hlabel
    have hlength : (assembled header instructions regions targets).order.length
        = (readSlots instructions (needsLabel instructions regions)).size := List.length_range
    show k + 1 = (assembled header instructions regions targets).order.length
    omega
  landing := by
    intro handle target hmem
    exact (hl.opcode_ne_label_iff header hs target).mpr (hl.targets_lt header hmem)
  opened := by
    intro handle hlt hlabel
    have hcount := Streamed.size_readSlots instructions (needsLabel instructions regions)
    have hone := (needsLabel instructions regions).toNat_le
    have hout := (hl.opcode_ne_label_iff header hs handle).not.mp (not_not.mpr hlabel)
    rw [hl.size_slots, hcount] at hlt
    have hhandle : handle = instructions.length :=
      Nat.le_antisymm
      (Nat.le_of_lt_succ (Nat.lt_of_lt_of_le hlt (Nat.add_le_add_left hone _)))
      (Nat.le_of_not_lt hout)
    rw [hhandle]
    exact hl.opened.resolve_left Bool.false_ne_true

end Assembly

/-- The method is the laid out one that was linked from a raw body. -/
structure Method.DecodedFrom (method : Method) (raw : RawBody) (regions : List Region)
    (targets : List (List Handle)) : Prop where
  streamed : Streamed raw.instructions
  codeSize : raw.header.codeSize.toNat = startOf raw.instructions raw.instructions.length
  linked : Linked raw.instructions raw.clauses regions targets
  method_eq : method = (assembled raw.header raw.instructions regions targets).layOut

namespace Method

/-- An instruction was read from where those before it end. -/
theorem origin_of_streamed {instructions : List Instruction} (hs : Streamed instructions) {k : Nat}
    {instruction : Instruction} (hk : instructions[k]? = some instruction) :
    instruction.origin = some (startOf instructions k) := by
  rw [hs.getElem? hk]
  rfl

/-- What is decoded was linked from the raw body that is read, and laid out. -/
theorem decode_spec {data : List UInt8} {method : Method} (hdecode : decode data = .ok method) :
    ∃ raw regions targets, RawBody.read data = .ok raw
      ∧ method.DecodedFrom raw regions targets := by
  obtain ⟨raw, regions, targets, hread, hlinked, hmethod⟩ := decode_eq_ok_iff.mp hdecode
  exact ⟨raw, regions, targets, hread, RawBody.streamed hread, RawBody.codeSize_eq hread, hlinked,
    hmethod⟩

namespace DecodedFrom

variable {method : Method} {raw : RawBody} {regions : List Region} {targets : List (List Handle)}

/-- A decoded method can be read back. -/
theorem recodable (hd : method.DecodedFrom raw regions targets) : method.Recodable := by
  rw [hd.method_eq]
  exact (hd.linked.recodable raw.header hd.streamed).layOut

/-- A decoded method is laid out. -/
theorem laid (hd : method.DecodedFrom raw regions targets) : method.Laid := by
  have hr := hd.linked.recodable raw.header hd.streamed
  rw [hd.method_eq]
  exact hr.ordered.laid_layOut hr.allCounted

/-- A decoded method has the regions that were bound. -/
theorem regions_eq (hd : method.DecodedFrom raw regions targets) : method.regions = regions := by
  rw [hd.method_eq]
  rfl

/-- The slots of a decoded method are listed in the order of their handles. -/
theorem order_eq (hd : method.DecodedFrom raw regions targets) :
    method.order
      = List.range (readSlots raw.instructions (needsLabel raw.instructions regions)).size := by
  rw [hd.method_eq]
  rfl

/-- What an instruction has become in the laid out method. -/
theorem get_eq (hd : method.DecodedFrom raw regions targets) {k : Nat} {instruction : Instruction}
    (hk : raw.instructions[k]? = some instruction) :
    ∃ (links : List Handle) (offset : Int), targets[k]? = some links
      ∧ List.Forall₂ (instruction.LandsAt raw.instructions) instruction.displacements links
      ∧ method.get k = ((instruction.linked links).movedTo offset).aimed method.offsetOf := by
  obtain ⟨links, hlinks, hlanded, hget⟩ := hd.linked.get_of_getElem? raw.header hk
  obtain ⟨offset, haimed⟩ := (hd.linked.ordered raw.header).exists_get_layOut k
  rw [hget, ← hd.method_eq] at haimed
  exact ⟨links, offset, hlinks, hlanded, haimed⟩

/-- The instructions of a decoded method remember the offsets they were read from. -/
theorem origin_eq (hd : method.DecodedFrom raw regions targets) (handle : Handle) :
    (method.get handle).origin
      = if handle < raw.instructions.length then some (startOf raw.instructions handle)
        else none := by
  obtain ⟨offset, hmoved⟩ := (hd.linked.ordered raw.header).exists_get_layOut handle
  rw [hd.method_eq, hmoved, origin_aimed]
  split
  · rename_i hlt
    have hk := List.getElem?_eq_getElem hlt
    obtain ⟨links, -, -, hget⟩ := hd.linked.get_of_getElem? raw.header hk
    rw [hget]
    show raw.instructions[handle].origin = _
    exact origin_of_streamed hd.streamed hk
  · rename_i hle
    obtain ⟨offset, hget⟩ := hd.linked.get_of_le raw.header (Nat.le_of_not_lt hle)
    rw [hget]
    rfl

/-- In a decoded method only the slot behind the instructions is a label. -/
theorem opcode_ne_label_iff (hd : method.DecodedFrom raw regions targets) (handle : Nat) :
    (method.get handle).opcode ≠ .label ↔ handle < raw.instructions.length := by
  rw [hd.method_eq, (hd.linked.ordered raw.header).opcode_layOut]
  exact hd.linked.opcode_ne_label_iff raw.header hd.streamed handle

/-- In a decoded method the handle of an instruction is its position. -/
theorem idxOf_eq (hd : method.DecodedFrom raw regions targets) {handle : Nat}
    (hlt : handle < raw.instructions.length) : method.order.idxOf handle = handle := by
  have hcount := Streamed.size_readSlots raw.instructions (needsLabel raw.instructions regions)
  rw [hd.order_eq]
  exact idxOf_range (by omega)

/-- The handles are the positions of the instructions. -/
theorem handles_eq (hd : method.DecodedFrom raw regions targets) :
    method.handles = List.range raw.instructions.length := by
  have hcount := Streamed.size_readSlots raw.instructions (needsLabel raw.instructions regions)
  apply List.ext_getElem?
  intro k
  apply Option.ext
  intro handle
  rw [hd.recodable.getElem?_handles, hd.opcode_ne_label_iff, hd.order_eq]
  simp only [List.getElem?_eq_some_iff, List.getElem_range, List.length_range, exists_prop]
  constructor
  · rintro ⟨⟨-, rfl⟩, hlt⟩
    exact ⟨hlt, rfl⟩
  · rintro ⟨hlt, rfl⟩
    exact ⟨⟨by omega, rfl⟩, hlt⟩

end DecodedFrom

end Method

/-- A method as it stands in the bytes it is encoded as. -/
def Method.rawBody (method : Method) : RawBody :=
  { header := method.header.written method.header.codeSize (!method.clauses.isEmpty)
    instructions := Instruction.streamed 0 method.encoded
    clauses := method.clauses }

/-- What a valid method is encoded as, read back. -/
theorem Method.Valid.read_written {method : Method} (hv : method.Valid) (hl : method.Laid)
    (hsmall : method.codeSize < 2 ^ 31) (hcount : method.regions.length ≤ Section.capacity) :
    RawBody.read method.written = .ok method.rawBody := by
  have hcode : (method.encoded.flatMap bytes).length = method.header.codeSize.toNat :=
    hv.length_code hl hsmall
  have hclauses : method.clauses.length ≤ Section.capacity := by
    rwa [Method.clauses, List.length_map]
  exact RawBody.read_eq_ok_iff.mpr ⟨_, Body.read_written method.header hcode hclauses,
    Body.code_written method.header hcode, ofCode_flatMap (hv.encodable hl hsmall)⟩

/-- A loop in a protected block: nine bytes of code with three short branches, and a small clause
for a handler behind the block. -/
def guardedLoop : List UInt8 :=
  [0x1B, 0x30, 2, 0, 9, 0, 0, 0, 0, 0, 0, 0,
   0x02, 0x2D, 0xFD, 0xDE, 3, 0x26, 0xDE, 0, 0x2A, 0, 0, 0,
   1, 16, 0, 0, 0, 0, 0, 0, 5, 5, 0, 3, 7, 0, 0, 1]

end CilCoverage
