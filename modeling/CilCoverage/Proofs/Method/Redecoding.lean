import CilCoverage.Proofs.Method.Relinking

/-!
# Decoding an encoded method

`Recodable.redecode`: a recodable method that is laid out and not too large is encoded, and decoding
the bytes gives a method with the same instructions and regions, which is encoded as the same bytes.
Handles differ, since the decoded method numbers its instructions by position; `Method.rows` and
`Method.regionRows` show instructions and regions by offsets, which do not.

The argument goes by position (`Redecoded`): sizes agree because operations and operands do, offsets
because sizes do, and displacements because offsets do.
-/

set_option autoImplicit false

namespace CilCoverage

open Instruction

/-- An instruction as its offsets show it. -/
structure Row where
  opcode : Opcode
  operand : Int
  offset : Int
  targets : List Int
deriving DecidableEq

/-- A region as its offsets show it. -/
structure RegionRow where
  kind : Clause.Kind
  classToken? : Option Token
  tryStart : Int
  tryEnd : Int
  handlerStart : Int
  handlerEnd : Int
  filterStart? : Option Int
deriving DecidableEq

/-- A region under the offsets of a layout. -/
def Region.row (region : Region) (offsetOf : Handle → Int) : RegionRow :=
  { kind := region.kind
    classToken? := region.classToken?
    tryStart := offsetOf region.tryStart
    tryEnd := offsetOf region.tryEnd
    handlerStart := offsetOf region.handlerStart
    handlerEnd := offsetOf region.handlerEnd
    filterStart? := region.filterStart?.map offsetOf }

/-- The row of a region depends on the offsets of its boundaries. -/
theorem Region.row_renamed {region : Region} {rename : Handle → Handle} {f g : Handle → Int}
    (hsame : ∀ boundary ∈ region.boundaries, f (rename boundary.1) = g boundary.1) :
    (region.renamed rename).row f = region.row g := by
  refine region.read_renamed rename row ?_ hsame
  intro region rename f
  obtain ⟨_, _, _, _, handler⟩ := region
  cases handler <;> rfl

namespace Method

/-- The instructions that leave bytes, in execution order. -/
def rows (method : Method) : List Row :=
  method.handles.map fun handle =>
    { opcode := (method.get handle).opcode
      operand := (method.get handle).operand
      offset := method.offsetOf handle
      targets := (method.get handle).targets.map method.offsetOf }

/-- The regions in the order of their clauses. -/
def regionRows (method : Method) : List RegionRow :=
  method.regions.map fun region => region.row method.offsetOf

/-- The second method is what decoding the bytes of the first one gives. -/
structure Redecoded (method decoded : Method) : Prop where
  recodable : method.Recodable
  laid : method.Laid
  small : method.codeSize < 2 ^ 31
  decodedFrom : decoded.DecodedFrom method.rawBody
    (method.regions.map fun region => region.renamed method.order.idxOf)
    (method.handles.map fun handle => (method.get handle).targets.map method.order.idxOf)

namespace Redecoded

variable {method decoded : Method}

/-- What the instruction at a position has become. -/
theorem get_eq (h : method.Redecoded decoded) {k : Nat} {handle : Handle}
    (hk : method.handles[k]? = some handle) :
    ∃ offset : Int, decoded.get k
      = ((((method.get handle).readAs (startOf method.encoded k)).linked
          ((method.get handle).targets.map method.order.idxOf)).movedTo offset).aimed
        decoded.offsetOf := by
  have hread : method.rawBody.instructions[k]?
      = some ((method.get handle).readAs (startOf method.encoded k)) :=
    getElem?_streamed_encoded hk
  obtain ⟨links, offset, hlinks, -, hget⟩ := h.decodedFrom.get_eq hread
  rw [List.getElem?_map, hk] at hlinks
  cases hlinks
  exact ⟨offset, hget⟩

/-- An instruction that is read again has its opcode. -/
theorem opcode_eq (h : method.Redecoded decoded) {k : Nat} {handle : Handle}
    (hk : method.handles[k]? = some handle) :
    (decoded.get k).opcode = (method.get handle).opcode := by
  obtain ⟨offset, hget⟩ := h.get_eq hk
  rw [hget, opcode_aimed]
  exact Opcode.widened_of_ne (h.recodable.wellFormed handle).long

/-- It has the positions of its targets. -/
theorem targets_eq (h : method.Redecoded decoded) {k : Nat} {handle : Handle}
    (hk : method.handles[k]? = some handle) :
    (decoded.get k).targets = (method.get handle).targets.map method.order.idxOf := by
  obtain ⟨offset, hget⟩ := h.get_eq hk
  rw [hget, targets_aimed]
  rfl

/-- It has targets if it had some. -/
theorem isBranch_eq (h : method.Redecoded decoded) {k : Nat} {handle : Handle}
    (hk : method.handles[k]? = some handle) :
    ((decoded.get k).isBranch && !(decoded.get k).targets.isEmpty)
      = ((method.get handle).isBranch && !(method.get handle).targets.isEmpty) := by
  rw [isBranch, isBranch, h.opcode_eq hk, h.targets_eq hk, List.isEmpty_map]

/-- An operand that is no displacement is kept. -/
theorem operand_eq_of_kept (h : method.Redecoded decoded) {k : Nat} {handle : Handle}
    (hk : method.handles[k]? = some handle)
    (hkept : ¬ ((method.get handle).isBranch && !(method.get handle).targets.isEmpty) = true) :
    (decoded.get k).operand = (method.get handle).operand := by
  obtain ⟨offset, hget⟩ := h.get_eq hk
  have hlong : ((method.get handle).readAs (startOf method.encoded k)).opcode.operandKind
      ≠ .shortBranch := (h.recodable.wellFormed handle).long
  rw [← h.isBranch_eq hk, hget, isBranch, opcode_aimed, targets_aimed] at hkept
  rw [hget, aimed_of_not_branch _ _ hkept]
  exact operand_linked ((method.get handle).targets.map method.order.idxOf) hlong

/-- It has its size. -/
theorem size_eq (h : method.Redecoded decoded) {k : Nat} {handle : Handle}
    (hk : method.handles[k]? = some handle) :
    (decoded.get k).size = (method.get handle).size := by
  have hr' := h.decodedFrom.recodable
  rw [(hr'.wellFormed k).counted.size_eq, (h.recodable.wellFormed handle).counted.size_eq,
    h.opcode_eq hk, h.targets_eq hk, List.length_map]

/-- The instructions that are read again are numbered by their positions. -/
theorem length_handles (h : method.Redecoded decoded) :
    decoded.handles = List.range method.handles.length := by
  rw [h.decodedFrom.handles_eq]
  show List.range (Instruction.streamed 0 method.encoded).length = _
  rw [length_streamed, Valid.length_encoded]

/-- What is the same at every position is the same for all instructions. -/
theorem map_handles_eq {α : Type} (h : method.Redecoded decoded) {f g : Handle → α}
    (hsame : ∀ {k : Nat} {handle : Handle}, method.handles[k]? = some handle → f k = g handle) :
    decoded.handles.map f = method.handles.map g := by
  apply List.ext_getElem?
  intro k
  rw [List.getElem?_map, List.getElem?_map, h.length_handles]
  by_cases hlt : k < method.handles.length
  · have hk := List.getElem?_eq_getElem hlt
    rw [List.getElem?_range hlt, hk, Option.map_some, Option.map_some, hsame hk]
  · rw [List.getElem?_eq_none (by simpa using hlt), List.getElem?_eq_none (by simpa using hlt)]
    rfl

/-- Instructions start at the same offsets again. -/
theorem startOf_encoded_eq (h : method.Redecoded decoded) :
    startOf decoded.encoded = startOf method.encoded := by
  apply startOf_congr
  rw [encoded_eq_map, encoded_eq_map, List.map_map, List.map_map]
  exact h.map_handles_eq fun hk => h.size_eq hk

/-- A handle and its position have one offset. -/
theorem offsetOf_eq (h : method.Redecoded decoded) {handle : Handle}
    (hmem : handle ∈ method.order) (hmem' : method.order.idxOf handle ∈ decoded.order) :
    decoded.offsetOf (method.order.idxOf handle) = method.offsetOf handle := by
  have hr' := h.decodedFrom.recodable
  have hlt : method.order.idxOf handle < decoded.order.length := by
    rw [h.decodedFrom.order_eq, List.mem_range] at hmem'
    rwa [h.decodedFrom.order_eq, List.length_range]
  have hat : decoded.order[method.order.idxOf handle]? = some (method.order.idxOf handle) := by
    rw [List.getElem?_eq_getElem hlt]
    simp only [h.decodedFrom.order_eq, List.getElem_range]
  have hle := h.recodable.idxOf_le_length_handles hmem
  rw [h.decodedFrom.laid.offset hat, h.laid.offsetOf_eq hmem, ← h.recodable.startOf_encoded hle,
    ← h.startOf_encoded_eq, ← hr'.startOf_encoded]
  rw [h.length_handles, List.length_range]
  exact hle

/-- The position of an instruction is a handle of the method that is read again. -/
theorem position_mem_order (h : method.Redecoded decoded) {handle : Handle}
    (hmem : handle ∈ method.handles) : method.order.idxOf handle ∈ decoded.order := by
  have hlt := (List.getElem?_eq_some_iff.mp (h.recodable.handles_idxOf hmem)).1
  have hin : method.order.idxOf handle ∈ decoded.handles := by
    rw [h.length_handles]
    exact List.mem_range.mpr hlt
  exact (mem_handles.mp hin).1

/-- An encoded instruction is listed, and its position is a handle of the method that is read
again. -/
theorem position (h : method.Redecoded decoded) {k : Nat} {handle : Handle}
    (hk : method.handles[k]? = some handle) :
    handle ∈ method.order ∧ method.order.idxOf handle = k ∧ k ∈ decoded.order := by
  have hmem := List.mem_of_getElem? hk
  have hposition := h.recodable.ordered.idxOf_eq (h.recodable.getElem?_handles.mp hk).1
  exact ⟨(mem_handles.mp hmem).1, hposition, hposition ▸ h.position_mem_order hmem⟩

/-- An instruction that is read again starts and ends at the same offsets. -/
theorem finish_eq (h : method.Redecoded decoded) {k : Nat} {handle : Handle}
    (hk : method.handles[k]? = some handle) :
    decoded.offsetOf k = method.offsetOf handle
      ∧ (decoded.get k).finish = (method.get handle).finish := by
  obtain ⟨hmem, hposition, hmem'⟩ := h.position hk
  have hoffset := h.offsetOf_eq hmem (hposition ▸ hmem')
  rw [hposition] at hoffset
  refine ⟨hoffset, ?_⟩
  rw [finish, finish, h.size_eq hk]
  exact congrArg (· + _) hoffset

/-- Targets are shown by the same offsets. -/
theorem targetOffsets_eq (h : method.Redecoded decoded) {k : Nat} {handle : Handle}
    (hk : method.handles[k]? = some handle) :
    (decoded.get k).targets.map decoded.offsetOf
      = (method.get handle).targets.map method.offsetOf := by
  rw [h.targets_eq hk, List.map_map]
  apply List.map_congr_left
  intro target htarget
  have hmem : target ∈ method.handles :=
    mem_handles.mpr ⟨h.recodable.targets_mem_order htarget,
      h.recodable.landing handle target htarget⟩
  exact h.offsetOf_eq (mem_handles.mp hmem).1 (h.position_mem_order hmem)

/-- It is at the same distances from its targets. -/
theorem distances_eq (h : method.Redecoded decoded) {k : Nat} {handle : Handle}
    (hk : method.handles[k]? = some handle) :
    (decoded.get k).distances decoded.offsetOf
      = (method.get handle).distances method.offsetOf := by
  have hshape (instruction : Instruction) (offsetOf : Handle → Int) :
      instruction.distances offsetOf = (instruction.targets.map offsetOf).map fun offset =>
        Int.bmod (offset - instruction.finish) UInt32.size := by
    rw [List.map_map]
    rfl
  rw [hshape, hshape, h.targetOffsets_eq hk, (h.finish_eq hk).2]

/-- It has the same displacements. -/
theorem displacements_eq (h : method.Redecoded decoded) {k : Nat} {handle : Handle}
    (hk : method.handles[k]? = some handle) :
    (decoded.get k).displacements = (method.get handle).displacements := by
  obtain ⟨hmem, -, hmem'⟩ := h.position hk
  rw [h.decodedFrom.laid.displacements_eq h.decodedFrom.recodable.toValid hmem',
    h.laid.displacements_eq h.recodable.toValid hmem, h.distances_eq hk]

/-- It has the same operand. -/
theorem operand_eq (h : method.Redecoded decoded) {k : Nat} {handle : Handle}
    (hk : method.handles[k]? = some handle) :
    (decoded.get k).operand = (method.get handle).operand := by
  by_cases hbranch : ((method.get handle).isBranch && !(method.get handle).targets.isEmpty) = true
  · have hbranch' := (h.isBranch_eq hk).trans hbranch
    obtain ⟨hmem, -, hmem'⟩ := h.position hk
    have haimed := congrArg Instruction.operand (h.laid.aimed handle hmem)
    have haimed' := congrArg Instruction.operand (h.decodedFrom.laid.aimed k hmem')
    rw [aimed_of_branch _ _ hbranch] at haimed
    rw [aimed_of_branch _ _ hbranch'] at haimed'
    simp only [h.opcode_eq hk, h.distances_eq hk] at haimed'
    exact haimed'.symm.trans haimed
  · exact h.operand_eq_of_kept hk hbranch

/-- The instructions show the same. -/
theorem rows_eq (h : method.Redecoded decoded) : decoded.rows = method.rows := by
  refine h.map_handles_eq fun hk => ?_
  simp only [h.opcode_eq hk, h.operand_eq hk, (h.finish_eq hk).1, h.targetOffsets_eq hk]

/-- The code is the same. -/
theorem bytes_eq (h : method.Redecoded decoded) :
    decoded.encoded.flatMap bytes = method.encoded.flatMap bytes := by
  rw [encoded_eq_map, encoded_eq_map, List.flatMap_def, List.flatMap_def, List.map_map,
    List.map_map]
  refine congrArg List.flatten (h.map_handles_eq fun hk => ?_)
  simp only [Function.comp_apply, bytes, table, h.opcode_eq hk, h.operand_eq hk,
    h.displacements_eq hk]

/-- Every boundary has kept its offset. -/
theorem boundaryOffset_eq (h : method.Redecoded decoded) {region : Region}
    (hregion : region ∈ method.regions) :
    ∀ boundary ∈ region.boundaries,
      decoded.offsetOf (method.order.idxOf boundary.1) = method.offsetOf boundary.1 := by
  intro boundary hmem
  apply h.offsetOf_eq (h.recodable.boundary_mem_order hregion hmem)
  have hrenamed : region.renamed method.order.idxOf ∈ decoded.regions := by
    rw [h.decodedFrom.regions_eq]
    exact List.mem_map_of_mem hregion
  have hboundary : (method.order.idxOf boundary.1, boundary.2)
      ∈ (region.renamed method.order.idxOf).boundaries := by
    rw [Region.boundaries_renamed]
    exact List.mem_map_of_mem hmem
  exact h.decodedFrom.recodable.boundary_mem_order hrenamed hboundary

/-- The regions show the same. -/
theorem regionRows_eq (h : method.Redecoded decoded) : decoded.regionRows = method.regionRows := by
  unfold regionRows
  rw [h.decodedFrom.regions_eq, List.map_map]
  apply List.map_congr_left
  intro region hregion
  exact Region.row_renamed (h.boundaryOffset_eq hregion)

/-- The clauses are the same. -/
theorem clauses_eq (h : method.Redecoded decoded) : decoded.clauses = method.clauses := by
  unfold clauses
  rw [h.decodedFrom.regions_eq, List.map_map]
  apply List.map_congr_left
  intro region hregion
  apply region.toClause_renamed _
  intro boundary hmem
  unfold storedOffset
  rw [h.boundaryOffset_eq hregion boundary hmem]

/-- The header has the same stack and locals. -/
theorem header_eq (h : method.Redecoded decoded) :
    decoded.maxStack = method.maxStack ∧ decoded.header.initLocals = method.header.initLocals
      ∧ decoded.header.locals = method.header.locals := by
  rw [h.decodedFrom.method_eq]
  exact ⟨rfl, rfl, rfl⟩

/-- The header has the same size of code. -/
theorem codeSize_eq (h : method.Redecoded decoded) :
    decoded.header.codeSize = method.header.codeSize := by
  have hlength : decoded.encoded.length = method.encoded.length := by
    rw [Valid.length_encoded, Valid.length_encoded, h.length_handles, List.length_range]
  rw [h.laid.codeSize, h.decodedFrom.laid.codeSize, ← startOf_encoded_length,
    ← startOf_encoded_length, h.startOf_encoded_eq, hlength]

/-- The bytes are the same. -/
theorem written_eq (h : method.Redecoded decoded) : decoded.written = method.written := by
  obtain ⟨hstack, hinit, hlocals⟩ := h.header_eq
  unfold maxStack at hstack
  rw [written, written, h.bytes_eq, h.clauses_eq, h.codeSize_eq, Body.written, Body.written, Header.bytes,
    Header.bytes, hstack, hinit, hlocals]

end Redecoded

/-- Encoding a recodable method and decoding the bytes gives the same method, up to the numbering of
its handles. -/
theorem Recodable.redecode {method : Method} (hr : method.Recodable) (hl : method.Laid)
    (hsmall : method.codeSize < 2 ^ 31) (hcount : method.regions.length ≤ Section.capacity) :
    ∃ bytes decoded, method.toBytes = .ok bytes ∧ decode bytes = .ok decoded
      ∧ method.Redecoded decoded ∧ decoded.toBytes = .ok bytes := by
  have hread := hr.read_written hl hsmall hcount
  have hlinked := hr.linked hl hsmall
  have hstreamed : Streamed method.rawBody.instructions := RawBody.streamed hread
  refine ⟨_, _, hr.toBytes_eq hl hsmall (regionsFit_of_le_capacity hcount),
    decode_eq_ok_iff.mpr ⟨_, _, _, hread, hlinked, rfl⟩, ?_⟩
  generalize hdecoded : (assembled method.rawBody.header method.rawBody.instructions
    (method.regions.map fun region => region.renamed method.order.idxOf)
    (method.handles.map fun handle => (method.get handle).targets.map method.order.idxOf)).layOut
    = decoded
  have h : method.Redecoded decoded :=
    ⟨hr, hl, hsmall, hstreamed, RawBody.codeSize_eq hread, hlinked, hdecoded.symm⟩
  have hsmall' : decoded.codeSize < 2 ^ 31 := by
    rw [codeSize, h.codeSize_eq]
    exact hsmall
  have hcount' : decoded.regions.length ≤ Section.capacity := by
    rwa [h.decodedFrom.regions_eq, List.length_map]
  refine ⟨h, ?_⟩
  rw [h.decodedFrom.recodable.toBytes_eq h.decodedFrom.laid hsmall'
    (regionsFit_of_le_capacity hcount'), h.written_eq]

end Method

end CilCoverage
