import CilCoverage.Proofs.Method.Decoding

/-!
# Encoded methods link back

Reading a body back names instructions by position, so a method comes back with every handle
replaced by its position in execution order. `Recodable.linked` shows that the clauses and
displacements of an encoded method link to exactly these positions: offsets are starts of
instructions, and with less than 2³¹ bytes of code no displacement wraps.
-/

set_option autoImplicit false

namespace CilCoverage

open Instruction

namespace Region

/-- The region with its handles replaced. -/
def renamed (region : Region) (rename : Handle → Handle) : Region :=
  { tryStart := rename region.tryStart
    tryEnd := rename region.tryEnd
    handlerStart := rename region.handlerStart
    handlerEnd := rename region.handlerEnd
    handler :=
      match region.handler with
      | .filtering start => .filtering (rename start)
      | other => other }

variable (region : Region) (rename : Handle → Handle)

/-- Renaming keeps the kind of a region. -/
theorem kind_renamed : (region.renamed rename).kind = region.kind := by
  obtain ⟨_, _, _, _, handler⟩ := region
  cases handler <;> rfl

/-- Renaming keeps the type that a region catches. -/
theorem classToken?_renamed : (region.renamed rename).classToken? = region.classToken? := by
  obtain ⟨_, _, _, _, handler⟩ := region
  cases handler <;> rfl

/-- The boundaries are renamed in their order. -/
theorem boundaries_renamed :
    (region.renamed rename).boundaries
      = region.boundaries.map fun boundary => (rename boundary.1, boundary.2) := by
  obtain ⟨_, _, _, _, handler⟩ := region
  cases handler <;> rfl

/-- What holds of the boundaries holds of both ranges and of the filter. -/
theorem forall_boundaries {region : Region} {P : Handle → Prop}
    (hall : ∀ boundary ∈ region.boundaries, P boundary.1) :
    P region.tryStart ∧ P region.tryEnd ∧ P region.handlerStart ∧ P region.handlerEnd
      ∧ ∀ start, region.handler = .filtering start → P start := by
  refine ⟨hall (region.tryStart, false) (by simp [boundaries]),
    hall (region.tryEnd, true) (by simp [boundaries]),
    hall (region.handlerStart, false) (by simp [boundaries]),
    hall (region.handlerEnd, true) (by simp [boundaries]), ?_⟩
  intro start hhandler
  exact hall (start, false) (by simp [boundaries, filterStart?, hhandler])

/-- Only the handles of the boundaries matter. -/
theorem renamed_eq_self (hsame : ∀ boundary ∈ region.boundaries, rename boundary.1 = boundary.1) :
    region.renamed rename = region := by
  obtain ⟨h1, h2, h3, h4, h5⟩ := forall_boundaries (P := fun handle => rename handle = handle) hsame
  obtain ⟨tryStart, tryEnd, handlerStart, handlerEnd, handler⟩ := region
  cases handler with
  | catching | finalizing | faulting => simp_all [renamed]
  | filtering start =>
    have hstart := h5 start rfl
    simp_all [renamed]

/-- The handle, if it bounds the region, and one that does otherwise. -/
def bounding (handle : Handle) : Handle :=
  if handle ∈ region.boundaries.map Prod.fst then handle else region.tryStart

/-- The chosen handle is a boundary. -/
theorem exists_bounding (handle : Handle) :
    ∃ boundary ∈ region.boundaries, boundary.1 = region.bounding handle := by
  rw [bounding]
  split
  · rename_i hmem
    exact List.mem_map.mp hmem
  · exact ⟨(region.tryStart, false), by simp [boundaries], rfl⟩

/-- A region has its boundaries chosen already. -/
theorem renamed_bounding : region.renamed region.bounding = region :=
  region.renamed_eq_self _ fun _ hmem => if_pos (List.mem_map_of_mem hmem)

/-- What is read off a region by what a function says of its handles, and follows a renaming of
them, depends only on what the function says of the boundaries. -/
theorem read_renamed {α β : Type} (read : Region → (Handle → α) → β)
    (hread : ∀ (region : Region) (rename : Handle → Handle) (f : Handle → α),
      read (region.renamed rename) f = read region (f ∘ rename))
    {f g : Handle → α}
    (hsame : ∀ boundary ∈ region.boundaries, f (rename boundary.1) = g boundary.1) :
    read (region.renamed rename) f = read region g := by
  have hagree : (f ∘ rename) ∘ region.bounding = g ∘ region.bounding := by
    funext handle
    obtain ⟨boundary, hmem, hbounding⟩ := region.exists_bounding handle
    rw [Function.comp_apply, Function.comp_apply, Function.comp_apply, ← hbounding, hsame _ hmem]
  calc read (region.renamed rename) f = read region (f ∘ rename) := hread _ _ _
    _ = read (region.renamed region.bounding) (f ∘ rename) := by rw [renamed_bounding]
    _ = read region ((f ∘ rename) ∘ region.bounding) := hread _ _ _
    _ = read region (g ∘ region.bounding) := by rw [hagree]
    _ = read (region.renamed region.bounding) g := (hread _ _ _).symm
    _ = read region g := by rw [renamed_bounding]

/-- The clause of a region depends on the offsets of its boundaries. -/
theorem toClause_renamed {f g : Handle → UInt32}
    (hsame : ∀ boundary ∈ region.boundaries, f (rename boundary.1) = g boundary.1) :
    (region.renamed rename).toClause f = region.toClause g := by
  refine region.read_renamed rename toClause ?_ hsame
  intro region rename f
  obtain ⟨_, _, _, _, handler⟩ := region
  cases handler <;> rfl

end Region

namespace Method

variable {method : Method}

/-- A listed handle has the offset at which its instruction starts. -/
theorem Laid.offsetOf_eq (hl : method.Laid) {handle : Handle} (hmem : handle ∈ method.order) :
    method.offsetOf handle = startOf method.instructions (method.order.idxOf handle) :=
  hl.offset (getElem?_idxOf hmem)

/-- A listed instruction ends where the next one starts. -/
theorem Laid.finish_eq (hl : method.Laid) {handle : Handle} (hmem : handle ∈ method.order) :
    (method.get handle).finish
      = startOf method.instructions (method.order.idxOf handle + 1) := by
  have hoffset : (method.get handle).offset = _ := hl.offsetOf_eq hmem
  rw [finish, hoffset, startOf_succ (getElem?_instructions (getElem?_idxOf hmem))]
  exact (Int.natCast_add _ _).symm

/-- No instruction starts behind the end of the code. -/
theorem Laid.startOf_le_codeSize (hl : method.Laid) (hsmall : method.codeSize < 2 ^ 31) {k : Nat}
    (hk : k ≤ method.length) : startOf method.instructions k ≤ method.codeSize := by
  rw [hl.codeSize_eq hsmall]
  exact startOf_le_startOf _ hk

/-- Distances within less than 2³¹ bytes of code do not wrap. -/
theorem Laid.distances_eq (hl : method.Laid) (hsmall : method.codeSize < 2 ^ 31) {handle : Handle}
    (hmem : handle ∈ method.order)
    (htargets : ∀ target ∈ (method.get handle).targets, target ∈ method.order) :
    (method.get handle).distances method.offsetOf
      = (method.get handle).targets.map fun target =>
          method.offsetOf target - (method.get handle).finish := by
  apply List.map_congr_left
  intro target htarget
  have hin : target ∈ method.order := htargets target htarget
  have hto := hl.startOf_le_codeSize hsmall
    (Nat.le_of_lt (List.idxOf_lt_length_of_mem hin))
  have hfrom := hl.startOf_le_codeSize hsmall
    (show method.order.idxOf handle + 1 ≤ method.length from List.idxOf_lt_length_of_mem hmem)
  rw [hl.offsetOf_eq hin, hl.finish_eq hmem]
  have hsize : UInt32.size = 4294967296 := rfl
  apply Int.bmod_eq_of_le_mul_two
  · omega
  · omega

/-- A branch that leads anywhere keeps the distances to its targets. -/
theorem Laid.displacements_of_branch (hl : method.Laid) {handle : Handle}
    (hmem : handle ∈ method.order)
    (hbranch : ((method.get handle).isBranch && !(method.get handle).targets.isEmpty) = true) :
    (method.get handle).displacements = (method.get handle).distances method.offsetOf := by
  have haimed := hl.aimed handle hmem
  rw [aimed_of_branch _ _ hbranch] at haimed
  exact (congrArg Instruction.displacements haimed).symm

/-- The displacements of a laid out instruction are the distances to its targets. -/
theorem Laid.displacements_eq (hl : method.Laid) (hv : method.Valid) {handle : Handle}
    (hmem : handle ∈ method.order) :
    (method.get handle).displacements = (method.get handle).distances method.offsetOf := by
  by_cases hbranch : ((method.get handle).isBranch && !(method.get handle).targets.isEmpty) = true
  · exact hl.displacements_of_branch hmem hbranch
  · have hnil : (method.get handle).targets = [] := by
      cases hplain : (method.get handle).isBranch with
      | false => exact (hv.wellFormed handle).targets_eq_nil hplain
      | true => simpa [hplain] using hbranch
    rw [(hv.wellFormed handle).bare hnil, distances, hnil]
    rfl

/-- In a laid out method jump tables have the entries that they announce. -/
theorem Valid.tabled (hv : method.Valid) (hl : method.Laid) (handle : Handle) :
    (method.get handle).Tabled := by
  intro hswitch
  by_cases hmem : handle ∈ method.order
  · rw [hl.displacements_eq hv hmem, distances, List.length_map,
      (hv.wellFormed handle).counted hswitch, Int.toNat_natCast]
  · rw [hv.ordered.get_of_notMem hmem] at hswitch
    cases hswitch

/-- Offsets are stored as they are. -/
theorem Laid.toNat_storedOffset (hl : method.Laid) (hsmall : method.codeSize < 2 ^ 31)
    {handle : Handle} (hmem : handle ∈ method.order) :
    (method.storedOffset handle).toNat
      = startOf method.instructions (method.order.idxOf handle) := by
  have hle := hl.startOf_le_codeSize hsmall (Nat.le_of_lt (List.idxOf_lt_length_of_mem hmem))
  have hsize : UInt32.size = 4294967296 := rfl
  rw [storedOffset, hl.offsetOf_eq hmem]
  simp only [Int.toNat_natCast]
  rw [if_pos ⟨by omega, by omega⟩]
  exact UInt32.toNat_ofNat_of_lt' (by omega)

/-- The end of a range as a clause stores it, offset and length. -/
theorem Laid.toNat_add_length (hl : method.Laid) (hsmall : method.codeSize < 2 ^ 31)
    {first last : Handle} (hfirst : first ∈ method.order) (hlast : last ∈ method.order)
    (hle : method.order.idxOf first ≤ method.order.idxOf last) :
    (method.storedOffset first).toNat
        + (UInt32.ofNat ((method.storedOffset last).toNat - (method.storedOffset first).toNat)).toNat
      = startOf method.instructions (method.order.idxOf last) := by
  have hto := hl.startOf_le_codeSize hsmall (Nat.le_of_lt (List.idxOf_lt_length_of_mem hlast))
  have hmono := startOf_le_startOf method.instructions hle
  rw [hl.toNat_storedOffset hsmall hfirst, hl.toNat_storedOffset hsmall hlast,
    UInt32.toNat_ofNat_of_lt' (by change _ < 4294967296; omega)]
  omega

/-- The code that is written is laid out like the method. -/
theorem Valid.startOf_streamed (hv : method.Valid) (hl : method.Laid) (offset : Nat) :
    startOf (streamed offset method.encoded) = startOf method.encoded := by
  apply Instruction.startOf_streamed
  intro instruction hmem
  exact forall_mem_instructions (hv.tabled hl) instruction (List.mem_filter.mp hmem).1

/-- There is an encoded instruction for each handle that leaves bytes. -/
theorem Valid.length_encoded (method : Method) :
    method.encoded.length = method.handles.length := by
  rw [encoded_eq_map, List.length_map]

/-- At most one slot is behind the instructions. -/
theorem Valid.idxOf_le_length_handles (hv : method.Valid) {handle : Handle}
    (hmem : handle ∈ method.order) : method.order.idxOf handle ≤ method.handles.length := by
  have hlt : method.order.idxOf handle < method.length := List.idxOf_lt_length_of_mem hmem
  have hlength := hv.length_handles_le
  omega

/-- A handle starts where its position says, also the one behind the instructions. -/
theorem Valid.startOf_position (hv : method.Valid) (hl : method.Laid) {handle : Handle}
    (hmem : handle ∈ method.order) :
    startOf (streamed 0 method.encoded) (method.order.idxOf handle)
      = startOf method.instructions (method.order.idxOf handle) := by
  rw [hv.startOf_streamed hl, hv.startOf_encoded (hv.idxOf_le_length_handles hmem)]

/-- The clause of a region is bound to the region of positions. -/
theorem Valid.binds_toClause (hv : method.Valid) (hl : method.Laid)
    (hsmall : method.codeSize < 2 ^ 31) {region : Region} (hregion : region ∈ method.regions) :
    Region.Binds (streamed 0 method.encoded) (region.toClause method.storedOffset)
      (region.renamed method.order.idxOf) := by
  have hin {boundary : Handle × Bool} (hmem : boundary ∈ region.boundaries) :=
    hv.boundary_mem_order hregion hmem
  have hstart {boundary : Handle × Bool} (hmem : boundary ∈ region.boundaries) :
      startOf (streamed 0 method.encoded) (method.order.idxOf boundary.1)
        = (method.storedOffset boundary.1).toNat := by
    rw [hv.startOf_position hl (hin hmem), hl.toNat_storedOffset hsmall (hin hmem)]
  have htry := region.tryStart_mem
  have htryEnd := region.tryEnd_mem
  have hhandler := region.handlerStart_mem
  have hhandlerEnd := region.handlerEnd_mem
  have hkind : (region.toClause method.storedOffset).kind? = some region.kind :=
    Clause.Kind.ofFlags?_flags region.kind
  constructor
  · rw [Region.kind_renamed, hkind]
  · rw [Region.classToken?_renamed, Clause.classToken?, hkind]
    obtain ⟨_, _, _, _, handler⟩ := region
    cases handler <;> rfl
  · exact hstart htry
  · apply (hstart htryEnd).trans
    rw [hl.toNat_storedOffset hsmall (hin htryEnd)]
    exact (hl.toNat_add_length hsmall (hin htry) (hin htryEnd) (hv.tries region hregion)).symm
  · exact hstart hhandler
  · apply (hstart hhandlerEnd).trans
    rw [hl.toNat_storedOffset hsmall (hin hhandlerEnd)]
    exact (hl.toNat_add_length hsmall (hin hhandler) (hin hhandlerEnd)
      (hv.handlers region hregion)).symm
  · intro start hfilter
    obtain ⟨tryStart, tryEnd, handlerStart, handlerEnd, handler⟩ := region
    cases handler with
    | catching | finalizing | faulting => cases hfilter
    | filtering first =>
      cases hfilter
      exact hstart (Region.filterStart_mem rfl)
  · intro boundary hmem
    rw [Region.boundaries_renamed] at hmem
    obtain ⟨original, horiginal, rfl⟩ := List.mem_map.mp hmem
    rw [length_streamed, length_encoded]
    exact hv.idxOf_le_length_handles (hin horiginal)

/-- The handle of an encoded instruction is found at its position. -/
theorem Valid.handles_idxOf (hv : method.Valid) {handle : Handle} (hmem : handle ∈ method.handles) :
    method.handles[method.order.idxOf handle]? = some handle := by
  obtain ⟨horder, hreal⟩ := mem_handles.mp hmem
  exact hv.getElem?_handles.mpr ⟨getElem?_idxOf horder, hreal⟩

/-- The displacements of less than 2³¹ bytes of code are the distances to the targets. -/
theorem Laid.displacements_eq_map (hl : method.Laid) (hv : method.Valid)
    (hsmall : method.codeSize < 2 ^ 31) {handle : Handle} (hmem : handle ∈ method.order) :
    (method.get handle).displacements = (method.get handle).targets.map fun target =>
      method.offsetOf target - (method.get handle).finish := by
  rw [hl.displacements_eq hv hmem, hl.distances_eq hsmall hmem]
  exact fun target htarget => hv.targets_mem_order htarget

/-- Each distance leads to the position of its target. -/
theorem Valid.startOf_target (hv : method.Valid) (hl : method.Laid) {k : Nat} {handle target : Handle}
    (hk : method.handles[k]? = some handle) (htarget : target ∈ (method.get handle).targets) :
    (startOf (streamed 0 method.encoded) (method.order.idxOf target) : Int)
      = ((method.get handle).readAs (startOf method.encoded k)).finish
        + (method.offsetOf target - (method.get handle).finish) := by
  obtain ⟨horder, -⟩ := hv.getElem?_handles.mp hk
  have hto := hv.targets_mem_order htarget
  have hfinish : ((method.get handle).readAs (startOf method.encoded k)).finish
      = (method.get handle).finish := by
    have hoffset : (method.get handle).offset = _ := hl.offset horder
    have hle : k ≤ method.handles.length := Nat.le_of_lt (List.getElem?_eq_some_iff.mp hk).1
    show (startOf method.encoded k : Int) + _ = _
    rw [finish, hoffset, hv.startOf_encoded hle, (hv.tabled hl handle).size_readAs]
  rw [hfinish, hv.startOf_position hl hto, hl.offsetOf_eq hto]
  omega

/-- Each displacement leads to the position of its target. -/
theorem Recodable.lands (hr : method.Recodable) (hl : method.Laid)
    (hsmall : method.codeSize < 2 ^ 31) {k : Nat} {handle : Handle}
    (hk : method.handles[k]? = some handle) :
    List.Forall₂
      (((method.get handle).readAs (startOf method.encoded k)).LandsAt
        (streamed 0 method.encoded))
      (method.get handle).displacements
      ((method.get handle).targets.map method.order.idxOf) := by
  have hmem := List.mem_of_getElem? (hr.getElem?_handles.mp hk).1
  rw [hl.displacements_eq_map hr.toValid hsmall hmem, List.forall₂_map_left_iff,
    List.forall₂_map_right_iff, List.forall₂_same]
  intro target htarget
  refine ⟨hr.startOf_target hl hk htarget, ?_⟩
  rw [length_streamed, Valid.length_encoded]
  exact (List.getElem?_eq_some_iff.mp (hr.handles_idxOf
    (mem_handles.mpr ⟨hr.targets_mem_order htarget, hr.landing handle target htarget⟩))).1

/-- The regions of positions are admitted. -/
theorem Recodable.admits (hr : method.Recodable) :
    Admits method.handles.length false
      ((method.regions.map fun region => region.renamed method.order.idxOf).flatMap
        Region.boundaries) := by
  have hrenamed : (method.regions.map fun region => region.renamed method.order.idxOf).flatMap
        Region.boundaries
      = method.boundaries.map fun boundary => (method.order.idxOf boundary.1, boundary.2) := by
    rw [List.flatMap_map, boundaries, List.map_flatMap]
    congr 1
    funext region
    exact region.boundaries_renamed _
  apply Or.inr
  intro boundary hfind
  rw [hrenamed, List.find?_map] at hfind
  obtain ⟨original, hfirst, rfl⟩ := Option.map_eq_some_iff.mp hfind
  have hin : original.1 ∈ method.order :=
    (hr.ordered.mem_iff _).mpr (hr.boundaries original (List.mem_of_find?_eq_some hfirst))
  have hposition : method.order.idxOf original.1 = method.handles.length := by
    simpa using List.find?_some hfirst
  have hat := getElem?_idxOf hin
  -- the position behind the instructions is that of the label
  have hlabel : (method.get original.1).opcode = .label := by
    by_contra hreal
    have hlt := (List.getElem?_eq_some_iff.mp
      (hr.handles_idxOf (mem_handles.mpr ⟨hin, hreal⟩))).1
    omega
  apply hr.opened original.1 ((hr.ordered.mem_iff _).mp hin) hlabel original
  rw [← hfirst]
  apply List.find?_congr
  intro other hother
  have hin' : other.1 ∈ method.order := (hr.ordered.mem_iff _).mpr (hr.boundaries other hother)
  by_cases hsame : other.1 = original.1
  · simp [hsame, hposition]
  · have hne : method.order.idxOf other.1 ≠ method.handles.length := by
      intro heq
      have hat' := getElem?_idxOf hin'
      rw [heq, ← hposition, hat] at hat'
      exact hsame (Option.some.inj hat').symm
    simp [hsame, hne]

/-- An encoded method links to the positions of its handles. -/
theorem Recodable.linked (hr : method.Recodable) (hl : method.Laid)
    (hsmall : method.codeSize < 2 ^ 31) :
    Linked (streamed 0 method.encoded) method.clauses
      (method.regions.map fun region => region.renamed method.order.idxOf)
      (method.handles.map fun handle => (method.get handle).targets.map method.order.idxOf) where
  bound := by
    rw [clauses, List.forall₂_map_left_iff, List.forall₂_map_right_iff, List.forall₂_same]
    exact fun region hregion => hr.binds_toClause hl hsmall hregion
  opened := by
    rw [length_streamed, Valid.length_encoded]
    exact hr.admits
  landed := by
    have hlength := Valid.length_encoded method
    refine List.forall₂_iff_get.mpr ⟨by rw [length_streamed, hlength, List.length_map], ?_⟩
    intro k hk hk'
    have hlt : k < method.handles.length := by rwa [length_streamed, hlength] at hk
    have hhandle := List.getElem?_eq_getElem hlt
    have hread := getElem?_streamed_encoded hhandle
    rw [List.getElem?_eq_getElem hk] at hread
    simp only [List.get_eq_getElem, List.getElem_map, Option.some.inj hread]
    exact hr.lands hl hsmall hhandle

/-- The regions of a decoded method already go by positions. -/
theorem DecodedFrom.renamed_eq {raw : RawBody} {regions : List Region}
    {targets : List (List Handle)} (hd : method.DecodedFrom raw regions targets) {region : Region}
    (hmem : region ∈ regions) : region.renamed method.order.idxOf = region := by
  apply region.renamed_eq_self
  intro boundary hboundary
  rw [hd.method_eq]
  exact hd.linked.position raw.header hmem hboundary

end Method

end CilCoverage
