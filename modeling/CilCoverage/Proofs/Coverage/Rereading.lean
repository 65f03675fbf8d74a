import CilCoverage.Proofs.Coverage.Readback
import CilCoverage.Proofs.Method.Preservation

/-!
# Instructions that are read back

If the bytes of a method are decoded then the instructions that come out are those that went in,
under their positions, and their branches lead to the positions of their targets. This needs no
bound on the size of the code. A displacement that had to be cut to 32 bits leads out of the code,
so a body with one is not decoded (`Recodable.links_eq`), and all that can be missing is what the
header cannot tell.

`Method.Reread` says so, instruction by instruction.
-/

set_option autoImplicit false

namespace CilCoverage

open Instruction

namespace Method

variable {method decoded : Method} {buffer data unused : List UInt8} {raw : RawBody}

/-- The second method has the first `count` instructions of the first one under their positions, and
behind them at most a label. -/
structure Reread (method decoded : Method) (count : Nat) : Prop where
  count_le : count ≤ method.handles.length
  codeSize : startOf method.instructions count = method.codeSize
  order : ∃ total, count ≤ total ∧ decoded.order = List.range total
  origin : ∀ k, (decoded.get k).origin
    = if k < count then some (startOf method.instructions k) else none
  label : ∀ {k : Nat}, count ≤ k → (decoded.get k).opcode = .label
  opcode : ∀ {k : Nat} {handle : Handle}, k < count → method.order[k]? = some handle →
    (decoded.get k).opcode = (method.get handle).opcode
  operand : ∀ {k : Nat} {handle : Handle}, k < count → method.order[k]? = some handle →
    ((method.get handle).isBranch && !(method.get handle).targets.isEmpty) = false →
      (decoded.get k).operand = (method.get handle).operand
  targets : ∀ {k : Nat} {handle : Handle}, k < count → method.order[k]? = some handle →
    (decoded.get k).targets = (method.get handle).targets.map method.order.idxOf

/-- What was read again stands at its positions. -/
theorem Reread.getElem?_order {count : Nat} (hread : method.Reread decoded count) {k : Nat}
    (hlt : k < count) : decoded.order[k]? = some k := by
  obtain ⟨total, hle, horder⟩ := hread.order
  rw [horder]
  exact List.getElem?_range (Nat.lt_of_lt_of_le hlt hle)

/-- At a position stands nothing but what was read there. -/
theorem Reread.eq_of_getElem?_order {count : Nat} (hread : method.Reread decoded count)
    {k : Nat} {handle : Handle} (hat : decoded.order[k]? = some handle) : handle = k := by
  obtain ⟨total, -, horder⟩ := hread.order
  rw [horder, List.getElem?_eq_some_iff] at hat
  obtain ⟨-, rfl⟩ := hat
  exact List.getElem_range _

/-- Code that was written is no longer than the largest code size and one byte. -/
theorem Valid.total_le_of_write (hv : method.Valid) (hl : method.Laid)
    (hwrite : method.write buffer = .ok data) :
    startOf method.instructions method.length ≤ UInt32.size := by
  have hlong := startOf_le_of_write hv hl hwrite
  have hsize := hl.codeSize_min
  have hmax : UInt32.size = 4294967296 := rfl
  omega

/-- Instructions that are not the label take up room. -/
theorem Valid.startOf_lt_startOf (hv : method.Valid) (hl : method.Laid)
    (htotal : startOf method.instructions method.length ≤ UInt32.size) {i j : Nat} (hij : i < j)
    (hj : j ≤ method.handles.length) :
    startOf method.instructions i < startOf method.instructions j := by
  have henc := hv.encodable_of_total hl htotal
  rw [← hv.startOf_encoded (Nat.le_trans (Nat.le_of_lt hij) hj), ← hv.startOf_encoded hj]
  refine Instruction.startOf_lt_startOf (fun instruction hmem => (henc instruction hmem).size_pos)
    hij ?_
  rwa [Valid.length_encoded]

/-- What is read tells the size of the code as it was written. -/
theorem codeSize_of_read (hread : RawBody.read (method.written ++ unused) = .ok raw) :
    raw.header.codeSize = method.header.codeSize := by
  rw [header_of_read hread]
  rfl

/-- A distance that was cut to 32 bits leads to where it was measured to, if it leads anywhere. -/
theorem eq_of_lands {start goal finish distance : Int}
    (hlands : start = finish + Int.bmod distance UInt32.size) (hdistance : goal = finish + distance)
    (hstart : 0 ≤ start ∧ start < UInt32.size) (hgoal : 0 ≤ goal ∧ goal < UInt32.size) :
    start = goal := by
  have hsize : (UInt32.size : Int) = 4294967296 := rfl
  rw [hsize] at hstart hgoal
  rw [show UInt32.size = 4294967296 from rfl, Int.bmod_def] at hlands
  split at hlands <;> omega

/-- The branches of an instruction that is read back lead to the positions of its targets. -/
theorem Recodable.links_eq (hr : method.Recodable) (hl : method.Laid)
    (htotal : startOf method.instructions method.length ≤ UInt32.size) {cut : List Instruction}
    (hstreamed : streamed 0 method.encoded = raw.instructions ++ cut) {k : Nat} {handle : Handle}
    (hk : method.handles[k]? = some handle) {links : List Handle}
    (hlanded : List.Forall₂
      (((method.get handle).readAs (startOf method.encoded k)).LandsAt raw.instructions)
      (method.get handle).displacements links) :
    links = (method.get handle).targets.map method.order.idxOf := by
  have hmem := (mem_handles.mp (List.mem_of_getElem? hk)).1
  have henc := hr.toValid.encodable_of_total hl htotal
  have hpos : ∀ instruction ∈ streamed 0 method.encoded, 0 < instruction.size :=
    (streamed_streamed henc).size_pos
  have hlength : (streamed 0 method.encoded).length = method.handles.length := by
    rw [length_streamed, Valid.length_encoded]
  have hlast : startOf (streamed 0 method.encoded) (streamed 0 method.encoded).length
      ≤ UInt32.size := by
    rw [hr.toValid.startOf_streamed hl, length_streamed, startOf_encoded_length]
    exact htotal
  -- whatever starts at an instruction starts below 2³²
  have hbelow {j : Nat} (hj : j < (streamed 0 method.encoded).length) :
      startOf (streamed 0 method.encoded) j < UInt32.size :=
    Nat.lt_of_lt_of_le (startOf_lt_startOf hpos hj (Nat.le_refl _)) hlast
  have hraw : raw.instructions.length ≤ (streamed 0 method.encoded).length := by
    rw [hstreamed, List.length_append]
    exact Nat.le_add_right _ _
  rw [hl.displacements_eq hr.toValid hmem, distances, List.forall₂_map_left_iff] at hlanded
  rw [← List.forall₂_eq_eq_eq, List.forall₂_map_right_iff]
  refine (List.forall₂_iff_get.mpr ⟨hlanded.length_eq, fun j hj hj' => ?_⟩).flip
  obtain ⟨hlands, hlt⟩ := (List.forall₂_iff_get.mp hlanded).2 j hj hj'
  have htarget : (method.get handle).targets.get ⟨j, hj⟩ ∈ (method.get handle).targets :=
    List.get_mem _ _
  generalize (method.get handle).targets.get ⟨j, hj⟩ = target at hlands htarget
  generalize links.get ⟨j, hj'⟩ = link at hlands hlt
  have hin : target ∈ method.handles :=
    mem_handles.mpr ⟨hr.targets_mem_order htarget, hr.landing handle target htarget⟩
  have hposition : method.order.idxOf target < (streamed 0 method.encoded).length := by
    rw [hlength]
    exact (List.getElem?_eq_some_iff.mp (hr.handles_idxOf hin)).1
  have hdistance := hr.startOf_target hl hk htarget
  have hlink : link < (streamed 0 method.encoded).length := Nat.lt_of_lt_of_le hlt hraw
  rw [← startOf_append_left (Nat.le_of_lt hlt) (b := cut), ← hstreamed] at hlands
  have hsame : (startOf (streamed 0 method.encoded) link : Int)
      = startOf (streamed 0 method.encoded) (method.order.idxOf target) := by
    have hstart := hbelow hlink
    have hgoal := hbelow hposition
    exact eq_of_lands hlands hdistance ⟨by omega, by omega⟩ ⟨by omega, by omega⟩
  exact startOf_inj hpos (Nat.le_of_lt hlink) (Nat.le_of_lt hposition) (Int.ofNat.inj hsame)

/-- The instruction at a position of what was read is the one at this position of the method. -/
theorem Recodable.getElem?_of_streamed (hr : method.Recodable) {cut : List Instruction}
    (hstreamed : streamed 0 method.encoded = raw.instructions ++ cut) {k : Nat} {handle : Handle}
    (hlt : k < raw.instructions.length) (hat : method.order[k]? = some handle) :
    method.handles[k]? = some handle
      ∧ raw.instructions[k]?
        = some ((method.get handle).readAs (startOf method.encoded k)) := by
  have hcount : k < method.handles.length := by
    rw [← Valid.length_encoded, ← length_streamed 0 method.encoded, hstreamed, List.length_append]
    exact Nat.lt_add_right _ hlt
  have hsome := List.getElem?_eq_getElem hcount
  obtain ⟨hsame, -⟩ := hr.getElem?_handles.mp hsome
  rw [hat, Option.some.injEq] at hsame
  rw [← hsame] at hsome
  refine ⟨hsome, ?_⟩
  have hstream := getElem?_streamed_encoded hsome
  rwa [hstreamed, List.getElem?_append_left hlt] at hstream

/-- What the instruction at a position becomes when it is read back. -/
theorem Recodable.exists_get_of_streamed (hr : method.Recodable) (hl : method.Laid)
    (htotal : startOf method.instructions method.length ≤ UInt32.size) {cut : List Instruction}
    (hstreamed : streamed 0 method.encoded = raw.instructions ++ cut) {regions : List Region}
    {targets : List (List Handle)} (hd : decoded.DecodedFrom raw regions targets) {k : Nat}
    {handle : Handle} (hlt : k < raw.instructions.length)
    (hat : method.order[k]? = some handle) :
    ∃ (links : List Handle) (offset : Int),
      links = (method.get handle).targets.map method.order.idxOf
        ∧ decoded.get k
          = ((((method.get handle).readAs (startOf method.encoded k)).linked links).movedTo
              offset).aimed decoded.offsetOf := by
  obtain ⟨hhandle, hinstruction⟩ := hr.getElem?_of_streamed hstreamed hlt hat
  obtain ⟨links, offset, -, hlanded, hget⟩ := hd.get_eq hinstruction
  exact ⟨links, offset, hr.links_eq hl htotal hstreamed hhandle hlanded, hget⟩

/-- Decoding the bytes of a method gives its instructions back. -/
theorem Recodable.exists_reread (hr : method.Recodable) (hl : method.Laid)
    (hwrite : method.write buffer = .ok data) (hdecode : decode data = .ok decoded) :
    ∃ count, method.Reread decoded count := by
  obtain ⟨raw, regions, targets, hread, hd⟩ := decode_spec hdecode
  obtain ⟨cut, hstreamed, -⟩ := hr.toValid.exists_streamed hl hwrite hread
  have htotal := hr.toValid.total_le_of_write hl hwrite
  obtain ⟨-, -, unused, rfl⟩ := write_eq_ok hwrite
  have hcount : raw.instructions.length ≤ method.handles.length := by
    rw [← Valid.length_encoded, ← length_streamed 0 method.encoded, hstreamed, List.length_append]
    exact Nat.le_add_right _ _
  -- instructions that were read start where those of the method do
  have hstart {k : Nat} (hk : k ≤ raw.instructions.length) :
      startOf raw.instructions k = startOf method.instructions k := by
    rw [← startOf_append_left hk (b := cut), ← hstreamed, hr.toValid.startOf_streamed hl,
      hr.startOf_encoded (Nat.le_trans hk hcount)]
  have hslots := Streamed.size_readSlots raw.instructions (needsLabel raw.instructions regions)
  have hinstruction {k : Nat} {handle : Handle} (hlt : k < raw.instructions.length)
      (hat : method.order[k]? = some handle) :=
    hr.exists_get_of_streamed hl htotal hstreamed hd hlt hat
  have hopcode {k : Nat} {handle : Handle} (hlt : k < raw.instructions.length)
      (hat : method.order[k]? = some handle) :
      (decoded.get k).opcode = (method.get handle).opcode := by
    obtain ⟨links, offset, -, hget⟩ := hinstruction hlt hat
    rw [hget, opcode_aimed]
    exact Opcode.widened_of_ne (hr.wellFormed handle).long
  have htargets {k : Nat} {handle : Handle} (hlt : k < raw.instructions.length)
      (hat : method.order[k]? = some handle) :
      (decoded.get k).targets = (method.get handle).targets.map method.order.idxOf := by
    obtain ⟨links, offset, rfl, hget⟩ := hinstruction hlt hat
    rw [hget, targets_aimed]
    rfl
  refine ⟨raw.instructions.length, hcount, ?_, ?_, ?_, ?_, hopcode, ?_, htargets⟩
  · rw [← hstart (Nat.le_refl _), ← hd.codeSize, codeSize_of_read hread]
    rfl
  · exact ⟨_, by omega, hd.order_eq⟩
  · intro k
    rw [hd.origin_eq]
    split
    · rename_i hlt
      rw [hstart (Nat.le_of_lt hlt)]
    · rfl
  · intro k hle
    by_contra hreal
    exact absurd ((hd.opcode_ne_label_iff k).mp hreal) (Nat.not_lt.mpr hle)
  · intro k handle hlt hat hplain
    obtain ⟨links, offset, -, hget⟩ := hinstruction hlt hat
    have hkept : ((decoded.get k).isBranch && !(decoded.get k).targets.isEmpty) = false := by
      rwa [isBranch, hopcode hlt hat, htargets hlt hat, List.isEmpty_map]
    rw [hget, isBranch, opcode_aimed, targets_aimed] at hkept
    rw [hget, aimed_of_not_branch _ _ (Bool.not_eq_true _ ▸ hkept)]
    exact operand_linked links (hr.wellFormed handle).long

end Method

end CilCoverage
