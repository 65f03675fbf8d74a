import CilCoverage.Proofs.Coverage.Representation
import CilCoverage.Proofs.Method.Capacity

/-!
# Filling a buffer

The size of the encoded method is a formula in the code size and the number of regions; its bytes
come from the encoders of its parts: the header, each instruction, and the padding and the section
of the regions (`Method.parts`). A writer that runs through the parts fills just as many bytes as
the formula says (`Fit.length_parts`), so that a buffer of the right size is filled to its end with
nothing of its former contents left (`Fit.fill_eq_parts`, `changeAll_fill`).
-/

set_option autoImplicit false

namespace CilCoverage

open Instruction Writer

/-- The section of the clauses without the padding before it. -/
def Section.unpadded (clauses : List Clause) : List UInt8 :=
  Primitive.u32.encode (Section.word clauses.length).toNat ++ clauses.flatMap Clause.bytes

/-- Without its padding a section takes its head and its clauses. -/
theorem Section.length_unpadded (clauses : List Clause) :
    (Section.unpadded clauses).length = Section.fatSize clauses.length := by
  rw [unpadded, List.length_append, Primitive.length_encode, length_flatMap_bytes]
  rfl

namespace Method

/-- The parts of the encoded method in the order of their bytes: the header, the instructions, and
if there are regions the padding and the section. -/
def parts (method : Method) : List (List UInt8) :=
  method.header.bytes method.header.codeSize (!method.regions.isEmpty)
    :: (method.instructions.map Instruction.bytes
      ++ if method.regions.isEmpty then []
        else [List.replicate (padding 4 (Header.fatSize + method.codeSize)) 0,
          Section.unpadded method.clauses])

/-- The sizes of the parts. -/
def partSizes (method : Method) : List Nat :=
  Header.fatSize
    :: (method.instructions.map Instruction.size
      ++ if method.regions.isEmpty then []
        else [padding 4 (Header.fatSize + method.codeSize), Section.fatSize method.regions.length])

variable {method : Method}

/-- Every part takes the bytes that its size counts. -/
theorem length_parts (htabled : ∀ handle, (method.get handle).Tabled) :
    method.parts.map List.length = method.partSizes := by
  have hcode : (method.instructions.map Instruction.bytes).map List.length
      = method.instructions.map Instruction.size := by
    rw [List.map_map]
    apply List.map_congr_left
    intro instruction hmem
    obtain ⟨handle, -, rfl⟩ := List.mem_map.mp hmem
    exact (htabled handle).length_bytes
  rw [parts, partSizes, List.map_cons, List.map_append, hcode, Header.length_bytes]
  split
  · rfl
  · rw [List.map_cons, List.map_singleton, List.length_replicate, Section.length_unpadded,
      length_clauses]

/-- The formula adds the sizes of the parts up. -/
theorem sum_partSizes (hcode : method.codeSize = (method.instructions.map Instruction.size).sum) :
    method.partSizes.sum = method.encodedSize := by
  rw [partSizes, encodedSize, List.sum_cons, List.sum_append, ← hcode]
  split
  · rfl
  · rw [List.sum_cons, List.sum_singleton]
    omega

/-- The parts are what is written. -/
theorem flatten_parts
    (hcode : (method.encoded.flatMap bytes).length = method.codeSize) :
    method.parts.flatten = method.written := by
  rw [parts, written, Body.written, isEmpty_clauses, hcode, flatMap_bytes_encoded,
    List.flatten_cons, List.flatten_append, ← List.flatMap_def, ← List.append_assoc]
  split
  · rfl
  · rw [List.flatten_cons, List.flatten_singleton]
    rfl

/-- What is left of a buffer that was filled with a method. -/
theorem fill_eq_of_length_eq (hfit : method.RegionsFit) {buffer : List UInt8}
    (hroom : method.written.length = method.encodedSize)
    (hbuffer : buffer.length = method.encodedSize) :
    method.fill buffer = (.ok (), method.written) := by
  have hall : method.written.length = buffer.length := hroom.trans hbuffer.symm
  obtain ⟨last, hrun, hlast⟩ := (fills_emit hfit).emits.run_ofBuffer (Nat.le_of_eq hall)
  rw [List.drop_eq_nil_of_le (Nat.le_of_eq hall.symm), List.append_nil] at hlast
  rw [fill, if_pos hbuffer, hrun, ← hlast]

/-- A buffer of another size is refused and stays as it is. -/
theorem fill_eq_of_length_ne {buffer : List UInt8} (hbuffer : buffer.length ≠ method.encodedSize) :
    method.fill buffer
      = (.error (.malformed (.bufferSize buffer.length method.encodedSize)), buffer) :=
  if_neg hbuffer

/-- A method that is laid out takes as many bytes as its size says, part by part, and fills every
buffer of that size with its parts. -/
theorem Fit.fill_eq_parts (hf : method.Fit) (hl : method.Laid) (hsmall : method.codeSize < 2 ^ 31)
    (hfit : method.RegionsFit) :
    method.parts.map List.length = method.partSizes ∧ method.partSizes.sum = method.encodedSize
      ∧ ∀ buffer : List UInt8, buffer.length = method.encodedSize →
        method.fill buffer = (.ok (), method.parts.flatten) := by
  have htabled := hf.tabled hl
  have hbytes := (length_bytes_of_tabled htabled).trans (hl.codeSize_eq hsmall).symm
  have hsizes := length_parts htabled
  have hcode : method.codeSize = (method.instructions.map Instruction.size).sum := by
    rw [hl.codeSize_eq hsmall, ← startOf_length, Method.instructions, List.length_map]
    rfl
  have htotal := sum_partSizes hcode
  have hwritten := flatten_parts hbytes
  have hroom : method.written.length = method.encodedSize := by
    rw [← hwritten, List.length_flatten, hsizes, htotal]
  refine ⟨hsizes, htotal, fun buffer hbuffer => ?_⟩
  rw [fill_eq_of_length_eq hfit hroom hbuffer, hwritten]

end Method

/-- However a decoded method was changed, if its code has less than 2³¹ bytes and a section has room
for its regions, then the header, the instructions and, if there are regions, the zeros up to a
multiple of four and the section follow each other from the start to the end of every buffer of the
encoded size, and each takes the number of bytes that is counted for it. A buffer of another size is
refused and stays as it is. -/
theorem changeAll_fill {data : List UInt8} {original method : Method} {changes : List Change}
    (hdecode : Method.decode data = .ok original) (hcounted : ∀ change ∈ changes, change.Counted)
    (hchanges : original.changeAll changes = .ok method) (hsmall : method.codeSize < 2 ^ 31)
    (hregions : method.regions.length ≤ Section.capacity) :
    method.parts.map List.length = method.partSizes
      ∧ method.partSizes.sum = method.encodedSize
      ∧ (∀ buffer : List UInt8, buffer.length = method.encodedSize →
          method.fill buffer = (.ok (), method.parts.flatten))
      ∧ ∀ buffer : List UInt8, buffer.length ≠ method.encodedSize →
          method.fill buffer
            = (.error (.malformed (.bufferSize buffer.length method.encodedSize)), buffer) := by
  obtain ⟨raw, regions, targets, -, hd⟩ := Method.decode_spec hdecode
  have hkept := hd.kept.changeAll hcounted hchanges
  obtain ⟨hsizes, htotal, hfill⟩ :=
    hkept.fit.fill_eq_parts hkept.laid hsmall (Method.regionsFit_of_le_capacity hregions)
  exact ⟨hsizes, htotal, hfill, fun buffer => Method.fill_eq_of_length_ne⟩

/-- Two buffers with different contents end up the same. -/
theorem changeAll_fill_guardedLoop :
    ∃ original method, Method.decode guardedLoop = .ok original
      ∧ original.changeAll mixedChanges = .ok method ∧ method.encodedSize = 128
      ∧ method.fill (List.replicate 128 0xFF) = (.ok (), method.parts.flatten)
      ∧ method.fill (List.replicate 128 0) = (.ok (), method.parts.flatten)
      ∧ method.fill [7] = (.error (.malformed (.bufferSize 1 128)), [7]) := by
  have hrun : ((Method.decode guardedLoop).bind fun original =>
      (original.changeAll mixedChanges).bind fun method =>
        .ok (method.codeSize, method.regions.length, method.encodedSize))
      = .ok (87, 1, 128) := by decide +kernel
  obtain ⟨original, hdecode, hrest⟩ := bind_eq_ok_iff.mp hrun
  obtain ⟨method, hchanges, hsizes⟩ := bind_eq_ok_iff.mp hrest
  obtain ⟨hcode, hsizes⟩ := Prod.mk.inj (Except.ok.inj hsizes)
  obtain ⟨hregions, hsize⟩ := Prod.mk.inj hsizes
  have hsmall : method.codeSize < 2 ^ 31 := by
    rw [hcode]
    decide
  have hroom : method.regions.length ≤ Section.capacity := by
    rw [hregions]
    decide
  obtain ⟨-, -, hfill, hrefused⟩ := changeAll_fill hdecode (by decide) hchanges hsmall hroom
  have hlength (byte : UInt8) : (List.replicate 128 byte).length = method.encodedSize := by
    rw [List.length_replicate, hsize]
  have hone := hrefused [7] (by rw [hsize]; decide)
  rw [hsize] at hone
  exact ⟨original, method, hdecode, hchanges, hsize, hfill _ (hlength 0xFF), hfill _ (hlength 0),
    hone⟩

end CilCoverage
