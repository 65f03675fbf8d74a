import CilCoverage.Proofs.Method.Fitting

/-!
# How many regions an encoded method keeps

All regions are encoded as clauses of one section, whose head has three bytes for its size. Only a
size that does not fit four bytes is refused, so that more than `Section.capacity` regions can be
written under a size that is too small, and only the first clauses are read back
(`Fit.body_of_write`, `write_regions`).
-/

set_option autoImplicit false

namespace CilCoverage

open Instruction Writer

/-- Of two positions, the next multiple of four can be in reverse order only if it is the same. -/
theorem add_padding_eq_of_le {position behind : Nat} (hle : position ≤ behind)
    (hroom : behind + padding 4 behind ≤ position + padding 4 position) :
    position + padding 4 position = behind + padding 4 behind := by
  have hfour : 0 < 4 := by decide
  have hone := add_padding_mod hfour position
  have htwo := add_padding_mod hfour behind
  have hgap := padding_lt hfour position
  omega

namespace Method

variable {method : Method}

/-- The jump tables of a method that is laid out are as long as its operands say. -/
theorem Fit.tabled (hf : method.Fit) (hl : method.Laid) (handle : Handle) :
    (method.get handle).Tabled := by
  intro hswitch
  have hfit := hf.instructions handle
  rw [hfit.counted hswitch, Int.toNat_natCast]
  by_cases hnil : (method.get handle).targets = []
  · rw [hfit.bare hnil, hnil]
    rfl
  · have hmem : handle ∈ method.order := by
      by_contra hout
      rw [hf.toOrdered.get_of_notMem hout] at hswitch
      cases hswitch
    have hbranch : ((method.get handle).isBranch && !(method.get handle).targets.isEmpty) = true := by
      rw [isBranch, hswitch]
      simpa using ⟨by decide, hnil⟩
    rw [hl.displacements_of_branch hmem hbranch, distances, List.length_map]

/-- If the method fits its buffer, then the section of its regions starts where the code size in the
header puts it, and nothing of the buffer is left over. -/
theorem Fit.length_written_eq (hf : method.Fit) (hl : method.Laid)
    (hroom : method.written.length ≤ method.encodedSize) :
    method.codeSize ≤ (method.encoded.flatMap bytes).length
      ∧ (method.regions ≠ [] →
        Header.fatSize + method.codeSize + padding 4 (Header.fatSize + method.codeSize)
          = Header.fatSize + (method.encoded.flatMap bytes).length
            + padding 4 (Header.fatSize + (method.encoded.flatMap bytes).length))
      ∧ method.written.length = method.encodedSize := by
  have hcode := length_bytes_of_tabled (hf.tabled hl)
  have hsize := hl.codeSize_min
  have hle : method.codeSize ≤ (method.encoded.flatMap bytes).length := by omega
  rw [length_written, encodedSize] at *
  refine ⟨hle, ?_⟩
  by_cases hempty : method.regions.isEmpty = true
  · rw [if_pos hempty, if_pos hempty] at *
    exact ⟨fun hne => absurd (List.isEmpty_iff.mp hempty) hne, by omega⟩
  · rw [if_neg hempty, if_neg hempty] at *
    have hsame := add_padding_eq_of_le (Nat.add_le_add_left hle Header.fatSize) (by omega)
    exact ⟨fun _ => hsame, by omega⟩

/-- A buffer that the method fits is filled with the method and nothing else. -/
theorem Fit.write_eq_written (hf : method.Fit) (hl : method.Laid) (hfit : method.RegionsFit)
    (hroom : method.written.length ≤ method.encodedSize) {buffer : List UInt8}
    (hbuffer : buffer.length = method.encodedSize) : method.write buffer = .ok method.written := by
  have hlength := (hf.length_written_eq hl hroom).2.2
  rw [write_eq hfit hbuffer, if_pos hroom, List.drop_eq_nil_of_le (by rw [hbuffer, hlength]),
    List.append_nil]

/-- A filled buffer holds the method and nothing else. -/
theorem Fit.eq_written_of_write (hf : method.Fit) (hl : method.Laid) {buffer data : List UInt8}
    (hwrite : method.write buffer = .ok data) : data = method.written := by
  obtain ⟨hfit, hroom, -⟩ := write_eq_ok hwrite
  rw [hf.write_eq_written hl hfit hroom (length_of_write hwrite)] at hwrite
  exact (Except.ok.inj hwrite).symm

/-- What the buffer held before it was filled makes no difference. -/
theorem Fit.toBytes_of_write (hf : method.Fit) (hl : method.Laid) {buffer data : List UInt8}
    (hwrite : method.write buffer = .ok data) :
    method.toBytes = .ok data ∧ data.length = method.encodedSize := by
  obtain ⟨hfit, hroom, -⟩ := write_eq_ok hwrite
  rw [hf.eq_written_of_write hl hwrite]
  exact ⟨hf.write_eq_written hl hfit hroom List.length_replicate,
    (hf.length_written_eq hl hroom).2.2⟩

/-- What is read back are the clauses that the stored size of the section counts. -/
theorem Fit.body_of_write (hf : method.Fit) (hl : method.Laid) {buffer data : List UInt8}
    (hwrite : method.write buffer = .ok data) :
    Body.read data = .ok
      { header := method.header.written method.header.codeSize (!method.regions.isEmpty)
        clauses := method.clauses.take (Section.storedCount method.regions.length) } := by
  obtain ⟨hle, hstart, -⟩ := hf.length_written_eq hl (write_eq_ok hwrite).2.1
  have hsame (hne : method.clauses ≠ []) := hstart fun hnil => hne (by rw [clauses, hnil, List.map_nil])
  have hread := Body.read_written_stored method.header hle hsame
  rw [hf.eq_written_of_write hl hwrite, written, hread, isEmpty_clauses, length_clauses]

/-- The first four bytes of the section, at the first multiple of four behind the code. -/
theorem Fit.readAt_section (hf : method.Fit) (hl : method.Laid) {buffer data : List UInt8}
    (hwrite : method.write buffer = .ok data) (hregions : method.regions ≠ []) :
    Primitive.u32.readAt data
        (Header.fatSize + method.codeSize + padding 4 (Header.fatSize + method.codeSize))
      = .ok (Section.storedSize method.regions.length * 256 + Section.emittedKind : Nat) := by
  obtain ⟨-, hstart, -⟩ := hf.length_written_eq hl (write_eq_ok hwrite).2.1
  have hfront : (method.header.bytes method.header.codeSize (!method.clauses.isEmpty)
      ++ method.encoded.flatMap bytes).length
        = Header.fatSize + (method.encoded.flatMap bytes).length := by
    rw [List.length_append, Header.length_bytes]
  have hbehind := Section.drop_start (method.header.bytes method.header.codeSize
    (!method.clauses.isEmpty) ++ method.encoded.flatMap bytes) method.clauses
  have hempty : method.clauses.isEmpty = false := by
    rw [isEmpty_clauses]
    simpa using hregions
  rw [hf.eq_written_of_write hl hwrite, hstart hregions, written, Body.written, hempty,
    if_neg Bool.false_ne_true]
  rw [hfront, hempty, length_clauses] at hbehind
  rw [← Section.toNat_word]
  exact Primitive.readAt_of_drop hbehind (Primitive.holds_u32 _)

/-- An offset of the layout that fits a clause is stored in it. -/
theorem Laid.storedOffset_eq (hl : method.Laid) {handle : Handle} (hmem : handle ∈ method.order)
    (hsmall : method.offsetOf handle < UInt32.size) :
    ((method.storedOffset handle).toNat : Int) = method.offsetOf handle := by
  have hoffset := hl.offsetOf_eq hmem
  have hsize : UInt32.size = 4294967296 := rfl
  rw [storedOffset, if_pos ⟨by omega, hsmall⟩, UInt32.toNat_ofNat_of_lt' (by omega)]
  omega

end Method

/-- A buffer that was filled with a method that is laid out holds its regions as the clauses of one
section, with the offsets of the layout, under the low three bytes of the size of the section: as
many of the clauses are read back as that size counts. The size is that of all clauses, and all are
read back, exactly if there are at most `Section.capacity` regions. Only more regions than the size
of a section can count in four bytes are refused. -/
theorem write_regions {method : Method} (hf : method.Fit) (hl : method.Laid) (buffer : List UInt8) :
    (∀ data, method.write buffer = .ok data →
        (method.regions ≠ [] → Primitive.u32.readAt data (Header.fatSize + method.codeSize
              + padding 4 (Header.fatSize + method.codeSize))
            = .ok (Section.storedSize method.regions.length * 256 + Section.emittedKind : Nat))
        ∧ Body.read data = .ok
            { header := method.header.written method.header.codeSize (!method.regions.isEmpty)
              clauses := method.clauses.take (Section.storedCount method.regions.length) }
        ∧ ∀ handle ∈ method.order, method.offsetOf handle < UInt32.size →
            ((method.storedOffset handle).toNat : Int) = method.offsetOf handle)
      ∧ (Section.storedSize method.regions.length = Section.fatSize method.regions.length
          ↔ method.regions.length ≤ Section.capacity)
      ∧ (method.clauses.take (Section.storedCount method.regions.length) = method.clauses
          ↔ method.regions.length ≤ Section.capacity)
      ∧ (¬ method.RegionsFit → ∀ data, method.write buffer ≠ .ok data) := by
  refine ⟨fun data hwrite => ⟨hf.readAt_section hl hwrite, hf.body_of_write hl hwrite,
    fun handle => hl.storedOffset_eq⟩, Section.storedSize_eq_iff, ?_, ?_⟩
  · rw [← Section.storedCount_eq_iff, List.take_eq_self_iff, Method.length_clauses]
    have hle := Section.storedCount_le method.regions.length
    omega
  · intro hmany data hwrite
    exact hmany (Method.write_eq_ok hwrite).1

/-- A region that protects the first instruction and has the second one as its handler. -/
def firstGuarded : Region :=
  { tryStart := 0, tryEnd := 1, handlerStart := 1, handlerEnd := 2, handler := .finalizing }

/-- Three instructions of one byte, and the same region the given number of times. -/
def crowded (count : Nat) : Method where
  header := { shape := .fat, size := 12, codeSize := 3, maxStack := 8, locals := ⟨0⟩,
              initLocals := false, moreSections := true }
  slots := #[{ opcode := .nop, operand := 0, offset := 0, origin := some 0, targets := [],
               displacements := [] },
    { opcode := .nop, operand := 0, offset := 1, origin := some 1, targets := [],
      displacements := [] },
    { opcode := .ret, operand := 0, offset := 2, origin := some 2, targets := [],
      displacements := [] }]
  order := [0, 1, 2]
  regions := List.replicate count firstGuarded

namespace crowded

variable (count : Nat)

/-- A crowded method has as many regions as asked for. -/
theorem length_regions : (crowded count).regions.length = count := List.length_replicate

/-- Behind the three instructions there is nothing. -/
theorem get_eq_label {handle : Handle} (hle : 3 ≤ handle) :
    (crowded count).get handle = label (-1) := by
  rw [Method.get, Method.get?, Array.getElem?_eq_none (by exact hle)]
  rfl

/-- The instructions of a crowded method are well-formed. -/
theorem wellFormed (handle : Handle) : ((crowded count).get handle).WellFormed := by
  by_cases hlt : handle < 3
  · have hplain : ∀ handle < 3, ((crowded 0).get handle).WellFormed := by
      intro handle hlt
      interval_cases handle <;> exact ⟨nofun, fun _ => rfl, rfl, fun _ => rfl⟩
    exact hplain handle hlt
  · rw [get_eq_label count (Nat.le_of_not_lt hlt)]
    exact wellFormed_label _

/-- The instructions of a crowded method do not branch. -/
theorem targets_eq_nil (handle : Handle) : ((crowded count).get handle).targets = [] := by
  by_cases hlt : handle < 3
  · have hnone : ∀ handle < 3, ((crowded 0).get handle).targets = [] := by decide
    exact hnone handle hlt
  · rw [get_eq_label count (Nat.le_of_not_lt hlt)]
    rfl

/-- The three instructions stand in the order of their handles. -/
theorem getElem?_order {k handle : Nat} (hk : (crowded count).order[k]? = some handle) :
    k < 3 ∧ handle = k := by
  have hsame : (crowded count).order = List.range 3 := rfl
  rw [hsame, List.getElem?_eq_some_iff] at hk
  obtain ⟨hlt, heq⟩ := hk
  rw [List.getElem_range] at heq
  exact ⟨by rwa [List.length_range] at hlt, heq.symm⟩

/-- A crowded method is valid. -/
theorem valid : (crowded count).Valid where
  ordered := ⟨show [0, 1, 2].Nodup by decide, fun _ => List.mem_range (n := 3)⟩
  wellFormed := wellFormed count
  targets := fun handle target hmem => by
    rw [targets_eq_nil] at hmem
    cases hmem
  boundaries := by
    intro boundary hmem
    obtain ⟨region, hregion, hboundary⟩ := List.mem_flatMap.mp hmem
    rw [List.eq_of_mem_replicate hregion] at hboundary
    have hinside : ∀ boundary ∈ firstGuarded.boundaries, boundary.1 < 3 := by decide
    exact hinside boundary hboundary
  tries := by
    intro region hregion
    rw [List.eq_of_mem_replicate hregion]
    exact show [0, 1, 2].idxOf 0 ≤ [0, 1, 2].idxOf 1 by decide
  handlers := by
    intro region hregion
    rw [List.eq_of_mem_replicate hregion]
    exact show [0, 1, 2].idxOf 1 ≤ [0, 1, 2].idxOf 2 by decide
  ending := by
    intro k handle hk hlabel
    obtain ⟨hlt, rfl⟩ := getElem?_order count hk
    have hreal : ∀ handle < 3, ((crowded 0).get handle).opcode ≠ .label := by decide
    exact absurd hlabel (hreal handle hlt)

/-- A crowded method is laid out. -/
theorem laid : (crowded count).Laid where
  offset := by
    intro k handle hk
    obtain ⟨hlt, rfl⟩ := getElem?_order count hk
    have hoffset : ∀ handle < 3,
        (crowded 0).offsetOf handle = startOf (crowded 0).instructions handle := by decide
    exact hoffset handle hlt
  aimed := by
    intro handle _
    rw [aimed_of_not_branch _ _ (by simp [targets_eq_nil])]
  codeSize := rfl

/-- The method is written if the size of its section fits four bytes. -/
theorem write_eq (hfit : (crowded count).RegionsFit) :
    (crowded count).write (List.replicate (crowded count).encodedSize 0)
      = .ok (crowded count).written :=
  (valid count).toBytes_eq (laid count) (show 3 < 2 ^ 31 by decide) hfit

end crowded

/-- Two regions are written and read back. -/
theorem write_regions_crowded :
    ∃ data, (crowded 2).write (List.replicate (crowded 2).encodedSize 0) = .ok data
      ∧ Body.read data = .ok
          { header := (crowded 2).header.written 3 true, clauses := (crowded 2).clauses } := by
  have hwrite := crowded.write_eq 2 (by decide)
  obtain ⟨hdata, -, hall, -⟩ := write_regions (crowded.valid 2).fit (crowded.laid 2)
    (List.replicate (crowded 2).encodedSize 0)
  obtain ⟨-, hread, -⟩ := hdata _ hwrite
  rw [hall.mpr (by decide)] at hread
  exact ⟨_, hwrite, hread⟩

/-- Of one region more than the section has room for, none is read back: the stored size is that of
the head of the section. -/
theorem crowded_loses_regions :
    ∃ data, (crowded 699051).write (List.replicate (crowded 699051).encodedSize 0) = .ok data
      ∧ (crowded 699051).regions.length = 699051 ∧ Section.storedSize 699051 = 12
      ∧ Body.read data = .ok { header := (crowded 699051).header.written 3 true, clauses := [] } := by
  have hcount := crowded.length_regions 699051
  have hfit : (crowded 699051).RegionsFit := by
    rw [Method.RegionsFit, hcount]
    decide
  have hread := (crowded.valid 699051).fit.body_of_write (crowded.laid 699051)
    (crowded.write_eq 699051 hfit)
  have hnone : Section.storedCount 699051 = 0 := by decide
  have hsome : (crowded 699051).regions.isEmpty = false := by
    rw [← Bool.not_eq_true, List.isEmpty_iff_length_eq_zero, hcount]
    decide
  rw [hcount, hnone, hsome] at hread
  exact ⟨_, crowded.write_eq 699051 hfit, hcount, by decide, hread⟩

end CilCoverage
