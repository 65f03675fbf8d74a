import CilCoverage.Body.Section
import CilCoverage.Proofs.Bytes.Transfer

/-!
# Bodies read back

A body written in the fat shape reads back as the header, the code and the clauses it was made of.
The only limit is the size of the section of exception clauses, which has three bytes: `capacity` is
the number of clauses that fit. A larger section keeps the low three bytes of its size, so that only
its first `storedCount` clauses are read back. The main statements are `run_read_written` for the
header and `readSections_emitted` for the section; `Body.read_written` puts them together.
-/

set_option autoImplicit false

namespace CilCoverage

open Reader Writer

namespace Header

/-- The header that is read back once this one has been written. -/
def written (header : Header) (codeSize : UInt32) (moreSections : Bool) : Header :=
  { header with shape := .fat, size := fatSize, codeSize, moreSections }

/-- The first field of a written header: twelve bytes in the upper four bits, then the flags. -/
def word (initLocals moreSections : Bool) : UInt16 :=
  0x3003 + (if moreSections then 8 else 0) + if initLocals then 16 else 0

/-- What the header is written as. -/
def bytes (header : Header) (codeSize : UInt32) (moreSections : Bool) : List UInt8 :=
  Primitive.u16.encode (word header.initLocals moreSections).toNat
    ++ (Primitive.u16.encode header.maxStack.toNat
      ++ (Primitive.u32.encode codeSize.toNat ++ Primitive.u32.encode header.locals.value.toNat))

/-- A fat header is written to twelve bytes. -/
theorem length_bytes (header : Header) (codeSize : UInt32) (moreSections : Bool) :
    (header.bytes codeSize moreSections).length = fatSize := by
  simp only [bytes, List.length_append, Primitive.length_encode]
  rfl

/-- The first word of a header holds the flags and its size in units of four bytes. -/
theorem toNat_word (header : Header) (codeSize : UInt32) (moreSections : Bool) :
    (word header.initLocals moreSections).toNat
      = fatSize / 4 * sizeUnit + (header.written codeSize moreSections).flagBits := by
  unfold flagBits written
  cases header.initLocals <;> cases moreSections <;> rfl

/-- The first byte of the word has the bits of the fat shape. -/
theorem encode_word (initLocals moreSections : Bool) :
    ∃ low high : UInt8, Primitive.u16.encode (word initLocals moreSections).toNat = [low, high]
      ∧ low.toNat % 4 = 3 := by
  cases initLocals <;> cases moreSections <;> exact ⟨_, _, rfl, rfl⟩

/-- Size, initialisation and the mark of further sections can be told from that word. -/
theorem word_fields (initLocals moreSections : Bool) :
    (word initLocals moreSections).toNat / sizeUnit * 4 = fatSize
      ∧ (word initLocals moreSections).toNat.testBit 4 = initLocals
      ∧ (word initLocals moreSections).toNat.testBit 3 = moreSections := by
  revert initLocals moreSections
  decide

/-- Writing a header fills in its bytes. -/
theorem fills_write (header : Header) (codeSize : UInt32) (moreSections : Bool)
    (position : Nat) :
    Fills position (header.write codeSize moreSections) (header.bytes codeSize moreSections) := by
  rw [bytes, toNat_word header codeSize moreSections]
  exact (Writer.fills_write _ .u16 _).bind ((Writer.fills_write _ .u16 _).bind
    ((Writer.fills_write _ .u32 _).bind (Writer.fills_write _ .u32 _)))

/-- A cursor at the start of a written header can be moved behind it. -/
theorem covers_bytes (header : Header) (codeSize : UInt32) (moreSections : Bool)
    (rest : List UInt8) :
    Reader.Covers { data := header.bytes codeSize moreSections ++ rest }
      (header.bytes codeSize moreSections)
      { data := header.bytes codeSize moreSections ++ rest, position := fatSize } := by
  refine ⟨⟨rest, rfl⟩, ?_⟩
  rw [moveTo_eq, length_bytes, Nat.zero_add]

/-- The fields of a header that was written are read back. -/
theorem run_readFat_written (header : Header) (codeSize : UInt32) (moreSections : Bool)
    (rest : List UInt8) :
    Reader.run { data := header.bytes codeSize moreSections ++ rest } readFat
      = (.ok (header.written codeSize moreSections),
          { data := header.bytes codeSize moreSections ++ rest, position := fatSize }) := by
  obtain ⟨first, hword, hcov⟩ := (header.covers_bytes codeSize moreSections rest).split
  obtain ⟨second, hstack, hcov⟩ := hcov.split
  obtain ⟨third, hcode, hlocals⟩ := hcov.split
  obtain ⟨hsize, hinit, hmore⟩ := word_fields header.initLocals moreSections
  refine run_bind_eq_ok.mpr ⟨_, _, reads_readWord16 _ _ _ hword, ?_⟩
  rw [hsize, if_neg (Nat.lt_irrefl _), hinit, hmore]
  refine run_bind_eq_ok.mpr ⟨_, _, reads_readWord16 _ _ _ hstack, ?_⟩
  refine run_bind_eq_ok.mpr ⟨_, _, reads_readWord32 _ _ _ hcode, ?_⟩
  refine run_bind_eq_ok.mpr ⟨_, _, reads_readWord32 _ _ _ hlocals, ?_⟩
  have hroom : Reader.reaches
      { data := header.bytes codeSize moreSections ++ rest, position := fatSize } fatSize := by
    rw [reaches_iff, Reader.length, List.length_append, length_bytes]
    exact Nat.le_add_right _ _
  exact run_bind_eq_ok.mpr ⟨(), _, run_step_eq_ok.mpr (if_pos hroom), by rw [moveTo_eq]; rfl⟩

/-- A header that was written is read back as the fat header with the same fields. -/
theorem run_read_written (header : Header) (codeSize : UInt32) (moreSections : Bool)
    (rest : List UInt8) :
    (Reader.start (header.bytes codeSize moreSections ++ rest)).run read
      = (.ok (header.written codeSize moreSections),
          { data := header.bytes codeSize moreSections ++ rest, position := fatSize }) := by
  obtain ⟨low, high, hencode, hshape⟩ := encode_word header.initLocals moreSections
  have hdata : header.bytes codeSize moreSections ++ rest = low :: high ::
      (Primitive.u16.encode header.maxStack.toNat ++ (Primitive.u32.encode codeSize.toNat
        ++ Primitive.u32.encode header.locals.value.toNat)) ++ rest := by
    rw [bytes, hencode]
    rfl
  have hlow : Reader.Covers { data := header.bytes codeSize moreSections ++ rest }
      (Primitive.u8.encode low.toNat)
      { data := header.bytes codeSize moreSections ++ rest, position := 1 } := by
    rw [Primitive.encode_u8]
    exact ⟨⟨_, hdata⟩, by rw [moveTo_eq]; rfl⟩
  have hpeek := hlow.run_peek (Primitive.holds_u8 low)
  refine run_bind_eq_ok.mpr ⟨_, _, rfl, ?_⟩
  rw [if_neg (by simp [Reader.isEmpty, hdata])]
  refine run_bind_eq_ok.mpr ⟨_, _, hpeek, ?_⟩
  simp only [Int.toNat_natCast, hshape]
  exact header.run_readFat_written codeSize moreSections rest

end Header

namespace Clause

/-- What the clause is written as. -/
def bytes (clause : Clause) : List UInt8 :=
  Primitive.u32.encode clause.flags.toNat
    ++ (Primitive.u32.encode clause.tryOffset.toNat
      ++ (Primitive.u32.encode clause.tryLength.toNat
        ++ (Primitive.u32.encode clause.handlerOffset.toNat
          ++ (Primitive.u32.encode clause.handlerLength.toNat
            ++ Primitive.u32.encode clause.classOrFilter.toNat))))

/-- A clause is written to the bytes of the fat layout. -/
theorem length_bytes (clause : Clause) : clause.bytes.length = fatSize := by
  simp only [bytes, List.length_append, Primitive.length_encode]
  rfl

/-- Writing a clause fills in its bytes. -/
theorem fills_write (clause : Clause) (position : Nat) :
    Fills position clause.write clause.bytes :=
  (Writer.fills_write _ .u32 _).bind ((Writer.fills_write _ .u32 _).bind
    ((Writer.fills_write _ .u32 _).bind ((Writer.fills_write _ .u32 _).bind
      ((Writer.fills_write _ .u32 _).bind (Writer.fills_write _ .u32 _)))))

/-- A clause that was written is read back. -/
theorem reads_bytes (clause : Clause) : Reads readFat clause.bytes clause := by
  have hflags : clause.flags.toUInt32.toNat = clause.flags.toNat := UInt16.toNat_toUInt32 _
  have hlt := clause.flags.toNat_lt
  rw [bytes, ← hflags]
  apply (reads_readWord32 _).bind
  rw [if_neg (by rw [hflags]; exact Nat.not_le.mpr hlt)]
  refine (reads_readWord32 _).bind ((reads_readWord32 _).bind ((reads_readWord32 _).bind
    ((reads_readWord32 _).bind ?_)))
  rw [UInt16.toUInt16_toUInt32]
  exact (reads_readWord32 clause.classOrFilter).map _

end Clause

namespace Section

/-- Number of clauses whose section still has a size of three bytes. -/
def capacity : Nat := (0xFFFFFF - headSize) / Clause.fatSize

/-- The first four bytes of the section that `count` clauses are written to. -/
def word (count : Nat) : UInt32 := UInt32.ofNat (fatSize count * 256 + emittedKind)

/-- What three bytes keep of the size of the section of `count` clauses. -/
def storedSize (count : Nat) : Nat := fatSize count % 0x1000000

/-- Number of clauses that a section of the stored size has room for. -/
def storedCount (count : Nat) : Nat := (storedSize count - headSize) / Clause.fatSize

/-- The first word of a section holds its kind and what is left of its size. -/
theorem toNat_word (count : Nat) : (word count).toNat = storedSize count * 256 + emittedKind := by
  rw [word, UInt32.toNat_ofNat']
  show ((4 + count * 24) * 256 + 0x41) % 4294967296 = (4 + count * 24) % 16777216 * 256 + 0x41
  omega

/-- Every section leaves at least the size of its head, since eight divides all of
`Clause.fatSize` and the number of sizes. -/
theorem headSize_le_storedSize (count : Nat) : headSize ≤ storedSize count := by
  show 4 ≤ (4 + count * 24) % 16777216
  omega

/-- No more than the size is stored. -/
theorem storedSize_le (count : Nat) : storedSize count ≤ fatSize count := Nat.mod_le _ _

/-- The size is stored completely for as many clauses as the capacity. -/
theorem storedSize_eq_iff {count : Nat} : storedSize count = fatSize count ↔ count ≤ capacity := by
  show (4 + count * 24) % 16777216 = 4 + count * 24 ↔ count ≤ 699050
  omega

/-- No more clauses are counted than were written. -/
theorem storedCount_le (count : Nat) : storedCount count ≤ count := by
  show ((4 + count * 24) % 16777216 - 4) / 24 ≤ count
  omega

/-- All clauses are counted if there are no more than the capacity. -/
theorem storedCount_eq_iff {count : Nat} : storedCount count = count ↔ count ≤ capacity := by
  show ((4 + count * 24) % 16777216 - 4) / 24 = count ↔ count ≤ 699050
  omega

/-- The bytes of a section in the fat layout that lies behind `position` bytes. -/
def bytes (position : Nat) (clauses : List Clause) : List UInt8 :=
  List.replicate (padding 4 position) 0
    ++ (Primitive.u32.encode (word clauses.length).toNat ++ clauses.flatMap Clause.bytes)

/-- The clauses of a section take the same number of bytes each. -/
theorem length_flatMap_bytes (clauses : List Clause) :
    (clauses.flatMap Clause.bytes).length = clauses.length * Clause.fatSize := by
  induction clauses with
  | nil => rfl
  | cons clause rest ih =>
    rw [List.flatMap_cons, List.length_append, ih, Clause.length_bytes, List.length_cons,
      Nat.succ_mul, Nat.add_comm]

/-- A section takes its padding, its head and its clauses. -/
theorem length_bytes (position : Nat) (clauses : List Clause) :
    (bytes position clauses).length = padding 4 position + fatSize clauses.length := by
  simp only [bytes, List.length_append, List.length_replicate, Primitive.length_encode,
    length_flatMap_bytes]
  rfl

/-- The kind of a section is in its first byte. -/
theorem encode_word (count : Nat) :
    ∃ tail, Primitive.u32.encode (word count).toNat = 0x41 :: tail := by
  have hlt := (word count).toNat_lt
  have hvalue : (((word count).toNat : Int) % (Primitive.u32.modulus : Int)).toNat
      = (word count).toNat := by
    show (((word count).toNat : Int) % 4294967296).toNat = _
    omega
  have hlow : (word count).toNat % 256 = 0x41 := by
    rw [toNat_word, Nat.mul_add_mod']
    rfl
  rw [Primitive.encode_eq, hvalue]
  exact ⟨_, by rw [Primitive.width, LittleEndian.encode, hlow]; rfl⟩

/-- Behind the padding comes the head of the section and then its clauses. -/
theorem drop_start (front : List UInt8) (clauses : List Clause) :
    (front ++ bytes front.length clauses).drop (front.length + padding 4 front.length)
      = Primitive.u32.encode (word clauses.length).toNat ++ clauses.flatMap Clause.bytes := by
  rw [← List.drop_drop, List.drop_left, bytes]
  exact List.drop_left' List.length_replicate

/-- Reading the head of an emitted section stops the cursor behind its four bytes. The padding
before it may be read as part of what comes before. -/
theorem run_readHead_emitted {front : List UInt8} (clauses : List Clause) {position : Nat}
    (hposition : position + padding 4 position = front.length + padding 4 front.length) :
    Reader.run { data := front ++ bytes front.length clauses, position } readHead
      = (.ok { start := front.length + padding 4 front.length, size := storedSize clauses.length,
               isFat := true, holdsClauses := true, hasNext := false },
          { data := front ++ bytes front.length clauses,
            position := front.length + padding 4 front.length + 4 }) := by
  have hlen := length_bytes front.length clauses
  have hfat : fatSize clauses.length = 4 + clauses.length * 24 := rfl
  have htotal : (front ++ bytes front.length clauses).length
      = front.length + (padding 4 front.length + fatSize clauses.length) := by
    rw [List.length_append, hlen]
  have hstored := storedSize_le clauses.length
  obtain ⟨tail, htail⟩ := encode_word clauses.length
  have hbehind := drop_start front clauses
  generalize front ++ bytes front.length clauses = data at *
  generalize hstart : front.length + padding 4 front.length = start at *
  have hkind : Reader.Covers { data, position := start } [0x41]
      { data, position := start + 1 } :=
    ⟨⟨_, by rw [hbehind, htail]; rfl⟩, by rw [moveTo_eq]; rfl⟩
  have hword : Reader.Covers { data, position := start }
      (Primitive.u32.encode (word clauses.length).toNat) { data, position := start + 4 } :=
    ⟨⟨_, hbehind⟩, by rw [moveTo_eq, Primitive.length_encode]; rfl⟩
  have haligned : Reader.reaches { data, position } start := by
    rw [reaches_iff]
    show start ≤ data.length
    omega
  refine run_bind_eq_ok.mpr ⟨(), { data, position := start }, run_step_eq_ok.mpr ?_, ?_⟩
  · simp only [hposition, moveTo_eq]
    exact if_pos haligned
  refine run_bind_eq_ok.mpr ⟨_, _, rfl, ?_⟩
  refine run_bind_eq_ok.mpr ⟨_, _, reads_readByte _ _ _ hkind, ?_⟩
  -- the size is read with the byte before it, so the cursor steps back first
  have hsize : Reader.run { data, position := start + 1 } (readSize true)
      = (.ok (storedSize clauses.length), { data, position := start + 4 }) := by
    refine run_bind_eq_ok.mpr ⟨(), { data, position := start }, run_step_eq_ok.mpr ?_, ?_⟩
    · have htarget : ((start + 1 : Nat) : Int) + -1 = start := by omega
      simp only [htarget, Int.toNat_natCast, moveTo_eq, reaches_iff, Reader.length]
      exact if_pos ⟨by omega, by omega⟩
    · refine run_bind_eq_ok.mpr ⟨_, _, reads_readWord32 _ _ _ hword, ?_⟩
      rw [toNat_word, emittedKind]
      have hquot : (storedSize clauses.length * 256 + 0x41) / 256 = storedSize clauses.length := by
        omega
      rw [hquot]
      rfl
  refine run_bind_eq_ok.mpr ⟨_, _, hsize, ?_⟩
  refine run_ofExcept_eq_ok.mpr ⟨?_, rfl⟩
  have hroom : ¬ storedSize clauses.length < headSize :=
    Nat.not_lt.mpr (headSize_le_storedSize _)
  have hinside : Reader.reaches { data, position := start }
      (start + storedSize clauses.length) := by
    rw [reaches_iff]
    show start + storedSize clauses.length ≤ data.length
    omega
  unfold validated
  rw [if_neg hroom]
  exact if_pos hinside

/-- The clauses of an emitted section are read back as far as its stored size counts them. -/
theorem readSections_emitted {front : List UInt8} (clauses : List Clause) {position : Nat}
    (hposition : position + padding 4 position = front.length + padding 4 front.length) :
    readSections { data := front ++ bytes front.length clauses, position }
      = .ok (clauses.take (storedCount clauses.length)) := by
  have hhead := run_readHead_emitted clauses hposition
  have hcount : (clauses.take (storedCount clauses.length)).length
      = storedCount clauses.length := by
    rw [List.length_take, Nat.min_eq_left (storedCount_le _)]
  have hclauses : Reader.Reads (readClauses
      { start := front.length + padding 4 front.length, size := storedSize clauses.length,
        isFat := true, holdsClauses := true, hasNext := false })
      ((clauses.take (storedCount clauses.length)).flatMap Clause.bytes)
      (clauses.take (storedCount clauses.length)) := by
    have hread := reads_repeated (clauses.take (storedCount clauses.length))
      fun clause _ => clause.reads_bytes
    rw [hcount] at hread
    exact hread
  have hbehind : (front ++ bytes front.length clauses).drop
      (front.length + padding 4 front.length + 4)
        = (clauses.take (storedCount clauses.length)).flatMap Clause.bytes
          ++ (clauses.drop (storedCount clauses.length)).flatMap Clause.bytes := by
    rw [← List.flatMap_append, List.take_append_drop, ← List.drop_drop, drop_start]
    exact List.drop_left' (Primitive.length_encode _ _)
  rw [readSections]
  split
  · rename_i cause inside heq
    rw [hhead] at heq
    cases heq
  · rename_i head inside heq
    rw [hhead] at heq
    cases heq
    rw [hclauses _ _ ⟨⟨_, hbehind⟩, rfl⟩]
    rfl

end Section

namespace Body

/-- The bytes of a body in the fat shape: header, code and, if there are clauses, one section. -/
def written (header : Header) (codeSize : UInt32) (code : List UInt8) (clauses : List Clause) :
    List UInt8 :=
  header.bytes codeSize (!clauses.isEmpty) ++ code
    ++ if clauses.isEmpty then [] else Section.bytes (Header.fatSize + code.length) clauses

/-- A body that starts with a written header is read with that header, whatever follows. -/
theorem header_of_read {header : Header} {codeSize : UInt32} {moreSections : Bool}
    {rest : List UInt8} {body : Body}
    (hread : read (header.bytes codeSize moreSections ++ rest) = .ok body) :
    body.header = header.written codeSize moreSections := by
  rw [read, header.run_read_written codeSize moreSections rest] at hread
  dsimp only at hread
  split at hread
  · cases hread
  · split at hread
    · generalize readSections _ = sections at hread
      cases sections with
      | error cause => cases hread
      | ok clauses =>
        cases hread
        rfl
    · cases hread
      rfl

/-- A written body reads back as its header and the clauses that the size of its section counts.
The header may say less than all of the code if the section still starts at the same multiple of
four. -/
theorem read_written_stored (header : Header) {codeSize : UInt32} {code : List UInt8}
    {clauses : List Clause} (hcode : codeSize.toNat ≤ code.length)
    (hstart : clauses ≠ [] → Header.fatSize + codeSize.toNat
        + padding 4 (Header.fatSize + codeSize.toNat)
      = Header.fatSize + code.length + padding 4 (Header.fatSize + code.length)) :
    read (written header codeSize code clauses)
      = .ok { header := header.written codeSize (!clauses.isEmpty),
              clauses := clauses.take (Section.storedCount clauses.length) } := by
  have hlen := header.length_bytes codeSize (!clauses.isEmpty)
  have hread := header.run_read_written codeSize (!clauses.isEmpty)
    (code ++ if clauses.isEmpty then [] else Section.bytes (Header.fatSize + code.length) clauses)
  rw [← List.append_assoc] at hread
  change (Reader.start (written header codeSize code clauses)).run Header.read = _ at hread
  have hroom : ¬ (written header codeSize code clauses).length
      < (header.written codeSize (!clauses.isEmpty)).size
        + (header.written codeSize (!clauses.isEmpty)).codeSize.toNat := by
    show ¬ _ < Header.fatSize + codeSize.toNat
    rw [written, List.length_append, List.length_append, hlen]
    omega
  rw [read, hread]
  simp only
  rw [if_neg hroom]
  cases clauses with
  | nil => rfl
  | cons clause rest =>
    have hfront : (header.bytes codeSize true ++ code).length
        = Header.fatSize + code.length := by
      rw [List.length_append, header.length_bytes codeSize true]
    have hsections := Section.readSections_emitted (clause :: rest)
      (hfront ▸ hstart (List.cons_ne_nil _ _))
    rw [hfront] at hsections
    have hmore : (header.written codeSize (!(clause :: rest).isEmpty)).moreSections = true := rfl
    rw [if_pos hmore, moveTo_eq]
    exact congrArg (Except.map _) hsections

/-- A written body reads back as its header, code and clauses. -/
theorem read_written (header : Header) {codeSize : UInt32} {code : List UInt8}
    {clauses : List Clause} (hcode : code.length = codeSize.toNat)
    (hcount : clauses.length ≤ Section.capacity) :
    read (written header codeSize code clauses)
      = .ok { header := header.written codeSize (!clauses.isEmpty), clauses } := by
  have hread := @read_written_stored header codeSize code clauses (Nat.le_of_eq hcode.symm)
    fun _ => by rw [hcode]
  rwa [Section.storedCount_eq_iff.mpr hcount, List.take_length] at hread

/-- The code of a body that was written is the code that it was written with. -/
theorem code_written (header : Header) {codeSize : UInt32} {code : List UInt8}
    {clauses : List Clause} (hcode : code.length = codeSize.toNat) :
    Body.code { header := header.written codeSize (!clauses.isEmpty), clauses }
      (written header codeSize code clauses) = .ok code := by
  have hlen := header.length_bytes codeSize (!clauses.isEmpty)
  have hroom : (header.written codeSize (!clauses.isEmpty)).size
        + (header.written codeSize (!clauses.isEmpty)).codeSize.toNat
      ≤ (written header codeSize code clauses).length := by
    show Header.fatSize + codeSize.toNat ≤ _
    rw [written, List.length_append, List.length_append, hlen, hcode]
    omega
  rw [Body.code, if_pos hroom]
  apply congrArg Except.ok
  show List.take codeSize.toNat
    (List.drop Header.fatSize (written header codeSize code clauses)) = code
  rw [written, List.append_assoc, List.drop_left' hlen, List.take_left' hcode]

end Body

end CilCoverage
