import CilCoverage.Bytes.Reader
import CilCoverage.Bytes.Writer
import Mathlib

/-!
# Writing and reading are inverse

`Writer.Fills` says which bytes a program leaves in its buffer, and that it fails if they do not
fit; `Reader.Covers` says which bytes lie between two positions of a cursor. A program that reads
back what another one emitted satisfies `Reader.Reads` for the same bytes; both predicates are
closed under sequencing, so that the law for a record of many fields is assembled from those of the
ten primitive types (`fills_write`, `reads_read`). The converse law `covers_of_read` says that a
value that was read determines its bytes.
-/

set_option autoImplicit false

namespace CilCoverage

namespace LittleEndian

/-- There is at least one number of every width. -/
theorem modulus_pos (width : Nat) : 0 < modulus width := by
  induction width with
  | zero => exact Nat.one_pos
  | succ width ih =>
    simp only [modulus]
    omega

end LittleEndian

namespace Primitive

/-- Whether a value is one of those that the type can store. -/
def Holds (type : Primitive) (value : Int) : Prop :=
  if type.isSigned then -(type.modulus : Int) ≤ value * 2 ∧ value * 2 < type.modulus
  else 0 ≤ value ∧ value < type.modulus

instance (type : Primitive) (value : Int) : Decidable (type.Holds value) := by
  unfold Holds
  exact inferInstance

/-- Every type has values. -/
theorem modulus_pos (type : Primitive) : 0 < type.modulus := LittleEndian.modulus_pos _

/-- A value of the type is read back from its encoding. -/
theorem decode_encode {type : Primitive} {value : Int} (hv : type.Holds value) :
    type.decode (type.encode value) = value := by
  have hpos := type.modulus_pos
  have hnonneg : 0 ≤ value % (type.modulus : Int) := Int.emod_nonneg _ (by omega)
  have hlt : value % (type.modulus : Int) < type.modulus := Int.emod_lt_of_pos _ (by omega)
  have hbytes : (LittleEndian.decode (type.encode value) : Int) = value % (type.modulus : Int) := by
    rw [encode_eq, LittleEndian.decode_encode]
    show (((value % (type.modulus : Int)).toNat % type.modulus : Nat) : Int) = _
    rw [Nat.mod_eq_of_lt (by omega)]
    omega
  unfold decode ofStored Holds at *
  rw [hbytes]
  split at hv
  · rename_i hsigned
    rw [if_pos hsigned, Int.emod_bmod]
    exact Int.bmod_eq_of_le_mul_two hv.1 hv.2
  · rename_i hunsigned
    rw [if_neg hunsigned]
    exact Int.emod_eq_of_lt hv.1 hv.2

/-- A number that is reduced to the width of a signed type can be stored as one. -/
theorem holds_bmod (type : Primitive) (hsigned : type.isSigned = true) (value : Int) :
    type.Holds (Int.bmod value type.modulus) := by
  have heven : 2 ∣ type.modulus := by cases type <;> decide
  have hlo := Int.le_bmod (x := value) type.modulus_pos
  have hhi := Int.bmod_lt (x := value) type.modulus_pos
  rw [Holds, if_pos hsigned]
  omega

/-- What bytes of the right width stand for is a value of the type. -/
theorem holds_decode {type : Primitive} {bytes : List UInt8} (hlen : bytes.length = type.width) :
    type.Holds (type.decode bytes) := by
  have hlt : LittleEndian.decode bytes < type.modulus := by
    rw [modulus, ← hlen]
    exact LittleEndian.decode_lt bytes
  unfold decode ofStored
  split
  · rename_i hsigned
    exact holds_bmod type hsigned _
  · rename_i hunsigned
    rw [Holds, if_neg hunsigned]
    omega

/-- Bytes of the right width are the encoding of what they stand for. -/
theorem encode_decode {type : Primitive} {bytes : List UInt8} (hlen : bytes.length = type.width) :
    type.encode (type.decode bytes) = bytes := by
  have hlt : LittleEndian.decode bytes < type.modulus := by
    rw [modulus, ← hlen]
    exact LittleEndian.decode_lt bytes
  have hmod : type.decode bytes % (type.modulus : Int) = LittleEndian.decode bytes := by
    unfold decode ofStored
    split
    · rw [Int.bmod_emod]
      exact Int.emod_eq_of_lt (by omega) (by omega)
    · exact Int.emod_eq_of_lt (by omega) (by omega)
  rw [encode_eq, hmod, Int.toNat_natCast, ← hlen]
  exact LittleEndian.encode_decode bytes

/-- A byte is a value of the type of bytes. -/
theorem holds_u8 (byte : UInt8) : u8.Holds byte.toNat := by
  have := byte.toNat_lt
  exact ⟨by omega, by change (byte.toNat : Int) < 256; omega⟩

/-- A byte is encoded as itself. -/
theorem encode_u8 (byte : UInt8) : u8.encode byte.toNat = [byte] := by
  have hlt := byte.toNat_lt
  have hmod : ((byte.toNat : Int) % (u8.modulus : Int)).toNat = byte.toNat := by
    show ((byte.toNat : Int) % 256).toNat = _
    omega
  rw [encode_eq, hmod]
  show [UInt8.ofNat (byte.toNat % 256)] = [byte]
  rw [Nat.mod_eq_of_lt hlt, UInt8.ofNat_toNat]

/-- A word of two bytes is a value of its type. -/
theorem holds_u16 (word : UInt16) : u16.Holds word.toNat := by
  have := word.toNat_lt
  exact ⟨by omega, by change (word.toNat : Int) < 65536; omega⟩

/-- A word of four bytes is a value of its type. -/
theorem holds_u32 (word : UInt32) : u32.Holds word.toNat := by
  have := word.toNat_lt
  exact ⟨by omega, by change (word.toNat : Int) < 4294967296; omega⟩

/-- A value is read where it was written. -/
theorem readAt_of_drop {type : Primitive} {data rest : List UInt8} {position : Nat} {value : Int}
    (hbehind : data.drop position = type.encode value ++ rest) (hv : type.Holds value) :
    type.readAt data position = .ok value := by
  have hroom : type.width ≤ (data.drop position).length := by
    rw [hbehind]
    simp
  have hbytes : (type.encode value ++ rest).take type.width = type.encode value :=
    List.take_left' (length_encode type value)
  rw [readAt, LittleEndian.decodeFirst?_eq, if_pos hroom, hbehind, hbytes]
  exact congrArg Except.ok (decode_encode hv)

end Primitive

namespace Writer

/-- The program started at `position` fills the given bytes, whenever there is room for them. -/
def Emits (position : Nat) (program : Emit Unit) (bytes : List UInt8) : Prop :=
  ∀ writer : Writer, writer.position = position → bytes.length ≤ writer.rest.length →
    writer.run program = (.ok (),
      { filled := bytes.reverse ++ writer.filled, rest := writer.rest.drop bytes.length })

/-- The program fills the given bytes and fails if and only if there is no room for them. -/
structure Fills (position : Nat) (program : Emit Unit) (bytes : List UInt8) : Prop where
  emits : Emits position program bytes
  overruns : ∀ writer : Writer, writer.position = position → writer.rest.length < bytes.length →
    (writer.run program).1 = .error .outOfBounds

/-- A program without steps fills in nothing. -/
theorem fills_pure (position : Nat) : Fills position (pure ()) [] where
  emits := by
    intro writer _ _
    simp
  overruns := fun _ _ hshort => absurd hshort (Nat.not_lt_zero _)

/-- A step that overwrites fills in the bytes that it overwrites with. -/
theorem fills_overwrite {position : Nat} {action : Writer → Except Error Writer}
    {bytes : List UInt8}
    (ha : ∀ writer : Writer, writer.position = position → action writer = writer.overwrite bytes) :
    Fills position (step action) bytes where
  emits := by
    intro writer hpos hroom
    rw [run_step, ha writer hpos, overwrite_eq, if_pos hroom]
  overruns := by
    intro writer hpos hshort
    rw [run_step, ha writer hpos, overwrite_eq, if_neg (Nat.not_le.mpr hshort)]

/-- Writing a value fills in its encoding. -/
theorem fills_write (position : Nat) (type : Primitive) (value : Int) :
    Fills position (write type value) (type.encode value) :=
  fills_overwrite fun _ _ => rfl

/-- Aligning fills in the padding. -/
theorem fills_align (position boundary : Nat) :
    Fills position (align boundary) (List.replicate (padding boundary position) 0) := by
  rw [align_eq]
  exact fills_overwrite fun writer hpos => by rw [hpos]

/-- Two programs fill in their bytes one behind the other. -/
theorem Fills.bind {position : Nat} {first second : Emit Unit} {a b : List UInt8}
    (hfirst : Fills position first a) (hsecond : Fills (position + a.length) second b) :
    Fills position (first >>= fun _ => second) (a ++ b) := by
  -- behind the first program, the writer has moved by its bytes
  have hmoved (writer : Writer) (hpos : writer.position = position)
      (hroom : a.length ≤ writer.rest.length) :
      writer.run (first >>= fun _ => second) = Writer.run
          { filled := a.reverse ++ writer.filled, rest := writer.rest.drop a.length } second
        ∧ Writer.position { filled := a.reverse ++ writer.filled, rest := writer.rest.drop a.length }
          = position + a.length := by
    constructor
    · rw [run_bind, hfirst.emits writer hpos hroom]
    · simp only [Writer.position, List.length_append, List.length_reverse] at hpos ⊢
      omega
  constructor
  · intro writer hpos hroom
    rw [List.length_append] at hroom
    obtain ⟨hrun, hpos'⟩ := hmoved writer hpos (by omega)
    have hdone := hsecond.emits _ hpos' (by simp only [List.length_drop]; omega)
    rw [hrun, hdone]
    simp [List.drop_drop]
  · intro writer hpos hshort
    rw [List.length_append] at hshort
    by_cases hroom : a.length ≤ writer.rest.length
    · obtain ⟨hrun, hpos'⟩ := hmoved writer hpos hroom
      rw [hrun]
      exact hsecond.overruns _ hpos' (by simp only [List.length_drop]; omega)
    · have hfail := hfirst.overruns writer hpos (Nat.lt_of_not_le hroom)
      rw [run_bind]
      cases hrun : writer.run first with
      | mk outcome moved =>
        rw [hrun] at hfail
        rw [show outcome = .error .outOfBounds from hfail]

/-- A program for each of several items fills in the bytes of all of them. -/
theorem fills_forM {α : Type} {program : α → Emit Unit} {bytesOf : α → List UInt8}
    (items : List α) (position : Nat)
    (each : ∀ item ∈ items, ∀ position, Fills position (program item) (bytesOf item)) :
    Fills position (items.forM program) (items.flatMap bytesOf) := by
  induction items generalizing position with
  | nil => exact fills_pure position
  | cons item rest ih =>
    exact (each item (by simp) position).bind
      (ih _ fun other hmem => each other (List.mem_cons_of_mem _ hmem))

/-- A program replaces the start of a buffer by what it emits. -/
theorem Emits.run_ofBuffer {program : Emit Unit} {bytes buffer : List UInt8}
    (h : Emits 0 program bytes) (hroom : bytes.length ≤ buffer.length) :
    ∃ last, (ofBuffer buffer).run program = (.ok (), last)
      ∧ last.buffer = bytes ++ buffer.drop bytes.length := by
  refine ⟨_, h (ofBuffer buffer) rfl hroom, ?_⟩
  simp [Writer.buffer_eq, ofBuffer]

end Writer

namespace Reader

variable {α β : Type}

/-- The bytes lie directly behind the cursor, and `last` is the cursor behind them. -/
def Covers (reader : Reader) (bytes : List UInt8) (last : Reader) : Prop :=
  (∃ rest, reader.data.drop reader.position = bytes ++ rest) ∧
    last = reader.moveTo (reader.position + bytes.length)

/-- No bytes lie between a cursor and itself. -/
theorem covers_nil (reader : Reader) : reader.Covers [] reader :=
  ⟨⟨_, rfl⟩, (reader.moveTo_position_self).symm⟩

/-- Bytes up to a cursor and bytes behind it lie one behind the other. -/
theorem Covers.trans {reader middle last : Reader} {a b : List UInt8}
    (hfirst : reader.Covers a middle) (hsecond : middle.Covers b last) :
    reader.Covers (a ++ b) last := by
  obtain ⟨⟨r, hr⟩, rfl⟩ := hfirst
  obtain ⟨⟨s, hs⟩, rfl⟩ := hsecond
  have hbehind : reader.data.drop (reader.position + a.length) = r := by
    rw [← List.drop_drop, hr, List.drop_left]
  rw [moveTo_data, moveTo_position, hbehind] at hs
  refine ⟨⟨s, by rw [hr, hs, List.append_assoc]⟩, ?_⟩
  rw [moveTo_moveTo, moveTo_position, List.length_append, Nat.add_assoc]

/-- Between two parts of the bytes there is a cursor. -/
theorem Covers.split {reader last : Reader} {a b : List UInt8}
    (h : reader.Covers (a ++ b) last) :
    ∃ middle, reader.Covers a middle ∧ middle.Covers b last := by
  obtain ⟨⟨rest, hrest⟩, rfl⟩ := h
  rw [List.append_assoc] at hrest
  refine ⟨reader.moveTo (reader.position + a.length), ⟨⟨_, hrest⟩, rfl⟩, ⟨rest, ?_⟩, ?_⟩
  · rw [moveTo_data, moveTo_position, ← List.drop_drop, hrest, List.drop_left]
  · rw [moveTo_moveTo, moveTo_position, List.length_append, Nat.add_assoc]

/-- The cursor cannot cover more bytes than there are. -/
theorem Covers.bound {reader last : Reader} {bytes : List UInt8} (h : reader.Covers bytes last)
    (hin : reader.position ≤ reader.data.length) :
    reader.position + bytes.length ≤ reader.data.length := by
  obtain ⟨⟨rest, hrest⟩, -⟩ := h
  have := congrArg List.length hrest
  simp only [List.length_drop, List.length_append] at this
  omega

/-- The program reads the given bytes as the given value. -/
def Reads (program : Parse α) (bytes : List UInt8) (value : α) : Prop :=
  ∀ reader last : Reader, reader.Covers bytes last → reader.run program = (.ok value, last)

/-- A program without steps reads its value from no bytes. -/
theorem reads_pure (value : α) : Reads (pure value) [] value := by
  rintro reader last ⟨-, rfl⟩
  rw [run_pure, List.length_nil, Nat.add_zero, moveTo_position_self]

/-- Two programs read from bytes that lie one behind the other. -/
theorem Reads.bind {program : Parse α} {next : α → Parse β} {a b : List UInt8} {x : α} {y : β}
    (hfirst : Reads program a x) (hsecond : Reads (next x) b y) :
    Reads (program >>= next) (a ++ b) y := by
  intro reader last hcov
  obtain ⟨middle, hone, htwo⟩ := hcov.split
  exact run_bind_eq_ok.mpr ⟨x, middle, hfirst _ _ hone, hsecond _ _ htwo⟩

/-- A last step that only computes takes no bytes. -/
theorem Reads.map {program : Parse α} {bytes : List UInt8} {x : α} (h : Reads program bytes x)
    (f : α → β) : Reads (program >>= fun value => pure (f value)) bytes (f x) := by
  have hbind : Reads (program >>= fun value => pure (f value)) (bytes ++ []) (f x) :=
    h.bind (reads_pure (f x))
  rwa [List.append_nil] at hbind

/-- A value that lies behind the cursor can be read there. -/
theorem Covers.readAt {reader last : Reader} {type : Primitive} {value : Int}
    (hcov : reader.Covers (type.encode value) last) (hv : type.Holds value) :
    type.readAt reader.data reader.position = .ok value := by
  obtain ⟨⟨rest, hrest⟩, -⟩ := hcov
  exact Primitive.readAt_of_drop hrest hv

/-- A value is read from its encoding. -/
theorem reads_read {type : Primitive} {value : Int} (hv : type.Holds value) :
    Reads (read type) (type.encode value) value := by
  intro reader last hcov
  refine run_read_eq_ok.mpr ⟨hcov.readAt hv, ?_⟩
  rw [hcov.2, Primitive.length_encode]

/-- A value in sight can be looked at without moving. -/
theorem Covers.run_peek {reader last : Reader} {type : Primitive} {value : Int}
    (hcov : reader.Covers (type.encode value) last) (hv : type.Holds value) :
    reader.run (peek type) = (.ok value, reader) := by
  apply run_step_eq_ok.mpr
  rw [readAt_ahead, hcov.readAt hv]
  rfl

/-- A byte is read from itself. -/
theorem reads_readByte (byte : UInt8) : Reads readByte [byte] byte := by
  have hread := (reads_read (Primitive.holds_u8 byte)).map fun value => UInt8.ofNat value.toNat
  rwa [Int.toNat_natCast, UInt8.ofNat_toNat, Primitive.encode_u8] at hread

/-- A word of two bytes is read from its encoding. -/
theorem reads_readWord16 (word : UInt16) :
    Reads readWord16 (Primitive.u16.encode word.toNat) word := by
  have hread := (reads_read (Primitive.holds_u16 word)).map fun value => UInt16.ofNat value.toNat
  rwa [Int.toNat_natCast, UInt16.ofNat_toNat] at hread

/-- A word of four bytes is read from its encoding. -/
theorem reads_readWord32 (word : UInt32) :
    Reads readWord32 (Primitive.u32.encode word.toNat) word := by
  have hread := (reads_read (Primitive.holds_u32 word)).map fun value => UInt32.ofNat value.toNat
  rwa [Int.toNat_natCast, UInt32.ofNat_toNat] at hread

/-- Several values are read from their bytes, one behind the other. -/
theorem reads_repeated {program : Parse α} {bytesOf : α → List UInt8} (values : List α)
    (each : ∀ value ∈ values, Reads program (bytesOf value) value) :
    Reads (repeated program values.length) (values.flatMap bytesOf) values := by
  induction values with
  | nil => exact reads_pure []
  | cons value rest ih =>
    have htail := ih fun other hmem => each other (List.mem_cons_of_mem _ hmem)
    exact (each value (by simp)).bind (htail.map _)

/-- A primitive value that was read is one that the type holds, and its bytes were read. -/
theorem covers_of_read {reader last : Reader} {type : Primitive} {value : Int}
    (hrun : reader.run (read type) = (.ok value, last)) :
    type.Holds value ∧ reader.Covers (type.encode value) last := by
  obtain ⟨hread, rfl⟩ := run_read_eq_ok.mp hrun
  have hroom := Primitive.readAt_ok hread
  have hlen : ((reader.data.drop reader.position).take type.width).length = type.width := by
    simp only [List.length_take, List.length_drop]
    omega
  rw [Primitive.readAt_eq, if_pos hroom] at hread
  cases hread
  refine ⟨Primitive.holds_decode hlen, ⟨(reader.data.drop reader.position).drop type.width, ?_⟩, ?_⟩
  · rw [Primitive.encode_decode hlen, List.take_append_drop]
  · rw [Primitive.length_encode]

/-- A byte that was read lies behind the cursor. -/
theorem covers_of_readByte {reader last : Reader} {byte : UInt8}
    (hrun : reader.run readByte = (.ok byte, last)) : reader.Covers [byte] last := by
  obtain ⟨value, middle, hread, hpure⟩ := run_bind_eq_ok.mp hrun
  obtain ⟨hholds, hcov⟩ := covers_of_read hread
  cases hpure
  have hlt : value < 256 := hholds.2
  have hnonneg : 0 ≤ value := hholds.1
  have hvalue : ((UInt8.ofNat value.toNat).toNat : Int) = value := by
    rw [UInt8.toNat_ofNat_of_lt' (show value.toNat < 256 by omega)]
    omega
  rwa [← Primitive.encode_u8, hvalue]

/-- The values of a repeated program lie one behind the other. -/
theorem covers_of_repeated {program : Parse α} {bytesOf : α → List UInt8} {P : α → Prop}
    (each : ∀ (reader last : Reader) (value : α), reader.run program = (.ok value, last) →
      P value ∧ reader.Covers (bytesOf value) last)
    {reader last : Reader} {count : Nat} {values : List α}
    (hrun : reader.run (repeated program count) = (.ok values, last)) :
    values.length = count ∧ (∀ value ∈ values, P value) ∧
      reader.Covers (values.flatMap bytesOf) last := by
  induction count generalizing reader values with
  | zero =>
    cases hrun
    exact ⟨rfl, by simp, covers_nil _⟩
  | succ count ih =>
    obtain ⟨value, middle, hvalue, hrest⟩ := run_bind_eq_ok.mp hrun
    obtain ⟨tail, behind, htail, hpure⟩ := run_bind_eq_ok.mp hrest
    cases hpure
    obtain ⟨hP, hcov⟩ := each _ _ _ hvalue
    obtain ⟨hlen, hall, hcovs⟩ := ih htail
    exact ⟨by simp [hlen], by simpa using ⟨hP, hall⟩, hcov.trans hcovs⟩

end Reader

end CilCoverage
