import CilCoverage.Proofs.Bytes.Transfer

/-!
# Reading by position

What a program reads can be said without a cursor, by the numbers at given positions (`numberAt`).
`Reader.Takes` does so for a program that takes a fixed number of bytes: it says which bytes it
accepts and as which value, and that the cursor stays within those bytes even if they are not
accepted. The predicate is closed under sequencing, choice and repetition.
-/

set_option autoImplicit false

namespace CilCoverage

/-- The number in the bytes from a position on. -/
def numberAt (data : List UInt8) (position width : Nat) : Nat :=
  LittleEndian.decode ((data.drop position).take width)

/-- The first byte is the low one. -/
theorem numberAt_succ {data : List UInt8} {position : Nat} (hin : position < data.length)
    (width : Nat) : numberAt data position (width + 1)
      = numberAt data position 1 + 256 * numberAt data (position + 1) width := by
  unfold numberAt
  rw [List.drop_eq_getElem_cons hin, List.take_succ_cons, List.take_succ_cons]
  rfl

/-- The number in some bytes is below the modulus of their count. -/
theorem numberAt_lt (data : List UInt8) (position width : Nat) :
    numberAt data position width < LittleEndian.modulus width := by
  unfold numberAt
  generalize data.drop position = bytes
  induction width generalizing bytes with
  | zero => exact Nat.one_pos
  | succ width ih =>
    cases bytes with
    | nil => exact LittleEndian.modulus_pos _
    | cons byte rest =>
      have hbyte := byte.toNat_lt
      have hrest := ih rest
      simp only [List.take_succ_cons, LittleEndian.decode, LittleEndian.modulus]
      omega

namespace Reader

variable {α β : Type}

/-- The program takes `width` bytes, succeeds exactly if they are valid, and then reads them as the
given value. If they are not, the cursor is still not moved behind them. -/
structure Takes (program : Parse α) (width : Nat) (valid : List UInt8 → Nat → Prop)
    (value : List UInt8 → Nat → α) : Prop where
  eq_ok_iff : ∀ (reader last : Reader) (result : α), reader.position ≤ reader.data.length →
    (reader.run program = (.ok result, last)
      ↔ reader.position + width ≤ reader.data.length ∧ valid reader.data reader.position
        ∧ result = value reader.data reader.position
        ∧ last = reader.moveTo (reader.position + width))
  within : ∀ reader : Reader, reader.position ≤ reader.data.length →
    (reader.run program).2.position ≤ reader.position + width

variable {program : Parse α} {width : Nat} {valid : List UInt8 → Nat → Prop}
  {value : List UInt8 → Nat → α}

/-- What a program takes may be described in other words. -/
theorem Takes.congr {valid' : List UInt8 → Nat → Prop} {value' : List UInt8 → Nat → α}
    (h : Takes program width valid value) (hvalid : ∀ data position,
      valid data position ↔ valid' data position)
    (hvalue : ∀ data position, value data position = value' data position) :
    Takes program width valid' value' := by
  obtain rfl : valid = valid' := by
    funext data position
    exact propext (hvalid data position)
  obtain rfl : value = value' := by
    funext data position
    exact hvalue data position
  exact h

/-- What a program reads where certain bytes lie is what it takes there. -/
theorem Takes.eq_of_reads (h : Takes program width valid value) {bytes data rest : List UInt8}
    {result : α} (hreads : Reads program bytes result) {position : Nat}
    (hin : position ≤ data.length) (hbytes : data.drop position = bytes ++ rest) :
    valid data position ∧ value data position = result := by
  have hrun := hreads { data, position } _ ⟨⟨rest, hbytes⟩, rfl⟩
  obtain ⟨-, hvalid, hresult, -⟩ := (h.eq_ok_iff _ _ _ hin).mp hrun
  exact ⟨hvalid, hresult.symm⟩

/-- A program without steps takes no bytes. -/
theorem takes_pure (result : α) :
    Takes (pure result) 0 (fun _ _ => True) (fun _ _ => result) where
  eq_ok_iff := by
    intro reader last other hin
    rw [run_pure, Nat.add_zero, moveTo_position_self, Prod.mk.injEq, Except.ok.injEq]
    exact ⟨fun ⟨hresult, hlast⟩ => ⟨hin, trivial, hresult.symm, hlast.symm⟩,
      fun ⟨_, _, hresult, hlast⟩ => ⟨hresult.symm, hlast.symm⟩⟩
  within := fun _ _ => Nat.le_refl _

/-- Reading a value takes as many bytes as its type is wide. -/
theorem takes_read (type : Primitive) :
    Takes (read type) type.width (fun _ _ => True)
      (fun data position => type.decode ((data.drop position).take type.width)) where
  eq_ok_iff := by
    intro reader last result _
    rw [run_read_eq_ok, Primitive.readAt_eq]
    split
    · rename_i hroom
      rw [Except.ok.injEq]
      exact ⟨fun ⟨hresult, hlast⟩ => ⟨hroom, trivial, hresult.symm, hlast⟩,
        fun ⟨_, _, hresult, hlast⟩ => ⟨hresult.symm, hlast⟩⟩
    · rename_i hroom
      exact ⟨nofun, fun ⟨hfits, _⟩ => absurd hfits hroom⟩
  within := by
    intro reader _
    cases hrun : reader.run (read type) with
    | mk outcome last =>
      cases outcome with
      | ok result =>
        rw [(run_read_eq_ok.mp hrun).2]
        exact Nat.le_refl _
      | error cause =>
        rw [run_step_error hrun]
        exact Nat.le_add_right _ _

/-- Two programs take their bytes one behind the other. -/
theorem Takes.bind {next : α → Parse β} {more : Nat} {validNext : α → List UInt8 → Nat → Prop}
    {valueNext : α → List UInt8 → Nat → β} (hfirst : Takes program width valid value)
    (hnext : ∀ result, Takes (next result) more (validNext result) (valueNext result)) :
    Takes (program >>= next) (width + more)
      (fun data position => valid data position
        ∧ validNext (value data position) data (position + width))
      (fun data position => valueNext (value data position) data (position + width)) where
  eq_ok_iff := by
    intro reader last result hin
    rw [run_bind_eq_ok]
    constructor
    · rintro ⟨x, middle, hx, hrest⟩
      obtain ⟨hroom, hvalid, rfl, rfl⟩ := (hfirst.eq_ok_iff _ _ _ hin).mp hx
      obtain ⟨hroom', hvalid', hresult, hlast⟩ := ((hnext _).eq_ok_iff _ _ _ hroom).mp hrest
      rw [moveTo_position, Nat.add_assoc] at hroom' hlast
      exact ⟨hroom', ⟨hvalid, hvalid'⟩, hresult, by rw [hlast, moveTo_moveTo]⟩
    · rintro ⟨hroom, ⟨hvalid, hvalid'⟩, hresult, hlast⟩
      have hmiddle : reader.position + width ≤ reader.data.length := by omega
      refine ⟨_, _, (hfirst.eq_ok_iff _ _ _ hin).mpr ⟨hmiddle, hvalid, rfl, rfl⟩, ?_⟩
      refine ((hnext _).eq_ok_iff _ _ _ hmiddle).mpr ⟨?_, hvalid', hresult, ?_⟩
      · rw [moveTo_position, Nat.add_assoc]
        exact hroom
      · rw [hlast, moveTo_moveTo, moveTo_position, Nat.add_assoc]
  within := by
    intro reader hin
    rw [Reader.run_bind]
    cases hrun : reader.run program with
    | mk outcome middle =>
      cases outcome with
      | ok x =>
        obtain ⟨hroom, -, -, rfl⟩ := (hfirst.eq_ok_iff _ _ _ hin).mp hrun
        have hlast := (hnext x).within (reader.moveTo (reader.position + width)) hroom
        rwa [moveTo_position, Nat.add_assoc] at hlast
      | error cause =>
        have hmiddle := hfirst.within reader hin
        rw [hrun] at hmiddle
        exact Nat.le_trans hmiddle (Nat.add_le_add_left (Nat.le_add_right _ _) _)

/-- What follows a program that takes valid bytes runs behind them, with their value. -/
theorem Takes.run_bind (h : Takes program width valid value) (next : α → Parse β) {reader : Reader}
    (hroom : reader.position + width ≤ reader.data.length)
    (hvalid : valid reader.data reader.position) :
    reader.run (program >>= next)
      = (reader.moveTo (reader.position + width)).run
          (next (value reader.data reader.position)) := by
  have hin : reader.position ≤ reader.data.length := Nat.le_trans (Nat.le_add_right _ _) hroom
  rw [Reader.run_bind, (h.eq_ok_iff _ _ _ hin).mpr ⟨hroom, hvalid, rfl, rfl⟩]

/-- A last step that only computes takes no bytes. -/
theorem Takes.map (h : Takes program width valid value) (f : α → β) :
    Takes (program >>= fun result => pure (f result)) width valid
      (fun data position => f (value data position)) :=
  (h.bind fun result => takes_pure (f result)).congr (fun _ _ => iff_of_eq (and_true _))
    fun _ _ => rfl

/-- A check before the program makes only what passes it valid. -/
theorem Takes.guarded (h : Takes program width valid value) (refused : Prop) [Decidable refused]
    (cause : Error) :
    Takes (if refused then throw cause else program) width
      (fun data position => ¬ refused ∧ valid data position) value := by
  by_cases hrefused : refused
  · rw [if_pos hrefused]
    constructor
    · intro reader last result _
      rw [run_throw]
      exact ⟨nofun, fun ⟨_, hvalid, _⟩ => absurd hrefused hvalid.1⟩
    · exact fun reader _ => Nat.le_add_right _ _
  · rw [if_neg hrefused]
    exact h.congr (fun _ _ => (and_iff_right hrefused).symm) (fun _ _ => rfl)

/-- Reading a byte takes one. -/
theorem takes_readByte : Takes readByte 1 (fun _ _ => True)
    (fun data position => UInt8.ofNat (numberAt data position 1)) :=
  (takes_read .u8).map fun value => UInt8.ofNat value.toNat

/-- Reading a word of two bytes takes two. -/
theorem takes_readWord16 : Takes readWord16 2 (fun _ _ => True)
    (fun data position => UInt16.ofNat (numberAt data position 2)) :=
  (takes_read .u16).map fun value => UInt16.ofNat value.toNat

/-- Reading a word of four bytes takes four. -/
theorem takes_readWord32 : Takes readWord32 4 (fun _ _ => True)
    (fun data position => UInt32.ofNat (numberAt data position 4)) :=
  (takes_read .u32).map fun value => UInt32.ofNat value.toNat

/-- A program that is repeated reads one value behind the other. -/
theorem Takes.repeated (h : Takes program width valid value) (count : Nat) :
    Takes (repeated program count) (count * width)
      (fun data position => ∀ k < count, valid data (position + k * width))
      (fun data position => (List.range count).map fun k => value data (position + k * width)) := by
  induction count with
  | zero =>
    rw [Nat.zero_mul]
    exact (takes_pure []).congr (fun _ _ => ⟨fun _ => nofun, fun _ => trivial⟩) (fun _ _ => rfl)
  | succ count ih =>
    have hshift (position k : Nat) : position + width + k * width = position + (k + 1) * width := by
      rw [Nat.succ_mul]
      omega
    have hcount : (count + 1) * width = width + count * width := by
      rw [Nat.succ_mul, Nat.add_comm]
    rw [hcount]
    refine (h.bind fun result => ih.map fun results => result :: results).congr ?_ ?_
    · intro data position
      constructor
      · rintro ⟨hfirst, hrest⟩ k hk
        cases k with
        | zero =>
          rw [Nat.zero_mul, Nat.add_zero]
          exact hfirst
        | succ k =>
          rw [← hshift]
          exact hrest k (Nat.lt_of_succ_lt_succ hk)
      · intro hall
        refine ⟨?_, fun k hk => ?_⟩
        · have hfirst := hall 0 (Nat.succ_pos _)
          rwa [Nat.zero_mul, Nat.add_zero] at hfirst
        · rw [hshift]
          exact hall (k + 1) (Nat.succ_lt_succ hk)
    · intro data position
      rw [List.range_succ_eq_map, List.map_cons, List.map_map, Nat.zero_mul, Nat.add_zero]
      congr 1
      apply List.map_congr_left
      intro k _
      show _ = value data (position + (k + 1) * width)
      rw [hshift]

end Reader

end CilCoverage
