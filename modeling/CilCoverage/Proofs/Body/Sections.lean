import CilCoverage.Proofs.Body.RoundTrip
import CilCoverage.Proofs.Bytes.Taking

/-!
# Chains of data sections

A chain of sections is described by the numbers in its bytes (`Section.Chain`), without a cursor.
One pass of the loop over the sections reads the head at the next multiple of four
(`run_readHead_eq_ok_iff`), then the clauses between that head and the end of the section
(`run_readClauses`), and goes on at that end. So the loop makes a finite number of passes,
each by at least the four bytes of a head (`exists_passes`, `Passes.advances`), and succeeds exactly
on a chain whose clauses have valid flags, with the clauses of all sections that hold any
(`readSections_eq_ok_iff`).
-/

set_option autoImplicit false

namespace CilCoverage

open Reader

namespace Clause

/-- The clause at an offset in the small layout. -/
def smallAt (data : List UInt8) (position : Nat) : Clause where
  flags := UInt16.ofNat (numberAt data position 2)
  tryOffset := UInt32.ofNat (numberAt data (position + 2) 2)
  tryLength := UInt32.ofNat (numberAt data (position + 4) 1)
  handlerOffset := UInt32.ofNat (numberAt data (position + 5) 2)
  handlerLength := UInt32.ofNat (numberAt data (position + 7) 1)
  classOrFilter := UInt32.ofNat (numberAt data (position + 8) 4)

/-- The clause at an offset in the fat layout. -/
def fatAt (data : List UInt8) (position : Nat) : Clause where
  flags := UInt16.ofNat (numberAt data position 4)
  tryOffset := UInt32.ofNat (numberAt data (position + 4) 4)
  tryLength := UInt32.ofNat (numberAt data (position + 8) 4)
  handlerOffset := UInt32.ofNat (numberAt data (position + 12) 4)
  handlerLength := UInt32.ofNat (numberAt data (position + 16) 4)
  classOrFilter := UInt32.ofNat (numberAt data (position + 20) 4)

/-- A byte that is widened to four keeps its number. -/
theorem toUInt32_byteAt (data : List UInt8) (position : Nat) :
    (UInt8.ofNat (numberAt data position 1)).toUInt32
      = UInt32.ofNat (numberAt data position 1) := by
  have hlt := numberAt_lt data position 1
  apply UInt32.toNat_inj.mp
  rw [UInt8.toNat_toUInt32, UInt8.toNat_ofNat_of_lt' hlt]
  exact (UInt32.toNat_ofNat_of_lt' (Nat.lt_trans hlt (by decide))).symm

/-- A word of two bytes that is widened to four keeps its number. -/
theorem toUInt32_wordAt (data : List UInt8) (position : Nat) :
    (UInt16.ofNat (numberAt data position 2)).toUInt32
      = UInt32.ofNat (numberAt data position 2) := by
  have hlt := numberAt_lt data position 2
  apply UInt32.toNat_inj.mp
  rw [UInt16.toNat_toUInt32, UInt16.toNat_ofNat_of_lt' hlt]
  exact (UInt32.toNat_ofNat_of_lt' (Nat.lt_trans hlt (by decide))).symm

/-- The lower half of a word of four bytes is its number modulo that of two. -/
theorem toUInt16_doubleWord (number : Nat) :
    (UInt32.ofNat number).toUInt16 = UInt16.ofNat number := by
  apply UInt16.toNat_inj.mp
  rw [UInt32.toNat_toUInt16, UInt32.toNat_ofNat', UInt16.toNat_ofNat']
  omega

/-- A small clause takes the bytes of its layout, whatever they are. -/
theorem takes_readSmall : Takes readSmall smallSize (fun _ _ => True) smallAt := by
  have htakes := takes_readWord16.bind fun flags => takes_readWord16.bind fun tryOffset =>
    takes_readByte.bind fun tryLength => takes_readWord16.bind fun handlerOffset =>
    takes_readByte.bind fun handlerLength => takes_readWord32.map fun classOrFilter =>
      ({ flags, tryOffset := tryOffset.toUInt32, tryLength := tryLength.toUInt32,
         handlerOffset := handlerOffset.toUInt32, handlerLength := handlerLength.toUInt32,
         classOrFilter } : Clause)
  refine htakes.congr ?_ ?_
  · simp
  · intro data position
    simp only [toUInt32_wordAt, toUInt32_byteAt]
    rfl

/-- A fat clause takes the bytes of its layout, if its flags fit two bytes. -/
theorem takes_readFat : Takes readFat fatSize
    (fun data position => numberAt data position 4 < UInt16.size) fatAt := by
  have hword (data : List UInt8) (position : Nat) :
      (UInt32.ofNat (numberAt data position 4)).toNat = numberAt data position 4 :=
    UInt32.toNat_ofNat_of_lt' (numberAt_lt data position 4)
  have htakes := takes_readWord32.bind fun flags => Takes.guarded
    (takes_readWord32.bind fun tryOffset => takes_readWord32.bind fun tryLength =>
    takes_readWord32.bind fun handlerOffset => takes_readWord32.bind fun handlerLength =>
    takes_readWord32.map fun classOrFilter =>
      ({ flags := flags.toUInt16, tryOffset, tryLength, handlerOffset, handlerLength,
         classOrFilter } : Clause)) (UInt16.size ≤ flags.toNat)
      (.malformed (.clauseFlagsRange flags.toNat))
  refine htakes.congr ?_ ?_
  · intro data position
    simp [hword]
  · intro data position
    simp only [toUInt16_doubleWord]
    rfl

/-- The fields of the clause fit the small layout. -/
structure FitsSmall (clause : Clause) : Prop where
  tryOffset : clause.tryOffset.toNat < UInt16.size
  tryLength : clause.tryLength.toNat < UInt8.size
  handlerOffset : clause.handlerOffset.toNat < UInt16.size
  handlerLength : clause.handlerLength.toNat < UInt8.size

/-- The clause in the small layout. -/
def smallBytes (clause : Clause) : List UInt8 :=
  Primitive.u16.encode clause.flags.toNat
    ++ (Primitive.u16.encode clause.tryOffset.toUInt16.toNat
      ++ ([clause.tryLength.toUInt8]
        ++ (Primitive.u16.encode clause.handlerOffset.toUInt16.toNat
          ++ ([clause.handlerLength.toUInt8]
            ++ Primitive.u32.encode clause.classOrFilter.toNat))))

/-- A clause that fits the small layout is read back from it. -/
theorem reads_smallBytes {clause : Clause} (hfits : clause.FitsSmall) :
    Reads readSmall clause.smallBytes clause := by
  have hword {number : UInt32} (hlt : number.toNat < UInt16.size) :
      number.toUInt16.toUInt32 = number := by
    apply UInt32.toNat_inj.mp
    rw [UInt16.toNat_toUInt32, UInt32.toNat_toUInt16]
    exact Nat.mod_eq_of_lt hlt
  have hbyte {number : UInt32} (hlt : number.toNat < UInt8.size) :
      number.toUInt8.toUInt32 = number := by
    apply UInt32.toNat_inj.mp
    rw [UInt8.toNat_toUInt32, UInt32.toNat_toUInt8]
    exact Nat.mod_eq_of_lt hlt
  have hreads : Reads readSmall clause.smallBytes
      { flags := clause.flags, tryOffset := clause.tryOffset.toUInt16.toUInt32,
        tryLength := clause.tryLength.toUInt8.toUInt32,
        handlerOffset := clause.handlerOffset.toUInt16.toUInt32,
        handlerLength := clause.handlerLength.toUInt8.toUInt32,
        classOrFilter := clause.classOrFilter } :=
    (reads_readWord16 _).bind ((reads_readWord16 _).bind ((reads_readByte _).bind
      ((reads_readWord16 _).bind ((reads_readByte _).bind ((reads_readWord32 _).map _)))))
  rwa [hword hfits.tryOffset, hbyte hfits.tryLength, hword hfits.handlerOffset,
    hbyte hfits.handlerLength] at hreads

/-- The bytes of a clause in either layout stand for the clause. -/
theorem clauseAt_eq {clause : Clause} {data rest : List UInt8} {position : Nat}
    (hin : position ≤ data.length) :
    (data.drop position = clause.bytes ++ rest → fatAt data position = clause)
      ∧ (clause.FitsSmall → data.drop position = clause.smallBytes ++ rest →
          smallAt data position = clause) :=
  ⟨fun hbytes => (takes_readFat.eq_of_reads clause.reads_bytes hin hbytes).2,
    fun hfits hbytes => (takes_readSmall.eq_of_reads (reads_smallBytes hfits) hin hbytes).2⟩

/-- A clause in one of the two layouts, of which only the fat one restricts the flags. -/
theorem takes_readClause (isFat : Bool) :
    Takes (if isFat then readFat else readSmall) (if isFat then fatSize else smallSize)
      (fun data position => isFat = true → numberAt data position 4 < UInt16.size)
      (fun data position => if isFat then fatAt data position else smallAt data position) := by
  cases isFat with
  | true => exact takes_readFat.congr (fun _ _ => ⟨fun h _ => h, fun h => h rfl⟩) fun _ _ => rfl
  | false =>
    exact takes_readSmall.congr (fun _ _ => ⟨fun _ => nofun, fun _ => trivial⟩) fun _ _ => rfl

end Clause

namespace Section

/-- The head of the section at an offset. -/
def headAt (data : List UInt8) (start : Nat) : Section :=
  let kind := numberAt data start 1
  { start
    size := numberAt data (start + 1) (if kind.testBit 6 then 3 else 1)
    isFat := kind.testBit 6
    holdsClauses := kind.testBit 0
    hasNext := kind.testBit 7 }

/-- The section has room for its head and ends inside the data. -/
structure Sound (head : Section) (data : List UInt8) : Prop where
  room : headSize ≤ head.size
  inside : head.finish ≤ data.length

/-- The offset of a clause in the section. -/
def clauseStart (head : Section) (k : Nat) : Nat :=
  head.start + headSize + k * (if head.isFat then Clause.fatSize else Clause.smallSize)

/-- The clauses in the bytes of a section. One that is for something else has none, whatever its
bytes are. -/
def clausesIn (head : Section) (data : List UInt8) : List Clause :=
  if head.holdsClauses then
    (List.range head.clauseCount).map fun k =>
      if head.isFat then Clause.fatAt data (head.clauseStart k)
      else Clause.smallAt data (head.clauseStart k)
  else []

/-- The flags of the clauses fit two bytes, of which the small layout has no more. -/
def FlagsFit (head : Section) (data : List UInt8) : Prop :=
  head.holdsClauses = true → head.isFat = true →
    ∀ k < head.clauseCount, numberAt data (head.clauseStart k) 4 < UInt16.size

instance (head : Section) (data : List UInt8) : Decidable (head.FlagsFit data) := by
  unfold FlagsFit
  exact inferInstance

/-- The clauses end inside their section. -/
theorem clauseStart_le {head : Section} (hroom : headSize ≤ head.size) {k : Nat}
    (hk : k ≤ head.clauseCount) : head.clauseStart k ≤ head.finish := by
  have hfits := Nat.mul_le_of_le_div _ _ _ hk
  rw [clauseStart, finish]
  omega

/-- Reading the clauses of a section stays within the section. It succeeds exactly if their flags
fit. -/
theorem run_readClauses {head : Section} {reader : Reader} (hs : head.Sound reader.data)
    (hstart : reader.position = head.start + headSize) :
    (∀ clauses, (∃ last, reader.run head.readClauses = (.ok clauses, last))
        ↔ head.FlagsFit reader.data ∧ clauses = head.clausesIn reader.data)
      ∧ (reader.run head.readClauses).2.position ≤ head.finish := by
  have hroom := hs.room
  have hin : reader.position ≤ reader.data.length := by
    refine Nat.le_trans ?_ hs.inside
    rw [hstart, finish]
    exact Nat.add_le_add_left hroom _
  by_cases hholds : head.holdsClauses = true
  · have hsome : head.readClauses
        = repeated (if head.isFat then Clause.readFat else Clause.readSmall) head.clauseCount :=
      if_pos hholds
    have hclauses : head.clausesIn reader.data = _ := if_pos hholds
    have htakes := (Clause.takes_readClause head.isFat).repeated head.clauseCount
    have hwithin := htakes.within reader hin
    have hfinish := clauseStart_le hroom (Nat.le_refl head.clauseCount)
    have hok (clauses : List Clause) (last : Reader) := htakes.eq_ok_iff reader last clauses hin
    rw [hstart] at hwithin hok
    rw [hsome, hclauses]
    refine ⟨fun clauses => ⟨?_, ?_⟩, Nat.le_trans hwithin hfinish⟩
    · rintro ⟨last, hrun⟩
      obtain ⟨-, hvalid, hresult, -⟩ := (hok clauses last).mp hrun
      exact ⟨fun _ hfat k hk => hvalid k hk hfat, hresult⟩
    · rintro ⟨hflags, hresult⟩
      refine ⟨_, (hok clauses _).mpr ⟨Nat.le_trans hfinish hs.inside, ?_, hresult, rfl⟩⟩
      exact fun k hk hfat => hflags hholds hfat k hk
  · have hnone : head.readClauses = pure [] := if_neg hholds
    have hclauses : head.clausesIn reader.data = [] := if_neg hholds
    rw [hnone, hclauses]
    refine ⟨fun clauses => ⟨?_, ?_⟩, ?_⟩
    · rintro ⟨last, hrun⟩
      exact ⟨fun hheld => absurd hheld hholds, (Except.ok.inj (Prod.mk.inj hrun).1).symm⟩
    · rintro ⟨-, rfl⟩
      exact ⟨reader, rfl⟩
    · show reader.position ≤ head.finish
      rw [hstart, finish]
      omega

/-- Reading the size of a section behind its first byte. The fat layout reads that byte again. -/
theorem run_readSize {reader last : Reader} {start size : Nat} {isFat : Bool}
    (hin : start + 1 ≤ reader.data.length) :
    (reader.moveTo (start + 1)).run (readSize isFat) = (.ok size, last)
      ↔ start + headSize ≤ reader.data.length
        ∧ size = numberAt reader.data (start + 1) (if isFat then 3 else 1)
        ∧ last = reader.moveTo (start + headSize) := by
  cases isFat with
  | true =>
    -- the fat size has three bytes behind the first one: all four are read as a word
    have hback : (reader.moveTo (start + 1)).run (advance (-1))
        = (.ok (), reader.moveTo start) := by
      have htarget : ((reader.moveTo (start + 1)).position : Int) + -1 = start := by
        rw [moveTo_position]
        omega
      have hreaches : (reader.moveTo (start + 1)).reaches start := by
        rw [reaches_iff]
        exact Nat.le_of_succ_le hin
      refine run_step_eq_ok.mpr ?_
      simp only [htarget, Int.toNat_natCast, moveTo_moveTo]
      exact if_pos ⟨Int.natCast_nonneg _, hreaches⟩
    have hsize : (UInt32.ofNat (numberAt reader.data start 4)).toNat / 256
        = numberAt reader.data (start + 1) 3 := by
      have hlow := numberAt_lt reader.data start 1
      change _ < 256 at hlow
      rw [UInt32.toNat_ofNat_of_lt' (numberAt_lt reader.data start 4), numberAt_succ hin]
      omega
    have hstart : (reader.moveTo start).position ≤ (reader.moveTo start).data.length :=
      Nat.le_of_succ_le hin
    have hword := (takes_readWord32.map fun word => word.toNat / 256).eq_ok_iff
      (reader.moveTo start) last size hstart
    rw [moveTo_moveTo, moveTo_position, moveTo_data, hsize] at hword
    constructor
    · intro hrun
      obtain ⟨_, middle, hmoved, hread⟩ := run_bind_eq_ok.mp hrun
      obtain rfl : reader.moveTo start = middle := (Prod.mk.inj (hback.symm.trans hmoved)).2
      obtain ⟨hroom, -, hresult⟩ := hword.mp hread
      exact ⟨hroom, hresult⟩
    · rintro ⟨hroom, hresult⟩
      exact run_bind_eq_ok.mpr ⟨(), _, hback, hword.mpr ⟨hroom, trivial, hresult⟩⟩
  | false =>
    have hsize : (UInt8.ofNat (numberAt reader.data (start + 1) 1)).toNat
        = numberAt reader.data (start + 1) 1 :=
      UInt8.toNat_ofNat_of_lt' (numberAt_lt reader.data (start + 1) 1)
    have hbytes := (takes_readByte.bind fun size =>
      takes_readWord16.map fun _ => size.toNat).eq_ok_iff (reader.moveTo (start + 1)) last size hin
    rw [moveTo_moveTo, moveTo_position, moveTo_data, hsize] at hbytes
    exact hbytes.trans ⟨fun ⟨hroom, _, hresult⟩ => ⟨hroom, hresult⟩,
      fun ⟨hroom, hresult⟩ => ⟨hroom, ⟨trivial, trivial⟩, hresult⟩⟩

/-- What is checked of a head. -/
theorem validated_eq_ok_iff {head result : Section} {reader : Reader} :
    validated head reader = .ok result ↔ result = head ∧ head.Sound reader.data := by
  constructor
  · intro hvalid
    obtain ⟨rfl, hroom, hinside⟩ := validated_ok hvalid
    exact ⟨rfl, hroom, hinside⟩
  · rintro ⟨rfl, hs⟩
    have hreaches : reader.reaches (result.start + result.size) := (reaches_iff _ _).mpr hs.inside
    rw [validated, if_neg (Nat.not_lt.mpr hs.room), if_pos hreaches]

/-- The head of a section is read at the next multiple of four, and only a sound one is accepted. -/
theorem run_readHead_eq_ok_iff {reader last : Reader} {head : Section} :
    reader.run readHead = (.ok head, last)
      ↔ head = headAt reader.data (reader.position + padding 4 reader.position)
        ∧ head.Sound reader.data ∧ last = reader.moveTo (head.start + headSize) := by
  generalize hstart : reader.position + padding 4 reader.position = start
  have haligned : start ≤ reader.data.length →
      reader.run (align 4) = (.ok (), reader.moveTo start) := by
    intro hle
    refine run_step_eq_ok.mpr ?_
    simp only [hstart]
    exact if_pos ((reaches_iff _ _).mpr hle)
  have hbits : (UInt8.ofNat (numberAt reader.data start 1)).toNat = numberAt reader.data start 1 :=
    UInt8.toNat_ofNat_of_lt' (numberAt_lt reader.data start 1)
  -- alignment, first byte, size and checks, in the order in which they are run
  constructor
  · intro hrun
    obtain ⟨_, aligned, hmoved, hrun⟩ := run_bind_eq_ok.mp hrun
    have hle : start ≤ reader.data.length := by
      rw [align, run_step_eq_ok] at hmoved
      simp only [hstart] at hmoved
      split at hmoved
      · rename_i hreaches
        exact (reaches_iff _ _).mp hreaches
      · cases hmoved
    obtain rfl := (Prod.mk.inj ((haligned hle).symm.trans hmoved)).2
    obtain ⟨_, _, hcurrent, hrun⟩ := run_bind_eq_ok.mp hrun
    cases hcurrent
    obtain ⟨kind, second, hkind, hrun⟩ := run_bind_eq_ok.mp hrun
    obtain ⟨hin, -, rfl, rfl⟩ := (takes_readByte.eq_ok_iff _ _ _ hle).mp hkind
    obtain ⟨size, third, hsize, hrun⟩ := run_bind_eq_ok.mp hrun
    rw [moveTo_moveTo] at hsize
    obtain ⟨-, rfl, rfl⟩ := (@run_readSize reader third start size _ hin).mp hsize
    obtain ⟨hvalid, rfl⟩ := run_ofExcept_eq_ok.mp hrun
    obtain ⟨rfl, hs⟩ := validated_eq_ok_iff.mp hvalid
    simp only [moveTo_position, moveTo_data, hbits] at hs ⊢
    exact ⟨rfl, hs, trivial⟩
  · rintro ⟨rfl, hs, rfl⟩
    have hroom : start + headSize ≤ reader.data.length :=
      Nat.le_trans (Nat.add_le_add_left hs.room start) hs.inside
    have hin : start + 1 ≤ reader.data.length :=
      Nat.le_trans (Nat.add_le_add_left (by decide) start) hroom
    have hle : start ≤ reader.data.length := Nat.le_of_succ_le hin
    refine run_bind_eq_ok.mpr ⟨(), _, haligned hle, ?_⟩
    refine run_bind_eq_ok.mpr ⟨_, _, rfl, ?_⟩
    refine run_bind_eq_ok.mpr
      ⟨_, _, (takes_readByte.eq_ok_iff _ _ _ hle).mpr ⟨hin, trivial, rfl, rfl⟩, ?_⟩
    rw [moveTo_moveTo]
    refine run_bind_eq_ok.mpr
      ⟨_, _, (@run_readSize reader _ start _ _ hin).mpr ⟨hroom, rfl, rfl⟩, ?_⟩
    simp only [moveTo_position, moveTo_data, hbits]
    exact run_ofExcept_eq_ok.mpr ⟨validated_eq_ok_iff.mpr ⟨rfl, hs⟩, rfl⟩

/-- A pass moves the cursor by at least the size of a head, to the end of the section. -/
theorem advance_of_readHead {reader inside : Reader} {head : Section}
    (hhead : reader.run readHead = (.ok head, inside)) :
    reader.position + headSize ≤ head.finish ∧ head.finish ≤ reader.data.length
      ∧ (inside.run head.readClauses).2.position ≤ head.finish := by
  obtain ⟨hstart, hroom, hinside, -⟩ := readHead_bounds hhead
  obtain ⟨-, hs, rfl⟩ := run_readHead_eq_ok_iff.mp hhead
  refine ⟨?_, hinside, (@run_readClauses head (reader.moveTo (head.start + headSize)) hs rfl).2⟩
  rw [finish]
  omega

/-- A pass succeeds exactly on a sound section whose flags fit, with the clauses in its bytes. -/
theorem pass_iff {reader : Reader} {head : Section} {clauses : List Clause} :
    (∃ inside last, reader.run readHead = (.ok head, inside)
        ∧ inside.run head.readClauses = (.ok clauses, last))
      ↔ head = headAt reader.data (reader.position + padding 4 reader.position)
        ∧ head.Sound reader.data ∧ head.FlagsFit reader.data
        ∧ clauses = head.clausesIn reader.data := by
  constructor
  · rintro ⟨inside, last, hhead, hclauses⟩
    obtain ⟨hat, hs, rfl⟩ := run_readHead_eq_ok_iff.mp hhead
    have hread := (@run_readClauses head (reader.moveTo (head.start + headSize)) hs rfl).1 clauses
    exact ⟨hat, hs, hread.mp ⟨last, hclauses⟩⟩
  · rintro ⟨hat, hs, hread⟩
    obtain ⟨last, hclauses⟩ :=
      ((@run_readClauses head (reader.moveTo (head.start + headSize)) hs rfl).1 clauses).mpr hread
    exact ⟨_, last, run_readHead_eq_ok_iff.mpr ⟨hat, hs, rfl⟩, hclauses⟩

/-- A chain of sections behind a position: each starts at the next multiple of four, and all but the
last say that another one follows. -/
inductive Chain (data : List UInt8) : Nat → List Section → Prop
  | last {position : Nat} {head : Section}
      (hhead : head = headAt data (position + padding 4 position)) (hs : head.Sound data)
      (hlast : head.hasNext = false) : Chain data position [head]
  | next {position : Nat} {head : Section} {rest : List Section}
      (hhead : head = headAt data (position + padding 4 position)) (hs : head.Sound data)
      (hnext : head.hasNext = true) (hrest : Chain data head.finish rest) :
      Chain data position (head :: rest)

/-- The passes of the loop over the sections: the heads that it reads from a cursor on, and its
outcome. -/
inductive Passes : Reader → List Section → Except Error (List Clause) → Prop
  | refused {reader inside : Reader} {cause : Error}
      (hhead : reader.run readHead = (.error cause, inside)) : Passes reader [] (.error cause)
  | broken {reader inside last : Reader} {head : Section} {cause : Error}
      (hhead : reader.run readHead = (.ok head, inside))
      (hclauses : inside.run head.readClauses = (.error cause, last)) :
      Passes reader [head] (.error cause)
  | done {reader inside last : Reader} {head : Section} {clauses : List Clause}
      (hhead : reader.run readHead = (.ok head, inside))
      (hclauses : inside.run head.readClauses = (.ok clauses, last))
      (hlast : head.hasNext = false) : Passes reader [head] (.ok clauses)
  | next {reader inside last : Reader} {head : Section} {clauses : List Clause}
      {heads : List Section} {outcome : Except Error (List Clause)}
      (hhead : reader.run readHead = (.ok head, inside))
      (hclauses : inside.run head.readClauses = (.ok clauses, last))
      (hnext : head.hasNext = true) (hrest : Passes (reader.moveTo head.finish) heads outcome) :
      Passes reader (head :: heads) (outcome.map (clauses ++ ·))

/-- The loop ends after a finite number of passes, whatever the bytes are. -/
theorem exists_passes (reader : Reader) : ∃ heads, Passes reader heads (readSections reader) := by
  fun_induction readSections reader with
  | case1 reader cause inside hhead => exact ⟨[], .refused hhead⟩
  | case2 reader head inside hhead cause last hclauses => exact ⟨[head], .broken hhead hclauses⟩
  | case3 reader head inside hhead clauses last hclauses hnext ih =>
    obtain ⟨heads, hrest⟩ := ih
    exact ⟨head :: heads, .next hhead hclauses hnext hrest⟩
  | case4 reader head inside hhead clauses last hclauses hlast =>
    exact ⟨[head], .done hhead hclauses (Bool.not_eq_true _ ▸ hlast)⟩

/-- Every pass moves on by at least the size of a head, stays inside the data, and reads the clauses
of its section before the end of the section. -/
theorem Passes.advances {reader : Reader} {heads : List Section}
    {outcome : Except Error (List Clause)} (hp : Passes reader heads outcome) :
    (reader.position :: heads.map finish).IsChain (fun position next => position + headSize ≤ next)
      ∧ ∀ head ∈ heads, head.finish ≤ reader.data.length
        ∧ ((reader.moveTo (head.start + headSize)).run head.readClauses).2.position
          ≤ head.finish := by
  have hpass {reader inside : Reader} {head : Section}
      (hhead : reader.run readHead = (.ok head, inside)) :
      reader.position + headSize ≤ head.finish ∧ head.finish ≤ reader.data.length
        ∧ ((reader.moveTo (head.start + headSize)).run head.readClauses).2.position
          ≤ head.finish := by
    obtain ⟨-, -, rfl⟩ := run_readHead_eq_ok_iff.mp hhead
    exact advance_of_readHead hhead
  induction hp with
  | refused _ => exact ⟨.singleton _, nofun⟩
  | broken hhead _ | done hhead _ _ =>
    obtain ⟨hmoved, hinside⟩ := hpass hhead
    exact ⟨.cons_cons hmoved (.singleton _), by simpa using hinside⟩
  | next hhead _ _ _ ih =>
    obtain ⟨hmoved, hinside⟩ := hpass hhead
    simp only [moveTo_moveTo] at ih
    exact ⟨.cons_cons hmoved ih.1, List.forall_mem_cons.mpr ⟨hinside, ih.2⟩⟩

/-- The sections whose clauses are read are those of a chain. -/
theorem Passes.chain {reader : Reader} {heads : List Section} {clauses : List Clause}
    {outcome : Except Error (List Clause)} (hp : Passes reader heads outcome)
    (hok : outcome = .ok clauses) :
    Chain reader.data reader.position heads ∧ (∀ head ∈ heads, head.FlagsFit reader.data)
      ∧ clauses = heads.flatMap fun head => head.clausesIn reader.data := by
  induction hp generalizing clauses with
  | refused _ => cases hok
  | broken _ _ => cases hok
  | done hhead hclauses hlast =>
    obtain ⟨hat, hs, hflags, rfl⟩ := pass_iff.mp ⟨_, _, hhead, hclauses⟩
    cases hok
    exact ⟨.last hat hs hlast, by simpa using hflags, by simp⟩
  | @next _ _ _ _ _ _ outcome hhead hclauses hnext _ ih =>
    obtain ⟨hat, hs, hflags, rfl⟩ := pass_iff.mp ⟨_, _, hhead, hclauses⟩
    cases outcome with
    | error cause => cases hok
    | ok rest =>
      cases hok
      obtain ⟨hchain, hfit, rfl⟩ := ih rfl
      exact ⟨.next hat hs hnext hchain, List.forall_mem_cons.mpr ⟨hflags, hfit⟩, rfl⟩

/-- The clauses of a chain are read. -/
theorem Chain.readSections_eq {data : List UInt8} {position : Nat} {heads : List Section}
    (hchain : Chain data position heads) (hflags : ∀ head ∈ heads, head.FlagsFit data) :
    readSections { data, position } = .ok (heads.flatMap fun head => head.clausesIn data) := by
  -- one pass, whether or not the loop goes on
  have hpass {position : Nat} {head : Section}
      (hat : head = headAt data (position + padding 4 position)) (hs : head.Sound data)
      (hflags : head.FlagsFit data) :
      readSections { data, position } = if head.hasNext then
          (readSections { data, position := head.finish }).map (head.clausesIn data ++ ·)
        else .ok (head.clausesIn data) := by
    obtain ⟨inside, last, hhead, hclauses⟩ := (@pass_iff { data, position } _ _).mpr
      ⟨hat, hs, hflags, rfl⟩
    rw [readSections]
    split
    · rename_i heq
      rw [hhead] at heq
      cases heq
    · rename_i heq
      rw [hhead] at heq
      cases heq
      rw [hclauses, moveTo_eq]
  induction hchain with
  | last hat hs hlast =>
    rw [hpass hat hs (hflags _ List.mem_cons_self), hlast]
    simp
  | next hat hs hnext _ ih =>
    obtain ⟨hfirst, hrest⟩ := List.forall_mem_cons.mp hflags
    rw [hpass hat hs hfirst, hnext, if_pos rfl, ih hrest]
    rfl

/-- Reading succeeds exactly on a chain whose flags fit, with the clauses of all its sections. -/
theorem readSections_eq_ok_iff {reader : Reader} {clauses : List Clause} :
    readSections reader = .ok clauses
      ↔ ∃ heads, Chain reader.data reader.position heads
        ∧ (∀ head ∈ heads, head.FlagsFit reader.data)
        ∧ clauses = heads.flatMap fun head => head.clausesIn reader.data := by
  constructor
  · intro hok
    obtain ⟨heads, hp⟩ := exists_passes reader
    exact ⟨heads, hp.chain hok⟩
  · rintro ⟨heads, hchain, hflags, rfl⟩
    have hsame : reader = { data := reader.data, position := reader.position } :=
      eq_of_position rfl rfl
    rw [hsame]
    exact hchain.readSections_eq hflags

end Section

namespace Header

/-- The fat header at the start of a body. -/
def fatAt (data : List UInt8) : Header where
  shape := .fat
  size := numberAt data 0 2 / sizeUnit * 4
  codeSize := UInt32.ofNat (numberAt data 4 4)
  maxStack := UInt16.ofNat (numberAt data 2 2)
  locals := ⟨UInt32.ofNat (numberAt data 8 4)⟩
  initLocals := (numberAt data 0 2).testBit 4
  moreSections := (numberAt data 0 2).testBit 3

/-- The offset behind the code. -/
def codeEnd (header : Header) : Nat := header.size + header.codeSize.toNat

end Header

namespace Body

/-- The data starts with a fat header, which has room for its fields, and the code that the header
announces. -/
structure IsFat (data : List UInt8) : Prop where
  format : numberAt data 0 1 % 4 = 3
  room : Header.fatSize ≤ (Header.fatAt data).size
  code : (Header.fatAt data).codeEnd ≤ data.length

variable {data : List UInt8}

/-- The fields of a fat header are read by their positions, and the cursor is moved behind it. -/
theorem IsFat.run_readFat (h : IsFat data) :
    (Reader.start data).run Header.readFat
      = (.ok (Header.fatAt data), (Reader.start data).moveTo (Header.fatAt data).size) := by
  have hsize : (Header.fatAt data).size ≤ data.length :=
    Nat.le_trans (Nat.le_add_right _ _) h.code
  have hin {position : Nat} (hle : position ≤ Header.fatSize) : position ≤ data.length :=
    Nat.le_trans hle (Nat.le_trans h.room hsize)
  have hflags : (UInt16.ofNat (numberAt data 0 2)).toNat = numberAt data 0 2 :=
    UInt16.toNat_ofNat_of_lt' (numberAt_lt data 0 2)
  have hroom : ¬ numberAt data 0 2 / Header.sizeUnit * 4 < Header.fatSize := Nat.not_lt.mpr h.room
  refine (takes_readWord16.run_bind _ (hin (show 0 + 2 ≤ 12 by decide)) trivial).trans ?_
  simp only [start_position, start_data, hflags]
  rw [if_neg hroom]
  refine (takes_readWord16.run_bind _ (hin (show 2 + 2 ≤ 12 by decide)) trivial).trans ?_
  refine (takes_readWord32.run_bind _ (hin (show 4 + 4 ≤ 12 by decide)) trivial).trans ?_
  refine (takes_readWord32.run_bind _ (hin (show 8 + 4 ≤ 12 by decide)) trivial).trans ?_
  refine run_bind_eq_ok.mpr ⟨(), _, run_step_eq_ok.mpr (if_pos ?_), ?_⟩
  · exact (reaches_iff _ _).mpr hsize
  · simp only [moveTo_moveTo]
    rfl

/-- The header of a fat body is read off its first twelve bytes. -/
theorem IsFat.run_readHeader (h : IsFat data) :
    (Reader.start data).run Header.read
      = (.ok (Header.fatAt data), (Reader.start data).moveTo (Header.fatAt data).size) := by
  have hin : 1 ≤ data.length :=
    Nat.le_trans (Nat.le_trans (by decide) h.room) (Nat.le_trans (Nat.le_add_right _ _) h.code)
  have hsome : ¬ (Reader.start data).isEmpty = true := by
    intro hempty
    have hnil : data = [] := List.isEmpty_iff.mp hempty
    rw [hnil] at hin
    cases hin
  have hpeek : (Reader.start data).run (peek .u8)
      = (.ok (numberAt data 0 1 : Nat), Reader.start data) := by
    have hread : Primitive.u8.readAt data 0 = .ok (numberAt data 0 1 : Nat) := by
      rw [Primitive.readAt_eq]
      exact if_pos hin
    refine run_step_eq_ok.mpr ?_
    rw [readAt_ahead, start_position, start_data, hread]
    rfl
  refine run_bind_eq_ok.mpr ⟨_, _, rfl, ?_⟩
  rw [if_neg hsome]
  refine run_bind_eq_ok.mpr ⟨_, _, hpeek, ?_⟩
  simp only [Int.toNat_natCast, h.format]
  exact h.run_readFat

/-- The loop over the sections starts behind the code. -/
theorem read_eq_of_header {header : Header} {inside : Reader}
    (hheader : (Reader.start data).run Header.read = (.ok header, inside))
    (hcode : header.codeEnd ≤ data.length) (hmore : header.moreSections = true) :
    read data = (readSections ((Reader.start data).moveTo header.codeEnd)).map
      fun clauses => { header, clauses } := by
  rw [read, hheader]
  exact (if_neg (Nat.not_lt.mpr hcode)).trans (if_pos hmore)

/-- A fat body whose header announces sections is read exactly if the code is followed by a chain of
sections whose flags fit. -/
theorem IsFat.read_eq_ok_iff (h : IsFat data) (hmore : (Header.fatAt data).moreSections = true)
    {body : Body} : read data = .ok body
      ↔ ∃ heads, Section.Chain data (Header.fatAt data).codeEnd heads
        ∧ (∀ head ∈ heads, head.FlagsFit data)
        ∧ body = { header := Header.fatAt data,
                   clauses := heads.flatMap fun head => head.clausesIn data } := by
  rw [read_eq_of_header h.run_readHeader h.code hmore]
  constructor
  · intro hok
    cases hsections : readSections ((Reader.start data).moveTo (Header.fatAt data).codeEnd) with
    | error cause =>
      rw [hsections] at hok
      cases hok
    | ok clauses =>
      rw [hsections] at hok
      cases hok
      obtain ⟨heads, hchain, hflags, rfl⟩ := Section.readSections_eq_ok_iff.mp hsections
      exact ⟨heads, hchain, hflags, rfl⟩
  · rintro ⟨heads, hchain, hflags, rfl⟩
    rw [Section.readSections_eq_ok_iff.mpr ⟨heads, hchain, hflags, rfl⟩]
    rfl

/-- Whatever the bytes are, the loop over the sections behind the code makes a finite number of
passes, each of which moves on by at least the four bytes of a head and reads clauses only before
the end of its section. A fat body whose header announces sections is read exactly if its code is
followed by a chain of sections whose flags fit, with the clauses of those that hold any, in order;
a clause has the same value in the small and the fat layout. -/
theorem read_chain (data : List UInt8) :
    (∀ header inside, (Reader.start data).run Header.read = (.ok header, inside) →
        header.codeEnd ≤ data.length → header.moreSections = true →
        ∃ heads outcome, Section.Passes ((Reader.start data).moveTo header.codeEnd) heads outcome
          ∧ read data = outcome.map (fun clauses => { header, clauses })
          ∧ (header.codeEnd :: heads.map Section.finish).IsChain (fun position next =>
              position + Section.headSize ≤ next)
          ∧ ∀ head ∈ heads, head.finish ≤ data.length
            ∧ (((Reader.start data).moveTo (head.start + Section.headSize)).run
                head.readClauses).2.position ≤ head.finish)
      ∧ (IsFat data → (Header.fatAt data).moreSections = true → ∀ body, read data = .ok body
          ↔ ∃ heads, Section.Chain data (Header.fatAt data).codeEnd heads
            ∧ (∀ head ∈ heads, head.FlagsFit data)
            ∧ body = { header := Header.fatAt data,
                       clauses := heads.flatMap fun head => head.clausesIn data })
      ∧ ∀ position ≤ data.length, ∀ (clause : Clause) (rest : List UInt8),
          (data.drop position = clause.bytes ++ rest → Clause.fatAt data position = clause)
            ∧ (clause.FitsSmall → data.drop position = clause.smallBytes ++ rest →
                Clause.smallAt data position = clause) := by
  refine ⟨?_, fun hfat hmore body => hfat.read_eq_ok_iff hmore, fun position hin clause rest =>
    Clause.clauseAt_eq hin⟩
  intro header inside hheader hcode hmore
  obtain ⟨heads, hp⟩ := Section.exists_passes ((Reader.start data).moveTo header.codeEnd)
  obtain ⟨hmoved, hinside⟩ := hp.advances
  simp only [moveTo_moveTo] at hinside
  exact ⟨heads, _, hp, read_eq_of_header hheader hcode hmore, hmoved, hinside⟩

/-- A body of two bytes of code with three sections: one that is not for clauses, one in the small
layout with three bytes behind its clause, and one in the fat layout. -/
def threeSections : List UInt8 :=
  [0x0B, 0x30, 8, 0, 2, 0, 0, 0, 0, 0, 0, 0, 0x00, 0x2A, 0, 0,
    0x80, 6, 0, 0, 0xFF, 0xFF, 0, 0,
    0x81, 19, 0, 0, 2, 0, 0, 0, 1, 1, 0, 1, 0, 0, 0, 0, 0xFF, 0xFF, 0xFF, 0,
    0x41, 28, 0, 0, 2, 0, 0, 0, 0, 0, 0, 0, 1, 0, 0, 0, 1, 0, 0, 0, 1, 0, 0, 0, 0, 0, 0, 0]

/-- A body with a small section, one of another kind and a fat section has the clauses of the outer
two. -/
theorem read_chain_threeSections :
    ∃ body, read threeSections = .ok body
      ∧ body.clauses = List.replicate 2
          { flags := 2, tryOffset := 0, tryLength := 1, handlerOffset := 1, handlerLength := 1,
            classOrFilter := 0 } := by
  have hfat : IsFat threeSections := ⟨by decide, by decide, by decide⟩
  have hchain : Section.Chain threeSections 14 [Section.headAt threeSections 16,
      Section.headAt threeSections 24, Section.headAt threeSections 44] :=
    .next rfl ⟨by decide, by decide⟩ rfl (.next rfl ⟨by decide, by decide⟩ rfl
      (.last rfl ⟨by decide, by decide⟩ rfl))
  obtain ⟨-, hread, -⟩ := read_chain threeSections
  exact ⟨_, (hread hfat rfl _).mpr ⟨_, hchain, by decide, rfl⟩, by decide⟩

end Body

end CilCoverage
