import CilCoverage.Body.Clause
import CilCoverage.Body.Header

/-!
# Method bodies and their data sections

A `Body` is a header together with the exception clauses of the data sections behind the code.
The sections form a chain: each starts at a multiple of four, says how long it is and whether
another one follows. Sections that hold no exception clauses are passed over. Reading the chain
ends because every section moves the cursor by at least the four bytes of its own header
(`Section.readHead_bounds`).
-/

set_option autoImplicit false

namespace CilCoverage

/-- The head of a data section. -/
structure Section where
  /-- Offset of the section in the body. -/
  start : Nat
  /-- Number of bytes of the section, its head included. -/
  size : Nat
  /-- Whether sizes and clauses have the fat layout. -/
  isFat : Bool
  /-- Whether the section holds exception clauses. -/
  holdsClauses : Bool
  /-- Whether another section follows. -/
  hasNext : Bool
deriving DecidableEq, Repr

namespace Section

/-- Size of the head of a section. -/
def headSize : Nat := 4

/-- Size of a fat section that holds `count` exception clauses. -/
def fatSize (count : Nat) : Nat := headSize + count * Clause.fatSize

/-- Bits of the first byte of an emitted section: exception clauses in the fat layout. -/
def emittedKind : Nat := 0x41

/-- Reads the size of a section whose first byte has been read. The fat layout counts that byte as
the low one of four and keeps the size in the other three; the small layout has one byte for the
size and two that are unused. -/
def readSize (isFat : Bool) : Parse Nat :=
  if isFat then do
    Reader.advance (-1)
    let word ← Reader.readWord32
    return word.toNat / 256
  else do
    let size ← Reader.readByte
    let _ ← Reader.readWord16
    return size.toNat

/-- Checks that a section has room for its head and ends inside the body. -/
def validated (head : Section) (reader : Reader) : Except Error Section :=
  if head.size < headSize then .error (.malformed (.sectionSize head.start head.size))
  else if reader.reaches (head.start + head.size) then .ok head
  else .error .outOfBounds

/-- Moves to the next multiple of four and reads the head of the section there. -/
def readHead : Parse Section := do
  Reader.align 4
  let reader ← Reader.current
  let kind ← Reader.readByte
  let isFat := kind.toNat.testBit 6
  let size ← readSize isFat
  Reader.ofExcept (validated
    { start := reader.position, size, isFat, holdsClauses := kind.toNat.testBit 0,
      hasNext := kind.toNat.testBit 7 } reader)

/-- Number of clauses that fit into the section. -/
def clauseCount (head : Section) : Nat :=
  (head.size - headSize) / (if head.isFat then Clause.fatSize else Clause.smallSize)

/-- Reads the clauses behind the head of a section. -/
def readClauses (head : Section) : Parse (List Clause) :=
  if head.holdsClauses then
    Reader.repeated (if head.isFat then Clause.readFat else Clause.readSmall) head.clauseCount
  else
    pure []

/-- The offset behind the section. -/
def finish (head : Section) : Nat := head.start + head.size

/-- A head that passes the check has room for itself and lies within the body. -/
theorem validated_ok {head result : Section} {reader : Reader}
    (ok : validated head reader = .ok result) :
    result = head ∧ headSize ≤ head.size ∧ head.start + head.size ≤ reader.length := by
  unfold validated at ok
  split at ok
  · cases ok
  · split at ok
    · cases ok
      exact ⟨rfl, by omega, (reader.reaches_iff _).mp (by assumption)⟩
    · cases ok

open Reader in
/-- Reading a size leaves the bytes alone. -/
theorem readSize_data {reader last : Reader} {isFat : Bool} {size : Nat}
    (run : reader.run (readSize isFat) = (.ok size, last)) : last.data = reader.data := by
  unfold readSize at run
  split at run
  · obtain ⟨_, moved, hmoved, run⟩ := run_bind_eq_ok.mp run
    have back : moved.data = reader.data := by
      rw [advance, run_step_eq_ok] at hmoved
      simp only at hmoved
      split at hmoved
      · cases hmoved
        rfl
      · cases hmoved
    exact ((Advances.readWord32.bind fun _ => .pure _) _ _ _ run).1.trans back
  · exact ((Advances.readByte.bind fun _ => Advances.readWord16.bind fun _ => .pure _)
      _ _ _ run).1

open Reader in
/-- A section starts at or behind the cursor, has room for its head, and ends inside the body. -/
theorem readHead_bounds {reader last : Reader} {head : Section}
    (run : reader.run readHead = (.ok head, last)) :
    reader.position ≤ head.start ∧ headSize ≤ head.size ∧ head.finish ≤ reader.data.length
      ∧ last.data = reader.data := by
  obtain ⟨_, aligned, haligned, run⟩ := run_bind_eq_ok.mp run
  obtain ⟨_, _, hcurrent, run⟩ := run_bind_eq_ok.mp run
  cases hcurrent
  obtain ⟨kind, second, hkind, run⟩ := run_bind_eq_ok.mp run
  obtain ⟨size, third, hsize, run⟩ := run_bind_eq_ok.mp run
  obtain ⟨valid, rfl⟩ := run_ofExcept_eq_ok.mp run
  obtain ⟨rfl, room, inside⟩ := validated_ok valid
  have one := Advances.align 4 _ _ _ haligned
  have two := Advances.readByte _ _ _ hkind
  have three := readSize_data hsize
  have same : aligned.length = reader.data.length := congrArg List.length one.1
  exact ⟨one.2, room, same ▸ inside, three.trans (two.1.trans one.1)⟩

end Section

/-- Reads the chain of data sections from the cursor on and collects the clauses of those that
hold any. -/
def readSections (reader : Reader) : Except Error (List Clause) :=
  match _h : reader.run Section.readHead with
  | (.error cause, _) => .error cause
  | (.ok head, inside) =>
    match inside.run head.readClauses with
    | (.error cause, _) => .error cause
    | (.ok clauses, _) =>
      if head.hasNext then
        (readSections (reader.moveTo head.finish)).map (clauses ++ ·)
      else
        .ok clauses
termination_by reader.data.length - reader.position
decreasing_by
  have bounds := Section.readHead_bounds (by assumption)
  simp only [Section.finish, Section.headSize, Reader.moveTo_data, Reader.moveTo_position] at bounds ⊢
  omega

/-- A method body: its header and all its exception clauses in the order of the sections. -/
structure Body where
  header : Header
  clauses : List Clause
deriving DecidableEq, Repr

namespace Body

/-- Reads header and data sections of a body. -/
def read (data : List UInt8) : Except Error Body :=
  match (Reader.start data).run Header.read with
  | (.error cause, _) => .error cause
  | (.ok header, _) =>
    let codeEnd := header.size + header.codeSize.toNat
    if data.length < codeEnd then .error .outOfBounds
    else if header.moreSections then
      (readSections ((Reader.start data).moveTo codeEnd)).map fun clauses => { header, clauses }
    else
      .ok { header, clauses := [] }

/-- The bytes of code of the body within `data`. -/
def code (body : Body) (data : List UInt8) : Except Error (List UInt8) :=
  let codeEnd := body.header.size + body.header.codeSize.toNat
  if codeEnd ≤ data.length then
    .ok ((data.drop body.header.size).take body.header.codeSize.toNat)
  else
    .error .outOfBounds

end Body

end CilCoverage
