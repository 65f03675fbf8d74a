import CilCoverage.Bytes.Alignment
import CilCoverage.Bytes.Primitive

/-!
# Reading cursor

A `Reader` is a byte sequence and a position in it. Its steps are programs in `Parse`, which keeps
the position reached when a step fails: a single step that fails moves nothing, and a program of
several steps stops behind the last one that succeeded.

`Reader.run_bind_eq_ok` takes a successful run apart, and `Advances` states what every
reading step keeps: the bytes stay and the position does not move back.

The bytes ahead follow from the other two fields. A cursor keeps them, so that a step looks only at
the bytes it passes; every step moves by `Reader.moveTo`.
-/

set_option autoImplicit false

namespace CilCoverage

/-- A position in a byte sequence. -/
structure Reader where
  /-- The bytes read from. -/
  data : List UInt8
  /-- Number of bytes before the cursor. -/
  position : Nat := 0
  /-- The bytes from the cursor on. -/
  ahead : List UInt8 := data.drop position
  ahead_eq : ahead = data.drop position := by rfl
deriving DecidableEq, Repr

/-- A program that moves a reading cursor and may stop with a failure. -/
abbrev Parse := ExceptT Error (StateM Reader)

namespace Reader

/-- Number of bytes in the sequence. -/
def length (reader : Reader) : Nat := reader.data.length

/-- Whether the bytes go on up to a position. -/
def reaches (reader : Reader) (target : Nat) : Bool :=
  if reader.position ≤ target ∧ reader.ahead ≠ [] then
    hasRoom (target - reader.position) reader.ahead
  else
    hasRoom target reader.data

/-- The cursor before the first byte. -/
def start (data : List UInt8) : Reader := { data }

/-- The cursor at another position in the same bytes. -/
def moveTo (reader : Reader) (target : Nat) : Reader where
  data := reader.data
  position := target
  ahead :=
    if reader.position ≤ target then reader.ahead.drop (target - reader.position)
    else reader.data.drop target
  ahead_eq := by
    split
    · rw [reader.ahead_eq, List.drop_drop, Nat.add_sub_cancel' (by assumption)]
    · rfl

/-- Whether there are no bytes at all. -/
def isEmpty (reader : Reader) : Bool := reader.data.isEmpty

/-- Whether the cursor stands before the end. -/
def hasMore (reader : Reader) : Bool := reader.position < reader.length

/-- Number of bytes behind the cursor. -/
def remaining (reader : Reader) : Nat := reader.length - reader.position

/-- Runs a program from this cursor: its outcome and the cursor it leaves. -/
def run {α : Type} (reader : Reader) (program : Parse α) : Except Error α × Reader :=
  StateT.run (ExceptT.run program) reader

/-- The step that looks at the cursor and either moves it or fails without moving it. -/
def step {α : Type} (action : Reader → Except Error (α × Reader)) : Parse α :=
  ExceptT.mk fun reader =>
    match action reader with
    | .ok (value, moved) => (.ok value, moved)
    | .error cause => (.error cause, reader)

/-- The cursor itself. -/
def current : Parse Reader := step fun reader => .ok (reader, reader)

/-- The outcome of a computation that does not look at the cursor. -/
def ofExcept {α : Type} (outcome : Except Error α) : Parse α := step fun reader =>
  outcome.map fun value => (value, reader)

/-- Moves to an absolute position, at most the end. -/
def seek (target : Nat) : Parse Unit := step fun reader =>
  if reader.reaches target then .ok ((), reader.moveTo target)
  else .error .outOfBounds

/-- Moves by a signed distance within the sequence. -/
def advance (distance : Int) : Parse Unit := step fun reader =>
  let target := (reader.position : Int) + distance
  if 0 ≤ target ∧ reader.reaches target.toNat then .ok ((), reader.moveTo target.toNat)
  else .error .outOfBounds

/-- Moves forward to the next multiple of `boundary`. -/
def align (boundary : Nat) : Parse Unit := step fun reader =>
  let target := reader.position + padding boundary reader.position
  if reader.reaches target then .ok ((), reader.moveTo target)
  else .error .outOfBounds

/-- Reads a value without moving. -/
def peek (type : Primitive) : Parse Int := step fun reader =>
  (type.readAt reader.ahead 0).map fun value => (value, reader)

/-- Reads a value and moves behind it. -/
def read (type : Primitive) : Parse Int := step fun reader =>
  (type.readAt reader.ahead 0).map fun value =>
    (value, reader.moveTo (reader.position + type.width))

/-- Reads the next `count` bytes and moves behind them. -/
def readBytes (count : Nat) : Parse (List UInt8) := step fun reader =>
  if hasRoom count reader.ahead then
    .ok (reader.ahead.take count, reader.moveTo (reader.position + count))
  else .error .outOfBounds

/-- Reads one byte. -/
def readByte : Parse UInt8 := return UInt8.ofNat (← read .u8).toNat

/-- Reads an unsigned 16-bit number. -/
def readWord16 : Parse UInt16 := return UInt16.ofNat (← read .u16).toNat

/-- Reads an unsigned 32-bit number. -/
def readWord32 : Parse UInt32 := return UInt32.ofNat (← read .u32).toNat

/-- Runs `program` the given number of times and collects its values. -/
def repeated {α : Type} (program : Parse α) : Nat → Parse (List α)
  | 0 => pure []
  | count + 1 => do
    let value ← program
    let values ← repeated program count
    return value :: values

section Laws

variable {α β : Type}

/-- A cursor is determined by its bytes and its position. -/
theorem eq_of_position {reader other : Reader} (data : reader.data = other.data)
    (position : reader.position = other.position) : reader = other := by
  obtain ⟨_, _, _, rfl⟩ := reader
  obtain ⟨_, _, _, rfl⟩ := other
  cases data
  cases position
  rfl

/-- The cursor at the start holds all bytes. -/
@[simp] theorem start_data (data : List UInt8) : (start data).data = data := rfl

/-- The cursor at the start has none before it. -/
@[simp] theorem start_position (data : List UInt8) : (start data).position = 0 := rfl

/-- Moving leaves the bytes alone. -/
@[simp] theorem moveTo_data (reader : Reader) (target : Nat) :
    (reader.moveTo target).data = reader.data := rfl

/-- Moving ends where it was told to. -/
@[simp] theorem moveTo_position (reader : Reader) (target : Nat) :
    (reader.moveTo target).position = target := rfl

/-- A moved cursor is the one made at its position. -/
theorem moveTo_eq (reader : Reader) (target : Nat) :
    reader.moveTo target = { data := reader.data, position := target } :=
  eq_of_position rfl rfl

/-- Moving to where the cursor is changes nothing. -/
@[simp] theorem moveTo_position_self (reader : Reader) : reader.moveTo reader.position = reader :=
  eq_of_position rfl rfl

/-- Of two moves the second one counts. -/
@[simp] theorem moveTo_moveTo (reader : Reader) (first second : Nat) :
    (reader.moveTo first).moveTo second = reader.moveTo second :=
  eq_of_position rfl rfl

/-- A target is reached if it is within the bytes. -/
theorem reaches_iff (reader : Reader) (target : Nat) :
    reader.reaches target = true ↔ target ≤ reader.length := by
  unfold reaches length
  split
  · rename_i onward
    have some : reader.ahead.length ≠ 0 := fun none => onward.2 (List.length_eq_zero_iff.mp none)
    rw [hasRoom_iff]
    rw [reader.ahead_eq, List.length_drop] at some ⊢
    omega
  · exact hasRoom_iff

/-- Reading from the bytes ahead is reading at the position. -/
theorem readAt_ahead (reader : Reader) (type : Primitive) :
    type.readAt reader.ahead 0 = type.readAt reader.data reader.position := by
  rw [reader.ahead_eq]
  rfl

/-- A program without steps leaves the cursor. -/
@[simp] theorem run_pure (reader : Reader) (value : α) :
    reader.run (pure value) = (.ok value, reader) := rfl

/-- A failure leaves the cursor. -/
@[simp] theorem run_throw (reader : Reader) (cause : Error) :
    reader.run (throw cause : Parse α) = (.error cause, reader) := rfl

/-- A step that fails leaves the cursor. -/
theorem run_step (reader : Reader) (action : Reader → Except Error (α × Reader)) :
    reader.run (step action) = match action reader with
      | .ok (value, moved) => (.ok value, moved)
      | .error cause => (.error cause, reader) := rfl

/-- A program in two parts runs one after the other and stops at the first failure. -/
theorem run_bind (reader : Reader) (program : Parse α) (next : α → Parse β) :
    reader.run (program >>= next) = match reader.run program with
      | (.ok value, moved) => moved.run (next value)
      | (.error cause, moved) => (.error cause, moved) := by
  show StateT.run (ExceptT.run (ExceptT.bind program next)) reader = _
  simp only [ExceptT.bind, ExceptT.run, ExceptT.mk, StateT.run, run, bind, StateT.bind]
  cases h : program reader with
  | mk outcome moved =>
    cases outcome <;> rfl

/-- A run of two programs succeeds when both do, one after the other. -/
theorem run_bind_eq_ok {reader last : Reader} {program : Parse α} {next : α → Parse β} {result : β} :
    reader.run (program >>= next) = (.ok result, last) ↔
      ∃ value middle, reader.run program = (.ok value, middle) ∧
        middle.run (next value) = (.ok result, last) := by
  rw [run_bind]
  constructor
  · intro h
    split at h
    · exact ⟨_, _, by assumption, h⟩
    · cases h
  · rintro ⟨value, middle, first, second⟩
    rw [first]
    exact second

/-- A single step succeeds exactly when its action does. -/
theorem run_step_eq_ok {reader last : Reader} {action : Reader → Except Error (α × Reader)}
    {value : α} :
    reader.run (step action) = (.ok value, last) ↔ action reader = .ok (value, last) := by
  rw [run_step]
  cases action reader with
  | error cause => simp
  | ok pair => cases pair; simp

/-- A single step that fails leaves the cursor where it was. -/
theorem run_step_error {reader last : Reader} {action : Reader → Except Error (α × Reader)}
    {cause : Error} (run : reader.run (step action) = (.error cause, last)) : last = reader := by
  rw [run_step] at run
  cases h : action reader with
  | error other => rw [h] at run; exact (Prod.mk.inj run).2.symm
  | ok pair => rw [h] at run; cases run

/-- Programs that keep the bytes and never move back when they succeed. -/
def Advances (program : Parse α) : Prop :=
  ∀ (reader last : Reader) (value : α), reader.run program = (.ok value, last) →
    last.data = reader.data ∧ reader.position ≤ last.position

/-- A program without steps keeps the bytes and the position. -/
theorem Advances.pure (value : α) : Advances (pure value : Parse α) := by
  intro reader last result h
  cases h
  exact ⟨rfl, Nat.le_refl _⟩

/-- A program that always fails advances, as it never succeeds. -/
theorem Advances.throw (cause : Error) : Advances (throw cause : Parse α) := by
  intro reader last result h
  cases h

/-- Two programs that advance do so one after the other. -/
theorem Advances.bind {program : Parse α} {next : α → Parse β} (first : Advances program)
    (second : ∀ value, Advances (next value)) : Advances (program >>= next) := by
  intro reader last result h
  obtain ⟨value, middle, hfirst, hsecond⟩ := run_bind_eq_ok.mp h
  have one := first reader middle value hfirst
  have two := second value middle last result hsecond
  exact ⟨two.1.trans one.1, Nat.le_trans one.2 two.2⟩

/-- A read that succeeds gives the value at the cursor and moves by its width. -/
theorem run_read_eq_ok {reader last : Reader} {type : Primitive} {value : Int} :
    reader.run (read type) = (.ok value, last) ↔
      type.readAt reader.data reader.position = .ok value ∧
        last = reader.moveTo (reader.position + type.width) := by
  rw [read, run_step_eq_ok, readAt_ahead]
  cases type.readAt reader.data reader.position with
  | error cause => simp [Except.map]
  | ok found => simp [Except.map, eq_comm]

/-- Reading a value advances. -/
theorem Advances.read (type : Primitive) : Advances (read type) := by
  intro reader last value h
  obtain ⟨_, rfl⟩ := run_read_eq_ok.mp h
  exact ⟨rfl, Nat.le_add_right _ _⟩

/-- Reading a byte advances. -/
theorem Advances.readByte : Advances readByte := (Advances.read .u8).bind fun _ => .pure _

/-- Reading a word of two bytes advances. -/
theorem Advances.readWord16 : Advances readWord16 := (Advances.read .u16).bind fun _ => .pure _

/-- Reading a word of four bytes advances. -/
theorem Advances.readWord32 : Advances readWord32 := (Advances.read .u32).bind fun _ => .pure _

/-- Asking for the cursor keeps the bytes and the position. -/
theorem Advances.current : Advances current := by
  intro reader last value h
  cases h
  exact ⟨rfl, Nat.le_refl _⟩

/-- An outcome in place of a step is that outcome, with the cursor where it was. -/
theorem run_ofExcept_eq_ok {reader last : Reader} {outcome : Except Error α} {value : α} :
    reader.run (ofExcept outcome) = (.ok value, last) ↔ outcome = .ok value ∧ last = reader := by
  rw [ofExcept, run_step_eq_ok]
  cases outcome with
  | error cause => simp [Except.map]
  | ok found => simp [Except.map, eq_comm]

/-- Aligning advances. -/
theorem Advances.align (boundary : Nat) : Advances (align boundary) := by
  intro reader last value h
  rw [Reader.align, run_step_eq_ok] at h
  simp only at h
  split at h
  · cases h
    exact ⟨rfl, Nat.le_add_right _ _⟩
  · cases h

/-- A program that advances does so however often it is repeated. -/
theorem Advances.repeated {program : Parse α} (each : Advances program) (count : Nat) :
    Advances (repeated program count) := by
  induction count with
  | zero => exact .pure _
  | succ count ih => exact each.bind fun _ => ih.bind fun _ => .pure _

end Laws

end Reader

end CilCoverage
