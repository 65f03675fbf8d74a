import CilCoverage.Bytes.Alignment
import CilCoverage.Bytes.Primitive

/-!
# Writing cursor

A `Writer` fills a buffer of fixed size from its start. It keeps the bytes before the cursor apart
from those behind it; `Writer.buffer` is the whole. Its steps are programs in `Emit`, which keeps
the buffer and position reached when a step fails, so that the values written before a failure stay
in the buffer.

`Writer.overwrite_eq` says when bytes fit and what they leave, and `Writer.run_bind` takes the run
of a program apart.
-/

set_option autoImplicit false

namespace CilCoverage

/-- A position in a buffer of fixed size. -/
structure Writer where
  /-- The bytes before the cursor, the last one first. -/
  filled : List UInt8
  /-- The bytes behind the cursor. -/
  rest : List UInt8
deriving DecidableEq, Repr

/-- A program that fills a buffer and may stop with a failure. -/
abbrev Emit := ExceptT Error (StateM Writer)

namespace Writer

/-- The cursor at the start of a buffer. -/
def ofBuffer (buffer : List UInt8) : Writer := { filled := [], rest := buffer }

/-- The buffer, as filled so far. -/
def buffer (writer : Writer) : List UInt8 := writer.filled.reverseAux writer.rest

/-- Number of bytes before the cursor. -/
def position (writer : Writer) : Nat := writer.filled.length

/-- Size of the buffer. -/
def length (writer : Writer) : Nat := writer.position + writer.rest.length

/-- Whether the buffer has no room at all. -/
def isEmpty (writer : Writer) : Bool := writer.length == 0

/-- Runs a program from this cursor: its outcome and the cursor it leaves. -/
def run {α : Type} (writer : Writer) (program : Emit α) : Except Error α × Writer :=
  StateT.run (ExceptT.run program) writer

/-- The step that either moves the cursor or fails without changing anything. -/
def step (action : Writer → Except Error Writer) : Emit Unit :=
  ExceptT.mk fun writer =>
    match action writer with
    | .ok moved => (.ok (), moved)
    | .error cause => (.error cause, writer)

/-- Replaces the next bytes of the buffer and moves behind them. -/
def overwrite (writer : Writer) (bytes : List UInt8) : Except Error Writer :=
  if hasRoom bytes.length writer.rest then
    .ok { filled := bytes.reverseAux writer.filled, rest := writer.rest.drop bytes.length }
  else
    .error .outOfBounds

/-- Writes a value and moves behind it. -/
def write (type : Primitive) (value : Int) : Emit Unit := step fun writer =>
  writer.overwrite (type.encode value)

/-- Fills with zeros up to the next multiple of `boundary`. -/
def align (boundary : Nat) : Emit Unit := step fun writer =>
  let gap := padding boundary writer.position
  if hasRoom gap writer.rest then writer.overwrite (List.replicate gap 0)
  else .error .outOfBounds

section Laws

variable {α β : Type}

/-- The buffer is what was filled and then the rest. -/
theorem buffer_eq (writer : Writer) : writer.buffer = writer.filled.reverse ++ writer.rest :=
  List.reverseAux_eq

/-- A cursor at the start of a buffer has that buffer. -/
@[simp] theorem buffer_ofBuffer (buffer : List UInt8) : (ofBuffer buffer).buffer = buffer := rfl

/-- The buffer is as long as its cursor says. -/
@[simp] theorem length_buffer (writer : Writer) : writer.buffer.length = writer.length := by
  simp [buffer_eq, length, position]

/-- Bytes are written exactly when they fit. -/
theorem overwrite_eq (writer : Writer) (bytes : List UInt8) :
    writer.overwrite bytes =
      if bytes.length ≤ writer.rest.length then
        .ok { filled := bytes.reverse ++ writer.filled, rest := writer.rest.drop bytes.length }
      else .error .outOfBounds := by
  unfold overwrite
  rw [List.reverseAux_eq]
  by_cases room : bytes.length ≤ writer.rest.length
  · rw [if_pos (hasRoom_iff.mpr room), if_pos room]
  · rw [if_neg fun fits => room (hasRoom_iff.mp fits), if_neg room]

/-- Aligning writes the missing bytes as zeros. -/
theorem align_eq (boundary : Nat) : align boundary = step fun writer =>
    writer.overwrite (List.replicate (padding boundary writer.position) 0) := by
  unfold align
  congr 1
  funext writer
  by_cases room : padding boundary writer.position ≤ writer.rest.length
  · exact if_pos (hasRoom_iff.mpr room)
  · rw [overwrite_eq, List.length_replicate, if_neg room]
    exact if_neg fun fits => room (hasRoom_iff.mp fits)

/-- A program without steps leaves the cursor. -/
@[simp] theorem run_pure (writer : Writer) (value : α) :
    writer.run (pure value) = (.ok value, writer) := rfl

/-- A step that fails leaves the cursor. -/
theorem run_step (writer : Writer) (action : Writer → Except Error Writer) :
    writer.run (step action) = match action writer with
      | .ok moved => (.ok (), moved)
      | .error cause => (.error cause, writer) := rfl

/-- A program in two parts runs one after the other and stops at the first failure. -/
theorem run_bind (writer : Writer) (program : Emit α) (next : α → Emit β) :
    writer.run (program >>= next) = match writer.run program with
      | (.ok value, moved) => moved.run (next value)
      | (.error cause, moved) => (.error cause, moved) := by
  show StateT.run (ExceptT.run (ExceptT.bind program next)) writer = _
  simp only [ExceptT.bind, ExceptT.run, ExceptT.mk, StateT.run, run, bind, StateT.bind]
  cases h : program writer with
  | mk outcome moved =>
    cases outcome <;> rfl

end Laws

end Writer

end CilCoverage
