import CilCoverage.Proofs.Bytes.Transfer

/-!
# Steps of the two cursors

The steps that can be taken with a cursor, as data. One equation for each cursor says all that a
step can do: a reading step succeeds if the position that it reaches lies within the bytes
(`Reader.Step.run_program`), a writing step if there is room for what it fills
(`Writer.Step.run_program`), and otherwise nothing changes. So no run of steps leads a cursor out of
its bytes, whichever of them fail (`Reader.afterSteps_within`, `Writer.length_afterSteps`).

A writing step has a reading step as its counterpart. What a list of writing steps fills
(`Writer.bytesOf`) is read back by their counterparts as the values that were written
(`Writer.run_readings`). `cursors_mirror` puts both cursors together.
-/

set_option autoImplicit false

namespace CilCoverage

/-- Aligning within 2⁶³ bytes to a 64-bit boundary computes no number beyond 64 bits. -/
theorem add_padding_lt_size {position boundary : Nat} (hposition : 2 * position < UInt64.size)
    (hboundary : boundary < UInt64.size) : position + padding boundary position < UInt64.size := by
  unfold padding
  by_cases hbehind : position < boundary
  · have hgap := Nat.mod_le (boundary - position) boundary
    rw [Nat.mod_eq_of_lt hbehind]
    omega
  · rcases Nat.eq_zero_or_pos boundary with rfl | hpos
    · rw [Nat.zero_sub, Nat.zero_mod]
      omega
    · have hgap := Nat.mod_lt (boundary - position % boundary) hpos
      omega

namespace Reader

/-- A step of a reading cursor. -/
inductive Step
  | read (type : Primitive)
  | peek (type : Primitive)
  | readBytes (count : Nat)
  | seek (target : Nat)
  | advance (distance : Int)
  | align (boundary : Nat) (positive : 0 < boundary)

/-- What a step returns. -/
inductive Found
  | nothing
  | number (value : Int)
  | bytes (values : List UInt8)

namespace Step

/-- The step as a program. -/
def program : Step → Parse Found
  | read type => return .number (← Reader.read type)
  | peek type => return .number (← Reader.peek type)
  | readBytes count => return .bytes (← Reader.readBytes count)
  | seek target => do
    Reader.seek target
    return .nothing
  | advance distance => do
    Reader.advance distance
    return .nothing
  | align boundary _ => do
    Reader.align boundary
    return .nothing

/-- The position up to which the step needs bytes. -/
def reach (step : Step) (position : Nat) : Int :=
  match step with
  | read type | peek type => position + type.width
  | readBytes count => position + count
  | seek target => target
  | advance distance => position + distance
  | align boundary _ => position + padding boundary position

/-- The position behind the step: the one it reaches, unless it only looks. -/
def landing (step : Step) (position : Nat) : Nat :=
  match step with
  | peek _ => position
  | _ => (step.reach position).toNat

/-- What the step returns if it succeeds. -/
def found (step : Step) (data : List UInt8) (position : Nat) : Found :=
  match step with
  | read type | peek type => .number (type.decode ((data.drop position).take type.width))
  | readBytes count => .bytes ((data.drop position).take count)
  | seek _ | advance _ | align _ _ => .nothing

end Step

section Running

variable {α : Type} {reader : Reader}

/-- What a step finds or the failure it ends with, by whether there is room. -/
theorem run_step_map {action : Reader → Except Error (α × Reader)} {room within : Prop}
    [Decidable room] [Decidable within] {value : α} {moved : Reader}
    (haction : action reader = if room then .ok (value, moved) else .error .outOfBounds)
    (hroom : room ↔ within) (f : α → Found) :
    reader.run (step action >>= fun result => pure (f result))
      = if within then (.ok (f value), moved) else (.error .outOfBounds, reader) := by
  rw [run_bind, run_step, haction]
  by_cases hwithin : within
  · simp only [if_pos (hroom.mpr hwithin), if_pos hwithin, run_pure]
  · simp only [if_neg (mt hroom.mp hwithin), if_neg hwithin]

/-- A value is seen exactly if all of its bytes lie ahead. -/
theorem map_readAt_ahead (type : Primitive) (moved : Reader) :
    (type.readAt reader.ahead 0).map (fun value => (value, moved))
      = if reader.position + type.width ≤ reader.length then
          .ok (type.decode ((reader.data.drop reader.position).take type.width), moved)
        else .error .outOfBounds := by
  rw [readAt_ahead, Primitive.readAt_eq]
  show (if reader.position + type.width ≤ reader.length then _ else _ : Except Error Int).map _ = _
  split <;> rfl

/-- A step succeeds exactly if what it reaches lies within the bytes, and changes nothing if it
fails. -/
theorem Step.run_program (step : Step) (hin : reader.position ≤ reader.length) :
    reader.run step.program
      = if 0 ≤ step.reach reader.position ∧ step.reach reader.position ≤ reader.length then
          (.ok (step.found reader.data reader.position),
            reader.moveTo (step.landing reader.position))
        else (.error .outOfBounds, reader) := by
  cases step with
  | read type =>
    have hroom : reader.position + type.width ≤ reader.length
        ↔ 0 ≤ (read type).reach reader.position
          ∧ (read type).reach reader.position ≤ reader.length := by
      simp only [Step.reach]
      omega
    exact run_step_map (map_readAt_ahead type _) hroom Found.number
  | peek type =>
    have hroom : reader.position + type.width ≤ reader.length
        ↔ 0 ≤ (peek type).reach reader.position
          ∧ (peek type).reach reader.position ≤ reader.length := by
      simp only [Step.reach]
      omega
    rw [Step.landing, moveTo_position_self]
    exact run_step_map (map_readAt_ahead type reader) hroom Found.number
  | readBytes count =>
    have hahead : reader.ahead.length = reader.length - reader.position := by
      rw [reader.ahead_eq, List.length_drop, Reader.length]
    have hroom : hasRoom count reader.ahead = true
        ↔ 0 ≤ (readBytes count).reach reader.position
          ∧ (readBytes count).reach reader.position ≤ reader.length := by
      rw [hasRoom_iff, hahead]
      simp only [Step.reach]
      omega
    refine run_step_map ?_ hroom Found.bytes
    rw [reader.ahead_eq]
    rfl
  | seek target =>
    have hroom : reader.reaches target = true
        ↔ 0 ≤ (seek target).reach reader.position
          ∧ (seek target).reach reader.position ≤ reader.length := by
      rw [reaches_iff]
      simp only [Step.reach]
      omega
    exact run_step_map rfl hroom fun _ => .nothing
  | advance distance =>
    refine run_step_map rfl ?_ fun _ => .nothing
    rw [reaches_iff]
    simp only [Step.reach]
    omega
  | align boundary positive =>
    have hroom : reader.reaches (reader.position + padding boundary reader.position) = true
        ↔ 0 ≤ (align boundary positive).reach reader.position
          ∧ (align boundary positive).reach reader.position ≤ reader.length := by
      rw [reaches_iff]
      simp only [Step.reach]
      omega
    exact run_step_map rfl hroom fun _ => .nothing

/-- A step that fails leaves the cursor where it is, because it would have left the bytes. -/
theorem Step.eq_of_error {step : Step} {cause : Error} {last : Reader}
    (hin : reader.position ≤ reader.length)
    (hrun : reader.run step.program = (.error cause, last)) :
    last = reader ∧ cause = .outOfBounds
      ∧ ¬ (0 ≤ step.reach reader.position ∧ step.reach reader.position ≤ reader.length) := by
  rw [step.run_program hin] at hrun
  split at hrun
  · cases hrun
  · rename_i hout
    cases hrun
    exact ⟨rfl, rfl, hout⟩

/-- Takes steps one after the other, whatever their outcome. -/
def afterSteps (reader : Reader) (steps : List Step) : Reader :=
  steps.foldl (fun reached step => (reached.run step.program).2) reader

/-- One step keeps the bytes and stays within them. -/
theorem Step.run_within (step : Step) (hin : reader.position ≤ reader.length) :
    (reader.run step.program).2.data = reader.data
      ∧ (reader.run step.program).2.position ≤ reader.length := by
  rw [step.run_program hin]
  split
  · rename_i hreach
    refine ⟨rfl, ?_⟩
    show step.landing reader.position ≤ reader.length
    unfold Step.landing
    split
    · exact hin
    · omega
  · exact ⟨rfl, hin⟩

/-- Any steps, whichever of them fail, keep the bytes and stay within them. -/
theorem afterSteps_within (steps : List Step) (hin : reader.position ≤ reader.length) :
    (reader.afterSteps steps).data = reader.data
      ∧ (reader.afterSteps steps).position ≤ reader.length := by
  induction steps generalizing reader with
  | nil => exact ⟨rfl, hin⟩
  | cons step rest ih =>
    obtain ⟨hdata, hposition⟩ := step.run_within hin
    have hlength : (reader.run step.program).2.length = reader.length := by
      rw [Reader.length, hdata, Reader.length]
    have hrest := ih (hlength ▸ hposition)
    rw [hdata, hlength] at hrest
    exact hrest

end Running

end Reader

namespace Writer

/-- A step of a writing cursor: a value of its type, or the way to the next multiple. -/
inductive Step
  | write (type : Primitive) (value : Int) (holds : type.Holds value)
  | align (boundary : Nat) (positive : 0 < boundary)

namespace Step

/-- The step as a program. -/
def program : Step → Emit Unit
  | write type value _ => Writer.write type value
  | align boundary _ => Writer.align boundary

/-- What the step fills from a position on. -/
def bytes (step : Step) (position : Nat) : List UInt8 :=
  match step with
  | write type value _ => type.encode value
  | align boundary _ => List.replicate (padding boundary position) 0

/-- The reading step that goes over the same bytes. -/
def reading : Step → Reader.Step
  | write type _ _ => .read type
  | align boundary positive => .align boundary positive

/-- What the reading step returns there. -/
def found : Step → Reader.Found
  | write _ value _ => .number value
  | align _ _ => .nothing

end Step

/-- A step succeeds exactly if there is room for what it fills, and changes nothing if it fails. -/
theorem Step.run_program (step : Step) (writer : Writer) :
    writer.run step.program
      = if writer.position + (step.bytes writer.position).length ≤ writer.length then
          (.ok (), { filled := (step.bytes writer.position).reverse ++ writer.filled,
                     rest := writer.rest.drop (step.bytes writer.position).length })
        else (.error .outOfBounds, writer) := by
  have hprogram : step.program
      = Writer.step fun writer => writer.overwrite (step.bytes writer.position) := by
    cases step with
    | write type value holds => rfl
    | align boundary positive => exact align_eq boundary
  have hlength : writer.length = writer.position + writer.rest.length := rfl
  rw [hprogram, run_step, overwrite_eq, hlength]
  by_cases hroom : (step.bytes writer.position).length ≤ writer.rest.length
  · rw [if_pos hroom, if_pos (Nat.add_le_add_left hroom _)]
  · rw [if_neg hroom, if_neg fun hfits => hroom (Nat.le_of_add_le_add_left hfits)]

/-- A step that fails leaves the cursor and the buffer as they are, because there was no room. -/
theorem Step.eq_of_error {step : Step} {cause : Error} {writer last : Writer}
    (hrun : writer.run step.program = (.error cause, last)) :
    last = writer ∧ cause = .outOfBounds
      ∧ writer.length < writer.position + (step.bytes writer.position).length := by
  rw [step.run_program] at hrun
  split at hrun
  · cases hrun
  · rename_i hfull
    cases hrun
    exact ⟨rfl, rfl, Nat.lt_of_not_le hfull⟩

/-- Takes steps one after the other, whatever their outcome. -/
def afterSteps (writer : Writer) (steps : List Step) : Writer :=
  steps.foldl (fun reached step => (reached.run step.program).2) writer

/-- The cursor is within its buffer. -/
theorem position_le_length (writer : Writer) : writer.position ≤ writer.length :=
  Nat.le_add_right _ _

/-- Any steps, whichever of them fail, keep the size of the buffer. -/
theorem length_afterSteps (writer : Writer) (steps : List Step) :
    (writer.afterSteps steps).length = writer.length := by
  induction steps generalizing writer with
  | nil => rfl
  | cons step rest ih =>
    refine (ih _).trans ?_
    show (writer.run step.program).2.length = writer.length
    rw [step.run_program]
    split
    · rename_i hroom
      simp only [length, position, List.length_append, List.length_reverse, List.length_drop]
        at hroom ⊢
      omega
    · rfl

/-- What steps fill, one behind the other from a position on. -/
def bytesOf : (position : Nat) → List Step → List UInt8
  | _, [] => []
  | position, step :: rest =>
    step.bytes position ++ bytesOf (position + (step.bytes position).length) rest

/-- Steps after others write behind them. -/
theorem bytesOf_append (position : Nat) (steps more : List Step) :
    bytesOf position (steps ++ more)
      = bytesOf position steps ++ bytesOf (position + (bytesOf position steps).length) more := by
  induction steps generalizing position with
  | nil => rfl
  | cons step rest ih =>
    simp only [List.cons_append, bytesOf, ih, List.append_assoc, List.length_append, Nat.add_assoc]

/-- A step fills in its bytes. -/
theorem Step.fills_program (step : Step) (position : Nat) :
    Fills position step.program (step.bytes position) := by
  cases step with
  | write type value holds => exact Writer.fills_write position type value
  | align boundary positive => exact fills_align position boundary

/-- A sequence of steps fills in the bytes of all of them. -/
theorem fills_bytesOf (position : Nat) (steps : List Step) :
    Fills position (steps.forM Step.program) (bytesOf position steps) := by
  induction steps generalizing position with
  | nil => exact fills_pure position
  | cons step rest ih => exact (step.fills_program position).bind (ih _)

/-- A program that succeeds has had room for its bytes. -/
theorem Fills.eq_of_run {position : Nat} {program : Emit Unit} {bytes : List UInt8}
    (h : Fills position program bytes) {writer last : Writer} (hposition : writer.position = position)
    (hrun : writer.run program = (.ok (), last)) :
    bytes.length ≤ writer.rest.length
      ∧ last = { filled := bytes.reverse ++ writer.filled, rest := writer.rest.drop bytes.length } := by
  by_cases hroom : bytes.length ≤ writer.rest.length
  · rw [h.emits writer hposition hroom] at hrun
    exact ⟨hroom, (Prod.mk.inj hrun).2.symm⟩
  · have hfail := h.overruns writer hposition (Nat.lt_of_not_le hroom)
    rw [hrun] at hfail
    cases hfail

open Reader (Covers)

/-- The counterpart of a step reads what the step has filled as the value that was written. -/
theorem Step.run_reading (step : Step) {reader last : Reader}
    (hcov : reader.Covers (step.bytes reader.position) last)
    (hin : reader.position ≤ reader.length) :
    reader.run step.reading.program = (.ok step.found, last) := by
  cases step with
  | write type value holds =>
    exact ((Reader.reads_read holds).map Reader.Found.number) reader last hcov
  | align boundary positive =>
    have hbound := hcov.bound hin
    rw [hcov.2]
    rw [bytes, List.length_replicate] at hbound ⊢
    rw [reading, Reader.Step.run_program _ hin, if_pos]
    · rfl
    · simp only [Reader.Step.reach, Reader.length]
      omega

/-- The counterparts of steps read what the steps have filled as the values that were written. -/
theorem run_readings (steps : List Step) {reader last : Reader}
    (hcov : reader.Covers (bytesOf reader.position steps) last)
    (hin : reader.position ≤ reader.length) :
    reader.run (steps.mapM fun step => step.reading.program)
      = (.ok (steps.map Step.found), last) := by
  induction steps generalizing reader with
  | nil =>
    rw [List.mapM_nil, Reader.run_pure, hcov.2]
    exact congrArg (Prod.mk _) reader.moveTo_position_self.symm
  | cons step rest ih =>
    obtain ⟨middle, hfirst, hrest⟩ := hcov.split
    have hinside := hfirst.bound hin
    obtain rfl := hfirst.2
    rw [List.mapM_cons]
    refine Reader.run_bind_eq_ok.mpr ⟨_, _, step.run_reading hfirst hin, ?_⟩
    exact Reader.run_bind_eq_ok.mpr ⟨_, _, ih hrest hinside, rfl⟩

section Succeeding

variable {buffer : List UInt8} {steps : List Step} {last : Writer}

/-- Steps that succeed leave what they fill at the start of the buffer, and the rest as it was. -/
theorem buffer_of_steps (hrun : (ofBuffer buffer).run (steps.forM Step.program) = (.ok (), last)) :
    (bytesOf 0 steps).length ≤ buffer.length
      ∧ last.position = (bytesOf 0 steps).length
      ∧ last.buffer = bytesOf 0 steps ++ buffer.drop (bytesOf 0 steps).length := by
  obtain ⟨hroom, rfl⟩ := (fills_bytesOf 0 steps).eq_of_run rfl hrun
  refine ⟨hroom, ?_, ?_⟩
  · simp [position, ofBuffer]
  · simp [buffer_eq, ofBuffer]

/-- Of steps that succeed, the first ones lead the writing cursor to where their counterparts lead a
reading cursor, and the next one fills the bytes from there on. -/
theorem exists_mirrored (hrun : (ofBuffer buffer).run (steps.forM Step.program) = (.ok (), last))
    (count : Nat) :
    ∃ writer : Writer,
      (ofBuffer buffer).run ((steps.take count).forM Step.program) = (.ok (), writer)
        ∧ (Reader.start last.buffer).run ((steps.take count).mapM fun step => step.reading.program)
          = (.ok ((steps.take count).map Step.found),
              (Reader.start last.buffer).moveTo writer.position)
        ∧ ∀ step, steps[count]? = some step →
          ∃ rest, last.buffer.drop writer.position = step.bytes writer.position ++ rest := by
  obtain ⟨hroom, -, hbuffer⟩ := buffer_of_steps hrun
  generalize hfirst : bytesOf 0 (steps.take count) = first
  have hsplit : bytesOf 0 steps = first ++ bytesOf first.length (steps.drop count) := by
    have happend := bytesOf_append 0 (steps.take count) (steps.drop count)
    rwa [List.take_append_drop, Nat.zero_add, hfirst] at happend
  have hwriter := (fills_bytesOf 0 (steps.take count)).emits (ofBuffer buffer) rfl
  rw [hfirst] at hwriter
  have hfits : first.length ≤ buffer.length := by
    rw [hsplit, List.length_append] at hroom
    omega
  obtain ⟨-, hposition, -⟩ := buffer_of_steps (hwriter hfits)
  rw [hfirst] at hposition
  rw [hsplit, List.append_assoc] at hbuffer
  refine ⟨_, hwriter hfits, ?_, ?_⟩
  · rw [hposition, hbuffer]
    refine run_readings (steps.take count) ?_ (Nat.zero_le _)
    rw [Reader.start_position, hfirst]
    exact ⟨⟨_, rfl⟩, by rw [Reader.start_position, Nat.zero_add]⟩
  · intro step hnext
    obtain ⟨hin, rfl⟩ := List.getElem?_eq_some_iff.mp hnext
    rw [hposition, hbuffer, List.drop_left, List.drop_eq_getElem_cons hin, bytesOf,
      List.append_assoc]
    exact ⟨_, rfl⟩

end Succeeding

end Writer

open Writer in
/-- Whenever a list of writing steps succeeds on a buffer, the buffer keeps its size and its bytes
behind the last position. After every number of these steps the writing cursor stands where the
reading counterparts of the same steps lead a cursor over the final buffer, and those return the
values that were written. If aligning comes next, it has filled its padding with zeros.

Whatever steps are taken with a reading or a writing cursor, whichever of them fail, the bytes and
their number stay and the position does not exceed it. A step that fails leaves the cursor as it is,
and fails because it would have left the bytes. Within 2⁶³ bytes, where every buffer lies, aligning
to a 64-bit boundary adds up to no more than 64 bits. -/
theorem cursors_mirror :
    (∀ (buffer : List UInt8) (steps : List Writer.Step) (last : Writer),
      (ofBuffer buffer).run (steps.forM Writer.Step.program) = (.ok (), last) →
        last.buffer.length = buffer.length
          ∧ last.buffer.drop last.position = buffer.drop last.position
          ∧ ∀ count ≤ steps.length, ∃ writer : Writer,
            (ofBuffer buffer).run ((steps.take count).forM Writer.Step.program) = (.ok (), writer)
              ∧ (Reader.start last.buffer).run
                  ((steps.take count).mapM fun step => step.reading.program)
                = (.ok ((steps.take count).map Writer.Step.found),
                    (Reader.start last.buffer).moveTo writer.position)
              ∧ ∀ boundary positive, steps[count]? = some (.align boundary positive) →
                ∀ offset < padding boundary writer.position,
                  last.buffer[writer.position + offset]? = some 0)
      ∧ (∀ (data : List UInt8) (steps : List Reader.Step) (reader : Reader),
          (Reader.start data).afterSteps steps = reader →
            reader.data = data ∧ reader.position ≤ data.length
              ∧ ∀ (step : Reader.Step) (cause : Error) (last : Reader),
                reader.run step.program = (.error cause, last) →
                  last = reader ∧ cause = .outOfBounds
                    ∧ ¬ (0 ≤ step.reach reader.position
                      ∧ step.reach reader.position ≤ data.length))
      ∧ (∀ (buffer : List UInt8) (steps : List Writer.Step) (writer : Writer),
          (ofBuffer buffer).afterSteps steps = writer →
            writer.buffer.length = buffer.length ∧ writer.position ≤ buffer.length
              ∧ ∀ (step : Writer.Step) (cause : Error) (last : Writer),
                writer.run step.program = (.error cause, last) →
                  last = writer ∧ cause = .outOfBounds
                    ∧ buffer.length < writer.position + (step.bytes writer.position).length)
      ∧ ∀ position boundary : Nat, 2 * position < UInt64.size → boundary < UInt64.size →
          position + padding boundary position < UInt64.size := by
  refine ⟨?_, ?_, ?_, fun position boundary => add_padding_lt_size⟩
  · intro buffer steps last hrun
    obtain ⟨hroom, hposition, hbuffer⟩ := buffer_of_steps hrun
    refine ⟨?_, ?_, ?_⟩
    · rw [hbuffer, List.length_append, List.length_drop]
      omega
    · rw [hposition, hbuffer, List.drop_left]
    · intro count _
      -- the first steps of the run, and the readings that go with them
      obtain ⟨writer, hwriter, hreader, hnext⟩ := exists_mirrored hrun count
      refine ⟨writer, hwriter, hreader, ?_⟩
      intro boundary positive halign offset hoffset
      obtain ⟨rest, hrest⟩ := hnext _ halign
      have hzero : (List.replicate (padding boundary writer.position) 0 ++ rest)[offset]?
          = some (0 : UInt8) := by
        rw [List.getElem?_append_left (by rwa [List.length_replicate]),
          List.getElem?_replicate_of_lt hoffset]
      rwa [← List.getElem?_drop, hrest]
  · rintro data steps reader rfl
    obtain ⟨hdata, hin⟩ := (Reader.start data).afterSteps_within steps (Nat.zero_le _)
    have hlength : ((Reader.start data).afterSteps steps).length = data.length :=
      congrArg List.length hdata
    refine ⟨hdata, hin, ?_⟩
    intro step cause last hrun
    rw [← hlength]
    exact Reader.Step.eq_of_error (hlength ▸ hin) hrun
  · rintro buffer steps writer rfl
    have hlength : ((ofBuffer buffer).afterSteps steps).length = buffer.length := by
      rw [length_afterSteps, ← length_buffer, buffer_ofBuffer]
    rw [length_buffer, ← hlength]
    exact ⟨rfl, position_le_length _, fun step cause last => Step.eq_of_error⟩

/-- A byte, a negative half word at the next multiple of four, and the way to the one behind it. -/
def alignedWords : List Writer.Step :=
  [.write .u8 0x2A (by decide), .align 4 (by decide), .write .i16 (-2) (by decide),
    .align 4 (by decide)]

open Writer in
/-- Two numbers with padding behind them are written into a larger buffer and read back. -/
theorem cursors_mirror_alignedWords :
    ∃ last : Writer,
      (ofBuffer (List.replicate 10 0xFF)).run (alignedWords.forM Step.program) = (.ok (), last)
        ∧ last.buffer = [0x2A, 0, 0, 0, 0xFE, 0xFF, 0, 0, 0xFF, 0xFF]
        ∧ (Reader.start last.buffer).run (alignedWords.mapM fun step => step.reading.program)
          = (.ok [.number 0x2A, .nothing, .number (-2), .nothing],
              (Reader.start last.buffer).moveTo 8) := by
  have hrun : (ofBuffer (List.replicate 10 0xFF)).run (alignedWords.forM Step.program)
      = (.ok (), { filled := [0, 0, 0xFF, 0xFE, 0, 0, 0, 0x2A], rest := [0xFF, 0xFF] }) := by
    decide +kernel
  obtain ⟨-, -, hmirrored⟩ := cursors_mirror.1 _ _ _ hrun
  obtain ⟨writer, hwriter, hreader, -⟩ := hmirrored 4 (by decide)
  obtain rfl : writer = _ := (Prod.mk.inj (hwriter.symm.trans hrun)).2
  exact ⟨_, hrun, rfl, hreader⟩

end CilCoverage
