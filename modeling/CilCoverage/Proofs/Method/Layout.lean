import CilCoverage.Method.Layout
import CilCoverage.Proofs.Instruction.Starts

/-!
# What laying out does

`Method.layOut` places the instructions one behind the other in execution order and aims the
branches at the places of their targets. Aiming writes displacements only into fields that have the
same width for all of them, so the sizes that the offsets were computed from are still right
afterwards (`Steady.size_aimed`), and opcodes and targets are left alone (`opcode_aimed`,
`targets_aimed`). The exception is a `switch` with targets that announces another number of cases:
aiming sets its operand, and with it its size.

`Method.InPlace` is the agreement of offsets, displacements and code size that `layOut` brings about
(`Ordered.inPlace_layOut`) and leaves alone (`InPlace.layOut_eq`). Its offsets are reduced to 64
bits. If every `switch` counts its targets, then the code is smaller than the memory that the
instructions take (`AllCounted.startOf_le_footprint`), and the reduction makes no difference: the
method is `Method.Laid`, with each instruction at the very sum of the sizes before it
(`Ordered.laid_layOut`).
-/

set_option autoImplicit false

namespace CilCoverage

open Instruction

/-- The size of the instruction in a slot. -/
def sizeAt (slots : Array Instruction) (handle : Handle) : Nat :=
  (slots[handle]?.map Instruction.size).getD 0

section Placing

variable (inMemory : Bool) (slots : Array Instruction) (position : Int)

/-- The offset 0 stays what it is. -/
@[simp] theorem offsetWord_zero : offsetWord inMemory 0 = 0 := by
  cases inMemory <;> rfl

/-- Sums may be reduced to 64 bits on the way. -/
theorem offsetWord_add (sum size : Int) :
    offsetWord inMemory (offsetWord inMemory sum + size) = offsetWord inMemory (sum + size) := by
  cases inMemory with
  | false => rfl
  | true => exact Int.bmod_add_bmod

/-- Reducing to 64 bits twice is reducing once. -/
theorem offsetWord_offsetWord (sum : Int) :
    offsetWord inMemory (offsetWord inMemory sum) = offsetWord inMemory sum := by
  have hadd := offsetWord_add inMemory sum 0
  rwa [Int.add_zero, Int.add_zero] at hadd

/-- A sum that 64 bits hold is not changed. -/
theorem offsetWord_of_lt {sum : Nat} (hsum : sum < 2 ^ 63) : offsetWord inMemory sum = sum := by
  cases inMemory with
  | false => rfl
  | true =>
    have hsize : UInt64.size = 2 ^ 64 := rfl
    have hlow : -(UInt64.size : Int) ≤ (sum : Int) * 2 := by omega
    have hhigh : (sum : Int) * 2 < (UInt64.size : Int) := by omega
    rw [offsetWord, if_pos rfl, Int.bmod_eq_of_le_mul_two hlow hhigh]

/-- The code size of a position that no 64 bits reduced. -/
theorem codeSizeAt_natCast (position : Nat) :
    codeSizeAt position = UInt32.ofNat (min position (UInt32.size - 1)) := by
  have hsize : UInt32.size = 2 ^ 32 := rfl
  rw [codeSizeAt]
  split
  · rw [Int.toNat_natCast, Nat.min_eq_left (by omega)]
  · rw [Nat.min_eq_right (by omega)]

/-- Placing an instruction changes no size. -/
theorem sizeAt_modify (handle : Handle) (offset : Int) :
    sizeAt (slots.modify handle fun instruction => { instruction with offset }) = sizeAt slots := by
  funext other
  unfold sizeAt
  rw [Array.getElem?_modify]
  split
  · cases slots[other]? <;> rfl
  · rfl

/-- The code ends at the sum of the sizes. -/
theorem placeFrom_snd (order : List Handle) (hword : offsetWord inMemory position = position) :
    (placeFrom inMemory position order slots).2
      = offsetWord inMemory (position + (order.map (sizeAt slots)).sum) := by
  induction order generalizing position slots with
  | nil => simp [placeFrom, hword]
  | cons handle rest ih =>
    rw [placeFrom, ih _ _ (offsetWord_offsetWord _ _), sizeAt_modify, offsetWord_add, List.map_cons,
      List.sum_cons, Int.natCast_add, ← Int.add_assoc]
    rfl

/-- To place instructions makes no slot. -/
theorem size_placeFrom (order : List Handle) :
    (placeFrom inMemory position order slots).1.size = slots.size := by
  induction order generalizing position slots with
  | nil => rfl
  | cons handle rest ih => rw [placeFrom, ih, Array.size_modify]

/-- Instructions that are not in execution order stay where they are. -/
theorem placeFrom_of_notMem {order : List Handle} {handle : Handle} (hout : handle ∉ order) :
    (placeFrom inMemory position order slots).1[handle]? = slots[handle]? := by
  induction order generalizing position slots with
  | nil => rfl
  | cons first rest ih =>
    rw [List.mem_cons, not_or] at hout
    rw [placeFrom, ih _ _ hout.2, Array.getElem?_modify, if_neg (Ne.symm hout.1)]

/-- Every instruction is placed behind those that come before it in execution order. -/
theorem placeFrom_of_getElem? {order : List Handle} (hnodup : order.Nodup)
    (hword : offsetWord inMemory position = position) {k : Nat} {handle : Handle}
    (hk : order[k]? = some handle) :
    (placeFrom inMemory position order slots).1[handle]?
      = slots[handle]?.map fun instruction =>
          { instruction with
            offset := offsetWord inMemory
              (position + ((order.take k).map (sizeAt slots)).sum) } := by
  induction order generalizing position slots k with
  | nil => cases hk
  | cons first rest ih =>
    obtain ⟨hfirst, hrest⟩ := List.nodup_cons.mp hnodup
    cases k with
    | zero =>
      cases hk
      rw [placeFrom, placeFrom_of_notMem _ _ _ hfirst, Array.getElem?_modify, if_pos rfl]
      simp [hword]
    | succ k =>
      rw [List.getElem?_cons_succ] at hk
      have hne : first ≠ handle := by
        rintro rfl
        exact hfirst (List.mem_of_getElem? hk)
      rw [placeFrom, ih _ _ hrest (offsetWord_offsetWord _ _) hk, sizeAt_modify,
        Array.getElem?_modify, if_neg hne, offsetWord_add, List.take_succ_cons, List.map_cons,
        List.sum_cons, Int.natCast_add, ← Int.add_assoc]
      rfl

end Placing

namespace Instruction

/-- The instruction at another offset. -/
def movedTo (instruction : Instruction) (offset : Int) : Instruction :=
  { instruction with offset }

section Aiming

variable (instruction : Instruction) (offsetOf : Handle → Int)

/-- The distances from the end of the instruction to its targets. -/
def distances : List Int :=
  instruction.targets.map fun target =>
    Int.bmod (offsetOf target - instruction.finish) UInt32.size

/-- A branch with targets gets the distances to them. -/
theorem aimed_of_branch
    (hbranch : (instruction.isBranch && !instruction.targets.isEmpty) = true) :
    instruction.aimed offsetOf = { instruction with
      operand := if instruction.opcode = .switch then (instruction.distances offsetOf).length
        else (instruction.distances offsetOf).headD 0
      displacements := instruction.distances offsetOf } := if_pos hbranch

/-- All other instructions stay as they are. -/
theorem aimed_of_not_branch
    (hbranch : ¬ (instruction.isBranch && !instruction.targets.isEmpty) = true) :
    instruction.aimed offsetOf = instruction := if_neg hbranch

/-- To aim an instruction keeps its opcode. -/
@[simp] theorem opcode_aimed : (instruction.aimed offsetOf).opcode = instruction.opcode := by
  unfold aimed
  split <;> rfl

/-- To aim an instruction keeps its offset. -/
@[simp] theorem offset_aimed : (instruction.aimed offsetOf).offset = instruction.offset := by
  unfold aimed
  split <;> rfl

/-- To aim an instruction keeps its origin. -/
@[simp] theorem origin_aimed : (instruction.aimed offsetOf).origin = instruction.origin := by
  unfold aimed
  split <;> rfl

/-- To aim an instruction keeps its targets. -/
@[simp] theorem targets_aimed : (instruction.aimed offsetOf).targets = instruction.targets := by
  unfold aimed
  split <;> rfl

end Aiming

/-- A `switch` counts its targets. -/
def Counted (instruction : Instruction) : Prop :=
  instruction.opcode = .switch → instruction.operand = instruction.targets.length

/-- A `switch` that has targets counts them, so that laying out does not change its operand. -/
def Steady (instruction : Instruction) : Prop :=
  instruction.opcode = .switch → instruction.targets ≠ [] →
    instruction.operand = instruction.targets.length

/-- A `switch` that counts its targets does so if it has some. -/
theorem Counted.steady {instruction : Instruction} (hc : instruction.Counted) :
    instruction.Steady :=
  fun hswitch _ => hc hswitch

/-- A steady `switch` keeps its operand. -/
theorem Steady.operand_aimed {instruction : Instruction} (hs : instruction.Steady)
    (offsetOf : Handle → Int) (hswitch : instruction.opcode = .switch) :
    (instruction.aimed offsetOf).operand = instruction.operand := by
  unfold Instruction.aimed
  split
  · rename_i hbranch
    rw [Bool.and_eq_true, Bool.not_eq_true', List.isEmpty_eq_false_iff] at hbranch
    rw [hs hswitch hbranch.2]
    simp
  · rfl

/-- A `switch` that counts its targets still does once it is aimed. -/
theorem Counted.aimed {instruction : Instruction} (hc : instruction.Counted)
    (offsetOf : Handle → Int) : (instruction.aimed offsetOf).Counted := by
  intro hswitch
  rw [opcode_aimed] at hswitch
  rw [hc.steady.operand_aimed offsetOf hswitch, targets_aimed, hc hswitch]

/-- Aiming a `switch` makes it count its targets, whatever it announced before. -/
theorem steady_aimed (instruction : Instruction) (offsetOf : Handle → Int) :
    (instruction.aimed offsetOf).Steady := by
  intro hswitch htargets
  rw [opcode_aimed] at hswitch
  rw [targets_aimed] at htargets ⊢
  have hbranch : (instruction.isBranch && !instruction.targets.isEmpty) = true := by
    rw [isBranch, hswitch, Bool.and_eq_true, Bool.not_eq_true', List.isEmpty_eq_false_iff]
    exact ⟨rfl, htargets⟩
  rw [aimed_of_branch _ _ hbranch]
  simp [hswitch, distances]

/-- An instruction that counts its targets has room for four bytes for each. -/
theorem Counted.size_eq {instruction : Instruction} (hc : instruction.Counted) :
    instruction.size = instruction.opcode.length + instruction.opcode.operandKind.size
      + 4 * if instruction.opcode = .switch then instruction.targets.length else 0 := by
  have hcount : instruction.caseCount
      = if instruction.opcode = .switch then instruction.targets.length else 0 := by
    rw [caseCount, CilCoverage.caseCount]
    split
    · rename_i hswitch
      rw [hc hswitch, Int.toNat_natCast]
    · rfl
  rw [size_eq_encodedSize, encodedSize, ← hcount]
  · rfl
  · rw [hcount]
    split <;> omega

/-- An instruction takes more memory than code, unless it announces cases that it does not have. -/
theorem Counted.size_le_footprint {instruction : Instruction} (hc : instruction.Counted) :
    instruction.size ≤ instruction.footprint := by
  have hle := encodedSize_le instruction.opcode 0
  rw [encodedSize, CilCoverage.caseCount, Int.toNat_zero, ite_self] at hle
  rw [hc.size_eq, footprint]
  split <;> omega

/-- Displacements have the same width whatever their value. -/
theorem Steady.size_aimed {instruction : Instruction} (hs : instruction.Steady)
    (offsetOf : Handle → Int) : (instruction.aimed offsetOf).size = instruction.size := by
  by_cases hbranch : (instruction.isBranch && !instruction.targets.isEmpty) = true
  · have hc : instruction.Counted := by
      rw [Bool.and_eq_true, Bool.not_eq_true', List.isEmpty_eq_false_iff] at hbranch
      exact fun hswitch => hs hswitch hbranch.2
    rw [(hc.aimed offsetOf).size_eq, hc.size_eq, opcode_aimed, targets_aimed]
  · rw [aimed_of_not_branch _ _ hbranch]

/-- Aiming once more at the same places changes nothing. -/
theorem Steady.aimed_aimed {instruction : Instruction} (hs : instruction.Steady)
    (offsetOf : Handle → Int) :
    (instruction.aimed offsetOf).aimed offsetOf = instruction.aimed offsetOf := by
  by_cases hbranch : (instruction.isBranch && !instruction.targets.isEmpty) = true
  · have hbranch' : ((instruction.aimed offsetOf).isBranch
        && !(instruction.aimed offsetOf).targets.isEmpty) = true := by
      rwa [isBranch, opcode_aimed, targets_aimed]
    have hsame : (instruction.aimed offsetOf).distances offsetOf
        = instruction.distances offsetOf := by
      rw [distances, distances, targets_aimed, finish, hs.size_aimed, offset_aimed, finish]
    rw [aimed_of_branch _ _ hbranch', hsame, opcode_aimed, aimed_of_branch _ _ hbranch]
  · rw [aimed_of_not_branch _ _ hbranch, aimed_of_not_branch _ _ hbranch]

end Instruction

namespace Method

/-- Every slot occurs exactly once in execution order. -/
structure Ordered (method : Method) : Prop where
  nodup : method.order.Nodup
  mem_iff : ∀ handle, handle ∈ method.order ↔ handle < method.slots.size

/-- Offsets, displacements and code size agree with the execution order, reduced to the 64 bits of
an offset. -/
structure InPlace (method : Method) : Prop where
  offset : ∀ {k : Nat} {handle : Handle}, method.order[k]? = some handle →
    method.offsetOf handle = offsetWord method.inMemory (startOf method.instructions k)
  aimed : ∀ handle ∈ method.order,
    (method.get handle).aimed method.offsetOf = method.get handle
  codeSize : method.header.codeSize
    = codeSizeAt (offsetWord method.inMemory (startOf method.instructions method.length))

/-- Offsets, displacements and code size agree with the execution order. -/
structure Laid (method : Method) : Prop where
  offset : ∀ {k : Nat} {handle : Handle}, method.order[k]? = some handle →
    method.offsetOf handle = startOf method.instructions k
  aimed : ∀ handle ∈ method.order,
    (method.get handle).aimed method.offsetOf = method.get handle
  codeSize : method.header.codeSize
    = UInt32.ofNat (min (startOf method.instructions method.length) (UInt32.size - 1))

/-- All instructions of the method that are a `switch` count their targets. -/
def AllCounted (method : Method) : Prop := ∀ handle, (method.get handle).Counted

/-- Those that have targets do. -/
def AllSteady (method : Method) : Prop := ∀ handle, (method.get handle).Steady

/-- Where all count their targets, those that have some do. -/
theorem AllCounted.steady {method : Method} (hc : method.AllCounted) : method.AllSteady :=
  fun handle => (hc handle).steady

/-- What holds of every slot holds of the instructions. -/
theorem forall_mem_instructions {method : Method} {p : Instruction → Prop}
    (h : ∀ handle, p (method.get handle)) : ∀ instruction ∈ method.instructions, p instruction := by
  intro instruction hmem
  obtain ⟨handle, -, rfl⟩ := List.mem_map.mp hmem
  exact h handle

/-- The memory that the instructions take adds up. -/
theorem footprint_eq_sum (method : Method) :
    method.footprint = (method.instructions.map Instruction.footprint).sum := by
  rw [List.sum_eq_foldr, List.foldr_map]
  rfl

/-- Code that counts its targets is smaller than the memory that it takes. -/
theorem AllCounted.startOf_le_footprint {method : Method} (hc : method.AllCounted) (k : Nat) :
    startOf method.instructions k ≤ method.footprint := by
  calc startOf method.instructions k
      ≤ (method.instructions.map size).sum :=
        ((List.take_sublist k _).map size).sum_le_sum fun _ _ => Nat.zero_le _
    _ ≤ (method.instructions.map Instruction.footprint).sum :=
        List.sum_le_sum (forall_mem_instructions fun handle => (hc handle).size_le_footprint)
    _ = method.footprint := method.footprint_eq_sum.symm

/-- Such code does not come to the limits of an offset. -/
theorem AllCounted.offsetWord_startOf {method : Method} (hc : method.AllCounted) (k : Nat) :
    offsetWord method.inMemory (startOf method.instructions k) = startOf method.instructions k := by
  by_cases hmemory : method.inMemory = true
  · have hlt : method.footprint < 2 ^ 63 := of_decide_eq_true hmemory
    exact offsetWord_of_lt _ (Nat.lt_of_le_of_lt (hc.startOf_le_footprint k) hlt)
  · rw [Bool.not_eq_true] at hmemory
    rw [hmemory]
    rfl

/-- For such code, the offsets are the sums themselves. -/
theorem AllCounted.inPlace_iff_laid {method : Method} (hc : method.AllCounted) :
    method.InPlace ↔ method.Laid := by
  constructor
  · intro hs
    refine ⟨fun hk => (hs.offset hk).trans (hc.offsetWord_startOf _), hs.aimed, ?_⟩
    rw [hs.codeSize, hc.offsetWord_startOf, codeSizeAt_natCast]
  · intro hl
    refine ⟨fun hk => (hl.offset hk).trans (hc.offsetWord_startOf _).symm, hl.aimed, ?_⟩
    rw [hl.codeSize, hc.offsetWord_startOf, codeSizeAt_natCast]

/-- The slots hold the instructions. -/
theorem get_of_lt {method : Method} {handle : Handle} (hlt : handle < method.slots.size) :
    method.slots[handle]? = some (method.get handle) := by
  rw [get, get?, Array.getElem?_eq_getElem hlt]
  rfl

/-- Handles outside of the execution order hold no instruction. -/
theorem Ordered.get_of_notMem {method : Method} (ho : method.Ordered) {handle : Handle}
    (hout : handle ∉ method.order) : method.get handle = .label (-1) := by
  have hle := Nat.le_of_not_lt ((ho.mem_iff handle).not.mp hout)
  rw [get, get?, Array.getElem?_eq_none hle]
  rfl

/-- What is listed is a slot. -/
theorem Ordered.lt_of_getElem? {method : Method} (ho : method.Ordered) {k : Nat} {handle : Handle}
    (hk : method.order[k]? = some handle) : handle < method.slots.size :=
  (ho.mem_iff handle).mp (List.mem_of_getElem? hk)

/-- A handle is found where it is listed. -/
theorem Ordered.idxOf_eq {method : Method} (ho : method.Ordered) {k : Nat} {handle : Handle}
    (hk : method.order[k]? = some handle) : method.order.idxOf handle = k := by
  obtain ⟨hlt, rfl⟩ := List.getElem?_eq_some_iff.mp hk
  exact ho.nodup.idxOf_getElem k hlt

/-- A handle is listed where it is found. -/
theorem getElem?_idxOf {method : Method} {handle : Handle} (hmem : handle ∈ method.order) :
    method.order[method.order.idxOf handle]? = some handle := by
  have hlt := List.idxOf_lt_length_of_mem hmem
  rw [List.getElem?_eq_getElem hlt, List.getElem_idxOf]

/-- A handle has the position at which it is listed. -/
theorem Ordered.position?_of_getElem? {method : Method} (ho : method.Ordered) {k : Nat}
    {handle : Handle} (hk : method.order[k]? = some handle) : method.position? handle = some k := by
  obtain ⟨hlt, rfl⟩ := List.getElem?_eq_some_iff.mp hk
  refine List.idxOf?_eq_some_iff.mpr ⟨hlt, rfl, ?_⟩
  intro j hj heq
  exact absurd ((ho.nodup.getElem_inj_iff).mp heq) (Nat.ne_of_lt hj)

/-- A handle is followed by what is listed next. -/
theorem Ordered.next?_of_getElem? {method : Method} (ho : method.Ordered) {k : Nat}
    {handle : Handle} (hk : method.order[k]? = some handle) :
    method.next? handle = method.order[k + 1]? := by
  rw [next?, ho.position?_of_getElem? hk]

/-- The size in a slot is that of its instruction. -/
theorem size_get (method : Method) : sizeAt method.slots = fun handle => (method.get handle).size := by
  funext handle
  unfold sizeAt get get?
  cases method.slots[handle]? <;> rfl

/-- Where an instruction starts depends on the sizes in the slots. -/
theorem startOf_instructions (method : Method) (k : Nat) :
    startOf method.instructions k = ((method.order.take k).map (sizeAt method.slots)).sum := by
  rw [startOf, instructions, ← List.map_take, List.map_map, size_get]
  rfl

/-- The instructions are those of the listed handles. -/
theorem getElem?_instructions {method : Method} {k : Nat} {handle : Handle}
    (hk : method.order[k]? = some handle) : method.instructions[k]? = some (method.get handle) := by
  rw [instructions, List.getElem?_map, hk]
  rfl

/-- The slots once the instructions have been placed. -/
def placed (method : Method) : Array Instruction :=
  (placeFrom method.inMemory 0 method.order method.slots).1

/-- Laying out gives the offsets at which instructions are placed. -/
theorem offsetOf_layOut (method : Method) (handle : Handle) :
    method.layOut.offsetOf handle = (method.placed[handle]?.map Instruction.offset).getD (-1) := by
  show ((Array.map (Instruction.aimed · _) method.placed)[handle]?.getD _).offset = _
  rw [Array.getElem?_map]
  cases method.placed[handle]? with
  | none => rfl
  | some instruction => exact offset_aimed _ _

/-- Laying out aims the placed instructions at these offsets. -/
theorem slots_layOut (method : Method) :
    method.layOut.slots
      = method.placed.map fun instruction => instruction.aimed method.layOut.offsetOf := by
  have hsame : method.layOut.offsetOf = fun handle =>
      (method.placed[handle]?.map Instruction.offset).getD (-1) := by
    funext handle
    exact method.offsetOf_layOut handle
  rw [hsame]
  rfl

/-- A laid out instruction is moved to where it starts and aimed. -/
theorem Ordered.get_layOut {method : Method} (ho : method.Ordered) {k : Nat} {handle : Handle}
    (hk : method.order[k]? = some handle) :
    method.layOut.get handle
      = ((method.get handle).movedTo
          (offsetWord method.inMemory (startOf method.instructions k))).aimed
          method.layOut.offsetOf := by
  have hplaced := placeFrom_of_getElem? method.inMemory method.slots 0 ho.nodup (offsetWord_zero _) hk
  rw [Int.zero_add, ← startOf_instructions, get_of_lt (ho.lt_of_getElem? hk)] at hplaced
  change method.placed[handle]? = _ at hplaced
  conv_lhs => rw [get, get?, slots_layOut, Array.getElem?_map, hplaced]
  rfl

/-- Laying out changes an instruction only by moving and aiming it. -/
theorem Ordered.exists_get_layOut {method : Method} (ho : method.Ordered) (handle : Handle) :
    ∃ offset : Int, method.layOut.get handle
      = ((method.get handle).movedTo offset).aimed method.layOut.offsetOf := by
  by_cases hlt : handle < method.slots.size
  · obtain ⟨k, hk⟩ := List.getElem?_of_mem ((ho.mem_iff handle).mpr hlt)
    exact ⟨_, ho.get_layOut hk⟩
  · have hout : method.slots.size ≤ handle := Nat.le_of_not_lt hlt
    have hsize : method.placed.size = method.slots.size := size_placeFrom _ _ _ _
    refine ⟨-1, ?_⟩
    rw [get, get?, slots_layOut, Array.getElem?_map, Array.getElem?_eq_none (hsize ▸ hout), get,
      get?, Array.getElem?_eq_none hout]
    rfl

/-- Laying out makes no slot. -/
theorem size_slots_layOut (method : Method) : method.layOut.slots.size = method.slots.size := by
  rw [slots_layOut, Array.size_map, placed, size_placeFrom]

/-- Laying out leaves every slot listed once. -/
theorem Ordered.layOut {method : Method} (ho : method.Ordered) : method.layOut.Ordered := by
  refine ⟨ho.nodup, ?_⟩
  intro handle
  rw [size_slots_layOut]
  exact ho.mem_iff handle

/-- Laying out changes the code only by moving and aiming the instructions. -/
theorem map_instructions_layOut {α : Type} {method : Method} (ho : method.Ordered)
    {f : Instruction → α}
    (hf : ∀ handle ∈ method.order, ∀ (offset : Int) (offsetOf : Handle → Int),
      f (((method.get handle).movedTo offset).aimed offsetOf) = f (method.get handle)) :
    method.layOut.instructions.map f = method.instructions.map f := by
  rw [instructions, instructions, List.map_map, List.map_map]
  apply List.map_congr_left
  intro handle hmem
  obtain ⟨offset, hget⟩ := ho.exists_get_layOut handle
  show f (method.layOut.get handle) = f (method.get handle)
  rw [hget]
  exact hf handle hmem offset _

/-- Laying out does not change sizes, so the places it computed are those of its result. -/
theorem sizes_layOut {method : Method} (ho : method.Ordered) (hs : method.AllSteady) :
    method.layOut.instructions.map size = method.instructions.map size := by
  apply map_instructions_layOut ho
  intro handle _ offset offsetOf
  have hsteady : ((method.get handle).movedTo offset).Steady := hs handle
  exact hsteady.size_aimed offsetOf

/-- Laying out takes no memory. -/
theorem inMemory_layOut {method : Method} (ho : method.Ordered) :
    method.layOut.inMemory = method.inMemory := by
  have hsame : method.layOut.footprint = method.footprint := by
    rw [footprint_eq_sum, footprint_eq_sum]
    apply congrArg List.sum
    apply map_instructions_layOut ho
    intro handle _ offset offsetOf
    rw [Instruction.footprint, targets_aimed]
    rfl
  rw [inMemory, hsame, inMemory]

/-- The code size that laying out writes into the header. -/
theorem codeSize_layOut (method : Method) :
    method.layOut.header.codeSize
      = codeSizeAt (offsetWord method.inMemory (startOf method.instructions method.length)) := by
  show codeSizeAt (placeFrom method.inMemory 0 method.order method.slots).2 = _
  rw [placeFrom_snd _ _ _ _ (offsetWord_zero _), Int.zero_add, startOf_instructions, length,
    List.take_length]

/-- Laying out brings offsets, displacements and code size into agreement. -/
theorem Ordered.inPlace_layOut {method : Method} (ho : method.Ordered) (hs : method.AllSteady) :
    method.layOut.InPlace := by
  have hstart := startOf_congr (sizes_layOut ho hs)
  constructor
  · intro k handle hk
    rw [offsetOf, ho.get_layOut hk, offset_aimed, hstart, inMemory_layOut ho]
    rfl
  · intro handle hmem
    obtain ⟨k, hk⟩ := List.getElem?_of_mem (show handle ∈ method.order from hmem)
    have hsteady : ((method.get handle).movedTo
        (offsetWord method.inMemory (startOf method.instructions k))).Steady := hs handle
    rw [ho.get_layOut hk, hsteady.aimed_aimed]
  · rw [hstart, inMemory_layOut ho, codeSize_layOut]
    rfl

/-- Laying out a method whose instructions are in place changes nothing. -/
theorem InPlace.layOut_eq {method : Method} (hs : method.InPlace) (ho : method.Ordered) :
    method.layOut = method := by
  have hcode : method.layOut.header.codeSize = method.header.codeSize := by
    rw [hs.codeSize, codeSize_layOut]
  have hmoved {k : Nat} {handle : Handle} (hk : method.order[k]? = some handle) :
      (method.get handle).movedTo (offsetWord method.inMemory (startOf method.instructions k))
        = method.get handle := by
    rw [← hs.offset hk]
    rfl
  have hoffsets : method.layOut.offsetOf = method.offsetOf := by
    funext handle
    by_cases hmem : handle ∈ method.order
    · obtain ⟨k, hk⟩ := List.getElem?_of_mem hmem
      rw [offsetOf, ho.get_layOut hk, offset_aimed, hs.offset hk]
      rfl
    · have hout : handle ∉ method.layOut.order := hmem
      rw [offsetOf, ho.layOut.get_of_notMem hout, offsetOf, ho.get_of_notMem hmem]
  have hslots : method.layOut.slots = method.slots := by
    apply Array.ext (size_slots_layOut method)
    intro handle hlt hlt'
    have hmem := (ho.mem_iff handle).mpr hlt'
    obtain ⟨k, hk⟩ := List.getElem?_of_mem hmem
    have hget : method.layOut.get handle = method.get handle := by
      rw [ho.get_layOut hk, hmoved hk, hoffsets, hs.aimed handle hmem]
    apply Option.some.inj
    rw [← Array.getElem?_eq_getElem hlt, ← Array.getElem?_eq_getElem hlt', get_of_lt hlt,
      get_of_lt hlt', hget]
  show { method with
    header := { method.header with codeSize := method.layOut.header.codeSize }
    slots := method.layOut.slots } = method
  rw [hcode, hslots]

/-- Laying out leaves every `switch` with the count of its targets. -/
theorem AllCounted.layOut {method : Method} (hc : method.AllCounted) (ho : method.Ordered) :
    method.layOut.AllCounted := by
  intro handle
  obtain ⟨offset, hget⟩ := ho.exists_get_layOut handle
  have hmoved : ((method.get handle).movedTo offset).Counted := hc handle
  rw [hget]
  exact hmoved.aimed _

/-- Laying out puts each instruction at the sum of the sizes before it, if each `switch` counts its
targets. -/
theorem Ordered.laid_layOut {method : Method} (ho : method.Ordered) (hc : method.AllCounted) :
    method.layOut.Laid :=
  (hc.layOut ho).inPlace_iff_laid.mp (ho.inPlace_layOut hc.steady)

/-- Laying out a method that is laid out changes nothing. -/
theorem Laid.layOut_eq {method : Method} (hl : method.Laid) (ho : method.Ordered)
    (hc : method.AllCounted) : method.layOut = method :=
  (hc.inPlace_iff_laid.mpr hl).layOut_eq ho

/-- The header tells the size of the code, as far as it can. -/
theorem Laid.codeSize_min {method : Method} (hl : method.Laid) :
    method.codeSize = min (startOf method.instructions method.length) (UInt32.size - 1) := by
  rw [Method.codeSize, hl.codeSize]
  apply UInt32.toNat_ofNat_of_lt'
  have hsize : UInt32.size = 4294967296 := rfl
  omega

/-- A code size below the largest one is that of the instructions. -/
theorem Laid.codeSize_eq {method : Method} (hl : method.Laid) (hsmall : method.codeSize < 2 ^ 31) :
    method.codeSize = startOf method.instructions method.length := by
  have hvalue := hl.codeSize_min
  have hsize : UInt32.size = 4294967296 := rfl
  omega

end Method

end CilCoverage
