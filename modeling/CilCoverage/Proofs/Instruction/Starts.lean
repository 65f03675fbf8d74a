import CilCoverage.Proofs.Instruction.Codec

/-!
# Where instructions start

`Instruction.startOf` is the offset of the instruction at a position of a list, if the instructions
lie one behind the other: the sum of the sizes before it. Positions up to the length of the list
count, the last one being the end of the code. The starts of instructions that take up room are
strictly increasing (`startOf_lt_startOf`), so an offset is the start of at most one of them
(`startOf_inj`).
-/

set_option autoImplicit false

namespace CilCoverage

namespace Instruction

/-- Offset of the instruction at a position, counted from the first instruction. -/
def startOf (instructions : List Instruction) (position : Nat) : Nat :=
  ((instructions.take position).map size).sum

/-- The first instruction starts at 0. -/
theorem startOf_zero (instructions : List Instruction) : startOf instructions 0 = 0 := rfl

/-- Behind its first instruction the rest of a list is moved by the size of that. -/
theorem startOf_cons (instruction : Instruction) (rest : List Instruction) (position : Nat) :
    startOf (instruction :: rest) (position + 1) = instruction.size + startOf rest position := by
  simp [startOf]

/-- The next instruction starts where this one ends. -/
theorem startOf_succ {instructions : List Instruction} {instruction : Instruction} {k : Nat}
    (hk : instructions[k]? = some instruction) :
    startOf instructions (k + 1) = startOf instructions k + instruction.size := by
  simp [startOf, List.take_add_one, hk]

/-- The code ends at the sum of all sizes. -/
theorem startOf_length (instructions : List Instruction) :
    startOf instructions instructions.length = (instructions.map size).sum := by
  simp [startOf]

/-- Only the sizes matter. -/
theorem startOf_congr {a b : List Instruction} (hsize : a.map size = b.map size) :
    startOf a = startOf b := by
  funext position
  rw [startOf, startOf, List.map_take, List.map_take, hsize]

/-- Where an instruction starts does not depend on what follows. -/
theorem startOf_append_left {a b : List Instruction} {k : Nat} (hk : k ≤ a.length) :
    startOf (a ++ b) k = startOf a k := by
  rw [startOf, List.take_append_of_le_length hk, startOf]

/-- Later instructions do not start earlier. -/
theorem startOf_le_startOf (instructions : List Instruction) {i j : Nat} (hij : i ≤ j) :
    startOf instructions i ≤ startOf instructions j := by
  induction instructions generalizing i j with
  | nil => simp [startOf]
  | cons instruction rest ih =>
    cases i with
    | zero => simp [startOf]
    | succ i =>
      cases j with
      | zero => omega
      | succ j =>
        rw [startOf_cons, startOf_cons]
        have := ih (Nat.le_of_succ_le_succ hij)
        omega

/-- Later instructions start later if all of them take bytes. -/
theorem startOf_lt_startOf {instructions : List Instruction}
    (hpos : ∀ instruction ∈ instructions, 0 < instruction.size) {i j : Nat} (hij : i < j)
    (hj : j ≤ instructions.length) : startOf instructions i < startOf instructions j := by
  obtain ⟨instruction, hi⟩ : ∃ instruction, instructions[i]? = some instruction :=
    ⟨_, List.getElem?_eq_getElem (by omega)⟩
  calc startOf instructions i
      < startOf instructions i + instruction.size := by
        have := hpos instruction (List.mem_of_getElem? hi)
        omega
    _ = startOf instructions (i + 1) := (startOf_succ hi).symm
    _ ≤ startOf instructions j := startOf_le_startOf instructions hij

/-- No two instructions start at one offset if all of them take bytes. -/
theorem startOf_inj {instructions : List Instruction}
    (hpos : ∀ instruction ∈ instructions, 0 < instruction.size) {i j : Nat}
    (hi : i ≤ instructions.length) (hj : j ≤ instructions.length)
    (heq : startOf instructions i = startOf instructions j) : i = j := by
  rcases Nat.lt_trichotomy i j with hlt | rfl | hgt
  · have := startOf_lt_startOf hpos hlt hj
    omega
  · rfl
  · have := startOf_lt_startOf hpos hgt hi
    omega

/-- A stream holds all instructions. -/
theorem length_streamed (offset : Nat) (instructions : List Instruction) :
    (streamed offset instructions).length = instructions.length := by
  induction instructions generalizing offset with
  | nil => rfl
  | cons instruction rest ih => simp [streamed, ih]

/-- An instruction is streamed where it starts. -/
theorem getElem?_streamed (offset : Nat) (instructions : List Instruction) (k : Nat) :
    (streamed offset instructions)[k]?
      = instructions[k]?.map fun instruction =>
          instruction.readAs (offset + startOf instructions k) := by
  induction instructions generalizing offset k with
  | nil => simp [streamed]
  | cons instruction rest ih =>
    cases k with
    | zero => simp [streamed, startOf_zero]
    | succ k =>
      rw [streamed, List.getElem?_cons_succ, List.getElem?_cons_succ, ih, startOf_cons,
        Nat.add_assoc]

/-- Instructions with complete jump tables take as many bytes as their sizes say. -/
theorem map_length_bytes {instructions : List Instruction}
    (htabled : ∀ instruction ∈ instructions, instruction.Tabled) :
    (instructions.map fun instruction => instruction.bytes.length) = instructions.map size :=
  List.map_congr_left fun instruction hmem => (htabled instruction hmem).length_bytes

/-- The bytes of such instructions end where the last of them does. -/
theorem length_flatMap_bytes {instructions : List Instruction}
    (htabled : ∀ instruction ∈ instructions, instruction.Tabled) :
    (instructions.flatMap bytes).length = startOf instructions instructions.length := by
  rw [startOf_length, List.length_flatMap, map_length_bytes htabled]

/-- A stream of such instructions is laid out like them. -/
theorem startOf_streamed {instructions : List Instruction}
    (htabled : ∀ instruction ∈ instructions, instruction.Tabled) (offset : Nat) :
    startOf (streamed offset instructions) = startOf instructions := by
  apply startOf_congr
  induction instructions generalizing offset with
  | nil => rfl
  | cons instruction rest ih =>
    rw [List.forall_mem_cons] at htabled
    rw [streamed, List.map_cons, List.map_cons, ih htabled.2, htabled.1.size_readAs]

end Instruction

end CilCoverage
