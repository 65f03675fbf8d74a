import CilCoverage.Proofs.Method.Relinking

/-!
# Searching by offset

`partitionPoint` finds where a list that starts with the positions that are `before` stops being so
(`partitionPoint_spec`). The offsets of a method that is laid out do not decrease, so that
`Method.findByOffset?` comes to the first instruction at an offset (`Laid.findByOffset?_eq`), also
where a label shares it.
-/

set_option autoImplicit false

namespace CilCoverage

open Instruction

/-- The bisection comes to the end of the positions that are `before`, if these come first. -/
theorem partitionPoint_spec {before : Nat → Bool} {size base : Nat}
    (hfirst : ∀ i j, base ≤ i → i ≤ j → j < base + size → before j = true → before i = true) :
    partitionPoint before size base ≤ base + size
      ∧ (∀ i, base ≤ i → i < partitionPoint before size base → before i = true)
      ∧ ∀ i, partitionPoint before size base ≤ i → i < base + size → before i = false := by
  fun_induction partitionPoint before size base with
  | case1 size base hsmall hone =>
    simp only [Bool.and_eq_true, decide_eq_true_eq] at hone
    refine ⟨by omega, ?_, fun i _ _ => by omega⟩
    intro i hlow hhigh
    obtain rfl : i = base := by omega
    exact hone.2
  | case2 size base hsmall hnone =>
    refine ⟨by omega, fun i _ _ => by omega, ?_⟩
    intro i hlow hhigh
    obtain rfl : i = base := by omega
    obtain rfl : size = 1 := by omega
    simpa using hnone
  | case3 size base hlarge half ih =>
    have hhalf : half = size / 2 := rfl
    -- both halves leave the same size, and only a middle that is `before` moves the base
    by_cases hmiddle : before (base + half) = true
    · rw [dif_pos hmiddle] at ih
      rw [if_pos hmiddle]
      obtain ⟨hend, hbelow, habove⟩ := ih fun i j hi hij hj => hfirst i j (by omega) hij (by omega)
      refine ⟨by omega, ?_, fun i hi hlt => habove i hi (by omega)⟩
      intro i hi hlt
      by_cases hin : base + half ≤ i
      · exact hbelow i hin hlt
      · exact hfirst i (base + half) hi (by omega) (by omega) hmiddle
    · rw [dif_neg hmiddle] at ih
      rw [if_neg hmiddle]
      obtain ⟨hend, hbelow, habove⟩ := ih fun i j hi hij hj => hfirst i j hi hij (by omega)
      refine ⟨by omega, hbelow, ?_⟩
      intro i hi hlt
      by_cases hin : i < base + (size - half)
      · exact habove i hi hin
      · rw [Bool.eq_false_iff]
        intro hbefore
        exact hmiddle (hfirst (base + half) i (by omega) (by omega) hlt hbefore)

/-- The search depends on the answers only. -/
theorem partitionPoint_congr {f g : Nat → Bool} {size base : Nat} (h : ∀ k, f k = g k) :
    partitionPoint f size base = partitionPoint g size base := by
  rw [funext h]

/-- In a list that is ordered by its keys, the first element with a given key is the one at the
point where the keys stop being below it, if it has that key. -/
theorem find?_eq_filter_of_sorted {α : Type} {items : List α} {key : α → Int} {bound : Int}
    {point : Nat} (hsorted : items.Pairwise fun one other => key one ≤ key other)
    (hbelow : ∀ item ∈ items.take point, key item < bound)
    (hreached : ∀ item, items[point]? = some item → bound ≤ key item) :
    items.find? (fun item => key item == bound)
      = (items[point]?).filter fun item => key item == bound := by
  have hfront : (items.take point).find? (fun item => key item == bound) = none := by
    rw [List.find?_eq_none]
    intro item hmem
    rw [beq_iff_eq]
    exact Int.ne_of_lt (hbelow item hmem)
  rw [← List.head?_drop] at hreached ⊢
  have hbehind := hsorted.sublist (List.drop_sublist point items)
  conv_lhs => rw [← List.take_append_drop point items, List.find?_append, hfront, Option.none_or]
  cases hdrop : items.drop point with
  | nil => rfl
  | cons first rest =>
    rw [hdrop] at hreached hbehind
    by_cases hfirst : key first = bound
    · simp [Option.filter, hfirst]
    · have habove : bound < key first := by
        have hle := hreached first rfl
        omega
      have hrest : rest.find? (fun item => key item == bound) = none := by
        rw [List.find?_eq_none]
        intro item hmem
        rw [beq_iff_eq]
        exact Int.ne_of_gt (Int.lt_of_lt_of_le habove (List.rel_of_pairwise_cons hbehind hmem))
      simp [Option.filter, hfirst, hrest]

namespace Method

variable {method : Method}

/-- Offsets do not decrease along the order. -/
theorem Laid.offsetOf_mono (hl : method.Laid) {i j : Nat} {one other : Handle}
    (hone : method.order[i]? = some one) (hother : method.order[j]? = some other) (hij : i ≤ j) :
    method.offsetOf one ≤ method.offsetOf other := by
  rw [hl.offset hone, hl.offset hother, Int.ofNat_le]
  exact startOf_le_startOf _ hij

/-- The instructions are sorted by their offsets. -/
theorem Laid.sorted (hl : method.Laid) :
    method.order.Pairwise fun one other => method.offsetOf one ≤ method.offsetOf other := by
  rw [List.pairwise_iff_getElem]
  intro i j hi hj hij
  exact hl.offsetOf_mono (List.getElem?_eq_getElem hi) (List.getElem?_eq_getElem hj)
    (Nat.le_of_lt hij)

/-- Whether the instruction at a position starts before an offset. -/
def startsBefore (method : Method) (offset : Int) (position : Nat) : Bool :=
  (method.order[position]?).any fun handle => method.offsetOf handle < offset

/-- A position starts before an offset if its instruction does. -/
theorem startsBefore_iff {offset : Int} {position : Nat} {handle : Handle}
    (hat : method.order[position]? = some handle) :
    method.startsBefore offset position = true ↔ method.offsetOf handle < offset := by
  rw [startsBefore, hat, Option.any_some, decide_eq_true_eq]

/-- An offset is looked up at the partition point, and must be the one found there. -/
theorem findByOffset?_eq_filter (offset : Int) :
    method.findByOffset? offset
      = (method.order[partitionPoint (method.startsBefore offset) method.length 0]?).filter
          fun handle => method.offsetOf handle == offset := by
  unfold findByOffset?
  dsimp only
  rw [partitionPoint_congr (g := method.startsBefore offset)]
  · cases method.order[partitionPoint (method.startsBefore offset) method.length 0]? with
    | none => rfl
    | some handle => simp [Option.filter]
  · intro position
    rw [startsBefore]
    cases method.order[position]? <;> rfl

/-- The bisection comes to the first instruction that does not start before the offset. -/
theorem Laid.partitionPoint_startsBefore (hl : method.Laid) (offset : Int) :
    (∀ handle ∈ method.order.take
        (partitionPoint (method.startsBefore offset) method.length 0),
      method.offsetOf handle < offset)
      ∧ ∀ handle, method.order[partitionPoint (method.startsBefore offset) method.length 0]?
          = some handle → offset ≤ method.offsetOf handle := by
  have hfirst : ∀ i j, 0 ≤ i → i ≤ j → j < 0 + method.length →
      method.startsBefore offset j = true → method.startsBefore offset i = true := by
    intro i j _ hij hj hlt
    rw [Nat.zero_add] at hj
    have hother := List.getElem?_eq_getElem hj
    have hone := List.getElem?_eq_getElem (Nat.lt_of_le_of_lt hij hj)
    rw [startsBefore_iff hother] at hlt
    rw [startsBefore_iff hone]
    exact Int.lt_of_le_of_lt (hl.offsetOf_mono hone hother hij) hlt
  obtain ⟨-, hbelow, habove⟩ := partitionPoint_spec hfirst
  constructor
  · intro handle hmem
    obtain ⟨i, hi, hat⟩ := List.mem_take_iff_getElem.mp hmem
    rw [← startsBefore_iff (List.getElem?_eq_some_iff.mpr ⟨_, hat⟩)]
    exact hbelow i (Nat.zero_le _) (Nat.lt_of_lt_of_le hi (Nat.min_le_left _ _))
  · intro handle hat
    have hlt := (List.getElem?_eq_some_iff.mp hat).1
    have hnot := habove _ (Nat.le_refl _) (by rwa [Nat.zero_add])
    rw [← Bool.not_eq_true, startsBefore_iff hat] at hnot
    exact Int.not_lt.mp hnot

/-- The search by bisection finds what a search from the start finds. -/
theorem Laid.findByOffset?_eq (hl : method.Laid) (offset : Int) :
    method.findByOffset? offset
      = method.order.find? fun handle => method.offsetOf handle == offset := by
  obtain ⟨hbelow, hreached⟩ := hl.partitionPoint_startsBefore offset
  rw [findByOffset?_eq_filter, find?_eq_filter_of_sorted hl.sorted hbelow hreached]

end Method

end CilCoverage
