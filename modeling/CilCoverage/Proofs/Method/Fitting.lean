import CilCoverage.Proofs.Method.Identity
import CilCoverage.Proofs.Method.Relinking

/-!
# Methods with arbitrary templates

Insertion asks of templates only that their targets lie in the sequence: a label may come to stand
in the middle of the code, and an operand may be one that no encoding holds. `Method.Fit` is what is
left of a valid method then, if at least every `switch` counts its targets, since the size of a
`switch` is that of the cases that its operand announces. It is enough for the method to be laid out
(`Fit.laid_layOut`) with displacements that lead to the targets (`Fit.displacements_eq`).
-/

set_option autoImplicit false

namespace CilCoverage

open Instruction

/-- A `switch` counts its targets. -/
def Template.Counted (template : Template) : Prop :=
  template.opcode = .switch → template.operand = template.targets.length

instance (template : Template) : Decidable template.Counted := by
  unfold Template.Counted
  exact inferInstance

/-- What insertion keeps true of the instructions of a method with `count` slots. -/
structure Instruction.Fit (instruction : Instruction) (count : Nat) : Prop where
  counted : instruction.Counted
  bare : instruction.targets = [] → instruction.displacements = []
  inside : ∀ target ∈ instruction.targets, target < count

namespace Instruction

variable {instruction : Instruction} {count more : Nat}

/-- A label fits any method. -/
theorem fit_label (offset : Int) (count : Nat) : (label offset).Fit count :=
  ⟨nofun, fun _ => rfl, nofun⟩

/-- A well-formed instruction fits a method that has its targets. -/
theorem WellFormed.fit (hw : instruction.WellFormed)
    (hinside : ∀ target ∈ instruction.targets, target < count) : instruction.Fit count :=
  ⟨hw.counted, hw.bare, hinside⟩

/-- An instruction that fits still does among more slots. -/
theorem Fit.mono (hf : instruction.Fit count) (hle : count ≤ more) : instruction.Fit more :=
  ⟨hf.counted, hf.bare, fun target hmem => Nat.lt_of_lt_of_le (hf.inside target hmem) hle⟩

/-- An instruction that fits does so at any offset. -/
theorem Fit.movedTo (hf : instruction.Fit count) (offset : Int) :
    (instruction.movedTo offset).Fit count :=
  ⟨hf.counted, hf.bare, hf.inside⟩

/-- An instruction that fits still does once it is aimed. -/
theorem Fit.aimed (hf : instruction.Fit count) (offsetOf : Handle → Int) :
    (instruction.aimed offsetOf).Fit count where
  counted := hf.counted.aimed offsetOf
  bare := by
    intro hnil
    rw [targets_aimed] at hnil
    rw [aimed_of_not_branch _ _ (by simp [hnil])]
    exact hf.bare hnil
  inside := by
    rw [targets_aimed]
    exact hf.inside

/-- A copy leads to the copies of the templates that its template leads to. -/
theorem fit_copied {template : Template} {handleOf : Nat → Handle} (hcounted : template.Counted)
    (hinside : ∀ target ∈ template.targets, handleOf target < count) :
    (template.copied handleOf).Fit count where
  counted := by
    intro hswitch
    have hopcode : template.opcode = .switch := (Opcode.widened_eq_switch_iff _).mp hswitch
    rw [Template.operand_copied (Opcode.operandKind_ne_of_switch hopcode),
      Template.length_targets_copied]
    exact hcounted hopcode
  bare := fun _ => rfl
  inside := by
    intro handle hmem
    obtain ⟨target, htarget, rfl⟩ := List.mem_map.mp hmem
    exact hinside target htarget

end Instruction

namespace Method

variable {method : Method} {target position : Nat}

/-- Every slot is listed once, and the instructions fit in. -/
structure Fit (method : Method) : Prop extends method.Ordered where
  instructions : ∀ handle, (method.get handle).Fit method.slots.size

/-- The instructions of a valid method fit. -/
theorem Valid.fit (hv : method.Valid) : method.Fit where
  toOrdered := hv.ordered
  instructions := fun handle => (hv.wellFormed handle).fit (hv.targets handle)

/-- In a method that fits every `switch` counts its targets. -/
theorem Fit.allCounted (hf : method.Fit) : method.AllCounted := fun handle =>
  (hf.instructions handle).counted

/-- In a method that fits branches lead to listed instructions. -/
theorem Fit.mem_order_of_target (hf : method.Fit) {handle next : Handle}
    (hnext : next ∈ (method.get handle).targets) : next ∈ method.order :=
  (hf.mem_iff next).mpr ((hf.instructions handle).inside next hnext)

/-- Laying out leaves a method that fits. -/
theorem Fit.layOut (hf : method.Fit) : method.layOut.Fit where
  toOrdered := hf.toOrdered.layOut
  instructions := by
    intro handle
    obtain ⟨offset, hget⟩ := hf.toOrdered.exists_get_layOut handle
    rw [hget, size_slots_layOut]
    exact ((hf.instructions handle).movedTo offset).aimed _

/-- Laying out a method that fits puts everything at its place. -/
theorem Fit.laid_layOut (hf : method.Fit) : method.layOut.Laid :=
  hf.toOrdered.laid_layOut hf.allCounted

/-- More stack leaves a method that fits. -/
theorem Fit.increaseMaxStack (hf : method.Fit) (extra : UInt16) :
    (method.increaseMaxStack extra).Fit where
  toOrdered := ⟨hf.nodup, hf.mem_iff⟩
  instructions := hf.instructions

/-- The displacements of less than 2³¹ bytes of code are the distances to the targets. -/
theorem Fit.displacements_eq (hf : method.Fit) (hl : method.Laid)
    (hsmall : method.codeSize < 2 ^ 31) {handle : Handle} (hmem : handle ∈ method.order)
    (hbranch : (method.get handle).isBranch = true) :
    (method.get handle).displacements = (method.get handle).targets.map fun target =>
      method.offsetOf target - (method.get handle).finish := by
  cases hnil : (method.get handle).targets.isEmpty with
  | true =>
    rw [List.isEmpty_iff] at hnil
    rw [(hf.instructions handle).bare hnil, hnil]
    rfl
  | false =>
    rw [hl.displacements_of_branch hmem (by rw [hbranch, hnil]; rfl), hl.distances_eq hsmall hmem]
    exact fun _ htarget => hf.mem_order_of_target htarget

section Editing

variable {first : Instruction} {rest : List Instruction}

/-- New instructions that fit leave a method that fits. -/
theorem Fit.replaced (hf : method.Fit) (hlt : target < method.slots.size)
    (hnew : ∀ instruction ∈ first :: rest, instruction.Fit (method.slots.size + rest.length)) :
    (method.replaced target position first rest).Fit where
  toOrdered := hf.toOrdered.replaced
  instructions := by
    rw [size_replaced]
    refine forall_get_replaced hlt ?_ hnew (fit_label _ _)
    exact fun handle _ => (hf.instructions handle).mono (Nat.le_add_right _ _)

/-- The handles of copies are slots. -/
theorem copyHandle_lt (hlt : target < method.slots.size) {index count : Nat} (hindex : index < count) :
    method.copyHandle target index < method.slots.size + count := by
  unfold copyHandle
  split
  · exact Nat.add_lt_add_left hindex _
  · exact chained_lt hlt hindex

/-- The method is laid out again after an insertion, whatever is inserted. -/
theorem Fit.insertAt (hf : method.Fit) (hl : method.Laid) {templates : List Template}
    (hcounted : ∀ template ∈ templates, template.Counted) {edited : Method}
    (hinsert : method.insertAt target templates = .ok edited) : edited.Fit ∧ edited.Laid := by
  by_cases hne : templates = []
  · subst hne
    obtain rfl := Except.ok.inj hinsert
    exact ⟨hf, hl⟩
  · obtain ⟨hstray, position, first, rest, hat, hrow, rfl⟩ :=
      (insertAt_eq_ok_iff hf.toOrdered hne).mp hinsert
    have hlt := hf.toOrdered.lt_of_getElem? hat
    have hedited : (method.replaced target position first rest).Fit := by
      refine hf.replaced hlt ?_
      rw [length_rest_of_row hrow, hrow, forall_mem_row]
      refine ⟨(hf.instructions target).mono (Nat.le_add_right _ _), ?_⟩
      intro template htemplate
      refine fit_copied (hcounted template htemplate) ?_
      intro next hnext
      exact copyHandle_lt hlt (strayTarget?_eq_none_iff.mp hstray template htemplate next hnext)
    exact ⟨hedited.layOut, hedited.laid_layOut⟩

end Editing

end Method

end CilCoverage
