import CilCoverage.Proofs.Method.Layout

/-!
# Well-formed methods

An instruction is well-formed if it has the targets that its operation asks for and an operand that
can be stored; a method is `Valid` if its instructions are and if order, targets and regions fit
together. `Recodable` adds what reading a body back asks for on top: no branch leads to the label at
the end of the code, and the first boundary that names the label is an end.

Both are kept by laying out (`Valid.layOut`, `Recodable.layOut`). Instructions that come in between
do not change which of two others comes first (`idxOf_le_idxOf_iff`), which is what ranges and
scopes go by.
-/

set_option autoImplicit false

namespace CilCoverage

open Instruction

/-- The number of targets that go with an operation and its operand. -/
def Opcode.Targets (op : Opcode) (operand : Int) (count : Nat) : Prop :=
  if op = .switch then operand = count else count = if op.isBranch then 1 else 0

namespace Opcode

/-- The long form of a branch is a branch. -/
theorem isBranch_widened (op : Opcode) : op.widened.isBranch = op.isBranch := by
  cases op <;> rfl

/-- The long form is not short. -/
theorem operandKind_widened_ne (op : Opcode) : op.widened.operandKind ≠ .shortBranch := by
  cases op <;> decide

/-- Only a label is widened to one. -/
theorem widened_eq_label_iff (op : Opcode) : op.widened = .label ↔ op = .label := by
  cases op <;> decide

/-- Only a `switch` is widened to one. -/
theorem widened_eq_switch_iff (op : Opcode) : op.widened = .switch ↔ op = .switch := by
  cases op <;> decide

/-- Only short branches have a long form. -/
theorem longForm?_eq_none {op : Opcode} (hkind : op.operandKind ≠ .shortBranch) :
    op.longForm? = none := by
  rw [Ne, ← longForm?_isSome_iff] at hkind
  simpa using hkind

/-- What is not short is its own long form. -/
theorem widened_of_ne {op : Opcode} (hkind : op.operandKind ≠ .shortBranch) :
    op.widened = op := by
  rw [widened, longForm?_eq_none hkind]
  rfl

end Opcode

namespace Instruction

/-- The instruction with its displacement widened and with the given targets. -/
def linked (instruction : Instruction) (targets : List Handle) : Instruction :=
  { instruction.widened with targets }

/-- The instruction has its targets and an operand that can be stored; that of a branch is computed
from its targets. -/
structure WellFormed (instruction : Instruction) : Prop where
  long : instruction.opcode.operandKind ≠ .shortBranch
  operand : instruction.isBranch = false →
    instruction.opcode.operandKind.Holds instruction.operand
  targets : instruction.opcode.Targets instruction.operand instruction.targets.length
  bare : instruction.targets = [] → instruction.displacements = []

/-- A label is well-formed. -/
theorem wellFormed_label (offset : Int) : (label offset).WellFormed :=
  ⟨nofun, fun _ => rfl, rfl, fun _ => rfl⟩

/-- Linking keeps the operand of an instruction that is not short. -/
theorem operand_linked {instruction : Instruction} (targets : List Handle)
    (hkind : instruction.opcode.operandKind ≠ .shortBranch) :
    (instruction.linked targets).operand = instruction.operand := by
  show (if instruction.opcode.longForm?.isSome then _ else _) = _
  rw [Opcode.longForm?_eq_none hkind]
  rfl

/-- Linking makes an instruction well-formed that gets the targets it asks for. -/
theorem wellFormed_linked {instruction : Instruction} {targets : List Handle}
    (hoperand : instruction.isBranch = false →
      instruction.opcode.operandKind.Holds instruction.operand)
    (htargets : instruction.opcode.Targets instruction.operand targets.length) :
    (instruction.linked targets).WellFormed where
  long := instruction.opcode.operandKind_widened_ne
  operand := by
    intro hplain
    have hkept : instruction.isBranch = false := by
      rw [← hplain]
      exact instruction.opcode.isBranch_widened.symm
    have hkind := Opcode.operandKind_ne_of_not_branch hkept
    show instruction.opcode.widened.operandKind.Holds _
    rw [operand_linked _ hkind, Opcode.widened_of_ne hkind]
    exact hoperand hkept
  targets := by
    show instruction.opcode.widened.Targets _ targets.length
    by_cases hswitch : instruction.opcode = .switch
    · have hkind := Opcode.operandKind_ne_of_switch hswitch
      rwa [operand_linked _ hkind, Opcode.widened_of_ne hkind]
    · rw [Opcode.Targets, if_neg ((Opcode.widened_eq_switch_iff _).not.mpr hswitch),
        Opcode.isBranch_widened]
      rwa [Opcode.Targets, if_neg hswitch] at htargets
  bare := fun _ => rfl

/-- A well-formed `switch` counts its targets. -/
theorem WellFormed.counted {instruction : Instruction} (hw : instruction.WellFormed) :
    instruction.Counted := by
  intro hswitch
  have htargets := hw.targets
  rwa [Opcode.Targets, if_pos hswitch] at htargets

/-- A well-formed instruction that is no branch has no targets. -/
theorem WellFormed.targets_eq_nil {instruction : Instruction} (hw : instruction.WellFormed)
    (hplain : instruction.isBranch = false) : instruction.targets = [] := by
  have hswitch : instruction.opcode ≠ .switch := by
    intro heq
    rw [isBranch, heq] at hplain
    cases hplain
  have htargets := hw.targets
  rw [Opcode.Targets, if_neg hswitch, show instruction.opcode.isBranch = false from hplain]
    at htargets
  exact List.eq_nil_of_length_eq_zero htargets

/-- A well-formed instruction is so at any offset. -/
theorem WellFormed.movedTo {instruction : Instruction} (hw : instruction.WellFormed)
    (offset : Int) : (instruction.movedTo offset).WellFormed where
  long := hw.long
  operand := hw.operand
  targets := hw.targets
  bare := hw.bare

/-- A well-formed instruction is so once it is aimed. -/
theorem WellFormed.aimed {instruction : Instruction} (hw : instruction.WellFormed)
    (offsetOf : Handle → Int) : (instruction.aimed offsetOf).WellFormed := by
  by_cases hbranch : (instruction.isBranch && !instruction.targets.isEmpty) = true
  · have hparts := hbranch
    simp only [Bool.and_eq_true, Bool.not_eq_true', List.isEmpty_eq_false_iff] at hparts
    constructor
    · rw [opcode_aimed]
      exact hw.long
    · intro hplain
      rw [isBranch, opcode_aimed] at hplain
      rw [isBranch, hplain] at hparts
      cases hparts.1
    · have htargets := hw.targets
      rw [opcode_aimed, targets_aimed]
      by_cases hswitch : instruction.opcode = .switch
      · rwa [hw.counted.steady.operand_aimed offsetOf hswitch]
      · rw [Opcode.Targets, if_neg hswitch] at htargets ⊢
        exact htargets
    · intro hnil
      rw [targets_aimed] at hnil
      exact absurd hnil hparts.2
  · rwa [aimed_of_not_branch _ _ hbranch]

end Instruction

/-- The boundaries of a region in the order in which they are bound, each with whether it is the
end of a range. -/
def Region.boundaries (region : Region) : List (Handle × Bool) :=
  [(region.tryStart, false), (region.tryEnd, true), (region.handlerStart, false),
    (region.handlerEnd, true)] ++ region.filterStart?.toList.map fun start => (start, false)

section Boundaries

variable (region : Region)

/-- A region is bounded by the start of its protected range. -/
theorem Region.tryStart_mem : (region.tryStart, false) ∈ region.boundaries := by
  simp [boundaries]

/-- A region is bounded by the end of its protected range. -/
theorem Region.tryEnd_mem : (region.tryEnd, true) ∈ region.boundaries := by
  simp [boundaries]

/-- A region is bounded by the start of its handler. -/
theorem Region.handlerStart_mem : (region.handlerStart, false) ∈ region.boundaries := by
  simp [boundaries]

/-- A region is bounded by the end of its handler. -/
theorem Region.handlerEnd_mem : (region.handlerEnd, true) ∈ region.boundaries := by
  simp [boundaries]

/-- A region is bounded by the start of its filter. -/
theorem Region.filterStart_mem {region : Region} {start : Handle}
    (hfilter : region.filterStart? = some start) : (start, false) ∈ region.boundaries := by
  simp [boundaries, hfilter]

end Boundaries

namespace Method

/-- The boundaries of all regions. -/
def boundaries (method : Method) : List (Handle × Bool) :=
  method.regions.flatMap Region.boundaries

/-- Order, targets and regions of a method fit together. -/
structure Valid (method : Method) : Prop where
  ordered : method.Ordered
  wellFormed : ∀ handle, (method.get handle).WellFormed
  targets : ∀ handle, ∀ target ∈ (method.get handle).targets, target < method.slots.size
  boundaries : ∀ boundary ∈ method.boundaries, boundary.1 < method.slots.size
  tries : ∀ region ∈ method.regions,
    method.order.idxOf region.tryStart ≤ method.order.idxOf region.tryEnd
  handlers : ∀ region ∈ method.regions,
    method.order.idxOf region.handlerStart ≤ method.order.idxOf region.handlerEnd
  ending : ∀ {k : Nat} {handle : Handle}, method.order[k]? = some handle →
    (method.get handle).opcode = .label → k + 1 = method.length

/-- The first boundary that names a label is the end of a range. -/
def Opened (method : Method) : Prop :=
  ∀ handle < method.slots.size, (method.get handle).opcode = .label →
    ∀ boundary, method.boundaries.find? (fun boundary => boundary.1 == handle) = some boundary →
      boundary.2 = true

/-- Reading the encoded method back can succeed. -/
structure Recodable (method : Method) : Prop extends method.Valid where
  landing : ∀ handle, ∀ target ∈ (method.get handle).targets,
    (method.get target).opcode ≠ .label
  opened : ∀ handle < method.slots.size, (method.get handle).opcode = .label →
    ∀ boundary, method.boundaries.find? (fun boundary => boundary.1 == handle) = some boundary →
      boundary.2 = true

/-- In a valid method every `switch` counts its targets. -/
theorem Valid.allCounted {method : Method} (hv : method.Valid) : method.AllCounted :=
  fun handle => (hv.wellFormed handle).counted

/-- In a valid method branches lead to listed instructions. -/
theorem Valid.targets_mem_order {method : Method} (hv : method.Valid) {handle target : Handle}
    (hmem : target ∈ (method.get handle).targets) : target ∈ method.order :=
  (hv.ordered.mem_iff target).mpr (hv.targets handle target hmem)

/-- In a valid method the boundaries of regions are listed. -/
theorem Valid.boundary_mem_order {method : Method} (hv : method.Valid) {region : Region}
    (hregion : region ∈ method.regions) {boundary : Handle × Bool}
    (hmem : boundary ∈ region.boundaries) : boundary.1 ∈ method.order :=
  (hv.ordered.mem_iff boundary.1).mpr
    (hv.boundaries boundary (List.mem_flatMap.mpr ⟨region, hregion, hmem⟩))

/-- Laying out keeps every opcode. -/
theorem Ordered.opcode_layOut {method : Method} (ho : method.Ordered) (handle : Handle) :
    (method.layOut.get handle).opcode = (method.get handle).opcode := by
  obtain ⟨offset, hget⟩ := ho.exists_get_layOut handle
  rw [hget, opcode_aimed]
  rfl

/-- Laying out keeps all targets. -/
theorem Ordered.targets_layOut {method : Method} (ho : method.Ordered) (handle : Handle) :
    (method.layOut.get handle).targets = (method.get handle).targets := by
  obtain ⟨offset, hget⟩ := ho.exists_get_layOut handle
  rw [hget, targets_aimed]
  rfl

/-- Laying out leaves a valid method. -/
theorem Valid.layOut {method : Method} (hv : method.Valid) : method.layOut.Valid where
  ordered := hv.ordered.layOut
  wellFormed := by
    intro handle
    obtain ⟨offset, hget⟩ := hv.ordered.exists_get_layOut handle
    rw [hget]
    exact ((hv.wellFormed handle).movedTo offset).aimed _
  targets := by
    intro handle target hmem
    rw [hv.ordered.targets_layOut] at hmem
    rw [size_slots_layOut]
    exact hv.targets handle target hmem
  boundaries := by
    intro boundary hmem
    rw [size_slots_layOut]
    exact hv.boundaries boundary hmem
  tries := hv.tries
  handlers := hv.handlers
  ending := by
    intro k handle hk hlabel
    rw [hv.ordered.opcode_layOut] at hlabel
    exact hv.ending hk hlabel

/-- Laying out keeps which boundary names the label first. -/
theorem Opened.layOut {method : Method} (hopened : method.Opened) (ho : method.Ordered) :
    method.layOut.Opened := by
  intro handle hlt hlabel
  rw [size_slots_layOut] at hlt
  rw [ho.opcode_layOut] at hlabel
  exact hopened handle hlt hlabel

/-- Laying out leaves a method that can be read back. -/
theorem Recodable.layOut {method : Method} (hr : method.Recodable) : method.layOut.Recodable where
  toValid := hr.toValid.layOut
  landing := by
    intro handle target hmem
    rw [hr.ordered.targets_layOut] at hmem
    rw [hr.ordered.opcode_layOut]
    exact hr.landing handle target hmem
  opened := Opened.layOut hr.opened hr.ordered

end Method

/-- Elements that come in between do not change which of two others comes first. -/
theorem idxOf_le_idxOf_iff {short long : List Handle} (hsub : short.Sublist long)
    (hnodup : long.Nodup) {a b : Handle} (ha : a ∈ short) (hb : b ∈ short) :
    long.idxOf a ≤ long.idxOf b ↔ short.idxOf a ≤ short.idxOf b := by
  induction hsub with
  | slnil => cases ha
  | cons other hsub ih =>
    obtain ⟨hnew, hrest⟩ := List.nodup_cons.mp hnodup
    have hother {c : Handle} (hc : c ∈ _) : other ≠ c := fun heq =>
      hnew (heq ▸ hsub.subset hc)
    rw [List.idxOf_cons_ne _ (hother ha), List.idxOf_cons_ne _ (hother hb),
      Nat.succ_le_succ_iff]
    exact ih hrest ha hb
  | cons_cons first hsub ih =>
    obtain ⟨hnew, hrest⟩ := List.nodup_cons.mp hnodup
    by_cases hfa : first = a
    · subst hfa
      simp [List.idxOf_cons_self]
    · by_cases hfb : first = b
      · subst hfb
        simp [List.idxOf_cons_ne _ hfa]
      · rw [List.idxOf_cons_ne _ hfa, List.idxOf_cons_ne _ hfb, List.idxOf_cons_ne _ hfa,
          List.idxOf_cons_ne _ hfb, Nat.succ_le_succ_iff, Nat.succ_le_succ_iff]
        exact ih hrest ((List.mem_cons.mp ha).resolve_left (Ne.symm hfa))
          ((List.mem_cons.mp hb).resolve_left (Ne.symm hfb))

end CilCoverage
