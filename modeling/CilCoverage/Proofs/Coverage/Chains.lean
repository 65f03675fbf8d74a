import CilCoverage.Proofs.Coverage.Walks
import CilCoverage.Proofs.Method.Scopes

/-!
# Chains of branches

A chain of `br` that is followed leads to where following ends, as far as walks are concerned
(`leads_followBranches`). How far it is followed depends on the `br`s and on the order of the
instructions only, so that neither code that is put between the instructions nor a change to other
branches matters (`Within.followBranches_eq`).
-/

set_option autoImplicit false

namespace CilCoverage

/-- The instruction is a `br`. -/
def Instruction.IsJump (instruction : Instruction) : Prop := instruction.opcode = .br

/-- A `br` always branches. -/
theorem Instruction.IsJump.flow {instruction : Instruction} (hj : instruction.IsJump) :
    instruction.flow = .unconditionalBranch := by
  rw [Instruction.flow, show instruction.opcode = .br from hj]
  rfl

namespace Method

variable {method other : Method} {scope : List (Nat × Nat)} {handle target : Handle}

/-- A hop follows a `br` to its only target, if that is in the same blocks. -/
theorem hop?_eq_some_iff : method.hop? scope handle = some target ↔
    (method.get handle).IsJump ∧ (method.get handle).targets = [target]
      ∧ method.enclosingBlocks target = scope := by
  unfold hop? Instruction.IsJump
  rw [get]
  cases method.get? handle with
  | none => simp [Instruction.label]
  | some instruction =>
    rw [Option.getD_some]
    dsimp only
    constructor
    · intro hhop
      split at hhop
      · rename_i hjump htargets
        rw [Option.ite_none_right_eq_some, Option.some.injEq] at hhop
        obtain ⟨hscope, rfl⟩ := hhop
        exact ⟨hjump, htargets, hscope⟩
      · cases hhop
    · rintro ⟨hjump, htargets, hscope⟩
      simp only [hjump, htargets]
      rw [if_pos hscope]

/-- Control goes through the chain that is followed to its end. -/
theorem leads_followWithin (method : Method) (scope : List (Nat × Nat)) (met : List Handle)
    (handle : Handle) : ∃ visits, method.Leads Instruction.IsJump handle visits
      (method.followWithin scope met handle) := by
  fun_induction method.followWithin scope met handle with
  | case1 met handle hmet => exact ⟨[], .here handle⟩
  | case2 met handle hmet target hhop ih =>
    obtain ⟨hjump, htargets, -⟩ := hop?_eq_some_iff.mp hhop
    obtain ⟨visits, hleads⟩ := ih
    have hmove : method.after? handle 0 = some target := by
      rw [after?, hjump.flow, htargets]
      rfl
    have hsingle : (method.get handle).pathCount = 1 := by
      rw [Instruction.pathCount, hjump.flow]
      rfl
    exact ⟨_, .pass hjump hsingle hmove hleads⟩
  | case3 met handle hmet hhop => exact ⟨[], .here handle⟩

/-- A branch may go to the end of a chain instead of to its start. -/
theorem leads_followBranches (method : Method) (source handle : Handle) :
    ∃ visits, method.Leads Instruction.IsJump handle visits
      (method.followBranches source handle) :=
  method.leads_followWithin _ _ _

/-- The instructions of the first method stand in the same order in the second one, whose `br`s
among them lead to the same places, and the regions are the same. -/
structure Within (method other : Method) : Prop where
  ordered : other.Ordered
  order : method.order.Sublist other.order
  regions : other.regions = method.regions
  jump : ∀ handle ∈ method.order,
    (other.get handle).IsJump ↔ (method.get handle).IsJump
  targets : ∀ handle ∈ method.order, (method.get handle).IsJump →
    (other.get handle).targets = (method.get handle).targets

/-- An instruction is on the same side of a boundary in both methods. -/
theorem Within.sameSide (hw : method.Within other) (hmem : handle ∈ method.order)
    {boundary : Handle} (hboundary : boundary ∈ method.order) :
    method.SameSide other handle handle boundary where
  mem := hboundary
  mem' := hw.order.subset hboundary
  le_iff := idxOf_le_idxOf_iff hw.order hw.ordered.nodup hboundary hmem

/-- An instruction is in the same blocks in both methods. -/
theorem Within.enclosingBlocks_eq (hw : method.Within other) (hv : method.Valid)
    (hmem : handle ∈ method.order) :
    other.enclosingBlocks handle = method.enclosingBlocks handle := by
  apply enclosingBlocks_congr hv.ordered hw.ordered hw.regions hmem (hw.order.subset hmem)
  intro boundary hboundary
  exact hw.sameSide hmem ((hv.ordered.mem_iff _).mpr (hv.boundaries boundary hboundary))

/-- The only target of an instruction is listed. -/
theorem Valid.target_mem_order_of_eq (hv : method.Valid)
    (htargets : (method.get handle).targets = [target]) : target ∈ method.order := by
  apply hv.targets_mem_order
  rw [htargets]
  exact List.mem_singleton_self target

/-- A hop is the same in both methods. -/
theorem Within.hop?_eq (hw : method.Within other) (hv : method.Valid)
    (hmem : handle ∈ method.order) : other.hop? scope handle = method.hop? scope handle := by
  apply Option.ext
  intro target
  rw [hop?_eq_some_iff, hop?_eq_some_iff, hw.jump handle hmem]
  constructor
  · rintro ⟨hjump, htargets, hscope⟩
    rw [hw.targets handle hmem hjump] at htargets
    have htarget := hv.target_mem_order_of_eq htargets
    rw [hw.enclosingBlocks_eq hv htarget] at hscope
    exact ⟨hjump, htargets, hscope⟩
  · rintro ⟨hjump, htargets, hscope⟩
    have htarget := hv.target_mem_order_of_eq htargets
    rw [← hw.targets handle hmem hjump] at htargets
    rw [← hw.enclosingBlocks_eq hv htarget] at hscope
    exact ⟨hjump, htargets, hscope⟩

/-- Following a chain comes to the same end in both methods. -/
theorem Within.followWithin_eq (hw : method.Within other) (hv : method.Valid) (met : List Handle)
    (hmem : handle ∈ method.order) :
    other.followWithin scope met handle = method.followWithin scope met handle := by
  fun_induction method.followWithin scope met handle with
  | case1 met handle hmet => rw [followWithin, if_pos hmet]
  | case2 met handle hmet target hhop ih =>
    obtain ⟨-, htargets, -⟩ := hop?_eq_some_iff.mp hhop
    have htarget := hv.target_mem_order_of_eq htargets
    rw [← hw.hop?_eq hv hmem] at hhop
    rw [followWithin, if_neg hmet]
    split
    · rename_i next hnext
      cases hhop.symm.trans hnext
      exact ih htarget
    · rename_i hnone
      cases hhop.symm.trans hnone
  | case3 met handle hmet hhop =>
    rw [← hw.hop?_eq hv hmem] at hhop
    rw [followWithin, if_neg hmet]
    split
    · rename_i next hnext
      cases hhop.symm.trans hnext
    · rfl

/-- Chains end at the same instruction. -/
theorem Within.followBranches_eq (hw : method.Within other) (hv : method.Valid) {source : Handle}
    (hsource : source ∈ method.order) (hmem : handle ∈ method.order) :
    other.followBranches source handle = method.followBranches source handle := by
  rw [followBranches, followBranches, hw.enclosingBlocks_eq hv hsource]
  exact hw.followWithin_eq hv [] hmem

end Method

end CilCoverage
