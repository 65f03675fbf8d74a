import CilCoverage.Proofs.Coverage.BranchPlacement

/-!
# Routing of branches

The branches of a body are worked through one after the other. `Routing` holds in between: branches
that have been worked through carry their blocks, and the rest of the body is untouched
(`Routing.untouched`), so that blocks and chains are still those of the body as read
(`Routing.branchBlocks_eq`). One branch keeps it (`Routing.probeBranch`), so after the whole
run the plan of the branch points is carried out (`AsRead.addBranchProbes`).
-/

set_option autoImplicit false

namespace CilCoverage

open Instruction

namespace Method

variable {method other : Method} {points : List BranchPoint} {probe : Probe}

/-- The plan once the given branches have been worked through. -/
def branchPlan (method : Method) (points : List BranchPoint) (routed : List Handle) : Plan where
  before := fun _ => []
  block? := fun handle path =>
    if handle ∈ routed then method.pathBlock? points handle path else none

/-- The blocks of a branch in the plan depend on whether it was worked through. -/
theorem block?_branchPlan_congr {one two : List Handle} {handle : Handle}
    (hsame : handle ∈ one ↔ handle ∈ two) :
    (method.branchPlan points one).block? handle = (method.branchPlan points two).block? handle := by
  funext path
  simp only [branchPlan, hsame]

/-- A branch that was worked through has its blocks in the plan. -/
theorem block?_branchPlan {routed : List Handle} {handle : Handle} (hin : handle ∈ routed)
    (path : Nat) :
    (method.branchPlan points routed).block? handle path = method.pathBlock? points handle path :=
  if_pos hin

/-- A branch that was not worked through has no block in the plan. -/
theorem block?_branchPlan_of_notMem {routed : List Handle} {handle : Handle}
    (hout : handle ∉ routed) (path : Nat) :
    (method.branchPlan points routed).block? handle path = none :=
  if_neg hout

/-- A branch without blocks adds nothing to the plan. -/
theorem branchPlan_cons_of_nil {routed : List Handle} {branch : Handle} (hout : branch ∉ routed)
    (hnil : method.branchBlocks points branch = []) :
    method.branchPlan points (branch :: routed) = method.branchPlan points routed := by
  rw [Plan.mk.injEq]
  refine ⟨rfl, ?_⟩
  funext handle
  by_cases hself : handle = branch
  · funext path
    rw [hself, block?_branchPlan List.mem_cons_self, pathBlock?_eq, hnil, List.find?_nil,
      block?_branchPlan_of_notMem hout]
  · exact block?_branchPlan_congr (by rw [List.mem_cons, or_iff_right hself])

/-- The given branches carry their blocks, and the rest of the body is untouched. -/
structure Routing (method other : Method) (points : List BranchPoint) (routed : List Handle) :
    Prop where
  instrumented : method.Instrumented other (method.branchPlan points routed) id
  order : method.order.Sublist other.order
  branching : ∀ handle ∈ routed, (method.get handle).flow = .conditionalBranch
  untouched : ∀ handle ∈ method.order, handle ∉ routed →
    other.get handle = method.get handle ∧ other.next? handle = method.next? handle

/-- A method carries out the plan that adds nothing. -/
theorem AsRead.routing (hm : method.AsRead) (points : List BranchPoint) :
    method.Routing method points [] where
  instrumented :=
    { ordered := hm.ordered
      size := Nat.le_refl _
      regions := rfl
      entry := rfl
      placed := by
        intro handle hmem
        refine ⟨hmem, rfl, rfl, rfl, .refl _ _, fun _ _ _ => rfl, ?_, Or.inl rfl, fun _ => rfl⟩
        intro path _ block hsome
        cases hsome
      tracked := fun handle hmem _ _ => ⟨handle, hmem, rfl⟩ }
  order := List.Sublist.refl _
  branching := nofun
  untouched := fun _ _ _ => ⟨rfl, rfl⟩

/-- A branch with blocks does not end the method. -/
theorem exists_branchBlocks_eq {branch : Handle} (hne : method.branchBlocks points branch ≠ []) :
    ∃ fallThrough, method.branchBlocks points branch
      = method.pathBlocks branch fallThrough (method.registeredAt points branch) := by
  cases hnext : method.next? branch with
  | none =>
    rw [branchBlocks, hnext] at hne
    exact absurd rfl hne
  | some fallThrough => exact ⟨fallThrough, branchBlocks_of_next? hnext⟩

section Unrouted

variable {routed : List Handle} {branch fallThrough : Handle}

/-- The slots of a method are slots of the routed one. -/
theorem Routing.within (hr : method.Routing other points routed) : method.Within other where
  ordered := hr.instrumented.ordered
  order := hr.order
  regions := hr.instrumented.regions
  jump := by
    intro handle hmem
    have hopcode := (hr.instrumented.placed handle hmem).opcode
    rw [id_eq] at hopcode
    rw [IsJump, IsJump, hopcode]
  targets := by
    intro handle hmem hjump
    have hout : handle ∉ routed := by
      intro hin
      cases hjump.flow.symm.trans (hr.branching handle hin)
    rw [(hr.untouched handle hmem hout).1]

/-- A branch that was not worked through still has the blocks that the method gives it. -/
theorem Routing.pathBlocks_eq (hr : method.Routing other points routed) (hv : method.Valid)
    (hmem : branch ∈ method.order) (hout : branch ∉ routed)
    (hnext : fallThrough ∈ method.order) (registered : List BranchPoint) :
    other.pathBlocks branch fallThrough registered
      = method.pathBlocks branch fallThrough registered := by
  have hget := (hr.untouched branch hmem hout).1
  have hsame : other.destinations branch fallThrough = method.destinations branch fallThrough := by
    rw [destinations, destinations, hget]
  rw [Method.pathBlocks_eq, Method.pathBlocks_eq, anyProbed, anyProbed, hsame]
  apply List.filterMap_congr
  rintro ⟨target, path⟩ hin
  have hat := List.mem_of_getElem? (List.mem_zipIdx_iff_getElem?.mp hin)
  have htarget : target ∈ method.order := by
    rcases List.mem_cons.mp hat with rfl | htargets
    · exact hnext
    · exact hv.targets_mem_order htargets
  have hexit : other.pathExit branch target = method.pathExit branch target := by
    rw [pathExit, pathExit, hget, hr.within.followBranches_eq hv hmem htarget]
  simp only [chosenBlock?, hexit]

/-- Such a branch still has its points. -/
theorem Routing.registeredAt_eq (hr : method.Routing other points routed)
    (hmem : branch ∈ method.order) (hout : branch ∉ routed) (points' : List BranchPoint) :
    other.registeredAt points' branch = method.registeredAt points' branch := by
  rw [registeredAt, registeredAt, (hr.untouched branch hmem hout).1]

/-- It has its blocks also if there may be nothing behind it. -/
theorem Routing.branchBlocks_eq (hr : method.Routing other points routed) (hv : method.Valid)
    (hmem : branch ∈ method.order) (hout : branch ∉ routed) (points' : List BranchPoint) :
    other.branchBlocks points' branch = method.branchBlocks points' branch := by
  obtain ⟨-, hnext⟩ := hr.untouched branch hmem hout
  rw [branchBlocks, branchBlocks, hnext, hr.registeredAt_eq hmem hout]
  cases hfall : method.next? branch with
  | none => rfl
  | some fallThrough => exact hr.pathBlocks_eq hv hmem hout (mem_of_next? hfall) _

end Unrouted

/-- The code of a block was not read. -/
theorem origin_code {block : PathBlock} {instruction : Instruction}
    (hmem : instruction ∈ block.code probe) : instruction.origin = none := by
  rw [PathBlock.code, List.mem_append, List.mem_map, List.mem_singleton] at hmem
  rcases hmem with ⟨template, -, rfl⟩ | rfl <;> rfl

section Running

variable {routed : List Handle} {branch : Handle}

/-- Working through a branch. -/
theorem Routing.probeBranch (hr : method.Routing other points routed) (hm : method.AsRead)
    (hbranch : branch ∈ method.conditionalBranches) (hout : branch ∉ routed) {placed : Nat}
    (hok : (other.probeBranch branch points probe).outcome = .ok placed) :
    method.Routing (other.probeBranch branch points probe).method points (branch :: routed) := by
  obtain ⟨hmem, hread, hflow⟩ := mem_conditionalBranches.mp hbranch
  have ho := hr.instrumented.ordered
  have hmem' := hr.order.subset hmem
  obtain ⟨hget, -⟩ := hr.untouched branch hmem hout
  have hbranching : ∀ handle ∈ branch :: routed,
      (method.get handle).flow = .conditionalBranch := by
    intro handle hin
    rcases List.mem_cons.mp hin with rfl | hold
    · exact hflow
    · exact hr.branching handle hold
  obtain ⟨-, hmethod⟩ := probeBranch_spec hok
  rw [hr.branchBlocks_eq hm.toValid hmem hout] at hmethod
  have hplan := Method.pathBlock?_eq method points branch
  -- without blocks neither the method nor the plan changes
  by_cases hnil : method.branchBlocks points branch = []
  · rw [hmethod, hnil, spliceBlocks_nil]
    refine ⟨?_, hr.order, hbranching, ?_⟩
    · rw [branchPlan_cons_of_nil hout hnil]
      exact hr.instrumented
    · intro handle hin hnot
      exact hr.untouched handle hin fun hold => hnot (List.mem_cons_of_mem _ hold)
  · have hat := getElem?_idxOf hmem'
    have hlt := ho.lt_of_getElem? hat
    obtain ⟨fallThrough, hblocks⟩ := exists_branchBlocks_eq hnil
    rw [hmethod, spliceBlocks_eq hlt]
    generalize method.branchBlocks points branch = blocks at *
    refine ⟨hr.instrumented.replaced hm hat hmem rfl hread ?_ ?_ ?_, ?_, hbranching, ?_⟩
    · intro handle hother
      refine ⟨rfl, block?_branchPlan_congr ?_, rfl⟩
      rw [List.mem_cons, or_iff_right hother]
    · apply placed_ledTo ho hat hget hflow hblocks hnil rfl
      intro path
      rw [block?_branchPlan List.mem_cons_self, hplan]
    -- only the branch itself was read, the code of blocks was not
    · intro index hindex instruction hinstruction hread
      cases index with
      | zero => rfl
      | succ index =>
        rw [List.getElem?_cons_succ] at hinstruction
        obtain ⟨block, -, hcode⟩ := List.mem_flatMap.mp (List.mem_of_getElem? hinstruction)
        exact absurd (origin_code hcode) hread
    · rw [order_replaced]
      exact hr.order.trans sublist_insertBehind
    · intro handle hin hnot
      rw [List.mem_cons, not_or] at hnot
      have hin' := hr.order.subset hin
      obtain ⟨hsame', hnext'⟩ := hr.untouched handle hin hnot.2
      rw [get_replaced_of_ne ((ho.mem_iff handle).mp hin') (Ne.symm hnot.1),
        next?_replaced_of_ne ho hat hin' (Ne.symm hnot.1)]
      exact ⟨hsame', hnext'⟩

/-- The blocks of all branches are placed in the body. -/
theorem AsRead.addBranchProbes (hm : method.AsRead) {placed : Nat}
    (hok : (method.addBranchProbes points probe).outcome = .ok placed) :
    method.Instrumented (method.addBranchProbes points probe).method
      (method.branchPlan points method.conditionalBranches) id := by
  obtain ⟨edited, hr, hmethod⟩ := addBranchProbes_run
    (I := fun routed _ other => method.Routing other points routed)
    (fun hr hout hbranch hone => hr.probeBranch hm hbranch hout hone) hm.ordered (hm.routing points)
    hok
  have hplan : method.branchPlan points method.conditionalBranches.reverse
      = method.branchPlan points method.conditionalBranches := by
    rw [Plan.mk.injEq]
    refine ⟨rfl, ?_⟩
    funext handle
    exact block?_branchPlan_congr List.mem_reverse
  rw [← hplan]
  rcases hmethod with ⟨hmethod, -⟩ | hmethod
  · rw [hmethod]
    exact hr.instrumented
  · rw [hmethod]
    exact hr.instrumented.layOut

/-- A block leads to where its path led. -/
theorem sound_branchPlan (method : Method) (points : List BranchPoint) :
    (method.branchPlan points method.conditionalBranches).Sound method := by
  intro handle path block hblock
  by_cases hin : handle ∈ method.conditionalBranches
  · rw [block?_branchPlan hin] at hblock
    have hflow := (mem_conditionalBranches.mp hin).2.2
    rw [Method.pathBlock?_eq] at hblock
    unfold branchBlocks at hblock
    split at hblock
    · rename_i fallThrough hnext
      rw [find?_pathBlocks, Option.bind_eq_some_iff] at hblock
      obtain ⟨target, htarget, hchosen⟩ := hblock
      have hexit := chosenBlock?_eq_some hchosen
      have hafter : method.after? handle path = some target := by
        rw [after?_of_conditional hflow, ← htarget]
        cases path with
        | zero => rw [if_pos rfl, hnext, destinations, List.getElem?_cons_zero]
        | succ k =>
          rw [if_neg (Nat.succ_ne_zero k), Nat.add_sub_cancel, destinations,
            List.getElem?_cons_succ]
      rw [hexit]
      show ∃ next visits, _ ∧ method.Leads IsJump next visits (method.pathExit handle target)
      rw [pathExit]
      split
      · exact ⟨target, [], hafter, .here target⟩
      · obtain ⟨visits, hleads⟩ := method.leads_followBranches handle target
        exact ⟨target, visits, hafter, hleads⟩
    · cases hblock
  · rw [block?_branchPlan_of_notMem hin] at hblock
    cases hblock

end Running

end Method

end CilCoverage
