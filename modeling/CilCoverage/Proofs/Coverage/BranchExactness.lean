import CilCoverage.Proofs.Coverage.Exactness

/-!
# Exactness of branch coverage

After the placement of branch probes every walk reports what its branches ask for and nothing else:
when a conditional branch takes a path that has a point then the id of its first point is reported
before the next instruction of the body is executed, and no other probe is run
(`addBranchProbes_exact`). The number of probes is that of the paths with a point, and points that
name no path of a branch do not matter.

A walk of the probed method is cut at the instructions of the body; between two of them it runs
through one block at most (`Instrumented.reports_exactly`). The walk may stop at any place, so what
is noticed of it is a prefix of what its instructions ask for.
-/

set_option autoImplicit false

namespace CilCoverage

open Instruction

/-- The observation is the execution of an instruction that was read. -/
def Observation.isExecuted : Observation → Bool
  | .executed _ _ => true
  | .reported _ => false

/-- The id of the first point on a path of the branch at an offset. -/
def firstId? (points : List BranchPoint) (offset path : Nat) : Option UInt32 :=
  (points.find? fun point => point.offset.toNat == offset && point.path.toNat == path).map
    BranchPoint.id

/-- An observation with the report that the points ask for directly after it. -/
def withReport (points : List BranchPoint) : Observation → List Observation
  | .executed offset (some path) =>
    .executed offset (some path) :: (firstId? points offset path).toList.map .reported
  | other => [other]

/-- What is noticed is the execution of instructions, each path of a conditional branch followed by
the report of its point, up to where the walk stops. -/
def ReportsExactly (points : List BranchPoint) (noticed : List Observation) : Prop :=
  noticed <+: (noticed.filter Observation.isExecuted).flatMap (withReport points)

section Exactly

variable {points : List BranchPoint} {ids : List UInt32} {front back : List Observation}

/-- Reports are no executions. -/
theorem filter_isExecuted_reported (ids : List UInt32) :
    (ids.map Observation.reported).filter Observation.isExecuted = [] := by
  rw [List.filter_eq_nil_iff]
  intro observation hmem
  obtain ⟨id, -, rfl⟩ := List.mem_map.mp hmem
  exact Bool.false_ne_true

/-- An instruction with its whole report in front of what is noticed of the rest. -/
theorem ReportsExactly.append {executed : List Observation}
    (hfront : (executed ++ ids.map Observation.reported).filter Observation.isExecuted = executed)
    (hreport : executed.flatMap (withReport points) = executed ++ ids.map .reported)
    (hback : ReportsExactly points back) :
    ReportsExactly points (executed ++ ids.map .reported ++ back) := by
  unfold ReportsExactly
  rw [List.filter_append, hfront, List.flatMap_append, hreport]
  exact (List.prefix_append_right_inj _).mpr hback

/-- A walk that stops in the report. -/
theorem ReportsExactly.of_prefix {executed : List Observation}
    (hfront : (executed ++ ids.map Observation.reported).filter Observation.isExecuted = executed)
    (hreport : executed.flatMap (withReport points) = executed ++ ids.map .reported)
    (hcut : front <+: ids.map .reported) : ReportsExactly points (executed ++ front) := by
  obtain ⟨later, hlater⟩ := hcut
  have hsilent : front.filter Observation.isExecuted = [] := by
    have hnone := filter_isExecuted_reported ids
    rw [← hlater, List.filter_append] at hnone
    exact (List.append_eq_nil_iff.mp hnone).1
  have hkept : executed.filter Observation.isExecuted = executed := by
    rwa [List.filter_append, filter_isExecuted_reported, List.append_nil] at hfront
  unfold ReportsExactly
  rw [List.filter_append, hkept, hsilent, List.append_nil, hreport, ← hlater, ← List.append_assoc]
  exact List.prefix_append _ _

end Exactly

namespace Method

variable {method other : Method} {points : List BranchPoint} {probe : Probe}

/-- What is noticed of the front of a walk comes first in what is noticed of it. -/
theorem perform_prefix (method : Method) (stack : List Int) {front visits : List Visit}
    (hcut : front <+: visits) :
    (method.perform stack front).2 <+: (method.perform stack visits).2 := by
  obtain ⟨back, rfl⟩ := hcut
  rw [perform_append]
  exact List.prefix_append _ _

section Ids

variable {branch : Handle} {offset path : Nat}

/-- The id registered for a path is that of the first point on it. -/
theorem idOfPath?_registeredAt (horigin : (method.get branch).origin = some offset) (path : Nat) :
    idOfPath? (method.registeredAt points branch) path = firstId? points offset path := by
  rw [idOfPath?, registeredAt, horigin, List.find?_filter, firstId?]
  simp only [Bool.decide_and, Bool.decide_eq_true]

/-- The block of a path reports the id of the path, if there is one. -/
theorem id?_chosenBlock? (method : Method) (branch : Handle) (registered : List BranchPoint)
    (anyProbed : Bool) (target : Handle) (path : Nat) :
    (method.chosenBlock? branch registered anyProbed target path).bind PathBlock.id?
      = idOfPath? registered path := by
  unfold chosenBlock?
  cases idOfPath? registered path with
  | some id => rfl
  | none =>
    dsimp only
    split <;> rfl

/-- The block of a path reports the first point of the path. -/
theorem id?_block? (hbranch : branch ∈ method.conditionalBranches)
    (horigin : (method.get branch).origin = some offset)
    (hready : method.registeredAt points branch ≠ [] → (method.next? branch).isSome = true)
    (hknown : path < (method.get branch).pathCount) :
    ((method.branchPlan points method.conditionalBranches).block? branch path).bind PathBlock.id?
      = firstId? points offset path := by
  rw [block?_branchPlan hbranch, pathBlock?_eq, ← idOfPath?_registeredAt horigin]
  by_cases hnone : method.registeredAt points branch = []
  · rw [branchBlocks_of_registeredAt hnone, hnone]
    rfl
  · obtain ⟨fallThrough, hnext⟩ := Option.isSome_iff_exists.mp (hready hnone)
    have hlt : path < (method.destinations branch fallThrough).length := by
      rw [Instruction.pathCount, if_pos (mem_conditionalBranches.mp hbranch).2.2] at hknown
      exact hknown
    rw [branchBlocks_of_next? hnext, find?_pathBlocks, List.getElem?_eq_getElem hlt,
      Option.bind_some]
    exact id?_chosenBlock? ..

end Ids

/-- What is noticed of an instruction that was read and of the block of its path is what the points
ask for. -/
theorem AsRead.withReport_noticed (hm : method.AsRead)
    (hready : ∀ branch ∈ method.conditionalBranches, method.registeredAt points branch ≠ [] →
      (method.next? branch).isSome = true)
    {handle : Handle} {path : Nat} (hknown : path < (method.get handle).pathCount) :
    ((method.get handle).noticed path).flatMap (withReport points)
      = (method.get handle).noticed path
        ++ (((method.branchPlan points method.conditionalBranches).block? handle path).bind
          PathBlock.id?).toList.map .reported := by
  by_cases hbranch : handle ∈ method.conditionalBranches
  · obtain ⟨hmem, hread, hflow⟩ := mem_conditionalBranches.mp hbranch
    obtain ⟨offset, horigin⟩ := Option.ne_none_iff_exists'.mp hread
    rw [id?_block? hbranch horigin (hready handle hbranch) hknown, noticed, horigin, hflow]
    exact List.flatMap_singleton _ _
  · have hblock : (method.branchPlan points method.conditionalBranches).block? handle path = none :=
      block?_branchPlan_of_notMem hbranch path
    rw [hblock, noticed]
    cases horigin : (method.get handle).origin with
    | none => rfl
    | some offset =>
      have hread : (method.get handle).origin ≠ none := by
        rw [horigin]
        exact Option.some_ne_none offset
      have hflow : (method.get handle).flow ≠ .conditionalBranch := by
        intro hflow
        exact hbranch (mem_conditionalBranches.mpr
          ⟨hm.ordered.mem_of_origin hread, hread, hflow⟩)
      rw [if_neg hflow]
      rfl

/-- Of what is noticed of a visit, the executions are those of the instruction. -/
theorem filter_noticed (instruction : Instruction) (path : Nat) (ids : List UInt32) :
    (instruction.noticed path ++ ids.map Observation.reported).filter Observation.isExecuted
      = instruction.noticed path := by
  rw [List.filter_append, filter_isExecuted_reported, List.append_nil, noticed]
  cases instruction.origin <;> rfl

/-- Walks from instructions of the body report exactly. -/
theorem Instrumented.reports_exactly (hm : method.AsRead)
    (hi : method.Instrumented other (method.branchPlan points method.conditionalBranches) id)
    (hready : ∀ branch ∈ method.conditionalBranches, method.registeredAt points branch ≠ [] →
      (method.next? branch).isSome = true)
    {handle : Handle} (hmem : handle ∈ method.order) {visits : List Visit}
    (hwalk : other.Walk (some handle) visits) (stack : List Int) :
    ReportsExactly points (other.perform stack visits).2 := by
  -- the walk is cut at the instructions of the body, so the induction is on its length
  induction hlength : visits.length using Nat.strong_induction_on generalizing handle visits with
  | _ count ih =>
    subst hlength
    cases hwalk with
    | stay => exact List.nil_prefix
    | @go _ path rest hknown hrest =>
      have hp := hi.placed handle hmem
      rw [id_eq] at hp
      have hread : (other.get handle).origin = none → (other.get handle).opcode = .label := by
        rw [hp.origin, hp.opcode]
        exact hm.unread handle
      rw [hp.pathCount] at hknown
      have hreport := hm.withReport_noticed hready hknown
      have hperform : (other.perform stack (⟨handle, path⟩ :: rest)).2
          = (method.get handle).noticed path ++ (other.perform stack rest).2 := by
        rw [perform, effect_eq_noticed hread, hp.noticed]
      have hshorter : rest.length < (⟨handle, path⟩ :: rest : List Visit).length :=
        Nat.lt_succ_self _
      rw [hperform]
      cases hblock : (method.branchPlan points method.conditionalBranches).block? handle path with
      | none =>
        rw [hblock] at hreport
        have hrestReports : ReportsExactly points (other.perform stack rest).2 := by
          rw [hp.direct path hknown hblock] at hrest
          cases hmove : method.after? handle path with
          | none =>
            rw [hmove] at hrest
            rw [hrest.eq_nil]
            exact List.nil_prefix
          | some next =>
            rw [hmove] at hrest
            exact ih _ hshorter (hm.mem_of_after? hmove) hrest rfl
        have hall := ReportsExactly.append (filter_noticed _ path []) hreport hrestReports
        rwa [List.map_nil, List.append_nil] at hall
      | some block =>
        rw [hblock] at hreport
        obtain ⟨start, hafter, front, hleads, hfront⟩ := hp.detour path hknown block hblock
        rw [hafter] at hrest
        rcases hleads.walk_cases hrest with hcut | ⟨back, rfl, hback⟩
        · have hprefix := other.perform_prefix stack hcut
          rw [hfront] at hprefix
          exact ReportsExactly.of_prefix (filter_noticed _ path _) hreport hprefix
        · obtain ⟨next, visits, hnext, hjumps⟩ :=
            method.sound_branchPlan points handle path block hblock
          have hexit := hm.mem_of_leads hjumps (hm.mem_of_after? hnext)
          have hshorter' : back.length < (⟨handle, path⟩ :: (front ++ back)).length := by
            rw [List.length_cons, List.length_append]
            omega
          have hbackReports := ih _ hshorter' hexit hback rfl
          rw [perform_append, hfront, ← List.append_assoc]
          exact hbackReports.append (filter_noticed _ path _) hreport

/-- The paths of a branch for which there is a point. -/
def pathsWithPoint (method : Method) (points : List BranchPoint) (branch : Handle) : List Nat :=
  (List.range (method.get branch).pathCount).filter fun path => points.any fun point =>
    (method.get branch).origin == some point.offset.toNat && point.path.toNat == path

/-- The pairs of a conditional branch of the body and one of its paths for which there is a
point. -/
def coveredPaths (method : Method) (points : List BranchPoint) : List (Handle × Nat) :=
  method.conditionalBranches.flatMap fun branch =>
    (method.pathsWithPoint points branch).map (branch, ·)

section Counting

variable {branch : Handle}

/-- There are as many blocks with an id as there are paths with one. -/
theorem countP_blockIds (registered : List BranchPoint) (pathCount : Nat) :
    (blockIds registered pathCount).countP Option.isSome
      = (List.range pathCount).countP fun path => (idOfPath? registered path).isSome := by
  rw [blockIds, List.countP_filterMap]
  apply List.countP_congr
  intro path _
  cases idOfPath? registered path with
  | some id => simp
  | none =>
    dsimp only
    split <;> simp

/-- A path has a first id if a point names it. -/
theorem isSome_firstId? (points : List BranchPoint) (offset path : Nat) :
    (firstId? points offset path).isSome = points.any fun point =>
      some offset == some point.offset.toNat && point.path.toNat == path := by
  rw [firstId?, Option.isSome_map, List.isSome_find?]
  congr 1
  funext point
  rw [Option.some_beq_some, Bool.beq_comm]

/-- The probes on a branch are those of its paths with a point. -/
theorem countP_branchBlocks (hbranch : branch ∈ method.conditionalBranches)
    (hready : method.registeredAt points branch ≠ [] → (method.next? branch).isSome = true) :
    (method.branchBlocks points branch).countP (fun block => block.id?.isSome)
      = (method.pathsWithPoint points branch).length := by
  obtain ⟨-, hread, hflow⟩ := mem_conditionalBranches.mp hbranch
  obtain ⟨offset, horigin⟩ := Option.ne_none_iff_exists'.mp hread
  have hpaths : (method.get branch).pathCount = (method.get branch).targets.length + 1 :=
    if_pos hflow
  have hmap := List.countP_map (p := Option.isSome) (f := PathBlock.id?)
    (l := method.branchBlocks points branch)
  rw [map_id?_branchBlocks hready, countP_blockIds] at hmap
  rw [pathsWithPoint, hpaths, horigin, ← List.countP_eq_length_filter]
  refine hmap.symm.trans (List.countP_congr ?_)
  intro path _
  rw [idOfPath?_registeredAt horigin, isSome_firstId?]

/-- The given branches carry their blocks, with so many probes, and have an instruction behind them
if they have points. -/
structure Tally (method other : Method) (points : List BranchPoint) (routed : List Handle)
    (total : Nat) : Prop extends method.Routing other points routed where
  total_eq : total = (routed.map fun branch => (method.pathsWithPoint points branch).length).sum
  ready : ∀ branch ∈ routed, method.registeredAt points branch ≠ [] →
    (method.next? branch).isSome = true

/-- One more branch adds its blocks to the tally. -/
theorem Tally.probeBranch {routed : List Handle} {total placed : Nat}
    (ht : method.Tally other points routed total) (hm : method.AsRead)
    (hbranch : branch ∈ method.conditionalBranches) (hout : branch ∉ routed)
    (hok : (other.probeBranch branch points probe).outcome = .ok placed) :
    method.Tally (other.probeBranch branch points probe).method points (branch :: routed)
      (total + placed) := by
  have hmem := (mem_conditionalBranches.mp hbranch).1
  obtain ⟨hget, hnext⟩ := ht.untouched branch hmem hout
  have hready : method.registeredAt points branch ≠ [] → (method.next? branch).isSome = true := by
    have hready := ready_of_probeBranch hok
    rwa [registeredAt, hget, hnext] at hready
  refine ⟨ht.toRouting.probeBranch hm hbranch hout hok, ?_, ?_⟩
  · rw [(probeBranch_spec hok).1, ht.branchBlocks_eq hm.toValid hmem hout,
      countP_branchBlocks hbranch hready, ht.total_eq, List.map_cons, List.sum_cons, Nat.add_comm]
  · intro handle hin
    rcases List.mem_cons.mp hin with rfl | hold
    · exact hready
    · exact ht.ready handle hold

/-- The placement on all branches counts the probes of all of them, and needs an instruction behind
every branch with points. -/
theorem AsRead.addBranchProbes_ok (hm : method.AsRead) {placed : Nat}
    (hok : (method.addBranchProbes points probe).outcome = .ok placed) :
    placed = (method.coveredPaths points).length
      ∧ ∀ branch ∈ method.conditionalBranches, method.registeredAt points branch ≠ [] →
        (method.next? branch).isSome = true := by
  obtain ⟨edited, ht, -⟩ := addBranchProbes_run
    (I := fun routed total other => method.Tally other points routed total)
    (fun ht hout hbranch hone => ht.probeBranch hm hbranch hout hone) hm.ordered
    ⟨hm.routing points, rfl, nofun⟩ hok
  refine ⟨?_, fun branch hbranch => ht.ready branch (List.mem_reverse.mpr hbranch)⟩
  rw [ht.total_eq, List.map_reverse, List.sum_reverse, coveredPaths, List.length_flatMap]
  simp only [List.length_map]

end Counting

/-- The point names a conditional branch of the body and one of its paths. -/
def hasPath (method : Method) (point : BranchPoint) : Bool :=
  method.conditionalBranches.any fun branch =>
    (method.get branch).origin == some point.offset.toNat
      && point.path.toNat < (method.get branch).pathCount

section Irrelevant

variable {branch : Handle}

/-- Points for paths that a branch does not have make no blocks. -/
theorem pathBlocks_filter (method : Method) (branch fallThrough : Handle)
    (registered : List BranchPoint) :
    method.pathBlocks branch fallThrough (registered.filter fun point =>
        point.path.toNat < (method.destinations branch fallThrough).length)
      = method.pathBlocks branch fallThrough registered := by
  have hany : method.anyProbed branch fallThrough (registered.filter fun point =>
        point.path.toNat < (method.destinations branch fallThrough).length)
      = method.anyProbed branch fallThrough registered := by
    rw [anyProbed, anyProbed, List.any_filter]
    simp only [Bool.and_self]
  rw [pathBlocks_eq, pathBlocks_eq, hany]
  apply List.filterMap_congr
  rintro ⟨target, path⟩ hin
  have hlt : path < (method.destinations branch fallThrough).length :=
    (List.getElem?_eq_some_iff.mp (List.mem_zipIdx_iff_getElem?.mp hin)).1
  have hid : idOfPath? (registered.filter fun point =>
        point.path.toNat < (method.destinations branch fallThrough).length) path
      = idOfPath? registered path := by
    rw [idOfPath?, idOfPath?, List.find?_filter]
    congr 2
    funext point
    by_cases hpath : point.path.toNat = path
    · simp [hpath, hlt]
    · simp [hpath]
  simp only [chosenBlock?, hid]

/-- At a branch of the body, the points that name a path of a branch are those that name one of its
own paths. -/
theorem AsRead.registeredAt_filter (hm : method.AsRead)
    (hbranch : branch ∈ method.conditionalBranches) :
    method.registeredAt (points.filter method.hasPath) branch
      = (method.registeredAt points branch).filter fun point =>
          point.path.toNat < (method.get branch).pathCount := by
  obtain ⟨hmem, hread, -⟩ := mem_conditionalBranches.mp hbranch
  obtain ⟨offset, horigin⟩ := Option.ne_none_iff_exists'.mp hread
  rw [registeredAt, registeredAt, horigin]
  dsimp only
  rw [List.filter_filter, List.filter_filter]
  apply List.filter_congr
  intro point _
  rw [Bool.eq_iff_iff]
  simp only [hasPath, Bool.and_eq_true, beq_iff_eq, decide_eq_true_eq, List.any_eq_true]
  constructor
  · rintro ⟨hoffset, another, hanother, horigin', hpath⟩
    have hmem' := (mem_conditionalBranches.mp hanother).1
    rw [hoffset] at horigin'
    rw [← hm.origins another hmem' branch hmem offset horigin' horigin]
    exact ⟨hpath, hoffset⟩
  · rintro ⟨hpath, hoffset⟩
    exact ⟨hoffset, branch, hbranch, by rw [horigin, hoffset], hpath⟩

/-- At a branch of the body, points that name none of its paths make no blocks. -/
theorem AsRead.branchBlocks_filter (hm : method.AsRead)
    (hbranch : branch ∈ method.conditionalBranches) :
    method.branchBlocks (points.filter method.hasPath) branch
      = method.branchBlocks points branch := by
  have hpaths (fallThrough : Handle) : (method.get branch).pathCount
      = (method.destinations branch fallThrough).length :=
    if_pos (mem_conditionalBranches.mp hbranch).2.2
  rw [branchBlocks, branchBlocks, hm.registeredAt_filter hbranch]
  cases method.next? branch with
  | none => rfl
  | some fallThrough =>
    dsimp only
    rw [hpaths fallThrough, pathBlocks_filter]

/-- Two runs for points that ask for the same blocks place the same. -/
theorem Routing.probeBranches_filter (hm : method.AsRead) {branches routed : List Handle}
    (hnodup : branches.Nodup)
    (hbranches : ∀ branch ∈ branches, branch ∈ method.conditionalBranches ∧ branch ∉ routed)
    (hr : method.Routing other points routed) {placed : Nat}
    (hok : (probeBranches points probe branches other).outcome = .ok placed) :
    (probeBranches (points.filter method.hasPath) probe branches other).outcome = .ok placed
      ∧ (probeBranches (points.filter method.hasPath) probe branches other).method
        = (probeBranches points probe branches other).method := by
  -- the branches ahead are not worked through yet
  refine probeBranches_congr
    (I := fun ahead other => ∃ routed, ahead.Nodup
      ∧ (∀ branch ∈ ahead, branch ∈ method.conditionalBranches ∧ branch ∉ routed)
      ∧ method.Routing other points routed) ?_ ?_ ?_ ⟨routed, hnodup, hbranches, hr⟩ hok
  · rintro branch rest other ⟨routed, -, hbranches, hr⟩
    obtain ⟨hbranch, hout⟩ := hbranches branch List.mem_cons_self
    have hmem := (mem_conditionalBranches.mp hbranch).1
    rw [hr.branchBlocks_eq hm.toValid hmem hout, hr.branchBlocks_eq hm.toValid hmem hout,
      hm.branchBlocks_filter hbranch]
  · rintro branch rest other ⟨routed, -, hbranches, hr⟩ hsome hnone
    obtain ⟨hbranch, hout⟩ := hbranches branch List.mem_cons_self
    have hmem := (mem_conditionalBranches.mp hbranch).1
    rw [hr.registeredAt_eq hmem hout, hm.registeredAt_filter hbranch,
      ← hr.registeredAt_eq hmem hout, hnone] at hsome
    exact hsome rfl
  · rintro branch rest other placed ⟨routed, hnodup, hbranches, hr⟩ hone
    obtain ⟨hbranch, hout⟩ := hbranches branch List.mem_cons_self
    exact ⟨branch :: routed, (List.nodup_cons.mp hnodup).2, unrouted_rest hnodup hbranches,
      hr.probeBranch hm hbranch hout hone⟩

/-- Points that name no path of a branch place nothing. -/
theorem AsRead.addBranchProbes_filter (hm : method.AsRead) (hl : method.Laid) {placed : Nat}
    (hok : (method.addBranchProbes points probe).outcome = .ok placed) :
    (method.addBranchProbes (points.filter method.hasPath) probe).outcome = .ok placed
      ∧ (method.addBranchProbes (points.filter method.hasPath) probe).method
        = (method.addBranchProbes points probe).method := by
  by_cases hempty : points.isEmpty = true
  · rw [List.isEmpty_iff.mp hempty] at hok ⊢
    exact ⟨hok, rfl⟩
  · rw [Method.addBranchProbes, if_neg hempty] at hok
    obtain ⟨count, hrun, hcount, hmethod⟩ := Edited.andThen_spec hok
    obtain ⟨hrun', hsame⟩ := Routing.probeBranches_filter hm hm.ordered.nodup_conditionalBranches
      (fun _ hin => ⟨hin, List.not_mem_nil⟩) (hm.routing points) hrun
    have hresult : (method.addBranchProbes points probe).method
        = (probeBranches points probe method.conditionalBranches method).method.layOut := by
      rw [Method.addBranchProbes, if_neg hempty, hmethod]
      rfl
    rw [hresult, ← hsame, ← Except.ok.inj hcount]
    by_cases hempty' : (points.filter method.hasPath).isEmpty = true
    · rw [Method.addBranchProbes, if_pos hempty']
      obtain ⟨hnone, hunchanged⟩ := probeBranches_nil method method.conditionalBranches probe
      rw [List.isEmpty_iff.mp hempty'] at hrun' ⊢
      rw [hunchanged, hl.layOut_eq hm.ordered hm.allCounted]
      exact ⟨hnone.symm.trans hrun', rfl⟩
    · rw [Method.addBranchProbes, if_neg hempty']
      obtain ⟨houtcome, hdone⟩ := Edited.andThen_of_ok
        (fun method placed => Edited.done method.layOut placed) hrun'
      rw [houtcome, hdone]
      exact ⟨rfl, rfl⟩

end Irrelevant

end Method

/-- Branch coverage is exact. On every walk of the probed method, a conditional branch that takes a
path is followed by the report of the first point on that path, if there is one, before the next
instruction of the body is executed, and nothing else is reported. The number of probes is that of
the pairs of a conditional branch and one of its paths for which there is a point. Points that name
no path of a conditional branch place nothing: the result is the same without them. -/
theorem addBranchProbes_exact {data : List UInt8} {method : Method}
    (hdecode : Method.decode data = .ok method) {points : List BranchPoint} {probe : Probe}
    {placed : Nat} (hplaced : (method.addBranchProbes points probe).outcome = .ok placed) :
    (∀ (entry : Entry) (visits : List Visit),
      (method.addBranchProbes points probe).method.Walk
          ((method.addBranchProbes points probe).method.entryAt? entry) visits →
        ReportsExactly points ((method.addBranchProbes points probe).method.observations visits))
      ∧ placed = (method.coveredPaths points).length
      ∧ (method.addBranchProbes (points.filter method.hasPath) probe).outcome = .ok placed
      ∧ (method.addBranchProbes (points.filter method.hasPath) probe).method
        = (method.addBranchProbes points probe).method := by
  obtain ⟨raw, regions, targets, -, hd⟩ := Method.decode_spec hdecode
  obtain ⟨hcount, hready⟩ := hd.asRead.addBranchProbes_ok hplaced
  have hi := hd.asRead.addBranchProbes hplaced
  refine ⟨?_, hcount, hd.asRead.addBranchProbes_filter hd.laid hplaced⟩
  intro entry visits hwalk
  rw [hi.entryAt?_eq] at hwalk
  cases hentry : method.entryAt? entry with
  | none =>
    rw [hentry] at hwalk
    rw [hwalk.eq_nil]
    exact List.nil_prefix
  | some start =>
    rw [hentry] at hwalk
    exact hi.reports_exactly hd.asRead hready (hd.asRead.entryAt?_mem hentry) hwalk []

/-- Two points on the path back of the loop in `guardedLoop`, one on a path that its branch does not
have, and one at an instruction that is no branch. -/
def loopPoints : List BranchPoint := [⟨1, 1, 4⟩, ⟨1, 1, 5⟩, ⟨1, 2, 6⟩, ⟨5, 0, 7⟩]

/-- One probe is placed in `guardedLoop`. -/
theorem addBranchProbes_exact_guardedLoop :
    ∃ method, Method.decode guardedLoop = .ok method
      ∧ (method.addBranchProbes loopPoints (.managed ⟨0x0A000001⟩)).outcome = .ok 1
      ∧ (∀ (entry : Entry) (visits : List Visit),
        (method.addBranchProbes loopPoints (.managed ⟨0x0A000001⟩)).method.Walk
            ((method.addBranchProbes loopPoints (.managed ⟨0x0A000001⟩)).method.entryAt? entry)
            visits →
          ReportsExactly loopPoints
            ((method.addBranchProbes loopPoints (.managed ⟨0x0A000001⟩)).method.observations visits))
      ∧ 1 = (method.coveredPaths loopPoints).length := by
  have hrun : ((Method.decode guardedLoop).bind fun method =>
      (method.addBranchProbes loopPoints (.managed ⟨0x0A000001⟩)).outcome) = .ok 1 := by
    decide +kernel
  obtain ⟨method, hdecode, hplaced⟩ := bind_eq_ok_iff.mp hrun
  obtain ⟨hexact, hcount, -⟩ := addBranchProbes_exact hdecode hplaced
  exact ⟨method, hdecode, hplaced, hexact, hcount⟩

end CilCoverage
