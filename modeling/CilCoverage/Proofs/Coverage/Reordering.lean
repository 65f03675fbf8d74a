import CilCoverage.Proofs.Coverage.Levels
import CilCoverage.Proofs.Coverage.Interruption
import CilCoverage.Proofs.Method.Agreement
import CilCoverage.Proofs.Method.Equivalence

/-!
# The order of the points

Points that are told apart by their offsets and paths can be listed in any order. On a branch each
path has one point at most, so the blocks are the same (`branchBlocks_perm`), and branches are
worked through in execution order whatever the points are. At an instruction there is one statement
point at most, so what is added around it is the same (`probeAdditions_perm`), but the copies of the
probes get their handles in the order of the points. The two results agree up to these handles
(`Grown.agrees`), because a probe leads nowhere and branches still lead to the handles that they led
to (`links_insertAt`).

Whether all statement points can be placed is told by the offsets that were read
(`Consistent.exists_addStatementProbes`), which no placement changes.
-/

set_option autoImplicit false

namespace CilCoverage

open Instruction

section Distinct

variable {α : Type} {p : α → Bool} {items items' : List α}

/-- A choice of one element at most does not depend on the order. -/
theorem filter_perm (hperm : items.Perm items') (hnodup : items.Nodup)
    (hone : ∀ a ∈ items, ∀ b ∈ items, p a = true → p b = true → a = b) :
    items.filter p = items'.filter p := by
  have hchosen := hperm.filter p
  have hdistinct := hnodup.filter p
  have hsame : ∀ a ∈ items.filter p, ∀ b ∈ items.filter p, a = b := by
    intro a ha b hb
    obtain ⟨ha, hpa⟩ := List.mem_filter.mp ha
    obtain ⟨hb, hpb⟩ := List.mem_filter.mp hb
    exact hone a ha b hb hpa hpb
  match hfilter : items.filter p with
  | [] =>
    rw [hfilter] at hchosen
    exact hchosen.nil_eq
  | [a] =>
    rw [hfilter] at hchosen
    exact List.singleton_perm.mp hchosen
  | a :: b :: rest =>
    rw [hfilter] at hdistinct hsame
    have hab := hsame a (by simp) b (by simp)
    simp [hab] at hdistinct

/-- The only element that passes a check is found in every order of the list. -/
theorem find?_perm (hperm : items.Perm items') (hnodup : items.Nodup)
    (hone : ∀ a ∈ items, ∀ b ∈ items, p a = true → p b = true → a = b) :
    items.find? p = items'.find? p := by
  rw [← List.head?_filter, ← List.head?_filter, filter_perm hperm hnodup hone]

end Distinct

namespace Points

/-- The points are the same, each kind in some order. -/
structure Reordered (points points' : Points) : Prop where
  statements : points.statements.Perm points'.statements
  branches : points.branches.Perm points'.branches

/-- No offset has two statement points, and no path of a branch has two points. -/
structure Distinct (points : Points) : Prop where
  offsets : (points.statements.map StatementPoint.offset).Nodup
  paths : (points.branches.map fun point => (point.offset, point.path)).Nodup

variable {points points' : Points}

/-- To be the same points in another order goes both ways. -/
theorem Reordered.symm (hr : points.Reordered points') : points'.Reordered points :=
  ⟨hr.statements.symm, hr.branches.symm⟩

/-- Points stay distinct in another order. -/
theorem Reordered.distinct (hr : points.Reordered points') (hd : points.Distinct) :
    points'.Distinct :=
  ⟨(hr.statements.map _).nodup_iff.mp hd.offsets, (hr.branches.map _).nodup_iff.mp hd.paths⟩

/-- A configuration asks for the same points in every order. -/
theorem Reordered.enabled (hr : points.Reordered points') (configuration : Configuration) :
    (points.enabled configuration).Reordered (points'.enabled configuration) := by
  unfold Points.enabled
  constructor
  · dsimp only
    split
    · exact hr.statements
    · exact .refl _
  · dsimp only
    split
    · exact hr.branches
    · exact .refl _

/-- The points that a configuration asks for are distinct if all of them are. -/
theorem Distinct.enabled (hd : points.Distinct) (configuration : Configuration) :
    (points.enabled configuration).Distinct := by
  unfold Points.enabled
  constructor
  · dsimp only
    split
    · exact hd.offsets
    · exact List.nodup_nil
  · dsimp only
    split
    · exact hd.paths
    · exact List.nodup_nil

end Points

namespace Method

variable {method other : Method} {probe : Probe}

section Branches

variable {points points' : List BranchPoint} {branch : Handle}

/-- The points of a branch are the same in every order of the points. -/
theorem registeredAt_perm (hperm : points.Perm points') (branch : Handle) :
    (method.registeredAt points branch).Perm (method.registeredAt points' branch) := by
  unfold registeredAt
  split
  · exact hperm.filter _
  · exact .refl _

/-- The points of one branch are told apart by their paths. -/
theorem idOfPath?_perm (hperm : points.Perm points')
    (hpaths : (points.map fun point => (point.offset, point.path)).Nodup) (path : Nat) :
    idOfPath? (method.registeredAt points branch) path
      = idOfPath? (method.registeredAt points' branch) path := by
  rw [idOfPath?, idOfPath?]
  congr 1
  have hsub : (method.registeredAt points branch).Sublist points := by
    unfold registeredAt
    split
    · exact List.filter_sublist
    · exact List.nil_sublist _
  refine find?_perm (registeredAt_perm hperm branch) (hpaths.of_map.sublist hsub) ?_
  intro one hone another hanother hpath hpath'
  obtain ⟨hone, horigin⟩ := mem_registeredAt.mp hone
  obtain ⟨hanother, horigin'⟩ := mem_registeredAt.mp hanother
  have hoffset : one.offset = another.offset :=
    UInt32.toNat_inj.mp (Option.some.inj (horigin.symm.trans horigin'))
  have hsame : one.path = another.path :=
    UInt32.toNat_inj.mp ((beq_iff_eq.mp hpath).trans (beq_iff_eq.mp hpath').symm)
  exact List.inj_on_of_nodup_map hpaths hone hanother (Prod.mk.injEq .. ▸ ⟨hoffset, hsame⟩)

/-- The blocks of a branch do not depend on the order of its points. -/
theorem branchBlocks_perm (hperm : points.Perm points')
    (hpaths : (points.map fun point => (point.offset, point.path)).Nodup) (branch : Handle) :
    method.branchBlocks points branch = method.branchBlocks points' branch := by
  unfold branchBlocks
  split
  · rename_i fallThrough hnext
    have hany : method.anyProbed branch fallThrough (method.registeredAt points branch)
        = method.anyProbed branch fallThrough (method.registeredAt points' branch) :=
      (registeredAt_perm hperm branch).any_eq
    rw [pathBlocks_eq, pathBlocks_eq, hany]
    simp only [chosenBlock?, idOfPath?_perm hperm hpaths]
  · rfl

/-- Runs over the same branches for reordered points place the same. -/
theorem probeBranches_perm (hperm : points.Perm points')
    (hpaths : (points.map fun point => (point.offset, point.path)).Nodup) {branches : List Handle}
    {placed : Nat} (hok : (probeBranches points probe branches method).outcome = .ok placed) :
    (probeBranches points' probe branches method).outcome = .ok placed
      ∧ (probeBranches points' probe branches method).method
        = (probeBranches points probe branches method).method := by
  refine probeBranches_congr (I := fun _ _ => True) ?_ ?_ (fun _ _ => trivial) trivial hok
  · intro branch _ other _
    exact (branchBlocks_perm hperm hpaths branch).symm
  · intro branch _ other _ hsome hnone
    have hnil : (other.registeredAt points branch).Perm (other.registeredAt points' branch) :=
      registeredAt_perm hperm branch
    rw [hnone] at hnil
    exact hsome hnil.nil_eq.symm

/-- The placement on branches does not depend on the order of the points. -/
theorem addBranchProbes_perm (hperm : points.Perm points')
    (hpaths : (points.map fun point => (point.offset, point.path)).Nodup) {placed : Nat}
    (hok : (method.addBranchProbes points probe).outcome = .ok placed) :
    (method.addBranchProbes points' probe).outcome = .ok placed
      ∧ (method.addBranchProbes points' probe).method
        = (method.addBranchProbes points probe).method := by
  have hempty : points'.isEmpty = points.isEmpty := hperm.symm.isEmpty_eq
  rw [Method.addBranchProbes] at hok ⊢
  rw [Method.addBranchProbes, hempty]
  split at hok
  · rename_i hnone
    rw [if_pos hnone, if_pos hnone]
    exact ⟨hok, rfl⟩
  · rename_i hsome
    rw [if_neg hsome, if_neg hsome]
    obtain ⟨count, hrun, hcount, hmethod⟩ := Edited.andThen_spec hok
    obtain ⟨hrun', hsame⟩ := probeBranches_perm hperm hpaths hrun
    obtain ⟨houtcome', hmethod'⟩ := Edited.andThen_of_ok
      (fun method placed => Edited.done method.layOut placed) hrun'
    rw [houtcome', hmethod', hmethod, hsame]
    exact ⟨hcount, rfl⟩

end Branches

section Statements

variable {points points' : List StatementPoint}

/-- The insertion of a placement at a target that is there comes to what the insertion comes to. -/
theorem insertion_of_insertAt (offset : Int) {target : Handle} {templates : List Template}
    {inserted : Method} (hinsert : method.insertAt target templates = .ok inserted) :
    (Edited.insertion method offset (some target) templates).outcome = .ok ()
      ∧ (Edited.insertion method offset (some target) templates).method = inserted := by
  unfold Edited.insertion
  dsimp only
  rw [hinsert]
  exact ⟨rfl, rfl⟩

/-- A probe can be inserted at every instruction. -/
theorem Ordered.spliced_sequence (ho : method.Ordered) {target : Handle}
    (hmem : target ∈ method.order) (probe : Probe) (id : UInt32) :
    ∃ position inserted, method.order[position]? = some target
      ∧ method.insertAt target (probe.sequence id) = .ok inserted
      ∧ method.Spliced inserted target position (probe.sequence id) := by
  refine ho.spliced hmem Probe.sequence_ne_nil ?_
  intro template htemplate
  rw [Probe.targets_sequence htemplate]
  exact nofun

/-- A run over statement points succeeds if an instruction was read from the offset of each. -/
theorem Consistent.exists_addStatementProbes (hc : method.Consistent) (probe : Probe)
    (hread : ∀ point ∈ points, ∃ outline ∈ method.readOutlines,
      outline.origin = some point.offset.toNat) :
    ∃ placed, (addStatementProbes probe points method).outcome = .ok placed := by
  induction points generalizing method with
  | nil => exact ⟨0, rfl⟩
  | cons point rest ih =>
    obtain ⟨outline, houtline, horigin⟩ := hread point List.mem_cons_self
    obtain ⟨handle, hhandle, rfl⟩ := List.mem_map.mp (List.mem_filter.mp houtline).1
    have hfind : method.findByOrigin? point.offset.toNat = some handle :=
      hc.findByOrigin?_eq_some_iff.mpr ⟨hhandle, _, horigin, rfl⟩
    obtain ⟨-, inserted, -, hinsert, -⟩ := hc.toOrdered.spliced_sequence hhandle probe point.id
    obtain ⟨segment, hg⟩ := hc.toOrdered.grown.insertAt hc hhandle (method.own_none handle) hinsert
    obtain ⟨placed, hplaced⟩ := ih (hg.consistent hc) (hg.readOutlines_eq ▸
      fun later hlater => hread later (List.mem_cons_of_mem _ hlater))
    obtain ⟨hone, hmethod⟩ := insertion_of_insertAt point.offset.toNat hinsert
    rw [← hmethod] at hplaced
    refine ⟨placed + 1, ?_⟩
    rw [addStatementProbes]
    show (Edited.andThen _ _).outcome = _
    rw [hfind, (Edited.andThen_of_ok _ hone).1, (Edited.andThen_of_ok _ hplaced).1]
    rfl

/-- A probe leads nowhere, so branches lead where they led. -/
theorem Ordered.links_insertAt (ho : method.Ordered) {target : Handle}
    (hmem : target ∈ method.order) {id : UInt32} {inserted : Method}
    (hinsert : method.insertAt target (probe.sequence id) = .ok inserted) :
    inserted.links = method.links := by
  obtain ⟨position, inserted', -, hinsert', hs⟩ := ho.spliced_sequence hmem probe id
  obtain rfl := Except.ok.inj (hinsert.symm.trans hinsert')
  have hcopies :
      ((method.copies target (probe.sequence id)).map content).flatMap targets = [] := by
    rw [List.flatMap_map, copies, List.flatMap_map, List.flatMap_eq_nil_iff]
    intro template htemplate
    exact (Probe.copied_sequence htemplate _).2.2
  have hsame (k : Nat) : (method.contents.take k
      ++ (method.copies target (probe.sequence id)).map content
      ++ method.contents.drop k).flatMap targets = method.contents.flatMap targets := by
    rw [List.flatMap_append, List.flatMap_append, hcopies, List.append_nil, ← List.flatMap_append,
      List.take_append_drop]
  rw [links_eq_flatMap, hs.contents, links_eq_flatMap]
  split
  · exact hsame _
  · exact hsame _

/-- What statement probes leave as it is: where branches lead to, and the header up to the code
size. -/
theorem Ordered.addStatementProbes_frame (ho : method.Ordered) {placed : Nat}
    (hok : (addStatementProbes probe points method).outcome = .ok placed) :
    (addStatementProbes probe points method).method.links = method.links
      ∧ (addStatementProbes probe points method).method.header
        = { method.header with
            codeSize := (addStatementProbes probe points method).method.header.codeSize } := by
  refine (addStatementProbes_run (I := fun _ other => other.Ordered ∧ other.links = method.links
    ∧ other.header = { method.header with codeSize := other.header.codeSize }) ?_ []
    ⟨ho, rfl, rfl⟩ hok).2
  rintro done other point target inserted ⟨hother, hlinks, hheader⟩ htarget - hinsert
  have hlaid (edited : Method) : edited.layOut.header
      = { edited.header with codeSize := edited.layOut.header.codeSize } := rfl
  obtain ⟨-, position, first, rest, -, -, heq⟩ :=
    (insertAt_eq_ok_iff hother Probe.sequence_ne_nil).mp hinsert
  have hkept : (other.replaced target position first rest).header = other.header := rfl
  refine ⟨?_, (hother.links_insertAt htarget hinsert).trans hlinks, ?_⟩
  · rw [heq]
    exact hother.replaced.layOut
  · rw [heq, hlaid, hkept, hheader]

/-- Statement points are told apart by their offsets. -/
theorem statementOutlines_perm (hperm : points.Perm points')
    (hoffsets : (points.map StatementPoint.offset).Nodup) (probe : Probe) (handle : Handle) :
    method.statementOutlines points probe handle
      = method.statementOutlines points' probe handle := by
  rw [statementOutlines, statementOutlines, filter_perm hperm hoffsets.of_map]
  intro one hone another hanother hat hat'
  have hsame : one.offset.toNat = another.offset.toNat :=
    Option.some.inj ((beq_iff_eq.mp hat).symm.trans (beq_iff_eq.mp hat'))
  exact List.inj_on_of_nodup_map hoffsets hone hanother (UInt32.toNat_inj.mp hsame)

/-- The order of statement points at different offsets does not matter for the additions. -/
theorem probeAdditions_perm (hperm : points.Perm points')
    (hoffsets : (points.map StatementPoint.offset).Nodup) (branches : List BranchPoint)
    (probe : Probe) (routed : List Handle) :
    method.probeAdditions ⟨points, branches⟩ probe routed
      = method.probeAdditions ⟨points', branches⟩ probe routed := by
  simp only [probeAdditions, statementOutlines_perm hperm hoffsets]

/-- The placement of statement probes does not depend on the order of the points, up to the handles
of the probes. -/
theorem Settled.addStatementProbes_perm {lost : Prop} (hs : method.Settled lost)
    (hc : method.Consistent) (hperm : points.Perm points')
    (hoffsets : (points.map StatementPoint.offset).Nodup) {placed : Nat}
    (hok : (Method.addStatementProbes probe points method).outcome = .ok placed) :
    (Method.addStatementProbes probe points' method).outcome = .ok placed
      ∧ (Method.addStatementProbes probe points method).method.Matches
        (Method.addStatementProbes probe points' method).method := by
  obtain ⟨placed', hok'⟩ := hc.exists_addStatementProbes probe fun point hpoint =>
    hc.exists_origin hok point (hperm.mem_iff.mpr hpoint)
  obtain rfl : placed' = placed := by
    rw [outcome_addStatementProbes hok, outcome_addStatementProbes hok', hperm.length_eq]
  have hstart : method.Grown method (method.probeAdditions ⟨[], []⟩ probe []) fun handle =>
      [handle] := by
    rw [probeAdditions_nil]
    exact hc.toOrdered.grown
  obtain ⟨segment, hg⟩ := hstart.addStatementProbes hc [] hok
  obtain ⟨segment', hg'⟩ := hstart.addStatementProbes hc [] hok'
  rw [List.nil_append, probeAdditions_perm hperm hoffsets] at hg
  obtain ⟨hlinks, hheader⟩ := hc.toOrdered.addStatementProbes_frame hok
  obtain ⟨hlinks', hheader'⟩ := hc.toOrdered.addStatementProbes_frame hok'
  have hs' := hs.addStatementProbes probe points
  have hs'' := hs.addStatementProbes probe points'
  refine ⟨hok', (hg.agrees hg' hs.toValid hlinks hlinks').matches hs'.toValid hs''.toValid hs'.laid
    hs''.laid ?_⟩
  rw [hheader']
  exact hheader

end Statements

section Instrumenting

variable {points points' : Points} {configuration : Configuration}

/-- Instrumentation does not depend on the order of the points. -/
theorem DecodedFrom.instrument_matches {raw : RawBody} {regions : List Region}
    {targets : List (List Handle)} (hd : method.DecodedFrom raw regions targets)
    (hr : points.Reordered points') (hdistinct : points.Distinct) {placement : Placement}
    (hok : (method.instrument points probe configuration).outcome = .ok placement) :
    (method.instrument points' probe configuration).outcome = .ok placement
      ∧ (method.instrument points probe configuration).method.Matches
        (method.instrument points' probe configuration).method := by
  obtain ⟨routed, noted, rfl, hrouted, rfl, hnoted, -⟩ := instrument_spec hok
  have hre := hr.enabled configuration
  have hde := hdistinct.enabled configuration
  obtain ⟨hrouted', hsame⟩ := addBranchProbes_perm hre.branches hde.paths hrouted
  obtain ⟨segment, hg⟩ := hd.asRead.consistent.grown_addBranchProbes hrouted
  obtain ⟨hnoted', hmatches⟩ := (hd.settled_addBranchProbes hrouted).addStatementProbes_perm
    (hg.consistent hd.asRead.consistent) hre.statements hde.offsets hnoted
  have hall := instrument_of_ok hrouted hnoted
  have hall' := instrument_of_ok hrouted' (hsame.symm ▸ hnoted')
  rw [hsame] at hall'
  refine ⟨hall'.1, ?_⟩
  rw [hall.2, hall'.2]
  dsimp only
  split
  · exact hmatches
  · exact hmatches.increaseMaxStack _

end Instrumenting

end Method

/-- The order of the points is of no account. If no offset has two statement points and no path of a
branch has two points, then the same points in another order are placed if and only if they are, in
the same number, and the two results have one stack depth and one encoding. -/
theorem instrument_perm {data : List UInt8} {method : Method}
    (hdecode : Method.decode data = .ok method) {points points' : Points}
    (hreordered : points.Reordered points') (hdistinct : points.Distinct) (probe : Probe)
    (configuration : Configuration) :
    ((∃ placement, (method.instrument points probe configuration).outcome = .ok placement)
        ↔ ∃ placement, (method.instrument points' probe configuration).outcome = .ok placement)
      ∧ ∀ placement, (method.instrument points probe configuration).outcome = .ok placement →
        (method.instrument points' probe configuration).outcome = .ok placement
          ∧ (method.instrument points probe configuration).method.header.maxStack
            = (method.instrument points' probe configuration).method.header.maxStack
          ∧ (method.instrument points probe configuration).method.toBytes
            = (method.instrument points' probe configuration).method.toBytes := by
  obtain ⟨raw, regions, targets, -, hd⟩ := Method.decode_spec hdecode
  refine ⟨⟨?_, ?_⟩, ?_⟩
  · rintro ⟨placement, hok⟩
    exact ⟨placement, (hd.instrument_matches hreordered hdistinct hok).1⟩
  · rintro ⟨placement, hok⟩
    exact ⟨placement,
      (hd.instrument_matches hreordered.symm (hreordered.distinct hdistinct) hok).1⟩
  · intro placement hok
    obtain ⟨hok', hmatches⟩ := hd.instrument_matches hreordered hdistinct hok
    exact ⟨hok', congrArg Header.maxStack hmatches.header, hmatches.toBytes_eq⟩

/-- The points of `guardedPoints`, each kind in reverse. -/
def guardedPointsReversed : Points where
  statements := [⟨5, 2⟩, ⟨0, 1⟩]
  branches := [⟨1, 1, 4⟩, ⟨1, 0, 3⟩]

/-- In reverse, the probes of `guardedLoop` get other handles, but the bytes are the same. -/
theorem instrument_perm_guardedLoop :
    ∃ method, Method.decode guardedLoop = .ok method
      ∧ (method.instrument guardedPoints (.managed ⟨0x0A000001⟩) {}).outcome = .ok ⟨2, 2⟩
      ∧ (method.instrument guardedPointsReversed (.managed ⟨0x0A000001⟩) {}).outcome = .ok ⟨2, 2⟩
      ∧ (method.instrument guardedPoints (.managed ⟨0x0A000001⟩) {}).method.order
        ≠ (method.instrument guardedPointsReversed (.managed ⟨0x0A000001⟩) {}).method.order
      ∧ (method.instrument guardedPoints (.managed ⟨0x0A000001⟩) {}).method.toBytes
        = (method.instrument guardedPointsReversed (.managed ⟨0x0A000001⟩) {}).method.toBytes := by
  have hrun : ((Method.decode guardedLoop).bind fun method =>
      (method.instrument guardedPoints (.managed ⟨0x0A000001⟩) {}).outcome.bind fun placement =>
        .ok (placement,
          decide ((method.instrument guardedPoints (.managed ⟨0x0A000001⟩) {}).method.order
            = (method.instrument guardedPointsReversed (.managed ⟨0x0A000001⟩) {}).method.order)))
      = .ok (⟨2, 2⟩, false) := by decide +kernel
  obtain ⟨method, hdecode, hmethod⟩ := bind_eq_ok_iff.mp hrun
  obtain ⟨placement, hplaced, hresult⟩ := bind_eq_ok_iff.mp hmethod
  obtain ⟨rfl, horder⟩ := Prod.mk.inj (Except.ok.inj hresult)
  have hreordered : guardedPoints.Reordered guardedPointsReversed :=
    ⟨List.Perm.swap _ _ _, List.Perm.swap _ _ _⟩
  have hdistinct : guardedPoints.Distinct := ⟨by decide, by decide⟩
  obtain ⟨hplaced', -, hbytes⟩ :=
    (instrument_perm hdecode hreordered hdistinct (.managed ⟨0x0A000001⟩) {}).2 _ hplaced
  exact ⟨method, hdecode, hplaced, hplaced', of_decide_eq_false horder, hbytes⟩

end CilCoverage
