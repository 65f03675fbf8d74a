import CilCoverage.Proofs.Coverage.BranchExactness
import CilCoverage.Proofs.Coverage.Recoding
import CilCoverage.Proofs.Coverage.Scoping

/-!
# What placement leaves behind when it stops

The insertion of a probe lays the method out again, so a run over statement points can be left at
any point. The placement on branches lays the method out when all branches have been worked through.
It stops at a branch that has points while nothing is behind it, and the blocks of the branches
before that one then stay without layout: the method has grown beyond the size that its header still
tells, and cannot be encoded (`Spread.stale`). This is so if and only if the method is `Stranded`;
every other run leaves a method that is laid out and can be encoded
(`DecodedFrom.addBranchProbes_staleIff`, `DecodedFrom.instrument_staleIff`).
-/

set_option autoImplicit false

namespace CilCoverage

open Instruction

/-- Number of bytes of an instruction with the outline. -/
def Outline.size (outline : Outline) : Nat :=
  outline.opcode.length + outline.opcode.operandKind.size
    + 4 * if outline.opcode = .switch then outline.targetCount else 0

/-- The outline of an instruction that counts its targets tells its size. -/
theorem Instruction.WellFormed.size_outline {instruction : Instruction}
    (hw : instruction.WellFormed) : instruction.outline.size = instruction.size :=
  hw.counted.size_eq.symm

namespace Additions

/-- Number of bytes of what is added. -/
def size (additions : Additions) (order : List Handle) : Nat :=
  (order.map fun handle =>
    ((additions.before handle ++ additions.behind handle).map Outline.size).sum).sum

/-- The additions around the instructions add their sizes. -/
theorem sum_size_around (additions : Additions) (method : Method) (order : List Handle) :
    ((order.flatMap (additions.around method)).map Outline.size).sum
      = (order.map fun handle => (method.get handle).outline.size).sum + additions.size order := by
  induction order with
  | nil => rfl
  | cons handle rest ih =>
    simp only [size, List.flatMap_cons, List.map_append, List.sum_append, List.map_cons,
      List.sum_cons, around] at ih ⊢
    omega

/-- One outline behind an instruction is no larger than all additions. -/
theorem size_le_size {additions : Additions} {order : List Handle} {handle : Handle}
    {outline : Outline} (hmem : handle ∈ order) (hbehind : outline ∈ additions.behind handle) :
    outline.size ≤ additions.size order := by
  calc outline.size
      ≤ ((additions.before handle ++ additions.behind handle).map Outline.size).sum :=
        List.le_sum_of_mem (List.mem_map_of_mem (List.mem_append_right _ hbehind))
    _ ≤ additions.size order := List.le_sum_of_mem (List.mem_map_of_mem hmem)

end Additions

namespace Method

variable {method other : Method} {points : List BranchPoint} {probe : Probe} {branch : Handle}

section Sizes

variable {additions : Additions} {segment : Handle → List Handle}

/-- The code ends at the sum of the sizes of its outlines. -/
theorem Valid.startOf_outlines (hv : method.Valid) :
    startOf method.instructions method.length = (method.outlines.map Outline.size).sum := by
  have hlength : method.length = method.instructions.length := (List.length_map _).symm
  rw [hlength, startOf_length, instructions, outlines, List.map_map, List.map_map]
  apply congrArg List.sum
  apply List.map_congr_left
  intro handle _
  exact (hv.wellFormed handle).size_outline.symm

/-- A method grows by the bytes of what is added. -/
theorem Grown.startOf_length (hg : method.Grown other additions segment) (hv : method.Valid)
    (hv' : other.Valid) : startOf other.instructions other.length
      = startOf method.instructions method.length + additions.size method.order := by
  rw [hv'.startOf_outlines, hv.startOf_outlines, hg.outlines_eq, additions.sum_size_around,
    Method.outlines, List.map_map]
  rfl

/-- A method whose instructions take more bytes than its header tells does not fit its buffer. -/
theorem toBytes_ne_ok (htabled : ∀ handle, (method.get handle).Tabled)
    (hlarger : method.codeSize + 4 ≤ startOf method.instructions method.length)
    (data : List UInt8) : method.toBytes ≠ .ok data := by
  intro hbytes
  obtain ⟨-, hroom, -⟩ := write_eq_ok hbytes
  rw [length_written, length_bytes_of_tabled htabled, encodedSize] at hroom
  have hgap := padding_lt (show 0 < 4 by decide) (Header.fatSize + method.codeSize)
  split at hroom <;> omega

end Sizes

/-- The layout of the method is that of its instructions, and it can be encoded. -/
structure Presentable (method : Method) : Prop where
  laid : method.Laid
  codeSize : method.codeSize < 2 ^ 31 →
    method.codeSize = startOf method.instructions method.length
  displacements : method.codeSize < 2 ^ 31 → ∀ handle ∈ method.order,
    (method.get handle).displacements = (method.get handle).targets.map fun target =>
      method.offsetOf target - (method.get handle).finish
  encodes : method.codeSize < 2 ^ 31 → method.RegionsFit → ∃ data, method.toBytes = .ok data

/-- A valid method that is laid out can be presented. -/
theorem Valid.presentable (hv : method.Valid) (hl : method.Laid) : method.Presentable where
  laid := hl
  codeSize := hl.codeSize_eq
  displacements := fun hsmall _ hmem => hl.displacements_eq_map hv hsmall hmem
  encodes := fun hsmall hfit => ⟨_, hv.toBytes_eq hl hsmall hfit⟩

/-- What a run that stopped left behind: a method without layout that is not encoded. Laying it out
repairs it. -/
structure Stale (edited : Method) : Prop where
  unplaced : ∃ handle ∈ edited.order, edited.offsetOf handle < 0
  refused : ∀ data, edited.toBytes ≠ .ok data
  repaired : edited.layOut.Presentable

/-- What a stopped run leaves behind cannot be presented. -/
theorem Stale.not_presentable {edited : Method} (hs : edited.Stale) : ¬ edited.Presentable := by
  intro hp
  obtain ⟨handle, hmem, hnegative⟩ := hs.unplaced
  obtain ⟨k, hk⟩ := List.getElem?_of_mem hmem
  rw [hp.laid.offset hk] at hnegative
  exact absurd hnegative (Int.not_lt.mpr (Int.natCast_nonneg _))

/-- A branch has points although nothing is behind it, and other branches get blocks. -/
def Stranded (method : Method) (points : List BranchPoint) : Prop :=
  (∃ branch ∈ method.conditionalBranches,
      method.registeredAt points branch ≠ [] ∧ method.next? branch = none)
    ∧ ∃ branch ∈ method.conditionalBranches, method.branchBlocks points branch ≠ []

instance (method : Method) (points : List BranchPoint) : Decidable (method.Stranded points) := by
  unfold Stranded
  exact inferInstance

section Spreading

variable {block : PathBlock} {instruction : Instruction} {routed : List Handle}

/-- The code of a block has no `switch` and is not placed yet. -/
theorem offset_code (hmem : instruction ∈ block.code probe) :
    instruction.opcode ≠ .switch ∧ instruction.offset = -1 := by
  rcases mem_code hmem with ⟨reported, template, htemplate, rfl⟩ | rfl
  · refine ⟨?_, rfl⟩
    have hplain := Probe.isBranch_sequence htemplate
    intro hswitch
    rw [(Opcode.widened_eq_switch_iff template.opcode).mp hswitch] at hplain
    cases hplain
  · exact ⟨nofun, rfl⟩

/-- The given branches carry their blocks, but nothing has been laid out since. -/
structure Spread (method other : Method) (points : List BranchPoint) (probe : Probe)
    (routed : List Handle) : Prop extends method.Routed other points routed where
  grown : ∃ segment, method.Grown other (method.probeAdditions ⟨[], points⟩ probe routed) segment
  header : other.header = method.header
  tabled : ∀ handle, (other.get handle).Tabled
  kept : (∀ branch ∈ routed, method.branchBlocks points branch = []) → other = method
  unplaced : (∃ branch ∈ routed, method.branchBlocks points branch ≠ []) →
    ∃ handle ∈ other.order, other.offsetOf handle = -1

/-- Before the first branch nothing is spread. -/
theorem DecodedFrom.spread {raw : RawBody} {regions : List Region} {targets : List (List Handle)}
    (hd : method.DecodedFrom raw regions targets) (points : List BranchPoint) (probe : Probe) :
    method.Spread method points probe [] where
  toRouting := hd.asRead.routing points
  intact := hd.intact
  dangling_iff := iff_of_false hd.recodable.not_dangling nofun
  grown := by
    rw [probeAdditions_nil]
    exact ⟨_, hd.asRead.ordered.grown⟩
  header := rfl
  tabled := hd.intact.tabled hd.laid
  kept := fun _ => rfl
  unplaced := nofun

/-- The blocks of one more branch are put into fresh handles, which have no place yet. -/
theorem Spread.probeBranch (hs : method.Spread other points probe routed) (hm : method.AsRead)
    (hrecodable : method.Recodable) (hbranch : branch ∈ method.conditionalBranches)
    (hout : branch ∉ routed) {placed : Nat}
    (hok : (other.probeBranch branch points probe).outcome = .ok placed) :
    method.Spread (other.probeBranch branch points probe).method points probe (branch :: routed) := by
  obtain ⟨hmem, -, -⟩ := mem_conditionalBranches.mp hbranch
  obtain ⟨segment, hg⟩ := hs.grown
  have hat := getElem?_idxOf (hs.order.subset hmem)
  have hlt := hs.intact.ordered.lt_of_getElem? hat
  have hrouted := hs.toRouted.probeBranch hm hrecodable hbranch hout hok
  have hgrown := hg.probeBranch hm.consistent hmem hout hok
  have hmethod := (probeBranch_spec hok).2
  rw [hs.branchBlocks_eq hm.toValid hmem hout] at hmethod
  refine ⟨hrouted, hgrown, ?_, ?_, ?_, ?_⟩
  · rw [hmethod, spliceBlocks_eq hlt]
    exact hs.header
  · rw [hmethod, spliceBlocks_eq hlt]
    refine forall_get_replaced hlt (fun handle _ => hs.tabled handle) ?_ nofun
    intro instruction hin
    rcases List.mem_cons.mp hin with rfl | hcode
    · exact hs.tabled branch
    · obtain ⟨block, -, hcode⟩ := List.mem_flatMap.mp hcode
      exact fun hswitch => absurd hswitch (offset_code hcode).1
  · intro hnone
    rw [hmethod, hnone branch List.mem_cons_self, spliceBlocks_nil]
    exact hs.kept fun branch hin => hnone branch (List.mem_cons_of_mem _ hin)
  · rintro ⟨known, hknown, hblocks⟩
    by_cases hnone : method.branchBlocks points branch = []
    · have hrest : known ∈ routed := by
        refine (List.mem_cons.mp hknown).resolve_left ?_
        rintro rfl
        exact hblocks hnone
      rw [hmethod, hnone, spliceBlocks_nil]
      exact hs.unplaced ⟨known, hrest, hblocks⟩
    -- the first fresh handle holds the start of a block, which has no place until the layout
    · obtain ⟨block, blocks, hcons⟩ := List.exists_cons_of_ne_nil hnone
      obtain ⟨first, rest, hfirst⟩ := List.exists_cons_of_ne_nil
        (List.ne_nil_of_mem (branchTo_mem_code probe block))
      have hin : first ∈ block.code probe := by
        rw [hfirst]
        exact List.mem_cons_self
      rw [hmethod, spliceBlocks_eq hlt, hcons, List.flatMap_cons, hfirst]
      refine ⟨other.slots.size, (hs.intact.ordered.replaced.mem_iff _).mpr ?_, ?_⟩
      · rw [size_replaced]
        exact Nat.lt_add_of_pos_right (Nat.succ_pos _)
      · rw [offsetOf, get_replaced_fresh (Nat.le_refl _), Nat.sub_self]
        exact (offset_code hin).2

/-- A branch with blocks has a jump past them behind it. -/
theorem jump_mem_behind {method : Method} (hin : branch ∈ routed)
    (hblocks : method.branchBlocks points branch ≠ []) :
    Outline.jump ∈ (method.probeAdditions ⟨[], points⟩ probe routed).behind branch := by
  have hready : (method.next? branch).isSome = true := by
    rw [Option.isSome_iff_ne_none]
    intro hnext
    rw [branchBlocks, hnext] at hblocks
    exact hblocks rfl
  have hids : (method.branchBlocks points branch).map PathBlock.id? = _ :=
    map_id?_branchBlocks fun _ => hready
  obtain ⟨id?, rest, hcons⟩ := List.exists_cons_of_ne_nil
    (List.map_eq_nil_iff.not.mpr hblocks : (method.branchBlocks points branch).map PathBlock.id? ≠ [])
  rw [hids] at hcons
  refine List.mem_append_right _ ?_
  rw [if_pos hin, branchOutlines, hcons, List.flatMap_cons, blockOutlines]
  simp

/-- The blocks that a run has placed before it stopped make the method larger than its header
tells. -/
theorem Spread.stale (hs : method.Spread other points probe routed) (hv : method.Valid)
    (hl : method.Laid) (hrouted : ∀ branch ∈ routed, branch ∈ method.order)
    (hblocks : ∃ branch ∈ routed, method.branchBlocks points branch ≠ []) : other.Stale where
  unplaced := by
    obtain ⟨handle, hmem, hoffset⟩ := hs.unplaced hblocks
    exact ⟨handle, hmem, by omega⟩
  refused := by
    obtain ⟨branch, hin, hnonempty⟩ := hblocks
    obtain ⟨segment, hg⟩ := hs.grown
    have hgrown := hg.startOf_length hv hs.intact.toValid
    -- one jump of five bytes makes the code longer than the header tells
    have hjump : 5 ≤ (method.probeAdditions ⟨[], points⟩ probe routed).size method.order :=
      Additions.size_le_size (hrouted branch hin) (jump_mem_behind hin hnonempty)
    have hheader : other.codeSize = method.codeSize := congrArg (fun h => h.codeSize.toNat) hs.header
    have hcode := hl.codeSize_min
    exact toBytes_ne_ok hs.tabled (by omega)
  repaired :=
    hs.intact.layOut.presentable (hs.intact.ordered.laid_layOut hs.intact.allCounted)

end Spreading

/-- Positions increase along the order. -/
theorem Ordered.pairwise_idxOf (ho : method.Ordered) :
    method.order.Pairwise fun one another =>
      method.order.idxOf one < method.order.idxOf another := by
  rw [List.pairwise_iff_getElem]
  intro i j hi hj hij
  rwa [ho.nodup.idxOf_getElem, ho.nodup.idxOf_getElem]

/-- A branch with nothing behind it is the last of the conditional branches. -/
theorem Ordered.eq_nil_of_next? (ho : method.Ordered) {front back : List Handle}
    (hsplit : method.conditionalBranches = front ++ branch :: back)
    (hnext : method.next? branch = none) : back = [] := by
  have hmem {handle : Handle} (hin : handle ∈ front ++ branch :: back) : handle ∈ method.order :=
    (mem_conditionalBranches.mp (hsplit ▸ hin)).1
  have hat := getElem?_idxOf (hmem (List.mem_append_right front List.mem_cons_self))
  rw [ho.next?_of_getElem? hat, List.getElem?_eq_none_iff] at hnext
  have hsub : method.conditionalBranches.Sublist method.order := List.filter_sublist
  have hpairwise := ho.pairwise_idxOf.sublist hsub
  rw [hsplit, List.pairwise_append, List.pairwise_cons] at hpairwise
  rw [List.eq_nil_iff_forall_not_mem]
  intro later hlater
  have hafter := hpairwise.2.1.1 later hlater
  have hlast := List.idxOf_lt_length_of_mem
    (hmem (List.mem_append_right front (List.mem_cons_of_mem _ hlater)))
  omega

end Method

/-- A run leaves a method that is laid out and can be encoded, unless branches are stranded: then it
stops and leaves the method without layout. -/
structure Edited.StaleIff {α : Type} (edited : Edited α) (stranded : Prop) : Prop where
  presentable : ¬ stranded → edited.method.Presentable
  stale : stranded → edited.method.Stale
  stopped : stranded → ∃ offset, edited.outcome = .error (.instructionNotFound offset)

namespace Method

variable {method : Method} {raw : RawBody} {regions : List Region} {targets : List (List Handle)}
  {probe : Probe}

/-- A run over the branches of a decoded method stops at the last one. -/
theorem DecodedFrom.spread_of_stopped (hd : method.DecodedFrom raw regions targets)
    {points : List BranchPoint} {cause : Error}
    (hstop : (probeBranches points probe method.conditionalBranches method).outcome
      = .error cause) :
    ∃ front branch, method.conditionalBranches = front ++ [branch]
      ∧ method.Spread (probeBranches points probe method.conditionalBranches method).method points
        probe front.reverse
      ∧ method.registeredAt points branch ≠ [] ∧ method.next? branch = none
      ∧ ∃ offset, cause = .instructionNotFound offset := by
  have hm := hd.asRead
  have hordered := hm.ordered
  obtain ⟨front, branch, back, -, hsplit, hspread, hlast⟩ := probeBranches_stops
    (I := fun routed _ other => method.Spread other points probe routed)
    (fun hs hout hbranch hone => hs.probeBranch hm hd.recodable hbranch hout hone) 0
    hordered.nodup_conditionalBranches (fun _ hin => ⟨hin, List.not_mem_nil⟩)
    (hd.spread points probe) hstop
  rw [List.append_nil] at hspread
  obtain ⟨-, hregistered, hnext, hcause⟩ := probeBranch_stops hlast
  -- the branch is as it was, since no block was placed on it
  have hbranch : branch ∈ method.conditionalBranches := by simp [hsplit]
  have hout : branch ∉ front.reverse := by
    have hnodup := hsplit ▸ hordered.nodup_conditionalBranches
    rw [List.nodup_append] at hnodup
    intro hin
    exact hnodup.2.2 branch (List.mem_reverse.mp hin) branch List.mem_cons_self rfl
  obtain ⟨hget, hnext'⟩ := hspread.untouched branch (mem_conditionalBranches.mp hbranch).1 hout
  rw [registeredAt, hget, ← registeredAt] at hregistered
  rw [hnext'] at hnext
  obtain rfl := hordered.eq_nil_of_next? hsplit hnext
  exact ⟨front, branch, hsplit, hspread, hregistered, hnext, hcause⟩

/-- A placement on all branches stops where one of them does, without a layout. -/
theorem addBranchProbes_stops {points : List BranchPoint} {cause : Error}
    (hstop : (method.addBranchProbes points probe).outcome = .error cause) :
    (probeBranches points probe method.conditionalBranches method).outcome = .error cause
      ∧ (method.addBranchProbes points probe).method
        = (probeBranches points probe method.conditionalBranches method).method := by
  rw [addBranchProbes] at hstop ⊢
  split at hstop
  · cases hstop
  · rename_i hsome
    rw [if_neg hsome]
    cases hrun : (probeBranches points probe method.conditionalBranches method).outcome with
    | ok placed =>
      rw [(Edited.andThen_of_ok _ hrun).1] at hstop
      cases hstop
    | error cause' =>
      obtain ⟨houtcome, hmethod⟩ := Edited.andThen_of_error
        (fun method placed => Edited.done method.layOut placed) hrun
      rw [houtcome] at hstop
      exact ⟨hstop, hmethod⟩

/-- The placement on branches leaves a stale method if and only if branches are stranded. -/
theorem DecodedFrom.addBranchProbes_staleIff (hd : method.DecodedFrom raw regions targets)
    (points : List BranchPoint) (probe : Probe) :
    (method.addBranchProbes points probe).StaleIff (method.Stranded points) := by
  have hm := hd.asRead
  cases houtcome : (method.addBranchProbes points probe).outcome with
  | ok placed =>
    have hs := hd.settled_addBranchProbes houtcome
    -- a placement that succeeds has found an instruction behind every branch with points
    have hsafe : ¬ method.Stranded points := by
      rintro ⟨⟨branch, hbranch, hregistered, hnext⟩, -⟩
      have hready := (hm.addBranchProbes_ok houtcome).2 branch hbranch hregistered
      rw [hnext] at hready
      cases hready
    exact ⟨fun _ => hs.toValid.presentable hs.laid, fun hs => absurd hs hsafe,
      fun hs => absurd hs hsafe⟩
  | error cause =>
    obtain ⟨hrun, hmethod⟩ := addBranchProbes_stops houtcome
    obtain ⟨front, branch, hsplit, hspread, hregistered, hnext, offset, rfl⟩ :=
      hd.spread_of_stopped hrun
    have hbranch : branch ∈ method.conditionalBranches := by simp [hsplit]
    have hnone : method.branchBlocks points branch = [] := by rw [branchBlocks, hnext]
    refine ⟨?_, ?_, fun _ => ⟨offset, houtcome⟩⟩
    · intro hsafe
      -- if no branch in front of the one that stops it has blocks, the method is what it was
      have hblocks : ∀ other ∈ front.reverse, method.branchBlocks points other = [] := by
        intro other hother
        by_contra hblocks
        have hin : other ∈ method.conditionalBranches := by
          rw [hsplit]
          exact List.mem_append_left _ (List.mem_reverse.mp hother)
        exact hsafe ⟨⟨branch, hbranch, hregistered, hnext⟩, other, hin, hblocks⟩
      rw [hmethod, hspread.kept hblocks]
      exact hm.toValid.presentable hd.laid
    · rintro ⟨-, other, hother, hblocks⟩
      have hrouted : other ∈ front.reverse := by
        rw [hsplit, List.mem_append, List.mem_singleton] at hother
        refine List.mem_reverse.mpr (hother.resolve_right ?_)
        rintro rfl
        exact hblocks hnone
      rw [hmethod]
      refine hspread.stale hm.toValid hd.laid ?_ ⟨other, hrouted, hblocks⟩
      intro handle hin
      have hin' : handle ∈ method.conditionalBranches := by
        rw [hsplit]
        exact List.mem_append_left _ (List.mem_reverse.mp hin)
      exact (mem_conditionalBranches.mp hin').1

/-- A run over statement points leaves a method that is laid out, wherever it stops. -/
theorem Settled.addStatementProbes {lost : Prop} (hs : method.Settled lost) (probe : Probe)
    (points : List StatementPoint) : (addStatementProbes probe points method).method.Settled lost := by
  obtain ⟨-, hsettled, -⟩ := addStatementProbes_prefix (I := fun _ other => other.Settled lost)
    probe points (fun hs _ horigin hinsert => hs.insertAt (by rw [horigin]; exact nofun) hinsert) [] hs
  exact hsettled

/-- Instrumentation leaves a stale method if and only if branches are stranded. -/
theorem DecodedFrom.instrument_staleIff (hd : method.DecodedFrom raw regions targets)
    (points : Points) (probe : Probe) (configuration : Configuration) :
    (method.instrument points probe configuration).StaleIff
      (method.Stranded (points.enabled configuration).branches) := by
  have hrouted := hd.addBranchProbes_staleIff (points.enabled configuration).branches probe
  rw [instrument_eq]
  cases houtcome : (method.addBranchProbes (points.enabled configuration).branches probe).outcome with
  | error cause =>
    constructor
    · rw [(Edited.andThen_of_error _ houtcome).2]
      exact hrouted.presentable
    · rw [(Edited.andThen_of_error _ houtcome).2]
      exact hrouted.stale
    · intro hstranded
      obtain ⟨offset, hstopped⟩ := hrouted.stopped hstranded
      rw [houtcome] at hstopped
      rw [(Edited.andThen_of_error _ houtcome).1, Except.error.inj hstopped]
      exact ⟨offset, rfl⟩
  | ok branches =>
    have hs := (hd.settled_addBranchProbes houtcome).addStatementProbes probe
      (points.enabled configuration).statements
    have hsafe : ¬ method.Stranded (points.enabled configuration).branches := by
      intro hstranded
      obtain ⟨offset, hstopped⟩ := hrouted.stopped hstranded
      rw [houtcome] at hstopped
      cases hstopped
    refine ⟨fun _ => ?_, fun hs => absurd hs hsafe, fun hs => absurd hs hsafe⟩
    rw [(Edited.andThen_of_ok _ houtcome).2]
    -- the branches were laid out, so the method stays laid out wherever the statements stop
    cases hnoted : (Method.addStatementProbes probe (points.enabled configuration).statements
        (method.addBranchProbes (points.enabled configuration).branches probe).method).outcome with
    | error cause =>
      rw [(Edited.andThen_of_error _ hnoted).2]
      exact hs.toValid.presentable hs.laid
    | ok statements =>
      rw [(Edited.andThen_of_ok _ hnoted).2]
      dsimp only
      split
      · exact hs.toValid.presentable hs.laid
      · have hraised := hs.increaseMaxStack (max configuration.extraMaxStack probe.stackDepth)
        exact hraised.toValid.presentable hraised.laid

end Method

/-- Whether it succeeds or stops, placement leaves a method that is laid out and can be encoded,
unless a branch has points although nothing is behind it while others get blocks. The blocks are
then left without layout, and the method cannot be encoded. -/
theorem placement_staleIff {data : List UInt8} {method : Method}
    (hdecode : Method.decode data = .ok method) (points : Points) (probe : Probe)
    (configuration : Configuration) :
    (Method.addStatementProbes probe points.statements method).method.Presentable
      ∧ (method.addBranchProbes points.branches probe).StaleIff (method.Stranded points.branches)
      ∧ (method.instrument points probe configuration).StaleIff
        (method.Stranded (points.enabled configuration).branches) := by
  obtain ⟨raw, regions, targets, -, hd⟩ := Method.decode_spec hdecode
  have hs : method.Settled False := ⟨hd.intact, hd.laid, iff_of_false hd.recodable.not_dangling id⟩
  have hnoted := hs.addStatementProbes probe points.statements
  exact ⟨hnoted.toValid.presentable hnoted.laid, hd.addBranchProbes_staleIff points.branches probe,
    hd.instrument_staleIff points probe configuration⟩

/-- Points on the branch of `guardedLoop`, and on an offset where no instruction starts. -/
def misplacedPoints : Points where
  statements := [⟨0, 1⟩, ⟨2, 2⟩]
  branches := [⟨1, 1, 4⟩]

/-- Instrumentation stops at the second statement, and the probes before it are laid out. -/
theorem placement_staleIff_guardedLoop :
    ∃ method, Method.decode guardedLoop = .ok method
      ∧ (method.instrument misplacedPoints (.managed ⟨0x0A000001⟩) {}).outcome
        = .error (.instructionNotFound 2)
      ∧ (method.instrument misplacedPoints (.managed ⟨0x0A000001⟩) {}).method.Presentable := by
  have hrun : ((Method.decode guardedLoop).bind fun method =>
      .ok ((method.instrument misplacedPoints (.managed ⟨0x0A000001⟩) {}).outcome,
        decide (method.Stranded misplacedPoints.branches)))
      = .ok (.error (.instructionNotFound 2), false) := by decide +kernel
  obtain ⟨method, hdecode, hresult⟩ := bind_eq_ok_iff.mp hrun
  obtain ⟨houtcome, hstranded⟩ := Prod.mk.inj (Except.ok.inj hresult)
  exact ⟨method, hdecode, houtcome, (placement_staleIff hdecode misplacedPoints _ {}).2.2.presentable
    (of_decide_eq_false hstranded)⟩

/-- A branch to the next instruction, and a loop back to the start at the end of the code. -/
def loopToStart : List UInt8 := [0x1A, 0x02, 0x2D, 0x00, 0x02, 0x2D, 0xFA]

/-- Points on both branches of `loopToStart`. -/
def loopToStartPoints : Points where
  statements := []
  branches := [⟨1, 1, 7⟩, ⟨4, 1, 8⟩]

/-- The second branch stops the placement when the blocks of the first one are in place. -/
theorem not_presentable_loopToStart :
    ¬ ∀ (data : List UInt8) (method : Method) (points : Points) (probe : Probe)
        (configuration : Configuration), Method.decode data = .ok method →
      (method.instrument points probe configuration).method.Presentable := by
  intro hclaim
  have hrun : ((Method.decode loopToStart).bind fun method =>
      let edited := method.instrument loopToStartPoints (.managed ⟨0x0A000001⟩) {}
      .ok (edited.method.codeSize, edited.method.regions.length, edited.method.toBytes))
      = .ok (12, 0, .error .outOfBounds) := by decide +kernel
  obtain ⟨method, hdecode, hresult⟩ := bind_eq_ok_iff.mp hrun
  obtain ⟨hsize, hrest⟩ := Prod.mk.inj (Except.ok.inj hresult)
  obtain ⟨hregions, hbytes⟩ := Prod.mk.inj hrest
  have hpresentable := hclaim loopToStart method loopToStartPoints (.managed ⟨0x0A000001⟩) {} hdecode
  obtain ⟨data, hdata⟩ := hpresentable.encodes (by rw [hsize]; decide)
    (by rw [Method.RegionsFit, hregions]; decide)
  rw [hbytes] at hdata
  cases hdata

end CilCoverage
