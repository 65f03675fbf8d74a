import CilCoverage.Proofs.Coverage.Transparency

/-!
# Exactness of coverage

Every walk of a method that completes has exactly one counterpart in its instrumentation: the walk
that takes the same paths at conditional branches. What is noticed of the counterpart is known
(`Plan.observations`): the instructions that the walk executes, each with the ids of its points
directly before it, and after a conditional branch the id of the path that it took.

Blocks lead past chains of `br`. Such a `br` is not executed on the way through a block, and its
points are not reported there (`Plan.remaining`). All other instructions of a walk remain
(`trace_remaining`).

The counterpart is found by following the walk. Where the walk goes along a chain that a block leads
past, the counterpart has already come to the exit of the block and waits there (`Method.Heading`).
-/

set_option autoImplicit false

namespace CilCoverage

open Instruction

/-- What is noticed of executing an instruction that was read. -/
def Instruction.noticed (instruction : Instruction) (path : Nat) : List Observation :=
  (instruction.origin.map fun offset => Observation.executed offset
    (if instruction.flow = .conditionalBranch then some path else none)).toList

/-- Instructions that were read leave the stack of injected code alone. -/
theorem Instruction.effect_eq_noticed {instruction : Instruction}
    (hread : instruction.origin = none → instruction.opcode = .label) (path : Nat)
    (stack : List Int) : instruction.effect path stack = (stack, instruction.noticed path) := by
  unfold effect noticed
  cases horigin : instruction.origin with
  | some offset => rfl
  | none =>
    rw [hread horigin]
    rfl

namespace Plan

/-- What is noticed of a visit under the plan: the ids before the instruction, the instruction, and
the id of the block that the path is led through. -/
def noticed (plan : Plan) (method : Method) (visit : Visit) : List Observation :=
  (plan.before visit.handle).map .reported ++ (method.get visit.handle).noticed visit.path
    ++ ((plan.block? visit.handle visit.path).bind PathBlock.id?).toList.map .reported

/-- The visits of a walk that remain under the plan. A walk that was led through a block is heading
for the exit of the block, and is not noticed until it has come there. -/
def remaining (plan : Plan) : (heading? : Option Handle) → List Visit → List Visit
  | _, [] => []
  | heading?, visit :: rest =>
    if ∀ exit ∈ heading?, visit.handle = exit then
      visit :: plan.remaining ((plan.block? visit.handle visit.path).map PathBlock.exit) rest
    else plan.remaining heading? rest

/-- What is noticed of a walk under the plan. -/
def observations (plan : Plan) (method : Method) (visits : List Visit) : List Observation :=
  (plan.remaining none visits).flatMap (plan.noticed method)

end Plan

namespace Method

/-- Only `br`s lie between the handle and the exit that a walk is heading for. -/
def Heading (method : Method) (heading? : Option Handle) (handle : Handle) : Prop :=
  ∀ exit ∈ heading?, ∃ visits, method.Leads IsJump handle visits exit

section Counterpart

variable {method other : Method} {plan : Plan} {body : Handle → Handle} {heading? : Option Handle}
  {handle next : Handle} {visit : Visit} {rest visits : List Visit}

/-- A walk that is heading for nothing has nothing in between. -/
theorem heading_none (method : Method) (handle : Handle) : method.Heading none handle :=
  fun _ hexit => nomatch hexit

/-- A path under a sound plan heads for the exit of its block. -/
theorem heading_block (hs : plan.Sound method) {path : Nat}
    (hmove : method.after? handle path = some next) :
    method.Heading ((plan.block? handle path).map PathBlock.exit) next := by
  intro exit hexit
  obtain ⟨block, hblock, rfl⟩ := Option.map_eq_some_iff.mp hexit
  obtain ⟨start, visits, hstart, hleads⟩ := hs handle path block hblock
  rw [Option.some.inj (hmove.symm.trans hstart)]
  exact ⟨visits, hleads⟩

/-- A walk goes on along the chain until it has come to the exit. -/
theorem Heading.skip (hh : method.Heading heading? handle)
    (hskip : ¬ ∀ exit ∈ heading?, handle = exit) {path : Nat}
    (hknown : path < (method.get handle).pathCount) :
    (method.get handle).IsJump ∧ ∃ next, method.after? handle path = some next
      ∧ method.Heading heading? next := by
  cases heading? with
  | none => exact absurd (fun _ hexit => nomatch hexit) hskip
  | some exit =>
    obtain ⟨visits, hleads⟩ := hh exit rfl
    cases hleads with
    | here => exact absurd (fun _ hexit => Option.some.inj hexit) hskip
    | pass hjump hsingle hmove hrest =>
      have hpath : path = 0 := by
        rw [hsingle] at hknown
        exact Nat.lt_one_iff.mp hknown
      subst hpath
      refine ⟨hjump, _, hmove, ?_⟩
      rintro _ ⟨⟩
      exact ⟨_, hrest⟩

/-- A visit on the way to the exit is left out. -/
theorem remaining_of_skip (hskip : ¬ ∀ exit ∈ heading?, visit.handle = exit) :
    plan.remaining heading? (visit :: rest) = plan.remaining heading? rest :=
  if_neg hskip

/-- A visit that is not on the way to an exit remains. -/
theorem remaining_of_keep (hkeep : ∀ exit ∈ heading?, visit.handle = exit) :
    plan.remaining heading? (visit :: rest)
      = visit :: plan.remaining ((plan.block? visit.handle visit.path).map PathBlock.exit) rest :=
  if_pos hkeep

/-- What a sound plan leads past is not seen. -/
theorem trace_remaining (hs : plan.Sound method) (hh : method.Heading heading? handle)
    (hwalk : method.Walk (some handle) visits) :
    method.trace (plan.remaining heading? visits) = method.trace visits := by
  induction visits generalizing heading? handle with
  | nil => rfl
  | cons visit rest ih =>
    obtain ⟨hhandle, hknown, hrest⟩ := walk_cons_iff.mp hwalk
    cases hhandle
    by_cases hkeep : ∀ exit ∈ heading?, visit.handle = exit
    · rw [remaining_of_keep hkeep, trace_cons, trace_cons]
      cases hmove : method.after? visit.handle visit.path with
      | none =>
        rw [hmove] at hrest
        rw [hrest.eq_nil]
        rfl
      | some next =>
        rw [hmove] at hrest
        rw [ih (heading_block hs hmove) hrest]
    · obtain ⟨hjump, next, hmove, hnext⟩ := hh.skip hkeep hknown
      rw [hmove] at hrest
      rw [remaining_of_skip hkeep, ih hnext hrest, trace_cons, hjump.unseen]
      rfl

/-- Control that has come to one place can go through the visits to the other place. -/
def Passes (method : Method) (place : Option Handle) (visits : List Visit)
    (place' : Option Handle) : Prop :=
  ∀ back, method.Walk place' back → method.Walk place (visits ++ back)

/-- Visits without conditional branches choose nothing. -/
theorem choices_eq_nil_of_straight
    (hstraight : ∀ visit ∈ visits, (method.get visit.handle).flow ≠ .conditionalBranch) :
    method.choices visits = [] := by
  rw [choices, List.filterMap_eq_nil_iff]
  intro visit hmem
  exact if_neg (hstraight visit hmem)

/-- Injected code that reports can be passed, and is noticed as its reports. -/
theorem Reports.exists_passage {start finish : Handle} {ids : List UInt32}
    (hr : method.Reports start ids finish) : ∃ visits,
      method.Passes (some start) visits (some finish) ∧ method.choices visits = []
        ∧ ∀ stack, method.perform stack visits = (stack, ids.map .reported) := by
  obtain ⟨visits, hleads, hperform⟩ := hr
  refine ⟨visits, fun _ hback => hleads.walk hback, ?_, hperform⟩
  apply choices_eq_nil_of_straight
  intro visit hmem
  exact (hleads.such hmem).straight

variable {now : Handle} {path : Nat}

/-- A placed instruction has the flow of the one that it was. -/
theorem Placed.flow (hp : method.Placed other plan handle now) :
    (other.get now).flow = (method.get handle).flow :=
  congrArg Opcode.flow hp.opcode

/-- Executing a placed instruction is noticed like executing the one that it was. -/
theorem Placed.noticed (hp : method.Placed other plan handle now) (path : Nat) :
    (other.get now).noticed path = (method.get handle).noticed path := by
  rw [Instruction.noticed, Instruction.noticed, hp.origin, hp.flow]

/-- The ids before an instruction are reported, then it is executed. -/
theorem Placed.exists_passage (hp : method.Placed other plan handle now) (hm : method.AsRead)
    (hknown : path < (method.get handle).pathCount) : ∃ passage,
      other.Passes (some handle) passage (other.after? now path)
        ∧ passage.getLast? = some ⟨now, path⟩
        ∧ other.choices passage = method.choices [⟨handle, path⟩]
        ∧ ∀ stack, other.perform stack passage
          = (stack, (plan.before handle).map .reported ++ (method.get handle).noticed path) := by
  obtain ⟨front, hpasses, hchoices, hperform⟩ := hp.arrives.exists_passage
  refine ⟨front ++ [⟨now, path⟩], ?_, List.getLast?_concat, ?_, ?_⟩
  · intro back hback
    rw [List.append_assoc]
    refine hpasses _ (.go ?_ hback)
    rwa [hp.pathCount]
  · rw [choices_append, hchoices, List.nil_append]
    simp only [choices, List.filterMap_cons, hp.flow]
    rfl
  · intro stack
    have hread : (other.get now).origin = none → (other.get now).opcode = .label := by
      rw [hp.origin, hp.opcode]
      exact hm.unread handle
    rw [perform_append, hperform, perform, effect_eq_noticed hread, perform, hp.noticed]
    rw [List.append_nil]

/-- A path leads to where it led, or reports the id of its block and leads to the exit. -/
theorem Placed.exists_detour (hp : method.Placed other plan handle now)
    (hknown : path < (method.get handle).pathCount)
    (hmove : method.after? handle path = some next) : ∃ way,
      other.Passes (other.after? now path) way
          (some (((plan.block? handle path).map PathBlock.exit).getD next))
        ∧ other.choices way = []
        ∧ ∀ stack, other.perform stack way
          = (stack, ((plan.block? handle path).bind PathBlock.id?).toList.map .reported) := by
  cases hblock : plan.block? handle path with
  | none =>
    refine ⟨[], ?_, rfl, fun _ => rfl⟩
    intro back hback
    rw [hp.direct path hknown hblock, hmove]
    exact hback
  | some block =>
    obtain ⟨start, hafter, hreports⟩ := hp.detour path hknown block hblock
    rw [hafter]
    exact hreports.exists_passage

/-- A walk of the other method that completes with the choices of the visits, and of which is
noticed what remains of them under the plan. -/
structure Counterpart (method other : Method) (plan : Plan) (heading? : Option Handle)
    (handle : Handle) (visits visits' : List Visit) : Prop where
  walk : other.Walk (some (heading?.getD handle)) visits'
  completes : other.Completes visits'
  choices : other.choices visits' = method.choices visits
  performs : ∀ stack, other.perform stack visits'
    = (stack, (plan.remaining heading? visits).flatMap (plan.noticed method))

/-- A `br` on the way to an exit has no part in the counterpart. -/
theorem Counterpart.of_skip {visits' : List Visit}
    (hc : method.Counterpart other plan heading? next rest visits')
    (hskip : ¬ ∀ exit ∈ heading?, visit.handle = exit) (hjump : (method.get visit.handle).IsJump) :
    method.Counterpart other plan heading? visit.handle (visit :: rest) visits' where
  walk := by
    cases heading? with
    | none => exact absurd (fun _ hexit => nomatch hexit) hskip
    | some exit => exact hc.walk
  completes := hc.completes
  choices := by
    rw [choices_cons_of_straight, hc.choices]
    rw [hjump.flow]
    exact nofun
  performs := by
    rw [remaining_of_skip hskip]
    exact hc.performs

/-- Where nothing else is headed for, the walk goes on at the instruction. -/
theorem getD_of_keep (hkeep : ∀ exit ∈ heading?, handle = exit) : heading?.getD handle = handle := by
  cases heading? with
  | none => rfl
  | some exit => exact (hkeep exit rfl).symm

/-- The last visit of a walk. -/
theorem Placed.exists_last (hp : method.Placed other plan visit.handle now) (hm : method.AsRead)
    (hs : plan.Sound method) (hkeep : ∀ exit ∈ heading?, visit.handle = exit)
    (hknown : visit.path < (method.get visit.handle).pathCount) (hend : method.Completes [visit]) :
    ∃ visits', method.Counterpart other plan heading? visit.handle [visit] visits' := by
  have hblock : plan.block? visit.handle visit.path = none := by
    rw [Option.eq_none_iff_forall_ne_some]
    intro block hsome
    obtain ⟨next, _, hnext, -⟩ := hs _ _ _ hsome
    cases (hend.after?_eq_none _).symm.trans hnext
  obtain ⟨passage, hpasses, hlast, hchoices, hperform⟩ := hp.exists_passage hm hknown
  refine ⟨passage, ?_, ?_, hchoices, ?_⟩
  · rw [getD_of_keep hkeep]
    simpa using hpasses [] (.stay _)
  · rw [completes_iff_of_getLast? hlast, hp.flow]
    exact (completes_iff_of_getLast? rfl).mp hend
  · intro stack
    rw [hperform, remaining_of_keep hkeep]
    simp [Plan.remaining, Plan.noticed, hblock]

/-- A visit in front of a walk that goes on from where its path leads. -/
theorem Placed.exists_cons (hp : method.Placed other plan visit.handle now) (hm : method.AsRead)
    (hkeep : ∀ exit ∈ heading?, visit.handle = exit)
    (hknown : visit.path < (method.get visit.handle).pathCount)
    (hmove : method.after? visit.handle visit.path = some next) {tail : List Visit}
    (hc : method.Counterpart other plan
      ((plan.block? visit.handle visit.path).map PathBlock.exit) next rest tail) :
    ∃ visits', method.Counterpart other plan heading? visit.handle (visit :: rest) visits' := by
  obtain ⟨passage, hpasses, -, hchoices, hperform⟩ := hp.exists_passage hm hknown
  obtain ⟨way, hpasses', hchoices', hperform'⟩ := hp.exists_detour hknown hmove
  refine ⟨passage ++ (way ++ tail), ?_, ?_, ?_, ?_⟩
  · rw [getD_of_keep hkeep]
    exact hpasses _ (hpasses' _ hc.walk)
  · have hne : tail ≠ [] := by
      rintro rfl
      exact not_completes_nil hc.completes
    rw [← List.append_assoc, completes_append hne]
    exact hc.completes
  · rw [choices_append, choices_append, hchoices, hchoices', hc.choices, List.nil_append]
    rw [← choices_append]
    rfl
  · intro stack
    rw [perform_append, hperform, perform_append, hperform', hc.performs]
    rw [remaining_of_keep hkeep, List.flatMap_cons, Plan.noticed]
    simp only [List.append_assoc]

/-- Every walk that completes has a counterpart. -/
theorem Instrumented.exists_counterpart (hi : method.Instrumented other plan body)
    (hm : method.AsRead) (hs : plan.Sound method) (hmem : handle ∈ method.order)
    (hh : method.Heading heading? handle) (hwalk : method.Walk (some handle) visits)
    (hend : method.Completes visits) :
    ∃ visits', method.Counterpart other plan heading? handle visits visits' := by
  induction visits generalizing heading? handle with
  | nil => exact absurd hend not_completes_nil
  | cons visit rest ih =>
    obtain ⟨hhandle, hknown, hrest⟩ := walk_cons_iff.mp hwalk
    cases hhandle
    cases hmove : method.after? visit.handle visit.path with
    | none =>
      have hover := (hend.rest_eq_nil_iff hrest).mpr hmove
      subst hover
      have hkeep : ∀ exit ∈ heading?, visit.handle = exit := by
        by_contra hskip
        obtain ⟨-, next, hnext, -⟩ := hh.skip hskip hknown
        cases hmove.symm.trans hnext
      exact (hi.placed visit.handle hmem).exists_last hm hs hkeep hknown hend
    | some next =>
      have hne : rest ≠ [] := by
        rw [Ne, hend.rest_eq_nil_iff hrest, hmove]
        exact nofun
      have hend' := (completes_append hne [visit]).mp hend
      have hnext := hm.mem_of_after? hmove
      rw [hmove] at hrest
      -- an instruction at the head of a chain that a block passes by is skipped, any other is met
      by_cases hkeep : ∀ exit ∈ heading?, visit.handle = exit
      · obtain ⟨tail, hc⟩ := ih hnext (heading_block hs hmove) hrest hend'
        exact (hi.placed visit.handle hmem).exists_cons hm hkeep hknown hmove hc
      · obtain ⟨hjump, next', hnext', hheading⟩ := hh.skip hkeep hknown
        cases hmove.symm.trans hnext'
        obtain ⟨tail, hc⟩ := ih hnext hheading hrest hend'
        exact ⟨tail, hc.of_skip hkeep hjump⟩

end Counterpart

/-- A walk from the entry to a return or a throw that takes the given paths at conditional
branches. -/
structure CompleteWalk (method : Method) (entry : Entry) (choices : List Nat)
    (visits : List Visit) : Prop where
  walk : method.Walk (method.entryAt? entry) visits
  completes : method.Completes visits
  chosen : method.choices visits = choices

/-- A complete walk is a walk from its entry that completes with the given choices. -/
theorem completeWalk_iff {method : Method} {entry : Entry} {choices : List Nat}
    {visits : List Visit} : method.CompleteWalk entry choices visits ↔
      method.Walk (method.entryAt? entry) visits ∧ method.Completes visits
        ∧ method.choices visits = choices :=
  ⟨fun hc => ⟨hc.walk, hc.completes, hc.chosen⟩, fun hc => ⟨hc.1, hc.2.1, hc.2.2⟩⟩

instance decidableCompleteWalk (method : Method) (entry : Entry) (choices : List Nat)
    (visits : List Visit) : Decidable (method.CompleteWalk entry choices visits) :=
  decidable_of_iff _ completeWalk_iff.symm

/-- The choices determine a complete walk. -/
theorem CompleteWalk.unique {method : Method} {entry : Entry} {choices : List Nat}
    {visits visits' : List Visit} (hone : method.CompleteWalk entry choices visits)
    (hother : method.CompleteWalk entry choices visits') : visits' = visits :=
  hone.walk.eq_of_choices hone.completes hother.walk hother.completes
    (hother.chosen.trans hone.chosen.symm)

end Method

/-- Coverage is exact: a walk that completes has exactly one counterpart with the same choices in
the instrumented method. Before each instruction of the walk that remains under the plan, the
counterpart reports the ids of its points, and all that the plan leads past is `br`s. -/
theorem instrument_observations_eq {data : List UInt8} {method : Method}
    (hdecode : Method.decode data = .ok method) {points : Points} {probe : Probe}
    {configuration : Configuration} {placement : Placement}
    (hplaced : (method.instrument points probe configuration).outcome = .ok placement)
    {entry : Entry} {choices : List Nat} {visits : List Visit}
    (hwalk : method.CompleteWalk entry choices visits) :
    (∃! visits', (method.instrument points probe configuration).method.CompleteWalk entry choices
        visits')
      ∧ (∀ visits', (method.instrument points probe configuration).method.CompleteWalk entry choices
          visits' → (method.instrument points probe configuration).method.observations visits'
            = (method.plan points configuration).observations method visits)
      ∧ method.trace ((method.plan points configuration).remaining none visits)
        = method.trace visits := by
  obtain ⟨raw, regions, targets, -, hd⟩ := Method.decode_spec hdecode
  obtain ⟨body, hi⟩ := hd.asRead.instrument hplaced
  have hsound := method.sound_plan points configuration
  have hstart := hwalk.walk
  cases hentry : method.entryAt? entry with
  | none =>
    rw [hentry] at hstart
    rw [hstart.eq_nil] at hwalk
    exact absurd hwalk.completes Method.not_completes_nil
  | some start =>
    rw [hentry] at hstart
    have hheading := method.heading_none start
    obtain ⟨visits', hc⟩ := hi.exists_counterpart hd.asRead hsound
      (hd.asRead.entryAt?_mem hentry) hheading hstart hwalk.completes
    have hcomplete : (method.instrument points probe configuration).method.CompleteWalk entry
        choices visits' := by
      refine ⟨?_, hc.completes, hc.choices.trans hwalk.chosen⟩
      rw [hi.entryAt?_eq, hentry]
      exact hc.walk
    refine ⟨⟨visits', hcomplete, fun _ hother => hcomplete.unique hother⟩, ?_, ?_⟩
    · intro other hother
      rw [hcomplete.unique hother, Method.observations, hc.performs]
      rfl
    · exact Method.trace_remaining hsound hheading hstart

/-- `ldarg.0; brtrue.s` over a `br.s` to the last instruction; `nop; ret`. -/
def jumpToReturn : List UInt8 := [0x1E, 0x02, 0x2D, 0x02, 0x2B, 0x01, 0x00, 0x2A]

/-- Points at `ldarg.0`, at the `br.s` and at `ret`, and on the path that falls into the `br.s`. -/
def jumpPoints : Points where
  statements := [⟨0, 5⟩, ⟨3, 7⟩, ⟨6, 8⟩]
  branches := [⟨1, 0, 9⟩]

/-- The walk that falls into the `br.s`. -/
def jumpWalk : List Visit := [⟨0, 0⟩, ⟨1, 0⟩, ⟨2, 0⟩, ⟨4, 0⟩]

/-- Its counterpart reports the points at both ends and the one on the path. -/
theorem instrument_observations_eq_jumpToReturn :
    ∃ method, Method.decode jumpToReturn = .ok method
      ∧ (method.instrument jumpPoints (.managed ⟨0x0A000001⟩) {}).outcome = .ok ⟨3, 1⟩
      ∧ method.CompleteWalk .body [0] jumpWalk
      ∧ (∃! visits', (method.instrument jumpPoints (.managed ⟨0x0A000001⟩) {}).method.CompleteWalk
          .body [0] visits')
      ∧ ∀ visits', (method.instrument jumpPoints (.managed ⟨0x0A000001⟩) {}).method.CompleteWalk
          .body [0] visits'
        → (method.instrument jumpPoints (.managed ⟨0x0A000001⟩) {}).method.observations visits'
          = [.reported 5, .executed 0 none, .executed 1 (some 0), .reported 9, .reported 8,
            .executed 6 none] := by
  have hrun : ((Method.decode jumpToReturn).bind fun method =>
      (method.instrument jumpPoints (.managed ⟨0x0A000001⟩) {}).outcome.bind fun placement =>
        .ok (placement, decide (method.CompleteWalk .body [0] jumpWalk),
          (method.plan jumpPoints {}).observations method jumpWalk))
      = .ok (⟨3, 1⟩, true, [.reported 5, .executed 0 none, .executed 1 (some 0), .reported 9,
          .reported 8, .executed 6 none]) := by decide +kernel
  obtain ⟨method, hdecode, hmethod⟩ := bind_eq_ok_iff.mp hrun
  obtain ⟨placement, hplaced, hresult⟩ := bind_eq_ok_iff.mp hmethod
  obtain ⟨rfl, hrest⟩ := Prod.mk.inj (Except.ok.inj hresult)
  obtain ⟨hdecided, hseen⟩ := Prod.mk.inj hrest
  have hwalk := of_decide_eq_true hdecided
  obtain ⟨hunique, hobserved, -⟩ := instrument_observations_eq hdecode hplaced hwalk
  refine ⟨method, hdecode, hplaced, hwalk, hunique, ?_⟩
  intro visits' hcomplete
  rw [hobserved visits' hcomplete, hseen]

/-- Its counterpart, which is led past the `br.s` and the probe there. -/
def jumpWalkPast : List Visit :=
  [⟨0, 0⟩, ⟨8, 0⟩, ⟨9, 0⟩, ⟨1, 0⟩, ⟨5, 0⟩, ⟨6, 0⟩, ⟨7, 0⟩, ⟨4, 0⟩, ⟨12, 0⟩, ⟨13, 0⟩]

/-- Not every point of an instruction that a walk executes is reported: the counterpart does not
come to the `br.s`. -/
theorem not_all_reported_jumpToReturn :
    ¬ ∀ (data : List UInt8) (method : Method) (points : Points) (probe : Probe)
        (configuration : Configuration) (placement : Placement) (choices : List Nat)
        (visits visits' : List Visit),
      Method.decode data = .ok method
        → configuration.statementProbes = true → configuration.branchProbes = true
        → (method.instrument points probe configuration).outcome = .ok placement
        → method.CompleteWalk .body choices visits
        → (method.instrument points probe configuration).method.CompleteWalk .body choices visits'
        → ∀ visit ∈ visits, ∀ point ∈ points.statements,
          (method.get visit.handle).origin = some point.offset.toNat
          → method.keepsEntry visit.handle = false
          → .reported point.id
            ∈ (method.instrument points probe configuration).method.observations visits' := by
  intro hall
  have hrun : ((Method.decode jumpToReturn).bind fun method =>
      (method.instrument jumpPoints (.managed ⟨0x0A000001⟩) {}).outcome.bind fun placement =>
        .ok (decide (method.CompleteWalk .body [0] jumpWalk),
          decide ((method.instrument jumpPoints (.managed ⟨0x0A000001⟩) {}).method.CompleteWalk
            .body [0] jumpWalkPast),
          (method.get 2).origin, method.keepsEntry 2,
          (method.instrument jumpPoints (.managed ⟨0x0A000001⟩) {}).method.observations
            jumpWalkPast))
      = .ok (true, true, some 3, false, [.reported 5, .executed 0 none, .executed 1 (some 0),
          .reported 9, .reported 8, .executed 6 none]) := by decide +kernel
  obtain ⟨method, hdecode, hmethod⟩ := bind_eq_ok_iff.mp hrun
  obtain ⟨placement, hplaced, hresult⟩ := bind_eq_ok_iff.mp hmethod
  simp only [Except.ok.injEq, Prod.mk.injEq, decide_eq_true_eq] at hresult
  obtain ⟨hwalk, hpast, horigin, hkeeps, hseen⟩ := hresult
  have hreported := hall _ method jumpPoints _ {} placement [0] jumpWalk jumpWalkPast hdecode rfl rfl
    hplaced hwalk hpast ⟨2, 0⟩ (by decide) ⟨3, 7⟩ (by decide) horigin hkeeps
  rw [hseen] at hreported
  revert hreported
  decide

end CilCoverage
