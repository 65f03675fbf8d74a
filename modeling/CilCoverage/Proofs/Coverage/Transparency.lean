import CilCoverage.Proofs.Coverage.Routing
import CilCoverage.Proofs.Method.Decoding

/-!
# Instrumentation is transparent to control flow

Placement carries out the plan of its points (`AsRead.instrument`): the branch points choose the
blocks, then every statement point adds its id before the instruction at its offset. The plan is
sound, so from every entry the instrumented method and the method as decoded have the same traces.
-/

set_option autoImplicit false

namespace CilCoverage

open Instruction

/-- The points whose probes the configuration asks for. -/
def Points.enabled (points : Points) (configuration : Configuration) : Points where
  statements := if configuration.statementProbes then points.statements else []
  branches := if configuration.branchProbes then points.branches else []

namespace Method

variable {method other : Method} {body : Handle → Handle} {probe : Probe}

/-- A decoded method is as it was read. -/
theorem DecodedFrom.asRead {raw : RawBody} {regions : List Region}
    {targets : List (List Handle)} (hd : method.DecodedFrom raw regions targets) :
    method.AsRead where
  toValid := hd.recodable.toValid
  unread := by
    intro handle horigin
    rw [hd.origin_eq] at horigin
    split at horigin
    · cases horigin
    · rename_i hle
      obtain ⟨offset, hget⟩ := hd.linked.get_of_le raw.header (Nat.le_of_not_lt hle)
      rw [hd.method_eq, ((hd.linked.ordered raw.header).alike_layOut handle).opcode, hget]
      rfl
  origins := by
    intro one _ another _ offset hone hanother
    rw [hd.origin_eq] at hone hanother
    split at hone
    · rename_i hlt
      split at hanother
      · rename_i hlt'
        apply startOf_inj hd.streamed.size_pos (Nat.le_of_lt hlt) (Nat.le_of_lt hlt')
        rw [Option.some.inj hone, Option.some.inj hanother]
      · cases hanother
    · cases hone

/-- The ids of the points at an instruction, in the order of the points; an instruction that has to
stay the entry of its handler cannot be reported before. -/
def statementIds (method : Method) (points : List StatementPoint) (handle : Handle) :
    List UInt32 :=
  if method.keepsEntry handle then []
  else (points.filter fun point => (method.get handle).origin == some point.offset.toNat).map
    StatementPoint.id

/-- The plan that the points and the configuration stand for. -/
def plan (method : Method) (points : Points) (configuration : Configuration) : Plan where
  before := method.statementIds (if configuration.statementProbes then points.statements else [])
  block? := (method.branchPlan (if configuration.branchProbes then points.branches else [])
    method.conditionalBranches).block?

section Statements

variable {points : List StatementPoint} {block? : Handle → Nat → Option PathBlock}

/-- Without points no ids are reported. -/
theorem statementIds_nil : method.statementIds [] = fun _ => [] := by
  funext handle
  exact ite_self _

/-- The ids of the first points are reported first. -/
theorem statementIds_append (done more : List StatementPoint) (handle : Handle) :
    method.statementIds (done ++ more) handle
      = method.statementIds done handle ++ method.statementIds more handle := by
  unfold statementIds
  split
  · rfl
  · rw [List.filter_append, List.map_append]

/-- Noting a point is to report its id before the instruction at its offset. -/
theorem reporting_statementIds {source : Handle} {point : StatementPoint}
    (hsource : ∀ handle, (method.get handle).origin = some point.offset.toNat ↔ handle = source)
    (done : List StatementPoint) :
    Plan.reporting { before := method.statementIds done, block? } method source point.id
      = { before := method.statementIds (done ++ [point]), block? } := by
  have hone (handle : Handle) : method.statementIds [point] handle
      = if method.keepsEntry handle then [] else if handle = source then [point.id] else [] := by
    unfold statementIds
    split
    · rfl
    · by_cases hself : handle = source
      · have horigin := beq_iff_eq.mpr ((hsource handle).mpr hself)
        rw [if_pos hself, List.filter_singleton, horigin]
        rfl
      · have horigin := beq_eq_false_iff_ne.mpr ((hsource handle).not.mpr hself)
        rw [if_neg hself, List.filter_singleton, horigin]
        rfl
  unfold Plan.reporting
  split
  · rename_i hkeeps
    rw [Plan.mk.injEq]
    refine ⟨?_, rfl⟩
    funext handle
    rw [statementIds_append, hone]
    split
    · rw [List.append_nil]
    · rename_i hnot
      have hother : handle ≠ source := by
        rintro rfl
        exact hnot hkeeps
      rw [if_neg hother, List.append_nil]
  · rename_i hkeeps
    rw [Plan.mk.injEq]
    refine ⟨?_, rfl⟩
    funext handle
    rw [statementIds_append, hone]
    by_cases hself : handle = source
    · subst hself
      rw [Function.update_self, if_neg hkeeps, if_pos rfl]
    · rw [Function.update_of_ne hself, if_neg hself, ite_self, List.append_nil]

/-- An insertion of a placement that succeeds has found its target. -/
theorem insertion_spec {offset : Int} {target? : Option Handle} {templates : List Template}
    (hok : (Edited.insertion other offset target? templates).outcome = .ok ()) :
    ∃ target inserted, target? = some target ∧ other.insertAt target templates = .ok inserted
      ∧ (Edited.insertion other offset target? templates).method = inserted := by
  unfold Edited.insertion at hok ⊢
  cases htarget : target? with
  | none =>
    rw [htarget] at hok
    cases hok
  | some target =>
    rw [htarget] at hok
    dsimp only at hok ⊢
    cases hinsert : other.insertAt target templates with
    | error cause =>
      rw [hinsert] at hok
      cases hok
    | ok inserted => exact ⟨target, inserted, rfl, hinsert, rfl⟩

/-- An insertion that fails changes nothing. -/
theorem insertion_stops {offset : Int} {target? : Option Handle} {templates : List Template}
    {cause : Error}
    (hstop : (Edited.insertion other offset target? templates).outcome = .error cause) :
    (Edited.insertion other offset target? templates).method = other := by
  unfold Edited.insertion at hstop ⊢
  cases target? with
  | none => rfl
  | some target =>
    dsimp only at hstop ⊢
    cases hinsert : other.insertAt target templates with
    | error cause => rfl
    | ok inserted =>
      rw [hinsert] at hstop
      cases hstop

/-- What is found for an offset was read there. -/
theorem origin_of_findByOrigin? {offset : Nat} {target : Handle}
    (hfind : other.findByOrigin? offset = some target) :
    target ∈ other.order ∧ (other.get target).origin = some offset := by
  rw [findByOrigin?, if_neg (by omega)] at hfind
  refine ⟨List.mem_of_find?_eq_some hfind, ?_⟩
  have hfound := List.find?_some hfind
  rwa [beq_iff_eq, Int.toNat_natCast] at hfound

/-- What was read is listed. -/
theorem Ordered.mem_of_origin (ho : method.Ordered) {handle : Handle}
    (hread : (method.get handle).origin ≠ none) : handle ∈ method.order := by
  by_contra hout
  rw [ho.get_of_notMem hout] at hread
  exact hread rfl

/-- An instruction is told by the offset that it was read from. -/
theorem Ordered.origin_eq_some_iff (ho : method.Ordered)
    (horigins : ∀ one ∈ method.order, ∀ another ∈ method.order, ∀ offset,
      (method.get one).origin = some offset → (method.get another).origin = some offset →
        one = another)
    {source : Handle} {offset : Nat} (hsource : source ∈ method.order)
    (horigin : (method.get source).origin = some offset) (handle : Handle) :
    (method.get handle).origin = some offset ↔ handle = source := by
  constructor
  · intro hsame
    have hread : (method.get handle).origin ≠ none := by
      rw [hsame]
      exact nofun
    have hmem := ho.mem_of_origin hread
    exact horigins handle hmem source hsource offset hsame horigin
  · rintro rfl
    exact horigin

/-- What is kept by the insertion of every probe at the instruction of its point is kept by a run
over points, which may stop at one of them. -/
theorem addStatementProbes_prefix {I : List StatementPoint → Method → Prop} (probe : Probe)
    (points : List StatementPoint)
    (hstep : ∀ {done other point target inserted}, I done other → target ∈ other.order →
      (other.get target).origin = some point.offset.toNat →
      other.insertAt target (probe.sequence point.id) = .ok inserted →
        I (done ++ [point]) inserted)
    (done : List StatementPoint) (hstart : I done other) :
    ∃ finished, I (done ++ finished) (addStatementProbes probe points other).method
      ∧ ∀ placed, (addStatementProbes probe points other).outcome = .ok placed →
        finished = points := by
  -- the method changes from point to point, and the points behind it grow with every step
  induction points generalizing other done with
  | nil => exact ⟨[], by rwa [List.append_nil], fun _ _ => rfl⟩
  | cons point rest ih =>
    rw [addStatementProbes]
    cases hone : (Edited.insertion other point.offset.toNat
        (other.findByOrigin? point.offset.toNat) (probe.sequence point.id)).outcome with
    | error cause =>
      obtain ⟨houtcome, hmethod⟩ := Edited.andThen_of_error (fun method _ =>
        (addStatementProbes probe rest method).andThen fun method placed =>
          .done method (placed + 1)) hone
      -- a point whose instruction is not found stops the run and leaves the method as it was
      refine ⟨[], ?_, ?_⟩
      · rw [hmethod, insertion_stops hone, List.append_nil]
        exact hstart
      · intro placed hok
        rw [houtcome] at hok
        cases hok
    | ok nothing =>
      obtain ⟨houtcome, hmethod⟩ := Edited.andThen_of_ok (fun method _ =>
        (addStatementProbes probe rest method).andThen fun method placed =>
          .done method (placed + 1)) hone
      obtain ⟨target, inserted, hfind, hinsert, hinserted⟩ := insertion_spec hone
      obtain ⟨htarget, horigin⟩ := origin_of_findByOrigin? hfind
      obtain ⟨finished, hinv, hall⟩ := ih _ (hstep hstart htarget horigin hinsert)
      rw [houtcome, hmethod, hinserted]
      rw [List.append_assoc] at hinv
      refine ⟨point :: finished, ?_, ?_⟩
      · cases hrest : (addStatementProbes probe rest inserted).outcome with
        | ok more => rwa [(Edited.andThen_of_ok _ hrest).2]
        | error cause => rwa [(Edited.andThen_of_error _ hrest).2]
      · intro placed hok
        obtain ⟨more, hmore, -, -⟩ := Edited.andThen_spec hok
        rw [hall more hmore]

/-- What is kept by the insertion of every probe is kept by a run over all points. -/
theorem addStatementProbes_run {I : List StatementPoint → Method → Prop}
    (hstep : ∀ {done other point target inserted}, I done other → target ∈ other.order →
      (other.get target).origin = some point.offset.toNat →
      other.insertAt target (probe.sequence point.id) = .ok inserted →
        I (done ++ [point]) inserted)
    (done : List StatementPoint) (hstart : I done other) {placed : Nat}
    (hok : (addStatementProbes probe points other).outcome = .ok placed) :
    I (done ++ points) (addStatementProbes probe points other).method := by
  obtain ⟨finished, hinv, hall⟩ := addStatementProbes_prefix probe points hstep done hstart
  rwa [hall placed hok] at hinv

/-- The statement points are noted one after the other. -/
theorem Instrumented.addStatementProbes (hm : method.AsRead) (done : List StatementPoint)
    (hi : method.Instrumented other { before := method.statementIds done, block? } body)
    {placed : Nat} (hok : (addStatementProbes probe points other).outcome = .ok placed) :
    ∃ body', method.Instrumented (addStatementProbes probe points other).method
      { before := method.statementIds (done ++ points), block? } body' := by
  refine addStatementProbes_run (I := fun done other => ∃ body,
    method.Instrumented other { before := method.statementIds done, block? } body) ?_ done
    ⟨body, hi⟩ hok
  rintro done other point target inserted ⟨body, hi⟩ htarget horigin hinsert
  obtain ⟨source, hsource, rfl⟩ := hi.tracked target htarget _ horigin
  rw [(hi.placed source hsource).origin] at horigin
  have hunique := hm.ordered.origin_eq_some_iff hm.origins hsource horigin
  obtain ⟨body', hstep⟩ := hi.insertAt hm hsource (by rw [horigin]; exact nofun) hinsert
  rw [reporting_statementIds hunique] at hstep
  exact ⟨body', hstep⟩

end Statements

/-- The header does not matter to a plan. -/
theorem Instrumented.increaseMaxStack {plan : Plan} (hi : method.Instrumented other plan body)
    (extra : UInt16) : method.Instrumented (other.increaseMaxStack extra) plan body where
  ordered := ⟨hi.ordered.nodup, hi.ordered.mem_iff⟩
  size := hi.size
  regions := hi.regions
  entry := hi.entry
  placed := by
    intro handle hmem
    have hp := hi.placed handle hmem
    refine hp.frame hp.here (.refl _) (fun _ => rfl) ?_ rfl rfl
    intro start ids finish hreports
    exact hreports.frame hi.ordered fun _ _ _ => ⟨.refl _, rfl⟩
  tracked := hi.tracked

/-- Instrumentation only looks at the points whose probes are asked for. -/
theorem instrument_eq (points : Points) (probe : Probe) (configuration : Configuration) :
    method.instrument points probe configuration
      = (method.addBranchProbes (points.enabled configuration).branches probe).andThen
          fun method branches =>
        (Method.addStatementProbes probe (points.enabled configuration).statements method).andThen
          fun method statements =>
        let placement : Placement := { statements, branches }
        let method :=
          if placement.total = 0 then method
          else method.increaseMaxStack (max configuration.extraMaxStack probe.stackDepth)
        ⟨method, [.probesPlaced statements branches method.codeSize], .ok placement⟩ := by
  have hbranches : (if configuration.branchProbes then
        method.addBranchProbes points.branches probe else .done method 0)
      = method.addBranchProbes (points.enabled configuration).branches probe := by
    unfold Points.enabled
    split <;> rfl
  have hstatements (other : Method) : (if configuration.statementProbes then
        Method.addStatementProbes probe points.statements other else .done other 0)
      = Method.addStatementProbes probe (points.enabled configuration).statements other := by
    unfold Points.enabled
    split <;> rfl
  simp only [Method.instrument, hbranches, hstatements]

/-- What instrumentation comes to if both placements succeed: the stack depth is raised if a probe
was placed. -/
theorem instrument_of_ok {points : Points} {configuration : Configuration} {placement : Placement}
    (hrouted : (method.addBranchProbes (points.enabled configuration).branches probe).outcome
      = .ok placement.branches)
    (hnoted : (Method.addStatementProbes probe (points.enabled configuration).statements
      (method.addBranchProbes (points.enabled configuration).branches probe).method).outcome
      = .ok placement.statements) :
    (method.instrument points probe configuration).outcome = .ok placement
      ∧ (method.instrument points probe configuration).method
        = let noted := (Method.addStatementProbes probe (points.enabled configuration).statements
            (method.addBranchProbes (points.enabled configuration).branches probe).method).method
          if placement.total = 0 then noted
          else noted.increaseMaxStack (max configuration.extraMaxStack probe.stackDepth) := by
  rw [instrument_eq, (Edited.andThen_of_ok _ hrouted).1, (Edited.andThen_of_ok _ hrouted).2,
    (Edited.andThen_of_ok _ hnoted).1, (Edited.andThen_of_ok _ hnoted).2]
  exact ⟨rfl, rfl⟩

/-- Instrumentation places the probes of branches, then those of statements, and may raise the stack
depth in the end. -/
theorem instrument_spec {points : Points} {configuration : Configuration} {placement : Placement}
    (hok : (method.instrument points probe configuration).outcome = .ok placement) :
    ∃ routed noted, routed = method.addBranchProbes (points.enabled configuration).branches probe
      ∧ routed.outcome = .ok placement.branches
      ∧ noted = Method.addStatementProbes probe (points.enabled configuration).statements
          routed.method
      ∧ noted.outcome = .ok placement.statements
      ∧ (method.instrument points probe configuration).method
        = if placement.total = 0 then noted.method
          else noted.method.increaseMaxStack (max configuration.extraMaxStack probe.stackDepth) := by
  have hrun := hok
  rw [instrument_eq] at hrun
  obtain ⟨branches, hrouted, hrest, -⟩ := Edited.andThen_spec hrun
  obtain ⟨statements, hnoted, hplacement, -⟩ := Edited.andThen_spec hrest
  obtain rfl := Except.ok.inj hplacement
  exact ⟨_, _, rfl, hrouted, rfl, hnoted, (instrument_of_ok hrouted hnoted).2⟩

/-- What placed probes leave behind and a raised stack depth keeps holds of the instrumented
method. -/
theorem instrument_keeps {points : Points} {configuration : Configuration} {placement : Placement}
    {I : Method → Prop} (hok : (method.instrument points probe configuration).outcome = .ok placement)
    (hplaced :
      (method.addBranchProbes (points.enabled configuration).branches probe).outcome
          = .ok placement.branches →
        (addStatementProbes probe (points.enabled configuration).statements
          (method.addBranchProbes (points.enabled configuration).branches probe).method).outcome
          = .ok placement.statements →
        I (addStatementProbes probe (points.enabled configuration).statements
          (method.addBranchProbes (points.enabled configuration).branches probe).method).method)
    (hraised : ∀ {other : Method} (extra : UInt16), I other → I (other.increaseMaxStack extra)) :
    I (method.instrument points probe configuration).method := by
  obtain ⟨routed, noted, rfl, hrouted, rfl, hnoted, hmethod⟩ := instrument_spec hok
  rw [hmethod]
  split
  · exact hplaced hrouted hnoted
  · exact hraised _ (hplaced hrouted hnoted)

/-- Instrumentation that succeeds carries out the plan of its points. -/
theorem AsRead.instrument (hm : method.AsRead) {points : Points} {configuration : Configuration}
    {placement : Placement}
    (hok : (method.instrument points probe configuration).outcome = .ok placement) :
    ∃ body, method.Instrumented (method.instrument points probe configuration).method
      (method.plan points configuration) body := by
  refine instrument_keeps
    (I := fun other => ∃ body, method.Instrumented other (method.plan points configuration) body)
    hok ?_ fun extra ⟨body, hdone⟩ => ⟨body, hdone.increaseMaxStack extra⟩
  intro hrouted hnoted
  have hi := hm.addBranchProbes hrouted
  have hplan : method.branchPlan (points.enabled configuration).branches method.conditionalBranches
      = { before := method.statementIds []
          block? := (method.plan points configuration).block? } := by
    rw [Plan.mk.injEq]
    exact ⟨statementIds_nil.symm, rfl⟩
  rw [hplan] at hi
  exact hi.addStatementProbes hm [] hnoted

/-- The plan of points jumps along chains of the method. -/
theorem sound_plan (method : Method) (points : Points) (configuration : Configuration) :
    (method.plan points configuration).Sound method :=
  method.sound_branchPlan _

end Method

/-- Instrumentation is transparent to control flow: from every entry, the instrumented method and
the method as decoded have the same traces. -/
theorem instrument_traces_eq {data : List UInt8} {method : Method}
    (hdecode : Method.decode data = .ok method) {points : Points} {probe : Probe}
    {configuration : Configuration} {placement : Placement}
    (hplaced : (method.instrument points probe configuration).outcome = .ok placement)
    (entry : Entry) :
    (method.instrument points probe configuration).method.traces entry = method.traces entry := by
  obtain ⟨raw, regions, targets, -, hd⟩ := Method.decode_spec hdecode
  obtain ⟨body, hi⟩ := hd.asRead.instrument hplaced
  exact hi.traces_eq hd.asRead.toValid (method.sound_plan points configuration) entry

/-- Points at the start of `guardedLoop` and of its handler, and on both paths of its branch. -/
def guardedPoints : Points where
  statements := [⟨0, 1⟩, ⟨5, 2⟩]
  branches := [⟨1, 0, 3⟩, ⟨1, 1, 4⟩]

/-- All four probes are placed in the loop, and none of them is seen. -/
theorem instrument_traces_eq_guardedLoop :
    ∃ method, Method.decode guardedLoop = .ok method
      ∧ (method.instrument guardedPoints (.managed ⟨0x0A000001⟩) {}).outcome = .ok ⟨2, 2⟩
      ∧ ∀ entry, (method.instrument guardedPoints (.managed ⟨0x0A000001⟩) {}).method.traces entry
        = method.traces entry := by
  have hrun : ((Method.decode guardedLoop).bind fun method =>
      (method.instrument guardedPoints (.managed ⟨0x0A000001⟩) {}).outcome) = .ok ⟨2, 2⟩ := by
    decide +kernel
  obtain ⟨method, hdecode, hplaced⟩ := bind_eq_ok_iff.mp hrun
  exact ⟨method, hdecode, hplaced, instrument_traces_eq hdecode hplaced⟩

end CilCoverage
