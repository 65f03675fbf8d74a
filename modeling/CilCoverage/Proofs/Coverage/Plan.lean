import CilCoverage.Proofs.Coverage.Chains
import CilCoverage.Proofs.Coverage.Reports
import CilCoverage.Proofs.Coverage.Skeleton

/-!
# Plans of instrumentation

A plan says what is added to a method: the ids that are reported before an instruction, and the
blocks that paths of branches are led through. `Method.Instrumented` says that a method is another
one with a plan carried out. It names for each instruction the handle that holds it now (`body`),
and the steps of placement will be seen to keep it.

If the blocks of a plan lead to where their paths led, past `br`s at most (`Plan.Sound`), then both
methods follow one skeleton, and nothing is seen of the plan in the traces
(`Instrumented.traces_eq`).
-/

set_option autoImplicit false

namespace CilCoverage

open Instruction

/-- Nothing is seen of injected code. -/
theorem Instruction.Injected.unseen {instruction : Instruction} (hi : instruction.Injected) :
    instruction.Unseen := by
  intro path
  rw [mark?, hi.origin]
  exact ite_self _

/-- Nothing is seen of a `br`. -/
theorem Instruction.IsJump.unseen {instruction : Instruction} (hj : instruction.IsJump) :
    instruction.Unseen :=
  fun _ => if_pos hj

/-- What is added to a method. -/
structure Plan where
  /-- The ids that are reported before an instruction, in this order. -/
  before : Handle → List UInt32
  /-- The block that a path is led through. -/
  block? : Handle → Nat → Option PathBlock

namespace Plan

/-- A block leads to where its path led, past `br`s at most. -/
def Sound (plan : Plan) (method : Method) : Prop :=
  ∀ handle path block, plan.block? handle path = some block → ∃ next visits,
    method.after? handle path = some next ∧ method.Leads IsJump next visits block.exit

/-- Where a path leads to under the plan. -/
def leadsTo (plan : Plan) (method : Method) (handle : Handle) (path : Nat) : Option Handle :=
  match plan.block? handle path with
  | some block => some block.exit
  | none => method.after? handle path

/-- A path leads where the plan has a block for it to, or where it led. -/
theorem leadsTo_eq_some_iff {plan : Plan} {method : Method} {handle next : Handle} {path : Nat} :
    plan.leadsTo method handle path = some next
      ↔ (∃ block, plan.block? handle path = some block ∧ block.exit = next)
        ∨ plan.block? handle path = none ∧ method.after? handle path = some next := by
  unfold leadsTo
  cases plan.block? handle path with
  | none => simp only [reduceCtorEq, false_and, exists_false, true_and, false_or]
  | some block =>
    simp only [Option.some.injEq, reduceCtorEq, false_and, or_false, exists_eq_left']

/-- A path leaves the method under the plan if it has no block and led nowhere. -/
theorem leadsTo_eq_none_iff {plan : Plan} {method : Method} {handle : Handle} {path : Nat} :
    plan.leadsTo method handle path = none
      ↔ plan.block? handle path = none ∧ method.after? handle path = none := by
  unfold leadsTo
  cases plan.block? handle path with
  | none => simp only [true_and]
  | some block => simp only [reduceCtorEq, false_and]

/-- The plan with one more id to be reported before an instruction, unless that has to stay the
entry of its handler. -/
def reporting (plan : Plan) (method : Method) (source : Handle) (id : UInt32) : Plan :=
  if method.keepsEntry source then plan
  else { plan with before := Function.update plan.before source (plan.before source ++ [id]) }

/-- The flow of control that the method and its instrumentation share. -/
def skeleton (plan : Plan) (method : Method) : Skeleton :=
  { nodes := method.order, look := method.get, leadsTo := plan.leadsTo method }

end Plan

namespace Method

/-- The plan is carried out in the other method as far as one instruction is concerned, which is
held by `body` now. -/
structure Placed (method other : Method) (plan : Plan) (handle body : Handle) : Prop where
  here : body ∈ other.order
  opcode : (other.get body).opcode = (method.get handle).opcode
  origin : (other.get body).origin = (method.get handle).origin
  count : (other.get body).targets.length = (method.get handle).targets.length
  arrives : other.Reports handle (plan.before handle) body
  direct : ∀ path < (method.get handle).pathCount, plan.block? handle path = none →
    other.after? body path = method.after? handle path
  detour : ∀ path < (method.get handle).pathCount, ∀ block, plan.block? handle path = some block →
    ∃ start, other.after? body path = some start
      ∧ other.Reports start block.id?.toList block.exit
  moved : body = handle ∨ method.slots.size ≤ body
  kept : method.keepsEntry handle = true → body = handle

/-- The other method is the first one with the plan carried out. -/
structure Instrumented (method other : Method) (plan : Plan) (body : Handle → Handle) : Prop where
  ordered : other.Ordered
  size : method.slots.size ≤ other.slots.size
  regions : other.regions = method.regions
  entry : other.order.head? = method.order.head?
  placed : ∀ handle ∈ method.order, method.Placed other plan handle (body handle)
  tracked : ∀ handle ∈ other.order, ∀ offset, (other.get handle).origin = some offset →
    ∃ source ∈ method.order, body source = handle

section Tracing

variable {method other : Method} {plan : Plan} {body : Handle → Handle} {handle : Handle}

/-- The next instruction is listed. -/
theorem mem_of_next? {next : Handle} (hnext : method.next? handle = some next) :
    next ∈ method.order := by
  rw [next?] at hnext
  cases hposition : method.position? handle with
  | none =>
    rw [hposition] at hnext
    cases hnext
  | some position =>
    rw [hposition] at hnext
    exact List.mem_of_getElem? hnext

/-- Paths lead to listed instructions. -/
theorem Valid.mem_of_after? (hv : method.Valid) {path : Nat} {next : Handle}
    (hafter : method.after? handle path = some next) : next ∈ method.order := by
  unfold after? at hafter
  split at hafter
  · exact mem_of_next? hafter
  · exact mem_of_next? hafter
  · exact mem_of_next? hafter
  · exact mem_of_next? hafter
  · exact hv.targets_mem_order (List.mem_of_mem_head? hafter)
  · split at hafter
    · exact mem_of_next? hafter
    · exact hv.targets_mem_order (List.mem_of_getElem? hafter)
  · cases hafter
  · cases hafter

/-- Control that starts at a listed instruction comes to a listed one. -/
theorem Valid.mem_of_leads (hv : method.Valid) {P : Instruction → Prop} {start finish : Handle}
    {visits : List Visit} (hl : method.Leads P start visits finish)
    (hstart : start ∈ method.order) : finish ∈ method.order := by
  induction hl with
  | here => exact hstart
  | pass _ _ hmove _ ih => exact ih (hv.mem_of_after? hmove)

/-- Under a sound plan, paths lead to listed instructions. -/
theorem Valid.mem_of_leadsTo (hv : method.Valid) (hs : plan.Sound method) {path : Nat}
    {next : Handle} (hto : plan.leadsTo method handle path = some next) :
    next ∈ method.order := by
  rcases Plan.leadsTo_eq_some_iff.mp hto with ⟨block, hblock, rfl⟩ | ⟨-, hafter⟩
  · obtain ⟨next, visits, hafter, hleads⟩ := hs handle path block hblock
    exact hv.mem_of_leads hleads (hv.mem_of_after? hafter)
  · exact hv.mem_of_after? hafter

/-- The method itself goes through its skeleton: only `br`s lie where a block leads past. -/
theorem Valid.tours (hv : method.Valid) (hs : plan.Sound method) :
    method.Tours IsJump (plan.skeleton method) id where
  arrives := fun node _ => ⟨[], .here node⟩
  pathCount := fun _ _ => rfl
  ends := fun _ _ _ _ hto => (Plan.leadsTo_eq_none_iff.mp hto).2
  moves := by
    intro node _ path _ next hto
    refine ⟨hv.mem_of_leadsTo hs hto, ?_⟩
    rcases Plan.leadsTo_eq_some_iff.mp hto with ⟨block, hblock, rfl⟩ | ⟨-, hafter⟩
    · exact hs node path block hblock
    · exact ⟨next, [], hafter, .here next⟩

/-- A placed instruction has as many paths as the one that it was. -/
theorem Placed.pathCount {now : Handle} (hp : method.Placed other plan handle now) :
    (other.get now).pathCount = (method.get handle).pathCount := by
  rw [Instruction.pathCount, Instruction.pathCount, Instruction.flow, hp.opcode, hp.count]
  rfl

/-- What is seen of a placed instruction is what is seen of the one that it was. -/
theorem Placed.mark {now : Handle} (hp : method.Placed other plan handle now) (path : Nat) :
    (other.get now).mark? path = (method.get handle).mark? path := by
  rw [mark?, mark?, Instruction.flow, hp.opcode, hp.origin]
  rfl

/-- So does its instrumentation, with injected code in between. -/
theorem Instrumented.tours (hi : method.Instrumented other plan body) (hv : method.Valid)
    (hs : plan.Sound method) : other.Tours Injected (plan.skeleton method) body where
  arrives := by
    intro node hnode
    obtain ⟨visits, hleads, -⟩ := (hi.placed node hnode).arrives
    exact ⟨visits, hleads⟩
  pathCount := fun node hnode => (hi.placed node hnode).pathCount
  ends := by
    intro node hnode path hpath hto
    obtain ⟨hblock, hafter⟩ := Plan.leadsTo_eq_none_iff.mp hto
    rw [(hi.placed node hnode).direct path hpath hblock, hafter]
  moves := by
    intro node hnode path hpath next hto
    refine ⟨hv.mem_of_leadsTo hs hto, ?_⟩
    rcases Plan.leadsTo_eq_some_iff.mp hto with ⟨block, hblock, rfl⟩ | ⟨hblock, hafter⟩
    · obtain ⟨start, hafter, visits, hleads, -⟩ :=
        (hi.placed node hnode).detour path hpath block hblock
      exact ⟨start, visits, hafter, hleads⟩
    · refine ⟨next, [], ?_, .here next⟩
      rw [(hi.placed node hnode).direct path hpath hblock, hafter]

/-- Nothing is seen of what lies between the nodes of the method. -/
theorem Valid.follows (hv : method.Valid) (hs : plan.Sound method) :
    method.Follows (plan.skeleton method) id :=
  ((hv.tours hs).mono fun _ hjump => IsJump.unseen hjump).follows fun _ _ _ => rfl

/-- The walks of an instrumented method follow the skeleton of its plan. -/
theorem Instrumented.follows (hi : method.Instrumented other plan body) (hv : method.Valid)
    (hs : plan.Sound method) : other.Follows (plan.skeleton method) body :=
  ((hi.tours hv hs).mono fun _ hinjected => Injected.unseen hinjected).follows
    fun node hnode path => (hi.placed node hnode).mark path

/-- The entries of an instrumented method are those of the method. -/
theorem Instrumented.entryAt?_eq (hi : method.Instrumented other plan body) (entry : Entry) :
    other.entryAt? entry = method.entryAt? entry := by
  cases entry with
  | body => exact hi.entry
  | handler index => rw [entryAt?, entryAt?, hi.regions]
  | filter index => rw [entryAt?, entryAt?, hi.regions]

/-- Entries are listed. -/
theorem Valid.entryAt?_mem (hv : method.Valid) {entry : Entry} {start : Handle}
    (hentry : method.entryAt? entry = some start) : start ∈ method.order := by
  cases entry with
  | body => exact List.mem_of_mem_head? hentry
  | handler index =>
    obtain ⟨region, hregion, rfl⟩ := Option.map_eq_some_iff.mp hentry
    exact hv.boundary_mem_order (List.mem_of_getElem? hregion) region.handlerStart_mem
  | filter index =>
    obtain ⟨region, hregion, hfilter⟩ := Option.bind_eq_some_iff.mp hentry
    exact hv.boundary_mem_order (List.mem_of_getElem? hregion) (Region.filterStart_mem hfilter)

/-- A change to the other method that leaves the instruction and its paths alone. -/
theorem Placed.frame {other' : Method} {plan' : Plan} {now : Handle}
    (hp : method.Placed other plan handle now) (hhere : now ∈ other'.order)
    (halike : (other'.get now).Alike (other.get now))
    (hafter : ∀ path, other'.after? now path = other.after? now path)
    (hreports : ∀ {start ids finish}, other.Reports start ids finish →
      other'.Reports start ids finish)
    (hbefore : plan'.before handle = plan.before handle)
    (hblock : plan'.block? handle = plan.block? handle) :
    method.Placed other' plan' handle now where
  here := hhere
  opcode := halike.opcode.trans hp.opcode
  origin := halike.origin.trans hp.origin
  count := (congrArg List.length halike.targets).trans hp.count
  arrives := by
    rw [hbefore]
    exact hreports hp.arrives
  direct := by
    intro path hpath hnone
    rw [hblock] at hnone
    rw [hafter, hp.direct path hpath hnone]
  detour := by
    intro path hpath block hsome
    rw [hblock] at hsome
    obtain ⟨start, hstart, hreport⟩ := hp.detour path hpath block hsome
    exact ⟨start, (hafter path).trans hstart, hreports hreport⟩
  moved := hp.moved
  kept := hp.kept

/-- Nothing is seen of a sound plan. -/
theorem Instrumented.traces_eq (hi : method.Instrumented other plan body) (hv : method.Valid)
    (hs : plan.Sound method) (entry : Entry) : other.traces entry = method.traces entry := by
  ext seen
  rw [traces, traces, hi.entryAt?_eq]
  cases hentry : method.entryAt? entry with
  | none =>
    constructor
    · rintro ⟨visits, hwalk, rfl⟩
      cases hwalk
      exact ⟨[], .stay _, rfl⟩
    · rintro ⟨visits, hwalk, rfl⟩
      cases hwalk
      exact ⟨[], .stay _, rfl⟩
  | some start =>
    exact (hi.follows hv hs).trace_iff (hv.follows hs) (hv.entryAt?_mem hentry) seen

end Tracing

end Method

end CilCoverage
