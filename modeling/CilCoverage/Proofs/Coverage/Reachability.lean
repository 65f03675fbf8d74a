import CilCoverage.Proofs.Coverage.Scoping

/-!
# Reachable methods

A method is reachable if it was decoded and then changed by any of the operations that change a
method: insertions, the placement of probes, laying out and raising the stack depth. Each of them
grows the method (`Change.exists_grown`), so reachable methods are consistent
(`Reachable.consistent`).

Of reachable methods it is shown what insertions do to the identity of instructions
(`Reachable.insertion_spliced`), and that neither insertion nor instrumentation moves code across
the boundaries of exception blocks (`Reachable.keeps_scopes`).
-/

set_option autoImplicit false

namespace CilCoverage

/-- The changed method, if no step failed. -/
def Edited.result {α : Type} (edited : Edited α) : Except Error Method :=
  edited.outcome.map fun _ => edited.method

/-- The changed method is there if the change succeeded. -/
theorem Edited.result_eq_ok {α : Type} {edited : Edited α} {method : Method}
    (hresult : edited.result = .ok method) :
    ∃ value, edited.outcome = .ok value ∧ edited.method = method := by
  unfold Edited.result at hresult
  cases houtcome : edited.outcome with
  | error cause =>
    rw [houtcome] at hresult
    cases hresult
  | ok value =>
    rw [houtcome] at hresult
    exact ⟨value, rfl, Except.ok.inj hresult⟩

/-- A change to a method. -/
inductive Change
  | insert (insertion : Insertion)
  | instrument (points : Points) (probe : Probe) (configuration : Configuration)
  | probeBranches (points : List BranchPoint) (probe : Probe)
  | probeStatements (points : List StatementPoint) (probe : Probe)
  | layOut
  | raiseStack (extra : UInt16)

/-- Carries the change out. -/
def Change.apply (change : Change) (method : Method) : Except Error Method :=
  match change with
  | insert insertion => insertion.apply method
  | instrument points probe configuration => (method.instrument points probe configuration).result
  | probeBranches points probe => (method.addBranchProbes points probe).result
  | probeStatements points probe => (Method.addStatementProbes probe points method).result
  | layOut => .ok method.layOut
  | raiseStack extra => .ok (method.increaseMaxStack extra)

/-- What an insertion leaves behind and the other operations keep holds of a changed method. -/
theorem Change.keeps {method changed : Method} {change : Change} {I : Method → Prop}
    (hchange : change.apply method = .ok changed) (hstart : I method)
    (hinsert : ∀ {insertion}, change = .insert insertion →
      insertion.apply method = .ok changed → I changed)
    (hrouted : ∀ {other : Method} {points probe placed}, I other →
      (other.addBranchProbes points probe).outcome = .ok placed →
        I (other.addBranchProbes points probe).method)
    (hnoted : ∀ {other points probe placed}, I other →
      (Method.addStatementProbes probe points other).outcome = .ok placed →
        I (Method.addStatementProbes probe points other).method)
    (hlayOut : I method.layOut)
    (hraised : ∀ {other : Method} (extra : UInt16), I other → I (other.increaseMaxStack extra)) :
    I changed := by
  cases change with
  | insert insertion => exact hinsert rfl hchange
  | instrument points probe configuration =>
    obtain ⟨placement, hok, rfl⟩ := Edited.result_eq_ok hchange
    exact Method.instrument_keeps hok (fun hbranches hstatements =>
      hnoted (hrouted hstart hbranches) hstatements) hraised
  | probeBranches points probe =>
    obtain ⟨placed, hok, rfl⟩ := Edited.result_eq_ok hchange
    exact hrouted hstart hok
  | probeStatements points probe =>
    obtain ⟨placed, hok, rfl⟩ := Edited.result_eq_ok hchange
    exact hnoted hstart hok
  | layOut =>
    obtain rfl := Except.ok.inj hchange
    exact hlayOut
  | raiseStack extra =>
    obtain rfl := Except.ok.inj hchange
    exact hraised extra hstart

namespace Method

/-- The method was decoded and then changed by steps that succeeded. -/
inductive Reachable : Method → Prop
  | decoded {data : List UInt8} {method : Method} (hdecode : decode data = .ok method) :
      Reachable method
  | changed {method changed : Method} (reachable : Reachable method) (change : Change)
      (hchange : change.apply method = .ok changed) : Reachable changed

variable {method : Method}

/-- An insertion adds the copies of its templates at its target. -/
theorem Consistent.grown_insertion (hc : method.Consistent) {insertion : Insertion}
    {edited : Method} (happly : insertion.apply method = .ok edited) :
    ∃ target segment, insertion.target? method = some target ∧ target ∈ method.order
      ∧ method.Grown edited (Additions.none.inserting method target
          (insertion.templates.map Template.outline)) segment := by
  obtain ⟨target, hlocated, happly⟩ := Insertion.exists_insertAt happly
  have hmem := Insertion.mem_order_of_target? hlocated
  obtain ⟨segment, hg⟩ := hc.toOrdered.grown.insertAt hc hmem (method.own_none target) happly
  exact ⟨target, segment, hlocated, hmem, hg⟩

/-- Every change grows the method. -/
theorem Consistent.exists_grown (hc : method.Consistent) {change : Change} {changed : Method}
    (hchange : change.apply method = .ok changed) :
    ∃ additions segment, method.Grown changed additions segment := by
  cases change with
  | insert insertion =>
    obtain ⟨target, segment, -, -, hg⟩ := hc.grown_insertion hchange
    exact ⟨_, segment, hg⟩
  | instrument points probe configuration =>
    obtain ⟨placement, hok, rfl⟩ := Edited.result_eq_ok hchange
    exact ⟨_, hc.grown_instrument hok⟩
  | probeBranches points probe =>
    obtain ⟨placed, hok, rfl⟩ := Edited.result_eq_ok hchange
    exact ⟨_, hc.grown_addBranchProbes hok⟩
  | probeStatements points probe =>
    obtain ⟨placed, hok, rfl⟩ := Edited.result_eq_ok hchange
    have hstart : method.Grown method (method.probeAdditions ⟨[], []⟩ probe [])
        fun handle => [handle] := by
      rw [probeAdditions_nil]
      exact hc.toOrdered.grown
    exact ⟨_, hstart.addStatementProbes hc [] hok⟩
  | layOut =>
    obtain rfl := Except.ok.inj hchange
    exact ⟨_, _, hc.toOrdered.grown.layOut⟩
  | raiseStack extra =>
    obtain rfl := Except.ok.inj hchange
    exact ⟨_, _, hc.toOrdered.grown.increaseMaxStack extra⟩

/-- Reachable methods are consistent. -/
theorem Reachable.consistent (hr : method.Reachable) : method.Consistent := by
  induction hr with
  | decoded hdecode =>
    obtain ⟨raw, regions, targets, -, hd⟩ := decode_spec hdecode
    exact hd.asRead.consistent
  | changed _ change hchange ih =>
    obtain ⟨additions, segment, hg⟩ := ih.exists_grown hchange
    exact hg.consistent ih

/-- The identity contract of insertion: if a reachable method has the instruction that templates are
to be inserted at, then the insertion succeeds, and copies stand at that instruction while all other
handles mean what they meant. -/
theorem Reachable.insertion_spliced (hr : method.Reachable) {insertion : Insertion}
    {target : Handle} (hlocated : insertion.target? method = some target)
    (hne : insertion.templates ≠ [])
    (hinside : ∀ template ∈ insertion.templates, ∀ j ∈ template.targets,
      j < insertion.templates.length) :
    ∃ position edited, method.order[position]? = some target
      ∧ insertion.apply method = .ok edited
      ∧ method.Spliced edited target position insertion.templates := by
  rw [Insertion.apply_of_target? hlocated]
  exact hr.consistent.toOrdered.spliced (Insertion.mem_order_of_target? hlocated) hne hinside

/-- A loop at the handler of `guardedLoop`. -/
def handlerLoop : Insertion :=
  .atOrigin 5 [{ opcode := .nop }, { opcode := .brS, targets := [0] }]

/-- In the instrumented `guardedLoop` the start of the handler was taken over by a probe; the loop
takes over the handle that it has moved to. -/
theorem Reachable.insertion_spliced_guardedLoop :
    ∃ method position edited, method.Reachable ∧ handlerLoop.target? method = some 15
      ∧ method.order[position]? = some 15 ∧ handlerLoop.apply method = .ok edited
      ∧ method.Spliced edited 15 position handlerLoop.templates := by
  have hrun : ((decode guardedLoop).bind fun original =>
      ((Change.instrument guardedPoints (.managed ⟨0x0A000001⟩) {}).apply original).bind fun method =>
        .ok (handlerLoop.target? method)) = .ok (some 15) := by decide +kernel
  obtain ⟨original, hdecode, hrest⟩ := bind_eq_ok_iff.mp hrun
  obtain ⟨method, hchange, hresult⟩ := bind_eq_ok_iff.mp hrest
  have hreachable := Reachable.changed (.decoded hdecode) _ hchange
  have hlocated := Except.ok.inj hresult
  obtain ⟨position, edited, hat, happly, hspliced⟩ :=
    hreachable.insertion_spliced hlocated (by decide) (by decide)
  exact ⟨method, position, edited, hreachable, hlocated, hat, happly, hspliced⟩

/-- Neither insertion nor instrumentation moves code across a boundary of an exception block. The
instructions that were there keep their order and the blocks that enclose them, and what is added is
enclosed by the blocks of the instruction that it is added to: copies by those of the target, probes
of statements by those of the instruction of their point, and the blocks of a branch by those of the
branch. -/
theorem Reachable.keeps_scopes (hr : method.Reachable) :
    (∀ (insertion : Insertion) (edited : Method), insertion.apply method = .ok edited →
      edited.regions = method.regions
        ∧ ∃ target, insertion.target? method = some target
          ∧ edited.scopes = method.scopesWith (Additions.none.inserting method target
              (insertion.templates.map Template.outline)))
      ∧ ∀ (points : Points) (probe : Probe) (configuration : Configuration) (placement : Placement),
        (method.instrument points probe configuration).outcome = .ok placement →
          (method.instrument points probe configuration).method.regions = method.regions
            ∧ (method.instrument points probe configuration).method.scopes
              = method.scopesWith (method.probeAdditions (points.enabled configuration) probe
                  method.conditionalBranches) := by
  have hc := hr.consistent
  constructor
  · intro insertion edited happly
    obtain ⟨target, segment, hlocated, -, hg⟩ := hc.grown_insertion happly
    exact ⟨hg.regions, target, hlocated, hg.scopes_eq hc⟩
  · intro points probe configuration placement hok
    obtain ⟨segment, hg⟩ := hc.grown_instrument hok
    exact ⟨hg.regions, hg.scopes_eq hc⟩

/-- The probes of the instrumented `guardedLoop` are in the protected block and in the handler with
the instructions that they belong to. -/
theorem Reachable.keeps_scopes_guardedLoop :
    ∃ method, decode guardedLoop = .ok method
      ∧ (method.instrument guardedPoints (.managed ⟨0x0A000001⟩) {}).method.scopes.map Prod.snd
        = List.replicate 11 [(0, 0)] ++ List.replicate 4 [(0, 1)] ++ [[]] := by
  have hrun : ((decode guardedLoop).bind fun method =>
      (method.instrument guardedPoints (.managed ⟨0x0A000001⟩) {}).outcome.bind fun placement =>
        .ok (placement, (method.scopesWith (method.probeAdditions (guardedPoints.enabled {})
          (.managed ⟨0x0A000001⟩) method.conditionalBranches)).map Prod.snd))
      = .ok (⟨2, 2⟩, List.replicate 11 [(0, 0)] ++ List.replicate 4 [(0, 1)] ++ [[]]) := by
    decide +kernel
  obtain ⟨method, hdecode, hrest⟩ := bind_eq_ok_iff.mp hrun
  obtain ⟨placement, hplaced, hresult⟩ := bind_eq_ok_iff.mp hrest
  refine ⟨method, hdecode, ?_⟩
  rw [((Reachable.decoded hdecode).keeps_scopes.2 guardedPoints _ {} placement hplaced).2]
  exact (Prod.mk.inj (Except.ok.inj hresult)).2

end Method

end CilCoverage
