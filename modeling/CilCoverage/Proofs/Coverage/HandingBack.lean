import CilCoverage.Proofs.Coverage.Recompilation
import CilCoverage.Proofs.Method.Capacity

/-!
# Handing bodies back

Whatever the host answers, a compilation hands over at most one body, with its last call, and only
after all that comes before has succeeded: the body is the encoded method with its probes, in a
buffer of the size that was asked for (`Handover`). The compilation succeeds with the method
instrumented exactly if the host takes that body.

So the bodies that a host keeps change in one way only (`Host.Stores.compiled`): after any number of
compilations each of them is the one that the host had in the beginning, or was encoded from a
method that was read from such a body and got its probes (`Rewritten`).
-/

set_option autoImplicit false

namespace CilCoverage

open Session

variable {σ : Type}

/-- The call hands a body over to the host. -/
def HostCall.setsBody : HostCall → Bool
  | .setMethodBody _ _ _ => true
  | _ => false

/-- What a compilation has done and been told when it hands a body over. -/
def Session.Handover (configuration : Configuration) (function : FunctionId) (info : FunctionInfo)
    (placement : Placement) (written : List UInt8) (exchanges : List Exchange) : Prop :=
  ∃ points body probe method buffer,
    exchanges = [⟨.functionInfo function, .ok info⟩, ⟨.points info, .ok (some points)⟩,
      ⟨.methodBody info.moduleId info.token, .ok body⟩,
      ⟨.probe info.moduleId configuration.probeStyle, .ok probe⟩,
      ⟨.allocate info.moduleId written.length, .ok buffer⟩]
    ∧ points.isEmpty = false ∧ Method.decode body = .ok method
    ∧ (method.instrument points probe configuration).outcome = .ok placement
    ∧ (method.instrument points probe configuration).method.toBytes = .ok written
    ∧ buffer.length = written.length

/-- A decoded method with its probes is encoded the same into every buffer. -/
theorem Method.toBytes_instrument {body buffer written : List UInt8} {method : Method}
    {points : Points} {probe : Probe} {configuration : Configuration} {placement : Placement}
    (hdecode : Method.decode body = .ok method)
    (hplaced : (method.instrument points probe configuration).outcome = .ok placement)
    (hwrite : (method.instrument points probe configuration).method.write buffer = .ok written) :
    (method.instrument points probe configuration).method.toBytes = .ok written
      ∧ written.length = (method.instrument points probe configuration).method.encodedSize := by
  obtain ⟨raw, regions, targets, -, hd⟩ := Method.decode_spec hdecode
  have hchange : (Change.instrument points probe configuration).apply method
      = .ok (method.instrument points probe configuration).method := by
    rw [Change.apply, Edited.result, hplaced]
    rfl
  have hcounted : (Change.instrument points probe configuration).Counted := trivial
  obtain ⟨hfit, hlaid⟩ := hd.kept.fit.changed hd.kept.laid hcounted hchange
  exact hfit.toBytes_of_write hlaid hwrite

namespace Session

variable {host : Host σ} {configuration : Configuration} {function : FunctionId}
  {exchanges opening : List Exchange} {result : Except Error Outcome} {info : FunctionInfo}
  {placement : Placement} {written : List UInt8}

/-- Up to the handover no body is set. -/
theorem Handover.setsBody_eq_false
    (hover : Handover configuration function info placement written opening) :
    ∀ exchange ∈ opening, exchange.call.setsBody = false := by
  obtain ⟨points, body, probe, method, buffer, rfl, -⟩ := hover
  simp [HostCall.setsBody]

/-- What hands a body over can only be the call that comes after all others. -/
theorem Handover.eq_of_setsBody
    (hover : Handover configuration function info placement written opening) {exchange last : Exchange}
    (hmem : exchange ∈ opening ++ [last]) (hsets : exchange.call.setsBody = true) :
    exchange = last := by
  rw [List.mem_append, List.mem_singleton] at hmem
  refine hmem.resolve_left fun hopening => ?_
  cases (hover.setsBody_eq_false exchange hopening).symm.trans hsets

/-- With its last exchange a handover sets at most one body. -/
theorem Handover.length_filter_le
    (hover : Handover configuration function info placement written opening) (last : Exchange) :
    ((opening ++ [last]).filter fun exchange => exchange.call.setsBody).length ≤ 1 := by
  have hnone : opening.filter (fun exchange => exchange.call.setsBody) = [] :=
    List.filter_eq_nil_iff.mpr fun exchange hmem => by
      rw [hover.setsBody_eq_false exchange hmem]
      nofun
  rw [List.filter_append, hnone]
  exact List.length_filter_le _ _

/-- A compilation that hands a body over ends with the method instrumented exactly if the host takes
that body. -/
theorem instrumented_iff_granted {answer : Except Error Unit} :
    (∃ token counts size,
        (answer.map fun _ => Outcome.instrumented info.token placement written.length)
          = .ok (.instrumented token counts size))
      ↔ Exchange.Granted ⟨.setMethodBody info.moduleId info.token written, answer⟩ := by
  cases answer with
  | ok => exact ⟨fun _ => trivial, fun _ => ⟨_, _, _, rfl⟩⟩
  | error => exact ⟨fun ⟨_, _, _, hresult⟩ => (nomatch hresult), False.elim⟩

/-- A compilation ends without a body handed over, or with the call that hands it over. -/
theorem Handling.handover (h : Handling configuration function exchanges result) :
    ((∀ exchange ∈ exchanges, exchange.call.setsBody = false)
        ∧ ∀ token placement size, result ≠ .ok (.instrumented token placement size))
      ∨ ∃ info placement written answer opening,
        exchanges = opening ++ [⟨.setMethodBody info.moduleId info.token written, answer⟩]
        ∧ Handover configuration function info placement written opening
        ∧ result = answer.map fun _ => .instrumented info.token placement written.length := by
  cases h with
  | unknown => exact .inl (by simp [HostCall.setsBody])
  | pointsRefused => exact .inl (by simp [HostCall.setsBody])
  | untracked => exact .inl (by simp [HostCall.setsBody])
  | tracked hsome hrest =>
    cases hrest with
    | bodyRefused => exact .inl (by simp [HostCall.setsBody])
    | unreadable => exact .inl (by simp [HostCall.setsBody])
    | probeRefused => exact .inl (by simp [HostCall.setsBody])
    | skipped => exact .inl (by simp [HostCall.setsBody])
    | rewritten hdecode _ hrest =>
      cases hrest with
      | misplaced => exact .inl (by simp [HostCall.setsBody])
      | refused => exact .inl (by simp [HostCall.setsBody])
      | misfit => exact .inl (by simp [HostCall.setsBody])
      | unwritten => exact .inl (by simp [HostCall.setsBody])
      | handedBack hplaced hwrite =>
        obtain ⟨hbytes, hsize⟩ := Method.toBytes_instrument hdecode hplaced hwrite
        rw [← hsize]
        exact .inr ⟨_, _, _, _, _, rfl, ⟨_, _, _, _, _, rfl, hsome, hdecode, hplaced, hbytes,
          (Method.length_of_write hwrite).trans hsize.symm⟩, rfl⟩

end Session

/-- The bodies that compilations make of a body: they leave it, or read it and encode its method
with probes. -/
inductive Rewritten (configuration : Configuration) (original : List UInt8) : List UInt8 → Prop
  | original : Rewritten configuration original original
  | instrumented {body written : List UInt8} {method : Method} {points : Points} {probe : Probe}
      {placement : Placement} (hbody : Rewritten configuration original body)
      (hdecode : Method.decode body = .ok method)
      (hplaced : (method.instrument points probe configuration).outcome = .ok placement)
      (hbytes : (method.instrument points probe configuration).method.toBytes = .ok written) :
      Rewritten configuration original written

/-- A body that was rewritten twice was rewritten. -/
theorem Rewritten.trans {configuration : Configuration} {original body later : List UInt8}
    (hbody : Rewritten configuration original body) (hlater : Rewritten configuration body later) :
    Rewritten configuration original later := by
  induction hlater with
  | original => exact hbody
  | instrumented _ hdecode hplaced hbytes ih => exact .instrumented ih hdecode hplaced hbytes

/-- The host keeps a body for every method, which in a state is `served state`. It serves that one,
and replaces it by one that is handed over, unless it refuses it. -/
structure Host.Stores (host : Host σ) (served : σ → ModuleId → Token → List UInt8) : Prop where
  methodBody {state : σ} {moduleId : ModuleId} {method : Token} {body : List UInt8}
    (hanswer : (host.answer (.methodBody moduleId method) state).1 = .ok body) :
    body = served state moduleId method
  stored {state : σ} {moduleId : ModuleId} {method : Token} {body : List UInt8}
    (hanswer : (host.answer (.setMethodBody moduleId method body) state).1 = .ok ())
    (otherId : ModuleId) (other : Token) :
    served (host.answer (.setMethodBody moduleId method body) state).2 otherId other
      = if otherId = moduleId ∧ other = method then body else served state otherId other
  refused {state : σ} {moduleId : ModuleId} {method : Token} {body : List UInt8} {cause : Error}
    (hanswer : (host.answer (.setMethodBody moduleId method body) state).1 = .error cause) :
    served (host.answer (.setMethodBody moduleId method body) state).2 = served state
  kept {state : σ} {call : HostCall} (hkeeps : call.setsBody = false) :
    served (host.answer call state).2 = served state

namespace Session

/-- The state that the host comes to when functions are compiled one after the other. -/
def compileAll (host : Host σ) (configuration : Configuration) (state : σ)
    (functions : List FunctionId) : σ :=
  functions.foldl (fun state function => (run state (compile host configuration function)).2.host)
    state

end Session

namespace Host

variable {host : Host σ} {configuration : Configuration} {function : FunctionId}
  {served : σ → ModuleId → Token → List UInt8} {state final : σ} {exchanges : List Exchange}
  {result : Except Error Outcome}

/-- A host that is handed no body serves what it served. -/
theorem Stores.served_of_plays (hs : host.Stores served) (hplays : host.Plays state exchanges final)
    (hkeep : ∀ exchange ∈ exchanges, exchange.call.setsBody = false) :
    served final = served state := by
  induction exchanges generalizing state with
  | nil => exact congrArg served hplays
  | cons exchange rest ih =>
    rw [List.forall_mem_cons] at hkeep
    rw [ih hplays.2 hkeep.2, hs.kept hkeep.1]

/-- The body that is read on the way to a body that is handed over is the one that is kept. -/
theorem Stores.read (hs : host.Stores served) {info : FunctionInfo} {placement : Placement}
    {written : List UInt8}
    (hover : Handover configuration function info placement written exchanges)
    (hplays : host.Plays state exchanges final) :
    Rewritten configuration (served state info.moduleId info.token) written := by
  obtain ⟨points, body, probe, method, buffer, rfl, -, hdecode, hplaced, hbytes, -⟩ := hover
  obtain ⟨-, -, hbody, -⟩ := hplays
  have hserved := hs.methodBody hbody
  rw [hs.kept rfl, hs.kept rfl] at hserved
  exact .instrumented (hserved ▸ .original) hdecode hplaced hbytes

/-- A compilation keeps all bodies, or replaces that of its method and succeeds. -/
theorem Stores.compiled (hs : host.Stores served) (hplays : host.Plays state exchanges final)
    (h : Handling configuration function exchanges result) :
    served final = served state
      ∨ ∃ (info : FunctionInfo) (placement : Placement) (written : List UInt8),
        result = .ok (.instrumented info.token placement written.length)
        ∧ Rewritten configuration (served state info.moduleId info.token) written
        ∧ ∀ moduleId method, served final moduleId method
            = if moduleId = info.moduleId ∧ method = info.token then written
              else served state moduleId method := by
  rcases h.handover with ⟨hnone, -⟩ | ⟨info, placement, written, answer, opening, rfl, hover, rfl⟩
  · exact .inl (hs.served_of_plays hplays hnone)
  · obtain ⟨middle, hopening, hset, rfl⟩ := plays_append_iff.mp hplays
    have hmiddle := hs.served_of_plays hopening hover.setsBody_eq_false
    cases answer with
    | error cause => exact .inl ((hs.refused hset).trans hmiddle)
    | ok =>
      refine .inr ⟨info, placement, written, rfl, hs.read hover hopening, fun moduleId method => ?_⟩
      rw [hs.stored hset, hmiddle]

/-- Handling a compilation rewrites the bodies that the host serves. -/
theorem Stores.rewritten (hs : host.Stores served) (hplays : host.Plays state exchanges final)
    (h : Handling configuration function exchanges result) (moduleId : ModuleId) (method : Token) :
    Rewritten configuration (served state moduleId method) (served final moduleId method) := by
  rcases hs.compiled hplays h with hkept | ⟨info, placement, written, -, hwritten, hserved⟩
  · rw [hkept]
    exact .original
  · rw [hserved]
    split
    · rename_i hmethod
      obtain ⟨rfl, rfl⟩ := hmethod
      exact hwritten
    · exact .original

/-- So do compilations one after the other. -/
theorem Stores.rewritten_compileAll (hs : host.Stores served) (functions : List FunctionId)
    (moduleId : ModuleId) (method : Token) :
    Rewritten configuration (served state moduleId method)
      (served (compileAll host configuration state functions) moduleId method) := by
  induction functions generalizing state with
  | nil => exact .original
  | cons function rest ih =>
    obtain ⟨hplays, hhandling⟩ := run_compile
      (show run state (compile host configuration function) = (_, _) from rfl)
    exact (hs.rewritten hplays hhandling moduleId method).trans ih

/-- A store keeps the bodies that it is handed. -/
theorem stores_store (infoOf : FunctionId → FunctionInfo) (pointsOf : FunctionInfo → Option Points)
    (probeOf : ModuleId → ProbeStyle → Probe) :
    (store infoOf pointsOf probeOf).Stores fun bodies => bodies where
  methodBody hanswer := (Except.ok.inj hanswer).symm
  stored _ _ _ := rfl
  refused hanswer := by cases hanswer
  kept {state call} hkeeps := by
    cases call with
    | setMethodBody => cases hkeeps
    | _ => rfl

end Host

/-- Whatever the host does, a compilation makes at most one call that hands a body over, and it is
the last one. It is about the function that was asked for, and the body is the encoded method with
its probes, of the size for which the buffer was asked. The compilation ends with the method
instrumented, as large as this body and with the probes that it has, exactly if the call was made
and not refused; it ends otherwise without the call, or with the refusal of the host. So the bodies
that a host keeps are only ever replaced by encoded methods with probes, however many functions are
compiled. -/
theorem compile_hands_back (host : Host σ) (configuration : Configuration) (state : σ) :
    (∀ function result journal,
      Session.run state (Session.compile host configuration function) = (result, journal) →
        (journal.exchanges.filter fun exchange => exchange.call.setsBody).length ≤ 1
        ∧ (∀ exchange ∈ journal.exchanges, exchange.call.setsBody = true →
            ∃ info placement written answer opening,
              exchange = ⟨.setMethodBody info.moduleId info.token written, answer⟩
              ∧ journal.exchanges = opening ++ [exchange]
              ∧ Handover configuration function info placement written opening
              ∧ result = answer.map fun _ => .instrumented info.token placement written.length)
        ∧ ((∃ token placement size, result = .ok (.instrumented token placement size))
            ↔ ∃ exchange ∈ journal.exchanges, exchange.call.setsBody = true ∧ exchange.Granted)
        ∧ ((result = .ok .notTracked ∨ result = .ok .alreadyInstrumented
              ∨ ∃ cause, result = .error cause ∧ ∀ exchange ∈ journal.exchanges,
                  exchange.call.setsBody = true → exchange.answer ≠ .error cause) →
            ∀ exchange ∈ journal.exchanges, exchange.call.setsBody = false))
      ∧ ∀ served, host.Stores served → ∀ functions moduleId method,
          Rewritten configuration (served state moduleId method)
            (served (Session.compileAll host configuration state functions) moduleId method) := by
  refine ⟨?_, fun served hs => hs.rewritten_compileAll⟩
  intro function result journal hrun
  -- the transcript either never comes to the call or ends with it
  rcases (run_compile hrun).2.handover with
    ⟨hnone, hresult⟩ | ⟨info, placement, written, answer, opening, hjournal, hover, rfl⟩
  · refine ⟨?_, ?_, ⟨?_, ?_⟩, fun _ => hnone⟩
    · rw [List.filter_eq_nil_iff.mpr fun exchange hmem => by rw [hnone exchange hmem]; nofun]
      exact Nat.zero_le 1
    · intro exchange hmem hsets
      cases (hnone exchange hmem).symm.trans hsets
    · rintro ⟨token, placement, size, hinstrumented⟩
      exact absurd hinstrumented (hresult token placement size)
    · rintro ⟨exchange, hmem, hsets, -⟩
      cases (hnone exchange hmem).symm.trans hsets
  · rw [hjournal]
    have hmade : (⟨.setMethodBody info.moduleId info.token written, answer⟩ : Exchange)
        ∈ opening ++ [⟨.setMethodBody info.moduleId info.token written, answer⟩] :=
      List.mem_append_right _ List.mem_cons_self
    refine ⟨hover.length_filter_le _, ?_, instrumented_iff_granted.trans ⟨?_, ?_⟩, ?_⟩
    · intro exchange hmem hsets
      obtain rfl := hover.eq_of_setsBody hmem hsets
      exact ⟨info, placement, written, answer, opening, rfl, rfl, hover, rfl⟩
    · exact fun hgranted => ⟨_, hmade, rfl, hgranted⟩
    · rintro ⟨exchange, hmem, hsets, hgranted⟩
      obtain rfl := hover.eq_of_setsBody hmem hsets
      exact hgranted
    · intro hspared
      cases answer with
      | ok => rcases hspared with hspared | hspared | ⟨cause, hspared, -⟩ <;> cases hspared
      | error cause =>
        rcases hspared with hspared | hspared | ⟨other, hspared, hforeign⟩
        · cases hspared
        · cases hspared
        · obtain rfl := Except.error.inj hspared
          exact absurd rfl (hforeign _ hmade rfl)

set_option maxRecDepth 4000 in
/-- The instrumented `guardedLoop` is handed over in one call, and still is what is kept when its
function is compiled again. -/
theorem compile_hands_back_guardedLoop :
    ∃ journal info written opening,
      Session.run (fun _ _ => guardedLoop) (Session.compile (appStore guardedPoints) {} 1)
        = (.ok (.instrumented appInfo.token ⟨2, 2⟩ 108), journal)
      ∧ journal.exchanges = opening ++ [⟨.setMethodBody info.moduleId info.token written, .ok ()⟩]
      ∧ Handover {} 1 info ⟨2, 2⟩ written opening ∧ written.length = 108
      ∧ Rewritten {} guardedLoop (Session.compileAll (appStore guardedPoints) {}
          (fun _ _ => guardedLoop) [1, 1] appInfo.moduleId appInfo.token) := by
  have hrun : ((Method.decode guardedLoop).bind fun method =>
      let edited := method.instrument guardedPoints (.managed ⟨0x0A000001⟩) {}
      edited.outcome.bind fun placement => edited.method.toBytes.bind fun _ =>
        .ok (method.isAlreadyInstrumented guardedPoints (.managed ⟨0x0A000001⟩), placement,
          edited.method.encodedSize))
      = .ok (false, ⟨2, 2⟩, 108) := by cbv
  obtain ⟨method, hdecode, hrest⟩ := bind_eq_ok_iff.mp hrun
  obtain ⟨placement, hplaced, hrest⟩ := bind_eq_ok_iff.mp hrest
  obtain ⟨bytes, hbytes, hresult⟩ := bind_eq_ok_iff.mp hrest
  obtain ⟨hprobed, hresult⟩ := Prod.mk.inj (Except.ok.inj hresult)
  obtain ⟨rfl, hsize⟩ := Prod.mk.inj hresult
  obtain ⟨journal, hcompile, -⟩ :=
    run_appStore (fun _ _ => guardedLoop) (by decide) hdecode hprobed hplaced hbytes
  rw [hsize] at hcompile
  obtain ⟨hone, hall⟩ := compile_hands_back (appStore guardedPoints) {} fun _ _ => guardedLoop
  obtain ⟨-, hcall, hiff, -⟩ := hone 1 _ journal hcompile
  obtain ⟨exchange, hmem, hsets, -⟩ := hiff.mp ⟨_, _, _, rfl⟩
  obtain ⟨info, placement, written, answer, opening, rfl, hjournal, hover, hresult⟩ :=
    hcall exchange hmem hsets
  cases answer with
  | error => cases hresult
  | ok =>
    obtain ⟨-, rfl, hlength⟩ := Outcome.instrumented.inj (Except.ok.inj hresult)
    exact ⟨journal, info, written, opening, hcompile, hjournal, hover, hlength.symm,
      hall _ (Host.stores_store _ _ _) [1, 1] appInfo.moduleId appInfo.token⟩

end CilCoverage
