import CilCoverage.Proofs.Coverage.Finding
import CilCoverage.Proofs.Coverage.Transcript

/-!
# Compiling a function again

A session that skips instrumented methods knows them by the probe of their first statement point. So
a method with statement probes is left alone whenever it is compiled again, and its body stays as it
was set (`compile_again`). A method whose points are all on branches, or whose statement probes were
left out, has nothing that it could be known by: its probes are placed a second time.

The host may refuse any call and may do other work at any time, but what it tells about the function
does not change, and it serves the body that was set last (`Host.Steady`).
-/

set_option autoImplicit false

namespace CilCoverage

variable {σ : Type}

/-- The call replaces the body of the method of a function. -/
def HostCall.Replaces (call : HostCall) (info : FunctionInfo) : Prop :=
  match call with
  | .setMethodBody moduleId method _ => moduleId = info.moduleId ∧ method = info.token
  | _ => False

/-- The call was not refused. -/
def Exchange.Granted (exchange : Exchange) : Prop :=
  match exchange.answer with
  | .ok _ => True
  | .error _ => False

namespace Host

/-- The host has one answer to every question about the function, if it does not refuse it, and
serves the body that was last set for its method, which in a state is `served state`. -/
structure Steady (host : Host σ) (style : ProbeStyle) (function : FunctionId) (info : FunctionInfo)
    (points : Points) (probe : Probe) (served : σ → List UInt8) : Prop where
  functionInfo {state : σ} {answer : FunctionInfo}
    (hanswer : (host.answer (.functionInfo function) state).1 = .ok answer) : answer = info
  points {state : σ} {answer : Option Points}
    (hanswer : (host.answer (.points info) state).1 = .ok answer) : answer = some points
  probe {state : σ} {answer : Probe}
    (hanswer : (host.answer (.probe info.moduleId style) state).1 = .ok answer) : answer = probe
  methodBody {state : σ} {answer : List UInt8}
    (hanswer : (host.answer (.methodBody info.moduleId info.token) state).1 = .ok answer) :
    answer = served state
  stored {state : σ} {body : List UInt8}
    (hanswer : (host.answer (.setMethodBody info.moduleId info.token body) state).1 = .ok ()) :
    served (host.answer (.setMethodBody info.moduleId info.token body) state).2 = body
  kept {state : σ} {call : HostCall} (hkeeps : ¬ call.Replaces info) :
    served (host.answer call state).2 = served state

/-- The states that the host comes to without a call that replaces the body of the method. -/
inductive Later (host : Host σ) (info : FunctionInfo) (start : σ) : σ → Prop
  | start : Later host info start start
  | call {state : σ} {call : HostCall} (hlater : Later host info start state)
      (hkeeps : ¬ call.Replaces info) : Later host info start (host.answer call state).2

variable {host : Host σ} {style : ProbeStyle} {function : FunctionId} {info : FunctionInfo}
  {points : Points} {probe : Probe} {served : σ → List UInt8} {start state final : σ}
  {exchanges : List Exchange}

/-- Exchanges that replace no body lead to a later state. -/
theorem Later.of_plays (hlater : host.Later info start state)
    (hplays : host.Plays state exchanges final)
    (hkeep : ∀ exchange ∈ exchanges, ¬ exchange.call.Replaces info) :
    host.Later info start final := by
  induction exchanges generalizing state with
  | nil => exact hplays ▸ hlater
  | cons exchange rest ih =>
    rw [List.forall_mem_cons] at hkeep
    exact ih (hlater.call hkeep.1) hplays.2 hkeep.2

/-- In later states a steady host serves the same body. -/
theorem Steady.served_of_later (hs : host.Steady style function info points probe served)
    (hlater : host.Later info start state) : served state = served start := by
  induction hlater with
  | start => rfl
  | call _ hkeeps ih => rw [hs.kept hkeeps, ih]

variable {rest : List Exchange}

/-- What is told about the function, and what is played after it. -/
theorem Steady.tracked (hs : host.Steady style function info points probe served)
    {told : FunctionInfo} {points? : Option Points}
    (hplays : host.Plays state
      (⟨.functionInfo function, .ok told⟩ :: ⟨.points told, .ok points?⟩ :: rest) final) :
    told = info ∧ points? = some points
      ∧ ∃ middle, served middle = served state ∧ host.Plays middle rest final := by
  obtain ⟨hinfo, hpoints, hrest⟩ := hplays
  obtain rfl := hs.functionInfo hinfo
  refine ⟨rfl, hs.points hpoints, _, ?_, hrest⟩
  rw [hs.kept (show ¬ (HostCall.points told).Replaces told from not_false),
    hs.kept (show ¬ (HostCall.functionInfo function).Replaces told from not_false)]

/-- The body that is served, and what is played after it. -/
theorem Steady.read (hs : host.Steady style function info points probe served) {body : List UInt8}
    (hplays : host.Plays state (⟨.methodBody info.moduleId info.token, .ok body⟩ :: rest) final) :
    body = served state ∧ ∃ middle, served middle = served state ∧ host.Plays middle rest final := by
  obtain ⟨hbody, hrest⟩ := hplays
  have hkeeps : ¬ (HostCall.methodBody info.moduleId info.token).Replaces info := not_false
  exact ⟨hs.methodBody hbody, _, hs.kept hkeeps, hrest⟩

/-- The probe that is given, and what is played after it. -/
theorem Steady.probed (hs : host.Steady style function info points probe served) {given : Probe}
    (hplays : host.Plays state (⟨.probe info.moduleId style, .ok given⟩ :: rest) final) :
    given = probe ∧ ∃ middle, served middle = served state ∧ host.Plays middle rest final := by
  obtain ⟨hprobe, hrest⟩ := hplays
  have hkeeps : ¬ (HostCall.probe info.moduleId style).Replaces info := not_false
  exact ⟨hs.probe hprobe, _, hs.kept hkeeps, hrest⟩

end Host

open Session Host

variable {host : Host σ} {configuration : Configuration} {function : FunctionId}
  {info : FunctionInfo} {points : Points} {probe : Probe} {served : σ → List UInt8} {state final : σ}
  {exchanges : List Exchange} {result : Except Error Outcome}

/-- If a method was handed back, then the body that is served afterwards is that of the method with
its probes. -/
theorem Host.Steady.exists_written
    (hs : host.Steady configuration.probeStyle function info points probe served)
    (hplays : host.Plays state exchanges final) {token : Token} {placement : Placement} {size : Nat}
    (hhandling : Handling configuration function exchanges
      (.ok (.instrumented token placement size))) :
    points.isEmpty = false ∧ ∃ method buffer, Method.decode (served state) = .ok method
      ∧ (method.instrument points probe configuration).outcome = .ok placement
      ∧ (method.instrument points probe configuration).method.write buffer = .ok (served final) := by
  obtain ⟨told, points', body, method, given, buffer, written, rfl, hsome, hdecode, -, hplaced,
    hwrite, -, -⟩ := hhandling.of_instrumented rfl
  obtain ⟨rfl, hpoints, middle, hmiddle, hplays⟩ := hs.tracked hplays
  obtain rfl := Option.some.inj hpoints
  obtain ⟨rfl, later, -, hplays⟩ := hs.read hplays
  obtain ⟨rfl, latest, -, hplays⟩ := hs.probed hplays
  obtain ⟨-, hset, rfl⟩ := hplays
  rw [hmiddle] at hdecode
  exact ⟨hsome, method, buffer, hdecode, hplaced, by rw [hwrite, hs.stored hset]⟩

/-- A method that carries its probes is left alone. -/
theorem Host.Steady.skipped
    (hs : host.Steady configuration.probeStyle function info points probe served)
    (hplays : host.Plays state exchanges final)
    (hhandling : Handling configuration function exchanges result)
    (hskip : configuration.skipInstrumented = true) (hsome : points.isEmpty = false)
    (hprobed : ∀ method, Method.decode (served state) = .ok method →
      method.isAlreadyInstrumented points probe = true) :
    (∀ exchange ∈ exchanges, ¬ exchange.call.Replaces info)
      ∧ ((∀ exchange ∈ exchanges, exchange.Granted) →
        result = (Method.decode (served state)).map fun _ => .alreadyInstrumented) := by
  cases hhandling with
  | unknown => simp [HostCall.Replaces, Exchange.Granted]
  | pointsRefused => simp [HostCall.Replaces, Exchange.Granted]
  | untracked hnone =>
    obtain ⟨rfl, rfl, -⟩ := hs.tracked hplays
    exact absurd hnone (by simpa using hsome)
  | tracked hsome' hrest =>
    obtain ⟨rfl, hpoints, middle, hmiddle, hplays⟩ := hs.tracked hplays
    obtain rfl := Option.some.inj hpoints
    cases hrest with
    | bodyRefused => simp [HostCall.Replaces, Exchange.Granted]
    | probeRefused => simp [HostCall.Replaces, Exchange.Granted]
    | unreadable hdecode =>
      obtain ⟨rfl, -⟩ := hs.read hplays
      refine ⟨by simp [HostCall.Replaces], fun _ => ?_⟩
      rw [← hmiddle, hdecode]
      rfl
    | skipped hdecode =>
      obtain ⟨rfl, -⟩ := hs.read hplays
      refine ⟨by simp [HostCall.Replaces], fun _ => ?_⟩
      rw [← hmiddle, hdecode]
      rfl
    | rewritten hdecode hnot =>
      obtain ⟨rfl, later, -, hplays⟩ := hs.read hplays
      obtain ⟨rfl, -⟩ := hs.probed hplays
      rw [hmiddle] at hdecode
      rw [hskip, hprobed _ hdecode] at hnot
      cases hnot

/-- A method that does not carry its probes is not skipped. -/
theorem Host.Steady.not_skipped
    (hs : host.Steady configuration.probeStyle function info points probe served)
    (hplays : host.Plays state exchanges final)
    (hhandling : Handling configuration function exchanges result)
    (hprobed : ∀ method, Method.decode (served state) = .ok method →
      method.isAlreadyInstrumented points probe = false) : result ≠ .ok .alreadyInstrumented := by
  intro hresult
  obtain ⟨told, points', body, method, given, rfl, hdecode, -, hcarried⟩ :=
    hhandling.of_skipped hresult
  obtain ⟨rfl, hpoints, middle, hmiddle, hplays⟩ := hs.tracked hplays
  obtain rfl := Option.some.inj hpoints
  obtain ⟨rfl, later, -, hplays⟩ := hs.read hplays
  obtain ⟨rfl, -⟩ := hs.probed hplays
  rw [hmiddle] at hdecode
  rw [hprobed method hdecode] at hcarried
  cases hcarried

/-- A method that does not carry its probes gets them, if nothing is refused and the buffer can be
filled. -/
theorem Host.Steady.instrumented
    (hs : host.Steady configuration.probeStyle function info points probe served)
    (hplays : host.Plays state exchanges final)
    (hhandling : Handling configuration function exchanges result)
    (hgranted : ∀ exchange ∈ exchanges, exchange.Granted) (hsome : points.isEmpty = false)
    {method : Method} (hdecode : Method.decode (served state) = .ok method)
    (hprobed : method.isAlreadyInstrumented points probe = false) {placement : Placement}
    (hplaced : (method.instrument points probe configuration).outcome = .ok placement)
    {written : List UInt8}
    (hfill : ∀ asked buffer, (host.answer (.allocate info.moduleId
          (method.instrument points probe configuration).method.encodedSize) asked).1 = .ok buffer →
      (method.instrument points probe configuration).method.write buffer = .ok written) :
    result = .ok (.instrumented info.token placement
        (method.instrument points probe configuration).method.encodedSize)
      ∧ served final = written ∧ ∃ exchange ∈ exchanges, exchange.call.Replaces info := by
  cases hhandling with
  | unknown => simp [Exchange.Granted] at hgranted
  | pointsRefused => simp [Exchange.Granted] at hgranted
  | untracked hnone =>
    obtain ⟨rfl, rfl, -⟩ := hs.tracked hplays
    exact absurd hnone (by simpa using hsome)
  | tracked hsome' hrest =>
    obtain ⟨rfl, hpoints, middle, hmiddle, hplays⟩ := hs.tracked hplays
    obtain rfl := Option.some.inj hpoints
    rw [← hmiddle] at hdecode
    cases hrest with
    | bodyRefused => simp [Exchange.Granted] at hgranted
    | probeRefused => simp [Exchange.Granted] at hgranted
    | unreadable hdecode' =>
      obtain ⟨rfl, -⟩ := hs.read hplays
      cases hdecode.symm.trans hdecode'
    | skipped hdecode' hskip hcarried =>
      obtain ⟨rfl, later, -, hplays⟩ := hs.read hplays
      obtain ⟨rfl, -⟩ := hs.probed hplays
      obtain rfl := Except.ok.inj (hdecode.symm.trans hdecode')
      cases hprobed.symm.trans hcarried
    | rewritten hdecode' hnot hrest =>
      obtain ⟨rfl, later, -, hplays⟩ := hs.read hplays
      obtain ⟨rfl, latest, -, hplays⟩ := hs.probed hplays
      obtain rfl := Except.ok.inj (hdecode.symm.trans hdecode')
      cases hrest with
      | misplaced hplaced' => cases hplaced.symm.trans hplaced'
      | refused => simp [Exchange.Granted] at hgranted
      | misfit _ hsize => exact absurd (Method.length_of_write (hfill _ _ hplays.1)) hsize
      | unwritten _ hwrite => cases (hfill _ _ hplays.1).symm.trans hwrite
      | @handedBack _ buffer written' answer hplaced' hwrite =>
        obtain ⟨hallocate, hset, rfl⟩ := hplays
        obtain rfl := Except.ok.inj ((hfill _ _ hallocate).symm.trans hwrite)
        obtain rfl := Except.ok.inj (hplaced.symm.trans hplaced')
        cases answer with
        | error => simp [Exchange.Granted] at hgranted
        | ok => exact ⟨rfl, hs.stored hset, ⟨.setMethodBody _ _ written, .ok ()⟩, by simp, rfl, rfl⟩

namespace Host

/-- A host that refuses nothing and keeps a body for every method. -/
def store (infoOf : FunctionId → FunctionInfo) (pointsOf : FunctionInfo → Option Points)
    (probeOf : ModuleId → ProbeStyle → Probe) : Host (ModuleId → Token → List UInt8) where
  answer call bodies :=
    match call with
    | .functionInfo function => (.ok (infoOf function), bodies)
    | .points function => (.ok (pointsOf function), bodies)
    | .methodBody moduleId method => (.ok (bodies moduleId method), bodies)
    | .probe moduleId style => (.ok (probeOf moduleId style), bodies)
    | .allocate _ size => (.ok (List.replicate size 0), bodies)
    | .setMethodBody moduleId method body =>
      (.ok (), fun otherId other =>
        if otherId = moduleId ∧ other = method then body else bodies otherId other)

variable {infoOf : FunctionId → FunctionInfo} {pointsOf : FunctionInfo → Option Points}
  {probeOf : ModuleId → ProbeStyle → Probe} {bodies : ModuleId → Token → List UInt8}

/-- A store is steady about its functions. -/
theorem steady_store (style : ProbeStyle) (hpoints : pointsOf (infoOf function) = some points) :
    (store infoOf pointsOf probeOf).Steady style function (infoOf function) points
      (probeOf (infoOf function).moduleId style)
      (fun bodies => bodies (infoOf function).moduleId (infoOf function).token) where
  functionInfo hanswer := (Except.ok.inj hanswer).symm
  points hanswer := (Except.ok.inj hanswer).symm.trans hpoints
  probe hanswer := (Except.ok.inj hanswer).symm
  methodBody hanswer := (Except.ok.inj hanswer).symm
  stored _ := if_pos ⟨rfl, rfl⟩
  kept {state call} hkeeps := by
    cases call with
    | setMethodBody moduleId method body =>
      exact if_neg fun ⟨hmodule, hmethod⟩ => hkeeps ⟨hmodule.symm, hmethod.symm⟩
    | _ => rfl

/-- A store refuses nothing. -/
theorem granted_store {final : ModuleId → Token → List UInt8}
    (hplays : (store infoOf pointsOf probeOf).Plays bodies exchanges final) :
    ∀ exchange ∈ exchanges, exchange.Granted := by
  rintro ⟨call, answer⟩ hmem
  obtain ⟨asked, hanswer⟩ := hplays.exists_state hmem
  cases call <;> cases hanswer <;> trivial

/-- The store hands a method back if it does not carry its probes. -/
theorem run_store (hpoints : pointsOf (infoOf function) = some points)
    (hsome : points.isEmpty = false)
    (hprobe : probeOf (infoOf function).moduleId configuration.probeStyle = probe) {method : Method}
    (hdecode : Method.decode (bodies (infoOf function).moduleId (infoOf function).token) = .ok method)
    (hprobed : method.isAlreadyInstrumented points probe = false) {placement : Placement}
    (hplaced : (method.instrument points probe configuration).outcome = .ok placement)
    {written : List UInt8}
    (hbytes : (method.instrument points probe configuration).method.toBytes = .ok written) :
    ∃ journal, Session.run bodies
          (Session.compile (store infoOf pointsOf probeOf) configuration function)
        = (.ok (.instrumented (infoOf function).token placement
            (method.instrument points probe configuration).method.encodedSize), journal)
      ∧ journal.host (infoOf function).moduleId (infoOf function).token = written
      ∧ ∃ exchange ∈ journal.exchanges, exchange.call.Replaces (infoOf function) := by
  subst hprobe
  cases hrun : Session.run bodies
    (Session.compile (store infoOf pointsOf probeOf) configuration function) with
  | mk result journal =>
    obtain ⟨hplays, hhandling⟩ := run_compile hrun
    obtain ⟨rfl, hserved, hreplaced⟩ := (steady_store configuration.probeStyle hpoints).instrumented
      hplays hhandling (granted_store hplays) hsome hdecode hprobed hplaced fun _ buffer hbuffer => by
        rw [← Except.ok.inj hbuffer]
        exact hbytes
    exact ⟨journal, rfl, hserved, hreplaced⟩

end Host

/-- A function is compiled and its method handed back, with a session that skips instrumented
methods. If it has statement points and probes are placed on them, then from then on, whatever else
happens in between, every compilation of the function leaves the body alone and comes to the result
that the method is instrumented, unless the host refuses a call or the body cannot be read. It can
be read if and only if no branch with a point falls to the label. Without statement points, or
without statement probes in a body that neither called the collector before nor has two points of
one id, no compilation comes to that result. -/
theorem compile_again
    (hsteady : host.Steady configuration.probeStyle function info points probe served)
    (hskip : configuration.skipInstrumented = true) {token : Token} {placement : Placement}
    {size : Nat} {journal : Journal σ}
    (hfirst : Session.run state (Session.compile host configuration function)
      = (.ok (.instrumented token placement size), journal)) :
    ∃ method, Method.decode (served state) = .ok method
      ∧ (∀ later, host.Later info journal.host later → ∀ result again,
          Session.run later (Session.compile host configuration function) = (result, again) →
          (configuration.statementProbes = true → points.statements ≠ [] →
            (∀ exchange ∈ again.exchanges, ¬ exchange.call.Replaces info)
              ∧ host.Later info journal.host again.host
              ∧ ((∀ exchange ∈ again.exchanges, exchange.Granted) → result
                  = (Method.decode (served journal.host)).map fun _ => .alreadyInstrumented))
          ∧ (points.statements = [] ∨ (configuration.statementProbes = false ∧ points.ids.Nodup
                ∧ ∀ instruction ∈ method.instructions, instruction.opcode = probe.call.opcode →
                  instruction.operand ≠ probe.call.operand) →
              result ≠ .ok .alreadyInstrumented))
      ∧ ((method.instrument points probe configuration).method.codeSize < 2 ^ 31 →
          (method.instrument points probe configuration).method.regions.length ≤ 699050 →
          ((∃ decoded, Method.decode (served journal.host) = .ok decoded)
            ↔ ∀ branch ∈ method.conditionalBranches,
                method.fallsToLabel (points.enabled configuration).branches branch = false)) := by
  obtain ⟨hplays, hhandling⟩ := run_compile hfirst
  obtain ⟨hsome, method, buffer, hdecode, hplaced, hwrite⟩ := hsteady.exists_written hplays hhandling
  obtain ⟨raw, regions, targets, -, hd⟩ := Method.decode_spec hdecode
  refine ⟨method, hdecode, ?_, ?_⟩
  · intro later hlater result again hagain
    obtain ⟨hplays', hhandling'⟩ := run_compile hagain
    -- whatever was compiled in between, the host serves the body that was written
    have hserved := hsteady.served_of_later hlater
    refine ⟨fun hprobes hstatements => ?_, fun hfresh => ?_⟩
    · obtain ⟨hkeep, hresult⟩ := hsteady.skipped hplays' hhandling' hskip hsome fun decoded hdecoded =>
        hd.isAlreadyInstrumented_eq_true hplaced hwrite (hserved ▸ hdecoded) hprobes hstatements
      refine ⟨hkeep, hlater.of_plays hplays' hkeep, ?_⟩
      rwa [hserved] at hresult
    · refine hsteady.not_skipped hplays' hhandling' fun decoded hdecoded => ?_
      rcases hfresh with hempty | ⟨hprobes, hids, hforeign⟩
      · exact Method.isAlreadyInstrumented_of_nil hempty
      · exact hd.isAlreadyInstrumented_eq_false hforeign hplaced hwrite (hserved ▸ hdecoded) hids
          hprobes
  · intro hsmall hcount
    exact hd.exists_decode_iff hplaced hsmall hcount hwrite

/-- The function of the module `app.dll` that is compiled. -/
def appInfo : FunctionInfo := ⟨16, "app.dll", ⟨0x06000001⟩⟩

/-- A store in which every function is that of `app.dll`, with the given points. -/
def appStore (points : Points) : Host (ModuleId → Token → List UInt8) :=
  Host.store (fun _ => appInfo) (fun _ => some points) fun _ _ => .managed ⟨0x0A000001⟩

/-- The store of `app.dll` is steady about its function. -/
theorem steady_appStore (points : Points) :
    (appStore points).Steady .managed 1 appInfo points (.managed ⟨0x0A000001⟩)
      fun bodies => bodies appInfo.moduleId appInfo.token :=
  Host.steady_store .managed rfl

/-- A compilation in that store replaces the body by the instrumented one. -/
theorem run_appStore (bodies : ModuleId → Token → List UInt8) (hsome : points.isEmpty = false)
    {method : Method} (hdecode : Method.decode (bodies appInfo.moduleId appInfo.token) = .ok method)
    (hprobed : method.isAlreadyInstrumented points (.managed ⟨0x0A000001⟩) = false)
    {placement : Placement} {written : List UInt8}
    (hplaced : (method.instrument points (.managed ⟨0x0A000001⟩) {}).outcome = .ok placement)
    (hbytes : (method.instrument points (.managed ⟨0x0A000001⟩) {}).method.toBytes = .ok written) :
    ∃ journal, Session.run bodies (Session.compile (appStore points) {} 1)
        = (.ok (.instrumented appInfo.token placement
            (method.instrument points (.managed ⟨0x0A000001⟩) {}).method.encodedSize), journal)
      ∧ journal.host appInfo.moduleId appInfo.token = written
      ∧ ∃ exchange ∈ journal.exchanges, exchange.call.Replaces appInfo :=
  Host.run_store rfl hsome rfl hdecode hprobed hplaced hbytes

set_option maxRecDepth 4000 in
/-- The instrumented `guardedLoop` is left alone when its function is compiled again. -/
theorem compile_again_guardedLoop :
    ∃ journal, Session.run (fun _ _ => guardedLoop) (Session.compile (appStore guardedPoints) {} 1)
        = (.ok (.instrumented appInfo.token ⟨2, 2⟩ 108), journal)
      ∧ ∀ later, (appStore guardedPoints).Later appInfo journal.host later → ∀ result again,
          Session.run later (Session.compile (appStore guardedPoints) {} 1) = (result, again) →
          (∀ exchange ∈ again.exchanges, ¬ exchange.call.Replaces appInfo)
            ∧ result = .ok .alreadyInstrumented := by
  have hrun : ((Method.decode guardedLoop).bind fun method =>
      let edited := method.instrument guardedPoints (.managed ⟨0x0A000001⟩) {}
      edited.outcome.bind fun placement => edited.method.toBytes.bind fun bytes =>
        (Method.decode bytes).bind fun decoded =>
          .ok (method.isAlreadyInstrumented guardedPoints (.managed ⟨0x0A000001⟩), placement,
            edited.method.encodedSize))
      = .ok (false, ⟨2, 2⟩, 108) := by cbv
  obtain ⟨method, hdecode, hrest⟩ := bind_eq_ok_iff.mp hrun
  obtain ⟨placement, hplaced, hrest⟩ := bind_eq_ok_iff.mp hrest
  obtain ⟨bytes, hbytes, hrest⟩ := bind_eq_ok_iff.mp hrest
  obtain ⟨decoded, hdecoded, hresult⟩ := bind_eq_ok_iff.mp hrest
  obtain ⟨hprobed, hresult⟩ := Prod.mk.inj (Except.ok.inj hresult)
  obtain ⟨rfl, hsize⟩ := Prod.mk.inj hresult
  obtain ⟨journal, hfirst, hserved, -⟩ :=
    run_appStore (fun _ _ => guardedLoop) (by decide) hdecode hprobed hplaced hbytes
  rw [hsize] at hfirst
  refine ⟨journal, hfirst, fun later hlater result again hagain => ?_⟩
  obtain ⟨_, -, hlater', -⟩ := compile_again (steady_appStore guardedPoints) rfl hfirst
  obtain ⟨⟨hkeep, -, hresult⟩, -⟩ := (hlater' later hlater result again hagain).imp_left
    fun hskipped => hskipped rfl (by decide)
  refine ⟨hkeep, ?_⟩
  rw [hresult (Host.granted_store (run_compile hagain).1)]
  show (Method.decode (journal.host appInfo.moduleId appInfo.token)).map _ = _
  rw [hserved, hdecoded]
  rfl

/-- A method that branches over an instruction. -/
def forkBody : List UInt8 := [0x16, 0x02, 0x2D, 0x01, 0x00, 0x2A]

/-- Points on both paths of the branch of `forkBody`, and no others. -/
def forkPoints : Points where
  statements := []
  branches := [⟨1, 0, 3⟩, ⟨1, 1, 4⟩]

set_option maxRecDepth 4000 in
/-- Both paths of `forkBody` get their probes, and get them once more when the function is compiled
again. -/
theorem compile_again_instruments_fork :
    Configuration.standard.skipInstrumented = true ∧ forkPoints.isEmpty = false
      ∧ (appStore forkPoints).Steady .managed 1 appInfo forkPoints (.managed ⟨0x0A000001⟩)
          (fun bodies => bodies appInfo.moduleId appInfo.token)
      ∧ ∃ journal again, Session.run (fun _ _ => forkBody)
            (Session.compile (appStore forkPoints) .standard 1)
          = (.ok (.instrumented appInfo.token ⟨0, 2⟩ 50), journal)
        ∧ Session.run journal.host (Session.compile (appStore forkPoints) .standard 1)
          = (.ok (.instrumented appInfo.token ⟨0, 2⟩ 80), again)
        ∧ ∃ exchange ∈ again.exchanges, exchange.call.Replaces appInfo := by
  refine ⟨rfl, rfl, steady_appStore forkPoints, ?_⟩
  have hrun : ((Method.decode forkBody).bind fun method =>
      let edited := method.instrument forkPoints (.managed ⟨0x0A000001⟩) {}
      edited.outcome.bind fun placement => edited.method.toBytes.bind fun bytes =>
        (Method.decode bytes).bind fun decoded =>
          let again := decoded.instrument forkPoints (.managed ⟨0x0A000001⟩) {}
          again.outcome.bind fun placed => again.method.toBytes.bind fun _ =>
            .ok (placement, edited.method.encodedSize, placed, again.method.encodedSize))
      = .ok (⟨0, 2⟩, 50, ⟨0, 2⟩, 80) := by decide +kernel
  obtain ⟨method, hdecode, hrest⟩ := bind_eq_ok_iff.mp hrun
  obtain ⟨placement, hplaced, hrest⟩ := bind_eq_ok_iff.mp hrest
  obtain ⟨bytes, hbytes, hrest⟩ := bind_eq_ok_iff.mp hrest
  obtain ⟨decoded, hdecoded, hrest⟩ := bind_eq_ok_iff.mp hrest
  obtain ⟨placed, hplaced', hrest⟩ := bind_eq_ok_iff.mp hrest
  obtain ⟨bytes', hbytes', hresult⟩ := bind_eq_ok_iff.mp hrest
  obtain ⟨rfl, hsizes⟩ := Prod.mk.inj (Except.ok.inj hresult)
  obtain ⟨hsize, hsizes⟩ := Prod.mk.inj hsizes
  obtain ⟨rfl, hsize'⟩ := Prod.mk.inj hsizes
  have hfresh {other : Method} :
      other.isAlreadyInstrumented forkPoints (.managed ⟨0x0A000001⟩) = false :=
    Method.isAlreadyInstrumented_of_nil rfl
  obtain ⟨journal, hfirst, hserved, -⟩ :=
    run_appStore (fun _ _ => forkBody) rfl hdecode hfresh hplaced hbytes
  obtain ⟨again, hagain, -, hreplaced⟩ :=
    run_appStore journal.host rfl (hserved ▸ hdecoded) hfresh hplaced' hbytes'
  rw [hsize] at hfirst
  rw [hsize'] at hagain
  exact ⟨journal, again, hfirst, hagain, hreplaced⟩

end CilCoverage
