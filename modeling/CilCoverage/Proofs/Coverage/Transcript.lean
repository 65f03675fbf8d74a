import CilCoverage.Coverage.Session

/-!
# Transcripts of compilations

What a session asks depends on the host through the answers only, so the handling of a compilation
is described by its transcript: the calls with their answers, in order, and how it ends. `Handling`
lists the transcripts that there are. Every compilation has one of them (`run_compile`), in which
the answers are those that the host gives in the states it comes to (`Host.Plays`).
-/

set_option autoImplicit false

namespace CilCoverage

variable {σ α β : Type}

/-- Asked in this order, from the state `state`, the host answers like this and comes to `final`. -/
def Host.Plays (host : Host σ) : σ → List Exchange → σ → Prop
  | state, [], final => final = state
  | state, exchange :: rest, final =>
    (host.answer exchange.call state).1 = exchange.answer
      ∧ host.Plays (host.answer exchange.call state).2 rest final

/-- A host plays exchanges one after the other by way of a state in between. -/
theorem Host.plays_append_iff {host : Host σ} {state final : σ} {first rest : List Exchange} :
    host.Plays state (first ++ rest) final
      ↔ ∃ middle, host.Plays state first middle ∧ host.Plays middle rest final := by
  induction first generalizing state with
  | nil => exact ⟨fun hplays => ⟨state, rfl, hplays⟩, fun ⟨_, hstate, hplays⟩ => hstate ▸ hplays⟩
  | cons exchange first ih =>
    rw [List.cons_append, Host.Plays, ih]
    constructor
    · rintro ⟨hanswer, middle, hfirst, hrest⟩
      exact ⟨middle, ⟨hanswer, hfirst⟩, hrest⟩
    · rintro ⟨middle, ⟨hanswer, hfirst⟩, hrest⟩
      exact ⟨hanswer, middle, hfirst, hrest⟩

/-- Every answer was given in some state. -/
theorem Host.Plays.exists_state {host : Host σ} {state final : σ} {exchanges : List Exchange}
    (hplays : host.Plays state exchanges final) {exchange : Exchange} (hmem : exchange ∈ exchanges) :
    ∃ asked, (host.answer exchange.call asked).1 = exchange.answer := by
  induction exchanges generalizing state with
  | nil => cases hmem
  | cons first rest ih =>
    rcases List.mem_cons.mp hmem with rfl | hmem
    · exact ⟨state, hplays.1⟩
    · exact ih hplays.2 hmem

namespace Journal

/-- The journal after more exchanges and events, with the host in the state `final`. -/
def extended (journal : Journal σ) (exchanges : List Exchange) (events : List Event) (final : σ) :
    Journal σ :=
  { host := final
    exchanges := journal.exchanges ++ exchanges
    events := journal.events ++ events }

variable (journal : Journal σ) (exchanges rest : List Exchange) (events later : List Event)
  (middle final : σ)

/-- The host is in the final state of the exchanges. -/
@[simp]
theorem host_extended : (journal.extended exchanges events final).host = final := rfl

/-- Without exchanges the host keeps its state. -/
theorem extended_nil : journal.extended [] events journal.host
    = { journal with events := journal.events ++ events } := by
  rw [extended, List.append_nil]

/-- Nothing is added by no exchange and no event. -/
theorem extended_self : journal.extended [] [] journal.host = journal := by
  rw [extended_nil, List.append_nil]

/-- Additions to a journal come one after the other. -/
theorem extended_extended :
    (journal.extended exchanges events middle).extended rest later final
      = journal.extended (exchanges ++ rest) (events ++ later) final := by
  simp only [extended, List.append_assoc]

end Journal

/-- The event that goes with reading a body does not change what is read. -/
theorem Method.map_decodeNoting (data : List UInt8) :
    (Method.decodeNoting data).map Prod.fst = Method.decode data := by
  unfold Method.decodeNoting
  cases hbody : Body.read data with
  | error cause =>
    rw [Method.decode, hbody]
    rfl
  | ok body =>
    cases hdecode : Method.decode data <;> rfl

namespace Session

/-- Transcripts of programs: the exchanges with the host, and the result. -/
abbrev Transcript (α : Type) := List Exchange → Except Error α → Prop

/-- Every run of the program against the host has such a transcript. -/
def Follows (host : Host σ) (program : SessionM σ α) (transcript : Transcript α) : Prop :=
  ∀ journal, ∃ exchanges events final result,
    StateT.run (ExceptT.run program) journal
        = (result, journal.extended exchanges events final)
      ∧ host.Plays journal.host exchanges final ∧ transcript exchanges result

section Rules

variable {host : Host σ} {transcript : Transcript α}

/-- The transcripts of a program may be given more generally. -/
theorem Follows.mono {program : SessionM σ α} {opening : Transcript α}
    (hfollows : Follows host program opening)
    (hle : ∀ exchanges result, opening exchanges result → transcript exchanges result) :
    Follows host program transcript := by
  intro journal
  obtain ⟨exchanges, events, final, result, hrun, hplays, hopening⟩ := hfollows journal
  exact ⟨exchanges, events, final, result, hrun, hplays, hle exchanges result hopening⟩

/-- A value is returned without an exchange. -/
theorem follows_pure {value : α} (hvalue : transcript [] (.ok value)) :
    Follows host (pure value) transcript := by
  intro journal
  refine ⟨[], [], journal.host, .ok value, ?_, rfl, hvalue⟩
  rw [journal.extended_self]
  rfl

/-- An outcome is passed on without an exchange. -/
theorem follows_ofExcept {outcome : Except Error α} (houtcome : transcript [] outcome) :
    Follows host (ofExcept outcome) transcript := by
  intro journal
  refine ⟨[], [], journal.host, outcome, ?_, rfl, houtcome⟩
  rw [journal.extended_self]
  rfl

/-- An error is raised without an exchange. -/
theorem follows_throw {cause : Error} (hcause : transcript [] (.error cause)) :
    Follows host (throw cause) transcript :=
  follows_ofExcept hcause

/-- Events are noted without an exchange. -/
theorem follows_note {events : List Event} {transcript : Transcript Unit}
    (hnoted : transcript [] (.ok ())) : Follows host (note events) transcript := by
  intro journal
  refine ⟨[], events, journal.host, .ok (), ?_, rfl, hnoted⟩
  rw [journal.extended_nil]
  rfl

/-- To ask the host is one exchange. -/
theorem follows_ask {call : HostCall} {transcript : Transcript call.Answer}
    (hanswer : ∀ answer, transcript [⟨call, answer⟩] answer) :
    Follows host (ask host call) transcript := by
  intro journal
  refine ⟨[⟨call, (host.answer call journal.host).1⟩], [], (host.answer call journal.host).2,
    (host.answer call journal.host).1, ?_, ⟨rfl, rfl⟩, hanswer _⟩
  rw [Journal.extended, List.append_nil]
  rfl

/-- The second program runs on the journal of the first one, unless that fails. -/
theorem run_bind (first : SessionM σ β) (next : β → SessionM σ α) (journal : Journal σ) :
    StateT.run (ExceptT.run (first >>= next)) journal
      = match StateT.run (ExceptT.run first) journal with
        | (.ok value, later) => StateT.run (ExceptT.run (next value)) later
        | (.error cause, later) => (.error cause, later) := by
  rw [ExceptT.run_bind, StateT.run_bind]
  obtain ⟨result, later⟩ : Except Error β × Journal σ := StateT.run (ExceptT.run first) journal
  cases result <;> rfl

/-- A sequence goes on behind the transcript of its first part, unless that failed. -/
theorem follows_bind {first : SessionM σ β} {next : β → SessionM σ α} {opening : Transcript β}
    (hfirst : Follows host first opening)
    (hnext : ∀ exchanges value, opening exchanges (.ok value) →
      Follows host (next value) fun rest result => transcript (exchanges ++ rest) result)
    (hfailed : ∀ exchanges cause, opening exchanges (.error cause) →
      transcript exchanges (.error cause)) :
    Follows host (first >>= next) transcript := by
  intro journal
  obtain ⟨exchanges, events, middle, result, hrun, hplays, hopening⟩ := hfirst journal
  cases result with
  | error cause =>
    refine ⟨exchanges, events, middle, .error cause, ?_, hplays, hfailed exchanges cause hopening⟩
    rw [run_bind, hrun]
  | ok value =>
    obtain ⟨rest, later, final, result, hrun', hplays', hrest⟩ :=
      hnext exchanges value hopening (journal.extended exchanges events middle)
    refine ⟨exchanges ++ rest, events ++ later, final, result, ?_, ?_, hrest⟩
    · rw [run_bind, hrun]
      dsimp only
      rw [hrun', Journal.extended_extended]
    · exact Host.plays_append_iff.mpr ⟨middle, hplays, hplays'⟩

/-- The exchange comes first, and a refusal ends the program. -/
theorem follows_ask_bind {call : HostCall} {next : call.Answer → SessionM σ α}
    (hgranted : ∀ answer, Follows host (next answer) fun rest result =>
      transcript (⟨call, .ok answer⟩ :: rest) result)
    (hrefused : ∀ cause, transcript [⟨call, .error cause⟩] (.error cause)) :
    Follows host (ask host call >>= next) transcript := by
  have hask : Follows host (ask host call)
      fun exchanges answer => exchanges = [⟨call, answer⟩] := follows_ask fun _ => rfl
  refine follows_bind hask ?_ ?_
  · rintro exchanges answer rfl
    exact hgranted answer
  · rintro exchanges cause rfl
    exact hrefused cause

/-- Noting events adds nothing to a transcript. -/
theorem follows_note_bind {events : List Event} {next : Unit → SessionM σ α}
    (hnext : Follows host (next ()) transcript) : Follows host (note events >>= next) transcript := by
  have hnote : Follows host (note events) fun exchanges result => exchanges = [] ∧ result = .ok () :=
    follows_note ⟨rfl, rfl⟩
  refine follows_bind hnote ?_ ?_
  · rintro exchanges value ⟨rfl, -⟩
    exact hnext
  · rintro exchanges cause ⟨-, hcause⟩
    cases hcause

/-- An outcome in front adds nothing to a transcript, and an error ends the program. -/
theorem follows_ofExcept_bind {outcome : Except Error β} {next : β → SessionM σ α}
    (hnext : ∀ value, outcome = .ok value → Follows host (next value) transcript)
    (hfailed : ∀ cause, outcome = .error cause → transcript [] (.error cause)) :
    Follows host (ofExcept outcome >>= next) transcript := by
  have hof : Follows host (ofExcept outcome)
      fun exchanges result => exchanges = [] ∧ result = outcome := follows_ofExcept ⟨rfl, rfl⟩
  refine follows_bind hof ?_ ?_
  · rintro exchanges value ⟨rfl, hvalue⟩
    exact hnext value hvalue.symm
  · rintro exchanges cause ⟨rfl, hcause⟩
    exact hfailed cause hcause.symm

/-- So does an edit, whose method is passed on. -/
theorem follows_perform_bind {edited : Edited β} {next : Method × β → SessionM σ α}
    (hnext : ∀ value, edited.outcome = .ok value →
      Follows host (next (edited.method, value)) transcript)
    (hfailed : ∀ cause, edited.outcome = .error cause → transcript [] (.error cause)) :
    Follows host (perform edited >>= next) transcript := by
  have hperform : Follows host (perform edited) fun exchanges result =>
      exchanges = [] ∧ result = edited.outcome.map fun value => (edited.method, value) := by
    refine follows_note_bind (follows_ofExcept_bind ?_ ?_)
    · intro value hvalue
      exact follows_pure ⟨rfl, by rw [hvalue]; rfl⟩
    · intro cause hcause
      exact ⟨rfl, by rw [hcause]; rfl⟩
  refine follows_bind hperform ?_ ?_
  · rintro exchanges value ⟨rfl, hvalue⟩
    cases houtcome : edited.outcome with
    | ok value =>
      rw [houtcome] at hvalue
      obtain rfl := Except.ok.inj hvalue
      exact hnext value houtcome
    | error cause =>
      rw [houtcome] at hvalue
      cases hvalue
  · rintro exchanges cause ⟨rfl, hcause⟩
    cases houtcome : edited.outcome with
    | ok value =>
      rw [houtcome] at hcause
      cases hcause
    | error cause =>
      rw [houtcome] at hcause
      obtain rfl := Except.error.inj hcause
      exact hfailed _ houtcome

end Rules

/-- The transcripts of handing a method back after the placement of probes: a buffer is asked for
and filled, and it becomes the body of the method. -/
inductive Rewriting (info : FunctionInfo) (edited : Edited Placement) : Transcript Outcome
  | misplaced {cause : Error} (hplaced : edited.outcome = .error cause) :
      Rewriting info edited [] (.error cause)
  | refused {placement : Placement} {cause : Error} (hplaced : edited.outcome = .ok placement) :
      Rewriting info edited
        [⟨.allocate info.moduleId edited.method.encodedSize, .error cause⟩] (.error cause)
  | misfit {placement : Placement} {buffer : List UInt8} (hplaced : edited.outcome = .ok placement)
      (hsize : buffer.length ≠ edited.method.encodedSize) :
      Rewriting info edited
        [⟨.allocate info.moduleId edited.method.encodedSize, .ok buffer⟩]
        (.error (.host ("allocator returned " ++ toString buffer.length ++ " bytes for a "
          ++ toString edited.method.encodedSize ++ " byte body")))
  | unwritten {placement : Placement} {buffer : List UInt8} {cause : Error}
      (hplaced : edited.outcome = .ok placement)
      (hwrite : edited.method.write buffer = .error cause) :
      Rewriting info edited
        [⟨.allocate info.moduleId edited.method.encodedSize, .ok buffer⟩] (.error cause)
  | handedBack {placement : Placement} {buffer written : List UInt8} {answer : Except Error Unit}
      (hplaced : edited.outcome = .ok placement)
      (hwrite : edited.method.write buffer = .ok written) :
      Rewriting info edited
        [⟨.allocate info.moduleId edited.method.encodedSize, .ok buffer⟩,
          ⟨.setMethodBody info.moduleId info.token written, answer⟩]
        (answer.map fun _ => .instrumented info.token placement edited.method.encodedSize)

/-- The transcripts of the handling of a method that has points. -/
inductive Tracked (configuration : Configuration) (info : FunctionInfo) (points : Points) :
    Transcript Outcome
  | bodyRefused {cause : Error} :
      Tracked configuration info points [⟨.methodBody info.moduleId info.token, .error cause⟩]
        (.error cause)
  | unreadable {body : List UInt8} {cause : Error} (hdecode : Method.decode body = .error cause) :
      Tracked configuration info points [⟨.methodBody info.moduleId info.token, .ok body⟩]
        (.error cause)
  | probeRefused {body : List UInt8} {method : Method} {cause : Error}
      (hdecode : Method.decode body = .ok method) :
      Tracked configuration info points
        [⟨.methodBody info.moduleId info.token, .ok body⟩,
          ⟨.probe info.moduleId configuration.probeStyle, .error cause⟩]
        (.error cause)
  | skipped {body : List UInt8} {method : Method} {probe : Probe}
      (hdecode : Method.decode body = .ok method) (hskip : configuration.skipInstrumented = true)
      (hprobed : method.isAlreadyInstrumented points probe = true) :
      Tracked configuration info points
        [⟨.methodBody info.moduleId info.token, .ok body⟩,
          ⟨.probe info.moduleId configuration.probeStyle, .ok probe⟩]
        (.ok .alreadyInstrumented)
  | rewritten {body : List UInt8} {method : Method} {probe : Probe} {rest : List Exchange}
      {result : Except Error Outcome} (hdecode : Method.decode body = .ok method)
      (hskip : (configuration.skipInstrumented && method.isAlreadyInstrumented points probe) = false)
      (hrest : Rewriting info (method.instrument points probe configuration) rest result) :
      Tracked configuration info points
        (⟨.methodBody info.moduleId info.token, .ok body⟩
          :: ⟨.probe info.moduleId configuration.probeStyle, .ok probe⟩ :: rest)
        result

/-- The transcripts of the handling of a compilation. -/
inductive Handling (configuration : Configuration) (function : FunctionId) : Transcript Outcome
  | unknown {cause : Error} :
      Handling configuration function [⟨.functionInfo function, .error cause⟩] (.error cause)
  | pointsRefused {info : FunctionInfo} {cause : Error} :
      Handling configuration function
        [⟨.functionInfo function, .ok info⟩, ⟨.points info, .error cause⟩] (.error cause)
  | untracked {info : FunctionInfo} {points? : Option Points}
      (hnone : points?.all Points.isEmpty = true) :
      Handling configuration function
        [⟨.functionInfo function, .ok info⟩, ⟨.points info, .ok points?⟩] (.ok .notTracked)
  | tracked {info : FunctionInfo} {points : Points} {rest : List Exchange}
      {result : Except Error Outcome} (hsome : points.isEmpty = false)
      (hrest : Tracked configuration info points rest result) :
      Handling configuration function
        (⟨.functionInfo function, .ok info⟩ :: ⟨.points info, .ok (some points)⟩ :: rest) result

/-- A compilation that ends with a method handed back consists of six calls. -/
theorem Handling.of_instrumented {configuration : Configuration} {function : FunctionId}
    {exchanges : List Exchange} {result : Except Error Outcome} {token : Token}
    {placement : Placement} {size : Nat} (h : Handling configuration function exchanges result)
    (hresult : result = .ok (.instrumented token placement size)) :
    ∃ info points body method probe buffer written,
      exchanges = [⟨.functionInfo function, .ok info⟩, ⟨.points info, .ok (some points)⟩,
        ⟨.methodBody info.moduleId info.token, .ok body⟩,
        ⟨.probe info.moduleId configuration.probeStyle, .ok probe⟩,
        ⟨.allocate info.moduleId size, .ok buffer⟩,
        ⟨.setMethodBody info.moduleId info.token written, .ok ()⟩]
      ∧ points.isEmpty = false ∧ Method.decode body = .ok method
      ∧ (configuration.skipInstrumented && method.isAlreadyInstrumented points probe) = false
      ∧ (method.instrument points probe configuration).outcome = .ok placement
      ∧ (method.instrument points probe configuration).method.write buffer = .ok written
      ∧ token = info.token
      ∧ size = (method.instrument points probe configuration).method.encodedSize := by
  cases h with
  | tracked hsome hrest =>
    cases hrest with
    | rewritten hdecode hskip hrest =>
      cases hrest with
      | handedBack hplaced hwrite =>
        rename_i answer
        cases answer with
        | ok =>
          cases hresult
          exact ⟨_, _, _, _, _, _, _, rfl, hsome, hdecode, hskip, hplaced, hwrite, rfl, rfl⟩
        | error => cases hresult
      | _ => cases hresult
    | _ => cases hresult
  | _ => cases hresult

/-- A compilation that skips its method has read it. -/
theorem Handling.of_skipped {configuration : Configuration} {function : FunctionId}
    {exchanges : List Exchange} {result : Except Error Outcome}
    (h : Handling configuration function exchanges result)
    (hresult : result = .ok .alreadyInstrumented) :
    ∃ info points body method probe,
      exchanges = [⟨.functionInfo function, .ok info⟩, ⟨.points info, .ok (some points)⟩,
        ⟨.methodBody info.moduleId info.token, .ok body⟩,
        ⟨.probe info.moduleId configuration.probeStyle, .ok probe⟩]
      ∧ Method.decode body = .ok method ∧ configuration.skipInstrumented = true
      ∧ method.isAlreadyInstrumented points probe = true := by
  cases h with
  | tracked hsome hrest =>
    cases hrest with
    | skipped hdecode hskip hprobed => exact ⟨_, _, _, _, _, rfl, hdecode, hskip, hprobed⟩
    | rewritten hdecode hskip hrest =>
      cases hrest with
      | handedBack hplaced hwrite =>
        rename_i answer
        cases answer <;> cases hresult
      | _ => cases hresult
    | _ => cases hresult
  | _ => cases hresult

section Runs

variable {host : Host σ} {configuration : Configuration} {info : FunctionInfo} {points : Points}
  {probe : Probe} {method : Method}

/-- Handing a body back has the transcripts of `Rewriting`. -/
theorem follows_instrumentBody (body : List UInt8) :
    Follows host (instrumentBody host configuration info points probe body method)
      (Rewriting info (method.instrument points probe configuration)) := by
  refine follows_note_bind (follows_perform_bind ?_ fun cause => Rewriting.misplaced)
  intro placement hplaced
  refine follows_note_bind (follows_ask_bind ?_ fun cause => Rewriting.refused hplaced)
  intro buffer
  split
  · refine follows_ofExcept_bind ?_ fun cause => Rewriting.unwritten hplaced
    intro written hwrite
    refine follows_ask_bind ?_ fun cause => Rewriting.handedBack hplaced hwrite
    intro answer
    exact follows_note_bind (follows_pure (Rewriting.handedBack hplaced hwrite))
  · rename_i hsize
    exact follows_throw (Rewriting.misfit hplaced hsize)

/-- The handling of a method that has points has the transcripts of `Tracked`. -/
theorem follows_handleTracked :
    Follows host (handleTracked host configuration info points)
      (Tracked configuration info points) := by
  refine follows_ask_bind ?_ fun cause => Tracked.bodyRefused
  intro body
  refine follows_ofExcept_bind ?_ fun cause hcause => ?_
  · rintro ⟨method, event⟩ hnoting
    have hdecode : Method.decode body = .ok method := by
      rw [← Method.map_decodeNoting, hnoting]
      rfl
    refine follows_note_bind (follows_ask_bind ?_ fun cause => Tracked.probeRefused hdecode)
    intro probe
    split
    · rename_i hskipped
      obtain ⟨hskip, hprobed⟩ := Bool.and_eq_true_iff.mp hskipped
      exact follows_note_bind (follows_pure (Tracked.skipped hdecode hskip hprobed))
    · rename_i hskipped
      exact (follows_instrumentBody body).mono fun rest result hrest =>
        Tracked.rewritten hdecode (Bool.eq_false_iff.mpr hskipped) hrest
  · refine Tracked.unreadable ?_
    rw [← Method.map_decodeNoting, hcause]
    rfl

/-- The handling of a compilation has the transcripts of `Handling`. -/
theorem follows_attempt (function : FunctionId) :
    Follows host (attempt host configuration function) (Handling configuration function) := by
  refine follows_ask_bind ?_ fun cause => Handling.unknown
  intro info
  refine follows_ask_bind ?_ fun cause => Handling.pointsRefused
  rintro (_ | points)
  · exact follows_pure (Handling.untracked rfl)
  · dsimp only
    split
    · rename_i hempty
      exact follows_pure (Handling.untracked hempty)
    · rename_i hsome
      exact follows_handleTracked.mono fun rest result hrest =>
        Handling.tracked (Bool.eq_false_iff.mpr hsome) hrest

/-- A failure is noted and passed on. -/
theorem follows_compile (function : FunctionId) :
    Follows host (compile host configuration function) (Handling configuration function) := by
  intro journal
  obtain ⟨exchanges, events, final, result, hrun, hplays, htranscript⟩ :=
    follows_attempt function journal
  have hcompile : StateT.run (ExceptT.run (compile host configuration function)) journal
      = match StateT.run (ExceptT.run (attempt host configuration function)) journal with
        | (.ok outcome, later) => (.ok outcome, later)
        | (.error cause, later) => (.error cause,
            { later with events := later.events ++ [.leftUninstrumented function cause] }) := by
    rw [compile, ExceptT.run_tryCatch, StateT.run_bind]
    obtain ⟨result, later⟩ : Except Error Outcome × Journal σ :=
      StateT.run (ExceptT.run (attempt host configuration function)) journal
    cases result <;> rfl
  rw [hrun] at hcompile
  cases result with
  | ok outcome => exact ⟨exchanges, events, final, .ok outcome, hcompile, hplays, htranscript⟩
  | error cause =>
    refine ⟨exchanges, events ++ [.leftUninstrumented function cause], final, .error cause, ?_, hplays,
      htranscript⟩
    rw [hcompile]
    simp only [Journal.extended, List.append_assoc]

/-- The journal of a compilation holds its transcript. -/
theorem run_compile {state : σ} {function : FunctionId} {result : Except Error Outcome}
    {journal : Journal σ}
    (hrun : run state (compile host configuration function) = (result, journal)) :
    host.Plays state journal.exchanges journal.host
      ∧ Handling configuration function journal.exchanges result := by
  have hfollows : Follows host (compile host configuration function)
      (Handling configuration function) := follows_compile function
  obtain ⟨exchanges, events, final, result', hrun', hplays, htranscript⟩ :=
    hfollows { host := state, exchanges := [], events := [] }
  obtain ⟨rfl, rfl⟩ := Prod.mk.inj (hrun'.symm.trans hrun)
  exact ⟨hplays, htranscript⟩

end Runs

end Session

end CilCoverage
