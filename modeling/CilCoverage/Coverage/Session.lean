import CilCoverage.Coverage.Placement
import CilCoverage.Method.Encode
import CilCoverage.Method.Listing

/-!
# Sessions

A session instruments methods as a runtime compiles them. Everything it needs from outside is a
`HostCall`, and a `Host` is any way of answering calls, with a state of its own. `Session.compile`
handles one compilation: it asks for the function, its points, its body and a probe, places the
probes, asks for a buffer of the right size, and hands the filled buffer back.

The program runs over a `Journal`, which keeps the state of the host together with every call made
and its answer, and with the events noted, in order. A failure stops the compilation and leaves
the body of the method alone.
-/

set_option autoImplicit false

namespace CilCoverage

/-- The runtime's name for a function about to be compiled. -/
abbrev FunctionId := UInt64

/-- The runtime's name for a loaded module. -/
abbrev ModuleId := UInt64

/-- What the runtime knows about a function. -/
structure FunctionInfo where
  moduleId : ModuleId
  modulePath : String
  token : Token
deriving DecidableEq, Repr

/-- What a session may ask of the runtime and of the source of points. -/
inductive HostCall
  | functionInfo (function : FunctionId)
  | points (function : FunctionInfo)
  | methodBody (moduleId : ModuleId) (method : Token)
  | probe (moduleId : ModuleId) (style : ProbeStyle)
  | allocate (moduleId : ModuleId) (size : Nat)
  | setMethodBody (moduleId : ModuleId) (method : Token) (body : List UInt8)
deriving DecidableEq, Repr

/-- What a successful answer to a call holds. -/
abbrev HostCall.Answer : HostCall → Type
  | functionInfo _ => FunctionInfo
  | points _ => Option Points
  | methodBody _ _ => List UInt8
  | probe _ _ => Probe
  | allocate _ _ => List UInt8
  | setMethodBody _ _ _ => Unit

/-- A way of answering calls, which may depend on a state and change it. -/
structure Host (σ : Type) where
  answer : (call : HostCall) → σ → Except Error call.Answer × σ

/-- A call and the answer to it. -/
structure Exchange where
  call : HostCall
  answer : Except Error call.Answer

/-- What has happened in a session so far. -/
structure Journal (σ : Type) where
  /-- The state of the host. -/
  host : σ
  /-- The calls made, with their answers, in order. -/
  exchanges : List Exchange
  /-- The events noted, in order. -/
  events : List Event

/-- A program that calls a host, notes events and may stop with a failure. -/
abbrev SessionM (σ : Type) := ExceptT Error (StateM (Journal σ))

/-- How the handling of a compilation ends when nothing fails. -/
inductive Outcome
  /-- The method was handed back with its probes in a body of the given size. -/
  | instrumented (method : Token) (placement : Placement) (size : Nat)
  /-- There are no points for the method. -/
  | notTracked
  /-- The method carries its probes already. -/
  | alreadyInstrumented
deriving DecidableEq, Repr

namespace Session

variable {σ : Type}

/-- Makes a call; a refusal stops the program. -/
def ask (host : Host σ) (call : HostCall) : SessionM σ call.Answer :=
  ExceptT.mk fun journal =>
    let (answer, state) := host.answer call journal.host
    (answer,
      { journal with host := state, exchanges := journal.exchanges ++ [{ call, answer }] })

/-- Notes events. -/
def note (events : List Event) : SessionM σ Unit :=
  modify fun journal => { journal with events := journal.events ++ events }

/-- The outcome of a computation that calls no host. -/
def ofExcept {α : Type} (outcome : Except Error α) : SessionM σ α :=
  ExceptT.mk fun journal => (outcome, journal)

/-- Carries out a change to a method, noting its events even if it fails. -/
def perform {α : Type} (edited : Edited α) : SessionM σ (Method × α) := do
  note edited.events
  let value ← ofExcept edited.outcome
  return (edited.method, value)

/-- Places the probes in a method and hands it back to the runtime. -/
def instrumentBody (host : Host σ) (configuration : Configuration) (info : FunctionInfo)
    (points : Points) (probe : Probe) (body : List UInt8) (method : Method) :
    SessionM σ Outcome := do
  note [.listedBefore info.token method.listing]
  let (method, placement) ← perform (method.instrument points probe configuration)
  note [.listedAfter info.token method.listing]
  let size := method.encodedSize
  let buffer ← ask host (.allocate info.moduleId size)
  if buffer.length = size then
    let written ← ofExcept (method.write buffer)
    ask host (.setMethodBody info.moduleId info.token written)
    note [.methodInstrumented info.token placement.total body.length size]
    return .instrumented info.token placement size
  else
    throw (.host ("allocator returned " ++ toString buffer.length ++ " bytes for a "
      ++ toString size ++ " byte body"))

/-- Handles a method that has points. -/
def handleTracked (host : Host σ) (configuration : Configuration) (info : FunctionInfo)
    (points : Points) : SessionM σ Outcome := do
  let body ← ask host (.methodBody info.moduleId info.token)
  let (method, event) ← ofExcept (Method.decodeNoting body)
  note [event]
  let probe ← ask host (.probe info.moduleId configuration.probeStyle)
  if configuration.skipInstrumented && method.isAlreadyInstrumented points probe then
    note [.alreadyInstrumented info.token]
    return .alreadyInstrumented
  else
    instrumentBody host configuration info points probe body method

/-- Handles the compilation of a function up to the first failure. -/
def attempt (host : Host σ) (configuration : Configuration) (function : FunctionId) :
    SessionM σ Outcome := do
  let info ← ask host (.functionInfo function)
  let points? ← ask host (.points info)
  match points? with
  | some points =>
    if points.isEmpty then return .notTracked
    else handleTracked host configuration info points
  | none => return .notTracked

/-- Handles the compilation of a function; a failure is noted and confined to it. -/
def compile (host : Host σ) (configuration : Configuration) (function : FunctionId) :
    SessionM σ Outcome :=
  tryCatch (attempt host configuration function) fun cause => do
    note [.leftUninstrumented function cause]
    throw cause

/-- Runs a program against a host in the given state. -/
def run {α : Type} (state : σ) (program : SessionM σ α) : Except Error α × Journal σ :=
  StateT.run (ExceptT.run program) { host := state, exchanges := [], events := [] }

end Session

end CilCoverage
