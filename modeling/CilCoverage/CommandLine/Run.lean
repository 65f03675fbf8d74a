import CilCoverage.CommandLine.Arguments
import CilCoverage.CommandLine.Failure
import CilCoverage.CommandLine.Report
import CilCoverage.Coverage.Placement
import CilCoverage.Text.ControlSequence

/-!
# Running the command line

`run` carries out an invocation over any way of reading and writing files and answers with the exit
code and the texts for the two output streams. Log messages go to the error stream unless the
output is JSON; those of level debug only if asked for.
-/

set_option autoImplicit false

namespace CilCoverage.CommandLine

/-- A way of reading and writing whole files. -/
structure FileAccess (m : Type → Type) where
  read : String → m (Except FileError (List UInt8))
  write : String → List UInt8 → m (Except FileError Unit)

/-- What a run of the program shows. -/
structure Shown where
  exitCode : Nat
  stdout : String
  stderr : String
deriving DecidableEq, Repr

/-- A log message: of the library, or about the files of a command. -/
inductive Notice
  | library (event : Event)
  | alreadyProbed (path : String)
  | written (size : Nat) (path : String)
deriving DecidableEq, Repr

namespace Notice

/-- How severe the message is. -/
def level : Notice → Level
  | library event => event.level
  | alreadyProbed _ => .warn
  | written _ _ => .info

/-- The wording of the message. -/
def message : Notice → String
  | library event => event.message
  | alreadyProbed path => path ++ " already carries its probes, writing it unchanged"
  | written size path => "Wrote " ++ toString size ++ " bytes to " ++ path

/-- What the message adds to the log. The lines of a message behind its first one are indented, and
terminal control is left out. -/
def line (notice : Notice) : String :=
  let lines := notice.message.splitOn "\n"
  Text.visible
    ("[" ++ Text.padRight 5 notice.level.name ++ "] "
      ++ String.intercalate ("\n" ++ Text.blanks 4) lines ++ "\n")

end Notice

/-- The log of an invocation. -/
def logText (invocation : Invocation) (notices : List Notice) : String :=
  let least : Level := if invocation.verbose then .debug else .info
  if invocation.json then ""
  else
    String.join ((notices.filter fun notice => notice.level.rank ≤ least.rank).map Notice.line)

/-- A command in progress: it may stop with a failure, and keeps the messages noted before. -/
abbrev CommandM (m : Type → Type) := ExceptT Failure (StateT (List Notice) m)

section

variable {m : Type → Type} [Monad m]

/-- Notes log messages. -/
def notice (notices : List Notice) : CommandM m Unit :=
  modify (· ++ notices)

/-- The outcome of a computation, its error told as a failure. -/
def orFail {α ε : Type} (describe : ε → Failure) (outcome : Except ε α) : CommandM m α :=
  match outcome with
  | .ok value => pure value
  | .error cause => throw (describe cause)

/-- Reads a file. -/
def readFile (files : FileAccess m) (describe : FileError → Failure) (path : String) :
    CommandM m (List UInt8) := do
  let outcome ← liftM (files.read path)
  orFail describe outcome

/-- Reads a file that holds text. -/
def readText (files : FileAccess m) (describe : FileError → Failure) (path : String) :
    CommandM m String := do
  let bytes ← readFile files describe path
  match String.fromUTF8? bytes.toByteArray with
  | some text => return text
  | none => throw (describe .notText)

/-- Reads a method body and notes the event that goes with it. -/
def readMethod (files : FileAccess m) (path : String) : CommandM m (List UInt8 × Method) := do
  let data ← readFile files (.readBody path) path
  let (method, event) ← orFail (.decodeBody path) (Method.decodeNoting data)
  notice [.library event]
  return (data, method)

/-- Describes a method body. -/
def dump (files : FileAccess m) (json : Bool) (path : String) : CommandM m String := do
  let (data, method) ← readMethod files path
  let description := Dump.ofMethod path data.length method
  return if json then description.json else description.plain

end

/-- A 64-bit number in the notation of the points listing. -/
def readNumber (text : String) : Except Failure UInt64 :=
  match Text.readNumeral UInt64.size text.toList with
  | .ok value => .ok (UInt64.ofNat value)
  | .error cause => .error (.invalidNumber text cause)

/-- A metadata token. -/
def readToken (text : String) : Except Failure Token := do
  let value ← readNumber text
  if value.toNat < UInt32.size then return ⟨value.toUInt32⟩
  else throw (.tokenTooLarge text)

/-- The probe that the options describe, with its style. -/
def probeOf (options : InstrumentOptions) : Except Failure (Probe × ProbeStyle) :=
  match options.token?, options.function?, options.signature? with
  | some token, none, none => do
    let method ← readToken token
    return (.managed method, .managed)
  | none, some function, some signature => do
    let width := if options.pointer32 then PointerWidth.bits32 else .bits64
    let address ← readNumber function
    let signature ← readToken signature
    return (.unmanaged address signature width, .unmanaged width)
  | _, _, _ => .error .probeRequired

/-- The configuration that the options ask for. -/
def configurationOf (options : InstrumentOptions) (style : ProbeStyle) : Configuration :=
  { statementProbes := options.statements
    branchProbes := options.branches
    skipInstrumented := !options.force
    extraMaxStack := options.extraMaxStack
    probeStyle := style }

section

variable {m : Type → Type} [Monad m]

/-- Places the probes in a method and encodes it. -/
def placeAndEncode (path : String) (points : Points) (probe : Probe) (configuration : Configuration)
    (method : Method) : CommandM m (Method × Placement × List UInt8) := do
  let edited := method.instrument points probe configuration
  notice (edited.events.map .library)
  let placement ← orFail (.instrumentBody path) edited.outcome
  let body ← orFail .encodeBody edited.method.toBytes
  return (edited.method, placement, body)

/-- Instruments a method body and writes the result; a body that carries its probes already is
written as it is. -/
def instrument (files : FileAccess m) (json : Bool) (options : InstrumentOptions) :
    CommandM m String := do
  let (probe, style) ← orFail id (probeOf options)
  let text ← readText files (.readPoints options.points) options.points
  let points ← orFail (.parsePoints options.points) (Points.parse text)
  let (data, method) ← readMethod files options.path
  let configuration := configurationOf options style
  let already := configuration.skipInstrumented && method.isAlreadyInstrumented points probe
  let (method, placement, body) ←
    if already then do
      notice [.alreadyProbed options.path]
      pure (method, { statements := 0, branches := 0 }, data)
    else
      placeAndEncode options.path points probe configuration method
  let outcome ← liftM (files.write options.output body)
  orFail (.writeBody options.output) outcome
  notice [.written body.length options.output]
  let summary : Summary :=
    { input := fileName options.path
      output := fileName options.output
      alreadyInstrumented := already
      statements := placement.statements
      branches := placement.branches
      inputSize := data.length
      outputSize := body.length
      maxStack := method.maxStack.toNat }
  return if json then summary.json else summary.plain

/-- Carries out an invocation. -/
def Invocation.run (files : FileAccess m) (invocation : Invocation) : m Shown := do
  let program : CommandM m String :=
    match invocation.command with
    | .dump path => dump files invocation.json path
    | .instrument options => instrument files invocation.json options
  let (outcome, notices) ← StateT.run (ExceptT.run program) []
  let log := logText invocation notices
  return match outcome with
    | .ok output => { exitCode := 0, stdout := output, stderr := log }
    | .error failure => { exitCode := 1, stdout := "", stderr := log ++ failure.report }

/-- Runs the program on its arguments; `none` if they are not of its form. -/
def run? (files : FileAccess m) (arguments : List String) : m (Option Shown) :=
  match Invocation.ofArguments? arguments with
  | some invocation => some <$> invocation.run files
  | none => pure none

end

end CilCoverage.CommandLine
