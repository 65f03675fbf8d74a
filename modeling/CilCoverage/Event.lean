import CilCoverage.Error
import CilCoverage.Instruction.Listing
import CilCoverage.Token

/-!
# Log messages

What the library has to say beside its results. Functions return the events they cause in order;
`Event.level` and `Event.message` say how they appear in a log.
-/

set_option autoImplicit false

namespace CilCoverage

/-- How severe a log message is. -/
inductive Level
  | warn | info | debug | trace
deriving DecidableEq, Repr

/-- The position of a level in the order from the most to the least severe. -/
def Level.rank : Level → Nat
  | .warn => 0
  | .info => 1
  | .debug => 2
  | .trace => 3

/-- The name of a level. -/
def Level.name : Level → String
  | .warn => "WARN"
  | .info => "INFO"
  | .debug => "DEBUG"
  | .trace => "TRACE"

/-- Something worth a line in a log. -/
inductive Event
  /-- A body was read; code sizes are those of the body and of the widened layout. -/
  | decoded (instructions regions codeBytes codeSize : Nat)
  /-- A sequence was placed behind the `rethrow` that opens a handler. -/
  | entryKept (offset : Int)
  /-- Probes were placed in a method. -/
  | probesPlaced (statements branches codeSize : Nat)
  /-- A point names a path that its branch does not have. -/
  | pathMissing (branch : Nat) (point : UInt32) (id : UInt32)
  /-- A path has no point. -/
  | pathUnprobed (branch path : Nat)
  /-- Probes were placed on paths of a branch. -/
  | branchProbed (branch placed paths : Nat)
  /-- A method was left alone because it carries its probes. -/
  | alreadyInstrumented (method : Token)
  /-- The listing of a method before its instrumentation. -/
  | listedBefore (method : Token) (listing : String)
  /-- The listing of a method after its instrumentation. -/
  | listedAfter (method : Token) (listing : String)
  /-- A method was handed back with its probes. -/
  | methodInstrumented (method : Token) (probes before after : Nat)
  /-- A function keeps its old body. -/
  | leftUninstrumented (function : UInt64) (cause : Error)
  /-- A batch of visits is about to be delivered. -/
  | visitsFlushed (count : Nat)
deriving DecidableEq, Repr

namespace Event

open Text

/-- How severe the event is. -/
def level : Event → Level
  | pathMissing .. | pathUnprobed .. | leftUninstrumented .. => .warn
  | decoded .. | probesPlaced .. | alreadyInstrumented .. | methodInstrumented .. => .debug
  | entryKept .. | branchProbed .. | listedBefore .. | listedAfter .. | visitsFlushed .. => .trace

/-- The wording of the event. -/
def message : Event → String
  | decoded instructions regions codeBytes codeSize =>
    "Decoded method body: " ++ toString instructions ++ " instructions, " ++ toString regions
      ++ " exception regions, " ++ toString codeBytes ++ " -> " ++ toString codeSize
      ++ " bytes of code"
  | entryKept offset =>
    "Probe after rethrow at " ++ offsetLabel offset ++ " keeps the handler entry"
  | probesPlaced statements branches codeSize =>
    "Placed " ++ toString statements ++ " statement and " ++ toString branches
      ++ " branch probes, code size " ++ toString codeSize ++ " bytes"
  | pathMissing branch path id =>
    "Branch at " ++ offsetLabel branch ++ " has no path " ++ toString path.toNat ++ " (id "
      ++ toString id.toNat ++ ")"
  | pathUnprobed branch path =>
    "Branch at " ++ offsetLabel branch ++ " has no probe for path " ++ toString path
  | branchProbed branch placed paths =>
    "Branch at " ++ offsetLabel branch ++ ": " ++ toString placed ++ " of " ++ toString paths
      ++ " paths probed"
  | alreadyInstrumented method => "Method " ++ method.text ++ " already instrumented"
  | listedBefore method listing =>
    "Method " ++ method.text ++ " before instrumentation:\n" ++ listing
  | listedAfter method listing => "Method " ++ method.text ++ " after instrumentation:\n" ++ listing
  | methodInstrumented method probes before after =>
    "Method " ++ method.text ++ " instrumented with " ++ toString probes ++ " probes, "
      ++ toString before ++ " -> " ++ toString after ++ " bytes"
  | leftUninstrumented function cause =>
    "Function 0x" ++ hex 1 function.toNat ++ " left uninstrumented ("
      ++ (if cause.isHostFailure then "host" else "body") ++ "): " ++ cause.display
  | visitsFlushed count => "Flushing " ++ toString count ++ " visits"

end Event

end CilCoverage
