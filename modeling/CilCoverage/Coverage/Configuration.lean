import CilCoverage.Coverage.Probe

/-!
# Configuration

Which probes are placed, which style they have, and how much stack is set aside for them.
-/

set_option autoImplicit false

namespace CilCoverage

/-- The choices that instrumentation leaves open. -/
structure Configuration where
  /-- Whether statement probes are placed. -/
  statementProbes : Bool := true
  /-- Whether branch probes are placed. -/
  branchProbes : Bool := true
  /-- Whether a method that carries the probe of its first statement point is left alone. -/
  skipInstrumented : Bool := true
  /-- Least number of stack slots set aside when a probe is placed. -/
  extraMaxStack : UInt16 := 2
  /-- The style of the probes. -/
  probeStyle : ProbeStyle := .managed
deriving DecidableEq, Repr

namespace Configuration

/-- Statement and branch probes, managed. -/
def standard : Configuration := {}

/-- Statement probes only. -/
def statementsOnly : Configuration := { branchProbes := false }

end Configuration

end CilCoverage
