import CilCoverage.Instruction.Listing
import CilCoverage.Method.Basic
import CilCoverage.Text.Table

/-!
# Listing of methods

The text of a method: a line for the header, one per instruction with the offset it had in the body
as read, and one per exception region.
-/

set_option autoImplicit false

namespace CilCoverage

open Text

/-- The line of an instruction in the listing of its method. -/
def Instruction.listingLine (instruction : Instruction) : String :=
  let note :=
    match instruction.origin with
    | some offset => "was " ++ offsetLabel offset
    | none => "injected"
  "  " ++ padRight 48 instruction.text ++ " // " ++ note

namespace Method

/-- The line of the header in the listing. -/
def headerLine (method : Method) : String :=
  ".maxstack " ++ toString method.maxStack.toNat ++ " // code size " ++ toString method.codeSize
    ++ " bytes, locals " ++ method.header.locals.text
    ++ (if method.header.initLocals then ", init" else "")

/-- The line of an exception region in the listing. -/
def regionLine (method : Method) (region : Region) : String :=
  let label (handle : Handle) := offsetLabel (method.offsetOf handle)
  let handler :=
    match region.handler with
    | .catching type => "catch " ++ type.text
    | .filtering start => "filter " ++ label start
    | .finalizing => "finally"
    | .faulting => "fault"
  "  .try " ++ label region.tryStart ++ " to " ++ label region.tryEnd ++ " " ++ handler
    ++ " handler " ++ label region.handlerStart ++ " to " ++ label region.handlerEnd

/-- The listing of the current layout; every line ends with a line feed. -/
def listing (method : Method) : String :=
  let lines := method.headerLine :: method.instructions.map Instruction.listingLine
    ++ method.regions.map method.regionLine
  String.join (lines.map (· ++ "\n"))

end Method

end CilCoverage
