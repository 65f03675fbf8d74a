import CilCoverage.Text.Hex

/-!
# Failures

`Error` lists the causes for which reading, changing or instrumenting a method body stops;
`Malformed` those that lie in the shape of the input. `Error.message` words a cause on its own, and
`Error.display` words it for log lines and reports, where a malformed input is named as such.
-/

set_option autoImplicit false

namespace CilCoverage

/-- What is wrong with the shape of an input. -/
inductive Malformed
  /-- A fat header that claims fewer bytes than it has fields. -/
  | headerSize (claimed : Nat)
  /-- The low two bits of the first byte name neither header shape. -/
  | headerFormat (format : Nat)
  /-- A data section smaller than its own header. -/
  | sectionSize (position size : Nat)
  /-- Flags of a fat clause that do not fit 16 bits. -/
  | clauseFlagsRange (flags : Nat)
  /-- Clause flags that name none of the four kinds. -/
  | clauseKind (flags : Nat)
  /-- More exception regions than the size of a section can count. -/
  | regionCount
  /-- A buffer whose size differs from that of the encoded body. -/
  | bufferSize (given needed : Nat)
  /-- A template that branches outside its own sequence. -/
  | templateTarget (position length : Nat)
  /-- A line of a points listing that has neither form. -/
  | pointForm (line : Nat)
  /-- A field of a points listing that is no number. -/
  | pointNumber (line : Nat) (field : String)
  /-- A cause that another party reports in its own words. -/
  | reported (text : String)
deriving DecidableEq, Repr

/-- Why an operation stopped. -/
inductive Error
  | malformed (cause : Malformed)
  | outOfBounds
  | empty
  | unknownOpcode (code : UInt16)
  | instructionNotFound (offset : Int)
  | host (text : String)
  | pointsUnavailable (text : String)
  | lockFailed
deriving DecidableEq, Repr

open Text

/-- The wording of a malformed input. -/
def Malformed.message : Malformed → String
  | .headerSize claimed => "Fat method header claims " ++ toString claimed ++ " bytes"
  | .headerFormat format => "Invalid method header format - " ++ toString format
  | .sectionSize position size =>
    "Data section at " ++ toString position ++ " is " ++ toString size ++ " bytes"
  | .clauseFlagsRange flags => "Exception clause flags 0x" ++ hexUpper 8 flags ++ " out of range"
  | .clauseKind flags => "Invalid exception clause flags - 0x" ++ hexUpper 4 flags
  | .regionCount => "Too many exception regions"
  | .bufferSize given needed =>
    "Buffer of " ++ toString given ++ " bytes for a method body of " ++ toString needed ++ " bytes"
  | .templateTarget position length =>
    "Template branch to position " ++ toString position ++ " of a " ++ toString length
      ++ " instruction sequence"
  | .pointForm line =>
    "Line " ++ toString line
      ++ ": expected `seq <offset> <id>` or `branch <offset> <path> <id>`"
  | .pointNumber line field => "Line " ++ toString line ++ ": invalid number `" ++ field ++ "`"
  | .reported text => text

namespace Error

/-- The wording of a cause on its own. -/
def message : Error → String
  | malformed cause => cause.message
  | outOfBounds => "Out of Bound access would have occurred"
  | empty => "Provided input was empty"
  | unknownOpcode code => "Unknown opcode 0x" ++ hexUpper 4 code.toNat
  | instructionNotFound offset =>
    "No instruction found at offset 0x" ++ hexUpper 4 (word64 offset)
  | host text => "Host call failed - " ++ text
  | pointsUnavailable text => "Instrumentation points unavailable - " ++ text
  | lockFailed => "Failed to lock target"

/-- The wording used in log lines and reports. -/
def display : Error → String
  | malformed cause => "Malformed: " ++ cause.message
  | other => other.message

/-- Whether the cause lies with the host or the source of points and not with the body. -/
def isHostFailure : Error → Bool
  | host _ | pointsUnavailable _ | lockFailed => true
  | _ => false

end Error

end CilCoverage
