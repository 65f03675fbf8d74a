import CilCoverage.Error
import CilCoverage.Text.Fields
import CilCoverage.Text.Numeral

/-!
# Instrumentation points

A point asks for a probe at an offset of a method body: a statement point in front of the
instruction there, a branch point on one path of the branch there. Every point has an id, which its
probe reports.

`Points.parse` reads a listing with one point per line, `seq offset id` or
`branch offset path id`. A `#` starts a comment. The first line that is neither empty nor of one
of the two forms is refused; a field that is no number is named before the form is looked at.
-/

set_option autoImplicit false

namespace CilCoverage

/-- A probe that marks the start of a statement. -/
structure StatementPoint where
  offset : UInt32
  id : UInt32
deriving DecidableEq, Repr

/-- A probe on one path of a branch. Path 0 falls through, path `n` goes to the `n`-th target. -/
structure BranchPoint where
  offset : UInt32
  path : UInt32
  id : UInt32
deriving DecidableEq, Repr

/-- The points of one method. -/
structure Points where
  statements : List StatementPoint
  branches : List BranchPoint
deriving DecidableEq, Repr

namespace Points

/-- Whether there is no point. -/
def isEmpty (points : Points) : Bool := points.statements.isEmpty && points.branches.isEmpty

/-- Number of points. -/
def length (points : Points) : Nat := points.statements.length + points.branches.length

/-- A line of a listing. -/
inductive Line
  | blank
  | statement (point : StatementPoint)
  | branch (point : BranchPoint)
deriving DecidableEq, Repr

/-- Reads a number of a line, which is named in the failure. -/
def readNumber (line : Nat) (field : List Char) : Except Error UInt32 :=
  match Text.readNumeral UInt32.size field with
  | .ok value => .ok (UInt32.ofNat value)
  | .error _ => .error (.malformed (.pointNumber line (String.ofList field)))

/-- Reads the point that a keyword and its numbers stand for. -/
def readPoint (line : Nat) (keyword : List Char) (numbers : List UInt32) : Except Error Line :=
  match String.ofList keyword, numbers with
  | "seq", [offset, id] => .ok (.statement { offset, id })
  | "branch", [offset, path, id] => .ok (.branch { offset, path, id })
  | _, _ => .error (.malformed (.pointForm line))

/-- Reads a line of a listing; lines count from 1. -/
def readLine (line : Nat) (text : List Char) : Except Error Line :=
  match Text.fields (text.takeWhile (· != '#')) with
  | [] => .ok .blank
  | keyword :: rest => do
    let numbers ← rest.mapM (readNumber line)
    readPoint line keyword numbers

/-- The points of the lines of a listing, each kind in its order. -/
def ofLines (lines : List Line) : Points :=
  { statements := lines.filterMap fun
      | .statement point => some point
      | _ => none
    branches := lines.filterMap fun
      | .branch point => some point
      | _ => none }

/-- Reads a listing of points. -/
def parse (text : String) : Except Error Points := do
  let lines ← (Text.lines text.toList).zipIdx 1 |>.mapM fun (text, line) => readLine line text
  return ofLines lines

end Points

end CilCoverage
