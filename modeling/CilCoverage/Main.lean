import CilCoverage.CommandLine.Run

/-!
# The program

Reads its arguments, runs the command on the files of the system, and writes what it shows to the
output streams. Arguments that have no valid form end with exit code 2.
-/

set_option autoImplicit false

namespace CilCoverage.CommandLine

/-- The domain's name for a failure of the file system. -/
def fileErrorOf : IO.Error → FileError
  | .noFileOrDirectory .. => .notFound
  | .permissionDenied .. => .permissionDenied
  | .inappropriateType .. => .isDirectory
  | cause => .other (toString cause)

/-- The files of the system. -/
def systemFiles : FileAccess IO where
  read path := do
    try
      return .ok (← IO.FS.readBinFile path).toList
    catch cause => return .error (fileErrorOf cause)
  write path bytes := do
    try
      IO.FS.writeBinFile path bytes.toByteArray
      return .ok ()
    catch cause => return .error (fileErrorOf cause)

end CilCoverage.CommandLine

open CilCoverage.CommandLine in
/-- Runs the program. -/
def main (arguments : List String) : IO UInt32 := do
  match ← run? systemFiles arguments with
  | some shown =>
    IO.print shown.stdout
    IO.eprint shown.stderr
    return UInt32.ofNat shown.exitCode
  | none =>
    IO.eprintln "error: invalid arguments"
    return 2
