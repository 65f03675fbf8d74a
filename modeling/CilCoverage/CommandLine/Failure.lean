import CilCoverage.Error
import CilCoverage.Text.Numeral

/-!
# Failures of the command line

A command stops with a `Failure`: what was being done, and, where something else is to blame, the
cause. `Failure.report` is the text that goes to the error stream.
-/

set_option autoImplicit false

namespace CilCoverage.CommandLine

/-- Why a file could not be used. -/
inductive FileError
  | notFound
  | permissionDenied
  | notDirectory
  | isDirectory
  | nameTooLong
  | notText
  | other (description : String)
deriving DecidableEq, Repr

/-- The wording of a file error. -/
def FileError.message : FileError → String
  | .notFound => "No such file or directory (os error 2)"
  | .permissionDenied => "Permission denied (os error 13)"
  | .notDirectory => "Not a directory (os error 20)"
  | .isDirectory => "Is a directory (os error 21)"
  | .nameTooLong => "File name too long (os error 36)"
  | .notText => "stream did not contain valid UTF-8"
  | .other description => description

/-- Why a command stopped. -/
inductive Failure
  | probeRequired
  | invalidNumber (text : String) (cause : Text.NumeralError)
  | tokenTooLarge (text : String)
  | readPoints (path : String) (cause : FileError)
  | parsePoints (path : String) (cause : Error)
  | readBody (path : String) (cause : FileError)
  | decodeBody (path : String) (cause : Error)
  | instrumentBody (path : String) (cause : Error)
  | encodeBody (cause : Error)
  | writeBody (path : String) (cause : FileError)
deriving DecidableEq, Repr

namespace Failure

/-- What was being done. -/
def context : Failure → String
  | probeRequired => "either --token or --function with --signature is required"
  | invalidNumber text _ => "invalid number '" ++ text ++ "'"
  | tokenTooLarge text => "token '" ++ text ++ "' does not fit in 32 bits"
  | readPoints path _ => "failed to read points: " ++ path
  | parsePoints path _ => "failed to parse points: " ++ path
  | readBody path _ => "failed to read body: " ++ path
  | decodeBody path _ => "failed to decode method body: " ++ path
  | instrumentBody path _ => "failed to instrument " ++ path
  | encodeBody cause => cause.display
  | writeBody path _ => "failed to write body: " ++ path

/-- What is to blame, where that is something else. -/
def cause? : Failure → Option String
  | probeRequired | tokenTooLarge _ | encodeBody _ => none
  | invalidNumber _ cause => some cause.message
  | readPoints _ cause | readBody _ cause | writeBody _ cause => some cause.message
  | parsePoints _ cause | decodeBody _ cause | instrumentBody _ cause => some cause.display

/-- The text that goes to the error stream. -/
def report (failure : Failure) : String :=
  let cause :=
    match failure.cause? with
    | some text => "\nCaused by:\n    " ++ text ++ "\n"
    | none => ""
  "Error: " ++ failure.context ++ "\n" ++ cause

end Failure

end CilCoverage.CommandLine
