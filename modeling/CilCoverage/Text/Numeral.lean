/-!
# Unsigned numerals

A numeral is a non-empty row of digits with at most one `+` before it. Behind `0x` or `0X` the
digits are hexadecimal, otherwise decimal. The number must lie below a given bound; of two faults
the one further to the left is reported.
-/

set_option autoImplicit false

namespace CilCoverage.Text

/-- Why a text is no numeral. -/
inductive NumeralError
  | empty
  | invalidDigit
  | tooLarge
deriving DecidableEq, Repr

/-- The wording of a refused numeral. -/
def NumeralError.message : NumeralError → String
  | .empty => "cannot parse integer from empty string"
  | .invalidDigit => "invalid digit found in string"
  | .tooLarge => "number too large to fit in target type"

/-- The value of a digit in bases up to sixteen. -/
def digitValue? (base : Nat) (character : Char) : Option Nat :=
  let code := character.toNat
  let value :=
    if '0'.toNat ≤ code ∧ code ≤ '9'.toNat then code - '0'.toNat
    else if 'a'.toNat ≤ code ∧ code ≤ 'f'.toNat then code - 'a'.toNat + 10
    else if 'A'.toNat ≤ code ∧ code ≤ 'F'.toNat then code - 'A'.toNat + 10
    else base
  if value < base then some value else none

/-- Appends the given digits to a number that must stay below `bound`. -/
def readDigits (base bound : Nat) : (value : Nat) → List Char → Except NumeralError Nat
  | value, [] => .ok value
  | value, character :: rest =>
    match digitValue? base character with
    | none => .error .invalidDigit
    | some digit =>
      let extended := value * base + digit
      if extended < bound then readDigits base bound extended rest
      else .error .tooLarge

/-- Reads digits with an optional `+` before them. -/
def readSignedDigits (base bound : Nat) : List Char → Except NumeralError Nat
  | [] => .error .empty
  | ['+'] => .error .invalidDigit
  | '+' :: digits => readDigits base bound 0 digits
  | digits => readDigits base bound 0 digits

/-- Reads a decimal or hexadecimal numeral below `bound`. -/
def readNumeral (bound : Nat) : List Char → Except NumeralError Nat
  | '0' :: 'x' :: digits => readSignedDigits 16 bound digits
  | '0' :: 'X' :: digits => readSignedDigits 16 bound digits
  | digits => readSignedDigits 10 bound digits

end CilCoverage.Text
