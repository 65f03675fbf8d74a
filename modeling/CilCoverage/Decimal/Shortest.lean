/-!
# Shortest decimal text of a binary floating point number

`BinaryFormat.classify` takes a bit pattern apart. `Magnitude.shortest` then finds the decimal with
the fewest digits that still rounds to the same number, and among those the one nearest to it:
for one digit, two digits and so on it tries the two neighbours of the value on that decimal grid,
in exact arithmetic on natural numbers. `BinaryFormat.text` writes it in positional notation.
-/

set_option autoImplicit false

namespace CilCoverage.Decimal

/-- The widths of the two fields of a binary floating point format. -/
structure BinaryFormat where
  fractionBits : Nat
  exponentBits : Nat

/-- The format of 32 bits. -/
def binary32 : BinaryFormat := ⟨23, 8⟩

/-- The format of 64 bits. -/
def binary64 : BinaryFormat := ⟨52, 11⟩

/-- The number `mantissa * 2 ^ exponent`. -/
structure Magnitude where
  mantissa : Nat
  exponent : Int
  /-- Whether the number below is only half as far away as the number above. -/
  closeBelow : Bool

/-- What a bit pattern stands for. -/
inductive Datum
  | nan
  | infinite (negative : Bool)
  | finite (negative : Bool) (magnitude : Magnitude)

/-- Splits a bit pattern into sign, exponent and fraction, and reads them. -/
def BinaryFormat.classify (format : BinaryFormat) (bits : Nat) : Datum :=
  let fractions := Nat.pow 2 format.fractionBits
  let exponents := Nat.pow 2 format.exponentBits
  let fraction := bits % fractions
  let biased := bits / fractions % exponents
  let negative := bits / (fractions * exponents) % 2 == 1
  let bias : Int := exponents / 2 - 1
  if biased = exponents - 1 then
    if fraction = 0 then .infinite negative else .nan
  else if biased = 0 then
    .finite negative ⟨fraction, 1 - bias - format.fractionBits, false⟩
  else
    .finite negative
      ⟨fraction + fractions, biased - bias - format.fractionBits, fraction = 0⟩

/-- The number `digits * 10 ^ exponent`. -/
structure Scaled where
  digits : Nat
  exponent : Int

namespace Magnitude

/-- The exponent of the leading decimal digit of a positive number. -/
def leadingExponent (value : Magnitude) : Int :=
  let numerator := value.mantissa * Nat.pow 2 value.exponent.toNat
  let denominator := Nat.pow 2 (-value.exponent).toNat
  if denominator ≤ numerator then
    (Nat.toDigits 10 (numerator / denominator)).length - 1
  else
    -(Nat.toDigits 10 ((denominator + numerator - 1) / numerator - 1)).length

/-- A multiple of `10 ^ grid` and the number of quarter units in the last place that the bounds
below count in, brought to a common scale: `multiple * 10 ^ grid` compares with
`quarters * 2 ^ (exponent - 2)` as `multiple * decimalScale` with `quarters * binaryScale`. -/
def decimalScale (value : Magnitude) (grid : Int) : Nat :=
  Nat.pow 10 grid.toNat * Nat.pow 2 (2 - value.exponent).toNat

/-- The factor of the binary side in the comparison that `decimalScale` describes. -/
def binaryScale (value : Magnitude) (grid : Int) : Nat :=
  Nat.pow 2 (value.exponent - 2).toNat * Nat.pow 10 (-grid).toNat

/-- Whether `multiple * 10 ^ grid` rounds to the number: it lies between the midpoints to the two
neighbours, which count themselves when the mantissa is even. -/
def roundsBack (value : Magnitude) (grid : Int) (multiple : Nat) : Bool :=
  let candidate := multiple * value.decimalScale grid
  let low := (4 * value.mantissa - (if value.closeBelow then 1 else 2)) * value.binaryScale grid
  let high := (4 * value.mantissa + 2) * value.binaryScale grid
  if value.mantissa % 2 = 0 then low ≤ candidate && candidate ≤ high
  else low < candidate && candidate < high

/-- The nearest multiple of `10 ^ grid` that rounds to the number, the upper one in a tie. -/
def nearest? (value : Magnitude) (grid : Int) : Option Scaled :=
  let unit := value.decimalScale grid
  let exact := 4 * value.mantissa * value.binaryScale grid
  let below := exact / unit
  let above := below + 1
  match value.roundsBack grid below, value.roundsBack grid above with
  | true, true => if exact - below * unit < above * unit - exact then some ⟨below, grid⟩
      else some ⟨above, grid⟩
  | true, false => some ⟨below, grid⟩
  | false, true => some ⟨above, grid⟩
  | false, false => none

/-- The decimal with the fewest digits that rounds to the number, nearest to it among those.
Seventeen digits are enough for both formats. -/
def shortest (value : Magnitude) : Scaled :=
  if value.mantissa = 0 then ⟨0, 0⟩
  else
    let top := value.leadingExponent
    let found := (List.range 17).findSome? fun (extra : Nat) => value.nearest? (top - extra)
    found.getD
      ⟨4 * value.mantissa * value.binaryScale (top - 17) / value.decimalScale (top - 17), top - 17⟩

end Magnitude

/-- Positional notation without exponent: a point only before a fraction, whose trailing zeros
are left out. -/
def Scaled.text (value : Scaled) : String :=
  let digits := Nat.toDigits 10 value.digits
  if 0 ≤ value.exponent then
    if value.digits = 0 then "0"
    else String.ofList (digits ++ List.replicate value.exponent.toNat '0')
  else
    let places := (-value.exponent).toNat
    let filled := List.replicate (places + 1 - digits.length) '0' ++ digits
    let whole := filled.take (filled.length - places)
    let fraction := ((filled.drop (filled.length - places)).reverse.dropWhile (· == '0')).reverse
    if fraction.isEmpty then String.ofList whole
    else String.ofList (whole ++ '.' :: fraction)

/-- The text of a bit pattern: `NaN` has no sign, zero and infinity keep theirs. -/
def BinaryFormat.text (format : BinaryFormat) (bits : Nat) : String :=
  let signed (negative : Bool) (body : String) := if negative then "-" ++ body else body
  match format.classify bits with
  | .nan => "NaN"
  | .infinite negative => signed negative "inf"
  | .finite negative magnitude => signed negative magnitude.shortest.text

end CilCoverage.Decimal
