import CilCoverage.Text.Hex

/-!
# Metadata tokens

A token names a row of a metadata table: the high byte is the table, the low three bytes the row.
-/

set_option autoImplicit false

namespace CilCoverage

/-- A reference to a row of a metadata table. -/
structure Token where
  /-- The 32 bits of the token. -/
  value : UInt32
deriving DecidableEq, Repr

namespace Token

/-- Number of values of the part of a token that names the row. -/
def rowCount : Nat := 0x1000000

/-- The table that the token points into. -/
def table (token : Token) : Nat := token.value.toNat / rowCount

/-- The row within the table, counted from 1. -/
def row (token : Token) : Nat := token.value.toNat % rowCount

/-- Whether all bits are zero, which stands for a missing reference. -/
def isNull (token : Token) : Bool := token.value == 0

/-- Eight hexadecimal digits behind `0x`. -/
def text (token : Token) : String := "0x" ++ Text.hex 8 token.value.toNat

/-- The token with its two parts spelled out. -/
def description (token : Token) : String :=
  "Token(" ++ token.text ++ ", table: 0x" ++ Text.hex 2 token.table ++ ", row: "
    ++ toString token.row ++ ")"

end Token

end CilCoverage
