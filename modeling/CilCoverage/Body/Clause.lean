import CilCoverage.Bytes.Reader
import CilCoverage.Bytes.Writer
import CilCoverage.Token

/-!
# Exception clauses

A clause protects a range of code with a handler. It is stored in a small layout of 12 bytes or a
fat layout of 24 bytes; both read into the same `Clause`, and only the fat layout is written. The
flags name one of four kinds; other flags are kept but have no kind.
-/

set_option autoImplicit false

namespace CilCoverage

/-- What a handler is for: exceptions of one type, exceptions that a filter accepts, every exit
from the protected range, or every exit by an exception. -/
inductive Clause.Kind
  | catching | filtering | finalizing | faulting
deriving DecidableEq, Repr

/-- An exception clause as stored: ranges of code as offsets and lengths. -/
structure Clause where
  flags : UInt16
  tryOffset : UInt32
  tryLength : UInt32
  handlerOffset : UInt32
  handlerLength : UInt32
  /-- The type that is caught or the offset of the filter, by kind. -/
  classOrFilter : UInt32
deriving DecidableEq, Repr

namespace Clause

/-- The kind that the flags name. -/
def Kind.ofFlags? (flags : UInt16) : Option Kind :=
  match flags.toNat with
  | 0 => some .catching
  | 1 => some .filtering
  | 2 => some .finalizing
  | 4 => some .faulting
  | _ => none

/-- The flags of a kind. -/
def Kind.flags : Kind → UInt16
  | .catching => 0
  | .filtering => 1
  | .finalizing => 2
  | .faulting => 4

/-- The flags of a kind name it. -/
theorem Kind.ofFlags?_flags (kind : Kind) : Kind.ofFlags? kind.flags = some kind := by
  cases kind <;> rfl

/-- The name of a kind in listings. -/
def Kind.name : Kind → String
  | .catching => "catch"
  | .filtering => "filter"
  | .finalizing => "finally"
  | .faulting => "fault"

/-- The kind of the clause, if its flags name one. -/
def kind? (clause : Clause) : Option Kind := Kind.ofFlags? clause.flags

/-- The offset behind the protected range. -/
def tryEnd (clause : Clause) : Nat := clause.tryOffset.toNat + clause.tryLength.toNat

/-- The offset behind the handler. -/
def handlerEnd (clause : Clause) : Nat := clause.handlerOffset.toNat + clause.handlerLength.toNat

/-- The type that a catching clause is for. -/
def classToken? (clause : Clause) : Option Token :=
  if clause.kind? = some .catching then some ⟨clause.classOrFilter⟩ else none

/-- The offset of the filter of a filtering clause. -/
def filterOffset? (clause : Clause) : Option UInt32 :=
  if clause.kind? = some .filtering then some clause.classOrFilter else none

/-- Size of a clause in the small layout. -/
def smallSize : Nat := 12

/-- Size of a clause in the fat layout. -/
def fatSize : Nat := 24

/-- Reads a clause in the small layout: flags and offsets of two bytes, lengths of one. -/
def readSmall : Parse Clause := do
  let flags ← Reader.readWord16
  let tryOffset ← Reader.readWord16
  let tryLength ← Reader.readByte
  let handlerOffset ← Reader.readWord16
  let handlerLength ← Reader.readByte
  let classOrFilter ← Reader.readWord32
  return { flags, tryOffset := tryOffset.toUInt32, tryLength := tryLength.toUInt32,
           handlerOffset := handlerOffset.toUInt32, handlerLength := handlerLength.toUInt32,
           classOrFilter }

/-- Reads a clause in the fat layout: six fields of four bytes, of which the flags must fit two. -/
def readFat : Parse Clause := do
  let flags ← Reader.readWord32
  if UInt16.size ≤ flags.toNat then
    throw (.malformed (.clauseFlagsRange flags.toNat))
  else
    let tryOffset ← Reader.readWord32
    let tryLength ← Reader.readWord32
    let handlerOffset ← Reader.readWord32
    let handlerLength ← Reader.readWord32
    let classOrFilter ← Reader.readWord32
    return { flags := flags.toUInt16, tryOffset, tryLength, handlerOffset, handlerLength,
             classOrFilter }

/-- Writes the clause in the fat layout. -/
def write (clause : Clause) : Emit Unit := do
  Writer.write .u32 clause.flags.toNat
  Writer.write .u32 clause.tryOffset.toNat
  Writer.write .u32 clause.tryLength.toNat
  Writer.write .u32 clause.handlerOffset.toNat
  Writer.write .u32 clause.handlerLength.toNat
  Writer.write .u32 clause.classOrFilter.toNat

end Clause

end CilCoverage
