import CilCoverage.Instruction.Codec
import CilCoverage.Method.Layout

/-!
# From bodies to methods

`Method.decode` reads a body, binds the boundaries of its exception clauses to instructions, and
resolves the displacements of its branches to handles. Short branches are widened, and the method
is laid out again, so that its code is usually longer than that of the body.

A range that ends with the code has no instruction behind it; its end is bound to a label of size
zero, which is appended when the first such range is met.
-/

set_option autoImplicit false

namespace CilCoverage

/-- A computation on the slots of a method under construction. -/
abbrev Binding := StateT (Array Instruction) (Except Error)

/-- The handle of the instruction at a boundary of a range. Only the end of a range may lie at the
end of the code, where a label is appended unless there is one. -/
def bindBoundary (codeSize offset : Nat) (isEnd : Bool) : Binding Handle := do
  let slots ← get
  match slots.findIdx? fun instruction => instruction.offset == (offset : Int) with
  | some handle => return handle
  | none =>
    if isEnd && offset == codeSize then
      set (slots.push (Instruction.label offset))
      return slots.size
    else
      throw (.instructionNotFound offset)

/-- Binds an exception clause to the instructions at its boundaries. -/
def bindRegion (codeSize : Nat) (clause : Clause) : Binding Region := do
  match clause.kind? with
  | none => throw (.malformed (.clauseKind clause.flags.toNat))
  | some kind =>
    let tryStart ← bindBoundary codeSize clause.tryOffset.toNat false
    let tryEnd ← bindBoundary codeSize clause.tryEnd true
    let handlerStart ← bindBoundary codeSize clause.handlerOffset.toNat false
    let handlerEnd ← bindBoundary codeSize clause.handlerEnd true
    let handler ← match kind with
      | .catching => pure (Region.Handler.catching ⟨clause.classOrFilter⟩)
      | .filtering =>
        Region.Handler.filtering <$> bindBoundary codeSize clause.classOrFilter.toNat false
      | .finalizing => pure Region.Handler.finalizing
      | .faulting => pure Region.Handler.faulting
    return { tryStart, tryEnd, handlerStart, handlerEnd, handler }

/-- The handle of the instruction that starts at a branch target; a label is none. -/
def resolveTarget (slots : Array Instruction) (offset : Int) : Except Error Handle :=
  match slots.findIdx? fun instruction =>
      instruction.offset == offset && instruction.opcode != .label with
  | some handle => .ok handle
  | none => .error (.instructionNotFound offset)

/-- Resolves the displacements of an instruction to handles. -/
def Instruction.resolved (slots : Array Instruction) (instruction : Instruction) :
    Except Error Instruction := do
  let targets ← instruction.displacements.mapM fun displacement =>
    resolveTarget slots (instruction.finish + displacement)
  return { instruction with targets }

namespace Method

/-- Builds the method of a header, its code and its exception clauses. -/
def ofParts (header : Header) (code : List UInt8) (clauses : List Clause) : Except Error Method := do
  let instructions ← Instruction.ofCode code
  let (regions, slots) ←
    (clauses.mapM (bindRegion header.codeSize.toNat)).run instructions.toArray
  let resolved ← slots.toList.mapM (Instruction.resolved slots)
  let method : Method :=
    { header
      slots := (resolved.map Instruction.widened).toArray
      order := List.range slots.size
      regions }
  return method.layOut

/-- Reads a method body. -/
def decode (data : List UInt8) : Except Error Method := do
  let body ← Body.read data
  let code ← body.code data
  ofParts body.header code body.clauses

end Method

end CilCoverage
