import CilCoverage.Instruction.Basic
import CilCoverage.Token

/-!
# Probes

A probe is a short sequence of instructions that pushes an id and hands it to a collector: a
managed method that is called, or a native function that is called through its address.
-/

set_option autoImplicit false

namespace CilCoverage

/-- Width of an address of the target process. -/
inductive PointerWidth
  | bits32 | bits64
deriving DecidableEq, Repr

/-- The two ways in which a probe reaches its collector. -/
inductive ProbeStyle
  | managed
  | unmanaged (width : PointerWidth)
deriving DecidableEq, Repr

/-- All styles. -/
def ProbeStyle.all : List ProbeStyle := [.managed, .unmanaged .bits32, .unmanaged .bits64]

/-- The name of a style. -/
def ProbeStyle.name : ProbeStyle → String
  | .managed => "managed"
  | .unmanaged .bits32 => "unmanaged32"
  | .unmanaged .bits64 => "unmanaged64"

/-- The style with the given name. -/
def ProbeStyle.ofName? (name : String) : Option ProbeStyle :=
  all.find? fun style => style.name == name

/-- A probe for the methods of one module. -/
inductive Probe
  /-- Calls a method that takes the id. -/
  | managed (method : Token)
  /-- Calls the function at an address under a signature that takes the id. -/
  | unmanaged (function : UInt64) (signature : Token) (width : PointerWidth)
deriving DecidableEq, Repr

namespace Probe

/-- The instruction that pushes a 32-bit number; large ones keep their bit pattern. -/
def pushWord (value : Nat) : Template :=
  { opcode := .ldcI4, operand := Int.bmod value UInt32.size }

/-- The instruction that pushes an address. -/
def pushAddress (address : UInt64) : PointerWidth → Template
  | .bits32 => pushWord address.toNat
  | .bits64 => { opcode := .ldcI8, operand := Int.bmod address.toNat UInt64.size }

/-- The instructions that report `id`. -/
def sequence (probe : Probe) (id : UInt32) : List Template :=
  match probe with
  | managed method =>
    [pushWord id.toNat, { opcode := .call, operand := method.value.toNat }]
  | unmanaged function signature width =>
    [pushWord id.toNat, pushAddress function width,
      { opcode := .calli, operand := signature.value.toNat }]

/-- Number of stack slots that the probe needs on top of those of the method. -/
def stackDepth : Probe → UInt16
  | managed _ => 1
  | unmanaged _ _ _ => 2

end Probe

end CilCoverage
