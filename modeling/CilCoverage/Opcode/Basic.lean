/-!
# Operations of the intermediate language

`Opcode` lists the 219 assigned operations of the common intermediate language in the order of
their encodings, followed by `label`, a pseudo operation without encoding that marks the end of
the code. `OperandKind` says how the bytes behind an opcode are read, `Flow` where control goes
after it, and `Encoding` which bytes stand for it.
-/

set_option autoImplicit false

namespace CilCoverage

/-- How the bytes that follow an opcode are laid out. -/
inductive OperandKind
  | none | shortBranch | branch | shortInt | int | long | shortVar | var | single | double
  | token | switch
deriving DecidableEq, Repr

/-- Width of the operand in bytes; the jump table of a `switch` is not part of it. -/
def OperandKind.size : OperandKind → Nat
  | .none => 0
  | .shortBranch | .shortInt | .shortVar => 1
  | .var => 2
  | .branch | .int | .single | .token | .switch => 4
  | .long | .double => 8

/-- Where control goes after an operation. -/
inductive Flow
  | sequential | breakpoint | call | ret | unconditionalBranch | conditionalBranch | throw
  | modifier
deriving DecidableEq, Repr

/-- The bytes that stand for an operation: one byte, a byte behind the extension byte, or none
for the pseudo operation. -/
inductive Encoding
  | one (code : UInt8)
  | two (code : UInt8)
  | pseudo
deriving DecidableEq, Repr

/-- The byte that opens every two-byte opcode. -/
def extensionByte : UInt8 := 0xFE

/-- The bytes of an encoding. -/
def Encoding.bytes : Encoding → List UInt8
  | .one code => [code]
  | .two code => [extensionByte, code]
  | .pseudo => []

/-- Number of bytes of an encoding. -/
def Encoding.length : Encoding → Nat
  | .one _ => 1
  | .two _ => 2
  | .pseudo => 0

/-- An encoding is as long as its bytes. -/
theorem Encoding.length_bytes (encoding : Encoding) : encoding.bytes.length = encoding.length := by
  cases encoding <;> rfl

/-- The operations, in the order of their encodings. -/
inductive Opcode
  | nop | breakpoint | ldarg0 | ldarg1 | ldarg2 | ldarg3 | ldloc0 | ldloc1 | ldloc2 | ldloc3
  | stloc0 | stloc1 | stloc2 | stloc3 | ldargS | ldargaS | stargS | ldlocS | ldlocaS | stlocS
  | ldnull | ldcI4M1 | ldcI4_0 | ldcI4_1 | ldcI4_2 | ldcI4_3 | ldcI4_4 | ldcI4_5 | ldcI4_6
  | ldcI4_7 | ldcI4_8 | ldcI4S | ldcI4 | ldcI8 | ldcR4 | ldcR8 | dup | pop | jmp | call | calli
  | ret | brS | brfalseS | brtrueS | beqS | bgeS | bgtS | bleS | bltS | bneUnS | bgeUnS | bgtUnS
  | bleUnS | bltUnS | br | brfalse | brtrue | beq | bge | bgt | ble | blt | bneUn | bgeUn | bgtUn
  | bleUn | bltUn | switch | ldindI1 | ldindU1 | ldindI2 | ldindU2 | ldindI4 | ldindU4 | ldindI8
  | ldindI | ldindR4 | ldindR8 | ldindRef | stindRef | stindI1 | stindI2 | stindI4 | stindI8
  | stindR4 | stindR8 | add | sub | mul | div | divUn | rem | remUn | and | or | xor | shl | shr
  | shrUn | neg | not | convI1 | convI2 | convI4 | convI8 | convR4 | convR8 | convU4 | convU8
  | callvirt | cpobj | ldobj | ldstr | newobj | castclass | isinst | convRUn | unbox | throw
  | ldfld | ldflda | stfld | ldsfld | ldsflda | stsfld | stobj | convOvfI1Un | convOvfI2Un
  | convOvfI4Un | convOvfI8Un | convOvfU1Un | convOvfU2Un | convOvfU4Un | convOvfU8Un
  | convOvfIUn | convOvfUUn | box | newarr | ldlen | ldelema | ldelemI1 | ldelemU1 | ldelemI2
  | ldelemU2 | ldelemI4 | ldelemU4 | ldelemI8 | ldelemI | ldelemR4 | ldelemR8 | ldelemRef
  | stelemI | stelemI1 | stelemI2 | stelemI4 | stelemI8 | stelemR4 | stelemR8 | stelemRef
  | ldelem | stelem | unboxAny | convOvfI1 | convOvfU1 | convOvfI2 | convOvfU2 | convOvfI4
  | convOvfU4 | convOvfI8 | convOvfU8 | refanyval | ckfinite | mkrefany | ldtoken | convU2
  | convU1 | convI | convOvfI | convOvfU | addOvf | addOvfUn | mulOvf | mulOvfUn | subOvf
  | subOvfUn | endfinally | leave | leaveS | stindI | convU | arglist | ceq | cgt | cgtUn | clt
  | cltUn | ldftn | ldvirtftn | ldarg | ldarga | starg | ldloc | ldloca | stloc | localloc
  | endfilter | unaligned | volatile | tail | initobj | constrained | cpblk | initblk | no
  | rethrow | sizeof | refanytype | readonly | label
deriving DecidableEq

end CilCoverage
