import CilCoverage.Opcode.Basic

/-!
# The table of operations

`Opcode.spec` gives every operation its encoding, mnemonic, operand kind and flow; all other
functions on opcodes read this table. `Opcode.ofEncoding?` and `Opcode.ofMnemonic?` look an
operation up by the first entry of `Opcode.all` that carries the encoding or mnemonic, and
`Opcode.decode?` is the former for one or two bytes of code.
-/

set_option autoImplicit false

namespace CilCoverage

/-- One row of the table of operations. -/
structure Opcode.Spec where
  /-- The bytes that stand for the operation. -/
  encoding : Encoding
  /-- Its name in listings. -/
  mnemonic : String
  /-- How its operand is laid out. -/
  operand : OperandKind
  /-- Where control goes after it. -/
  flow : Flow

namespace Opcode

/-- The row of each operation. -/
def spec : Opcode → Spec
  | .nop => ⟨.one 0x00, "nop", .none, .sequential⟩
  | .breakpoint => ⟨.one 0x01, "break", .none, .breakpoint⟩
  | .ldarg0 => ⟨.one 0x02, "ldarg.0", .none, .sequential⟩
  | .ldarg1 => ⟨.one 0x03, "ldarg.1", .none, .sequential⟩
  | .ldarg2 => ⟨.one 0x04, "ldarg.2", .none, .sequential⟩
  | .ldarg3 => ⟨.one 0x05, "ldarg.3", .none, .sequential⟩
  | .ldloc0 => ⟨.one 0x06, "ldloc.0", .none, .sequential⟩
  | .ldloc1 => ⟨.one 0x07, "ldloc.1", .none, .sequential⟩
  | .ldloc2 => ⟨.one 0x08, "ldloc.2", .none, .sequential⟩
  | .ldloc3 => ⟨.one 0x09, "ldloc.3", .none, .sequential⟩
  | .stloc0 => ⟨.one 0x0A, "stloc.0", .none, .sequential⟩
  | .stloc1 => ⟨.one 0x0B, "stloc.1", .none, .sequential⟩
  | .stloc2 => ⟨.one 0x0C, "stloc.2", .none, .sequential⟩
  | .stloc3 => ⟨.one 0x0D, "stloc.3", .none, .sequential⟩
  | .ldargS => ⟨.one 0x0E, "ldarg.s", .shortVar, .sequential⟩
  | .ldargaS => ⟨.one 0x0F, "ldarga.s", .shortVar, .sequential⟩
  | .stargS => ⟨.one 0x10, "starg.s", .shortVar, .sequential⟩
  | .ldlocS => ⟨.one 0x11, "ldloc.s", .shortVar, .sequential⟩
  | .ldlocaS => ⟨.one 0x12, "ldloca.s", .shortVar, .sequential⟩
  | .stlocS => ⟨.one 0x13, "stloc.s", .shortVar, .sequential⟩
  | .ldnull => ⟨.one 0x14, "ldnull", .none, .sequential⟩
  | .ldcI4M1 => ⟨.one 0x15, "ldc.i4.m1", .none, .sequential⟩
  | .ldcI4_0 => ⟨.one 0x16, "ldc.i4.0", .none, .sequential⟩
  | .ldcI4_1 => ⟨.one 0x17, "ldc.i4.1", .none, .sequential⟩
  | .ldcI4_2 => ⟨.one 0x18, "ldc.i4.2", .none, .sequential⟩
  | .ldcI4_3 => ⟨.one 0x19, "ldc.i4.3", .none, .sequential⟩
  | .ldcI4_4 => ⟨.one 0x1A, "ldc.i4.4", .none, .sequential⟩
  | .ldcI4_5 => ⟨.one 0x1B, "ldc.i4.5", .none, .sequential⟩
  | .ldcI4_6 => ⟨.one 0x1C, "ldc.i4.6", .none, .sequential⟩
  | .ldcI4_7 => ⟨.one 0x1D, "ldc.i4.7", .none, .sequential⟩
  | .ldcI4_8 => ⟨.one 0x1E, "ldc.i4.8", .none, .sequential⟩
  | .ldcI4S => ⟨.one 0x1F, "ldc.i4.s", .shortInt, .sequential⟩
  | .ldcI4 => ⟨.one 0x20, "ldc.i4", .int, .sequential⟩
  | .ldcI8 => ⟨.one 0x21, "ldc.i8", .long, .sequential⟩
  | .ldcR4 => ⟨.one 0x22, "ldc.r4", .single, .sequential⟩
  | .ldcR8 => ⟨.one 0x23, "ldc.r8", .double, .sequential⟩
  | .dup => ⟨.one 0x25, "dup", .none, .sequential⟩
  | .pop => ⟨.one 0x26, "pop", .none, .sequential⟩
  | .jmp => ⟨.one 0x27, "jmp", .token, .call⟩
  | .call => ⟨.one 0x28, "call", .token, .call⟩
  | .calli => ⟨.one 0x29, "calli", .token, .call⟩
  | .ret => ⟨.one 0x2A, "ret", .none, .ret⟩
  | .brS => ⟨.one 0x2B, "br.s", .shortBranch, .unconditionalBranch⟩
  | .brfalseS => ⟨.one 0x2C, "brfalse.s", .shortBranch, .conditionalBranch⟩
  | .brtrueS => ⟨.one 0x2D, "brtrue.s", .shortBranch, .conditionalBranch⟩
  | .beqS => ⟨.one 0x2E, "beq.s", .shortBranch, .conditionalBranch⟩
  | .bgeS => ⟨.one 0x2F, "bge.s", .shortBranch, .conditionalBranch⟩
  | .bgtS => ⟨.one 0x30, "bgt.s", .shortBranch, .conditionalBranch⟩
  | .bleS => ⟨.one 0x31, "ble.s", .shortBranch, .conditionalBranch⟩
  | .bltS => ⟨.one 0x32, "blt.s", .shortBranch, .conditionalBranch⟩
  | .bneUnS => ⟨.one 0x33, "bne.un.s", .shortBranch, .conditionalBranch⟩
  | .bgeUnS => ⟨.one 0x34, "bge.un.s", .shortBranch, .conditionalBranch⟩
  | .bgtUnS => ⟨.one 0x35, "bgt.un.s", .shortBranch, .conditionalBranch⟩
  | .bleUnS => ⟨.one 0x36, "ble.un.s", .shortBranch, .conditionalBranch⟩
  | .bltUnS => ⟨.one 0x37, "blt.un.s", .shortBranch, .conditionalBranch⟩
  | .br => ⟨.one 0x38, "br", .branch, .unconditionalBranch⟩
  | .brfalse => ⟨.one 0x39, "brfalse", .branch, .conditionalBranch⟩
  | .brtrue => ⟨.one 0x3A, "brtrue", .branch, .conditionalBranch⟩
  | .beq => ⟨.one 0x3B, "beq", .branch, .conditionalBranch⟩
  | .bge => ⟨.one 0x3C, "bge", .branch, .conditionalBranch⟩
  | .bgt => ⟨.one 0x3D, "bgt", .branch, .conditionalBranch⟩
  | .ble => ⟨.one 0x3E, "ble", .branch, .conditionalBranch⟩
  | .blt => ⟨.one 0x3F, "blt", .branch, .conditionalBranch⟩
  | .bneUn => ⟨.one 0x40, "bne.un", .branch, .conditionalBranch⟩
  | .bgeUn => ⟨.one 0x41, "bge.un", .branch, .conditionalBranch⟩
  | .bgtUn => ⟨.one 0x42, "bgt.un", .branch, .conditionalBranch⟩
  | .bleUn => ⟨.one 0x43, "ble.un", .branch, .conditionalBranch⟩
  | .bltUn => ⟨.one 0x44, "blt.un", .branch, .conditionalBranch⟩
  | .switch => ⟨.one 0x45, "switch", .switch, .conditionalBranch⟩
  | .ldindI1 => ⟨.one 0x46, "ldind.i1", .none, .sequential⟩
  | .ldindU1 => ⟨.one 0x47, "ldind.u1", .none, .sequential⟩
  | .ldindI2 => ⟨.one 0x48, "ldind.i2", .none, .sequential⟩
  | .ldindU2 => ⟨.one 0x49, "ldind.u2", .none, .sequential⟩
  | .ldindI4 => ⟨.one 0x4A, "ldind.i4", .none, .sequential⟩
  | .ldindU4 => ⟨.one 0x4B, "ldind.u4", .none, .sequential⟩
  | .ldindI8 => ⟨.one 0x4C, "ldind.i8", .none, .sequential⟩
  | .ldindI => ⟨.one 0x4D, "ldind.i", .none, .sequential⟩
  | .ldindR4 => ⟨.one 0x4E, "ldind.r4", .none, .sequential⟩
  | .ldindR8 => ⟨.one 0x4F, "ldind.r8", .none, .sequential⟩
  | .ldindRef => ⟨.one 0x50, "ldind.ref", .none, .sequential⟩
  | .stindRef => ⟨.one 0x51, "stind.ref", .none, .sequential⟩
  | .stindI1 => ⟨.one 0x52, "stind.i1", .none, .sequential⟩
  | .stindI2 => ⟨.one 0x53, "stind.i2", .none, .sequential⟩
  | .stindI4 => ⟨.one 0x54, "stind.i4", .none, .sequential⟩
  | .stindI8 => ⟨.one 0x55, "stind.i8", .none, .sequential⟩
  | .stindR4 => ⟨.one 0x56, "stind.r4", .none, .sequential⟩
  | .stindR8 => ⟨.one 0x57, "stind.r8", .none, .sequential⟩
  | .add => ⟨.one 0x58, "add", .none, .sequential⟩
  | .sub => ⟨.one 0x59, "sub", .none, .sequential⟩
  | .mul => ⟨.one 0x5A, "mul", .none, .sequential⟩
  | .div => ⟨.one 0x5B, "div", .none, .sequential⟩
  | .divUn => ⟨.one 0x5C, "div.un", .none, .sequential⟩
  | .rem => ⟨.one 0x5D, "rem", .none, .sequential⟩
  | .remUn => ⟨.one 0x5E, "rem.un", .none, .sequential⟩
  | .and => ⟨.one 0x5F, "and", .none, .sequential⟩
  | .or => ⟨.one 0x60, "or", .none, .sequential⟩
  | .xor => ⟨.one 0x61, "xor", .none, .sequential⟩
  | .shl => ⟨.one 0x62, "shl", .none, .sequential⟩
  | .shr => ⟨.one 0x63, "shr", .none, .sequential⟩
  | .shrUn => ⟨.one 0x64, "shr.un", .none, .sequential⟩
  | .neg => ⟨.one 0x65, "neg", .none, .sequential⟩
  | .not => ⟨.one 0x66, "not", .none, .sequential⟩
  | .convI1 => ⟨.one 0x67, "conv.i1", .none, .sequential⟩
  | .convI2 => ⟨.one 0x68, "conv.i2", .none, .sequential⟩
  | .convI4 => ⟨.one 0x69, "conv.i4", .none, .sequential⟩
  | .convI8 => ⟨.one 0x6A, "conv.i8", .none, .sequential⟩
  | .convR4 => ⟨.one 0x6B, "conv.r4", .none, .sequential⟩
  | .convR8 => ⟨.one 0x6C, "conv.r8", .none, .sequential⟩
  | .convU4 => ⟨.one 0x6D, "conv.u4", .none, .sequential⟩
  | .convU8 => ⟨.one 0x6E, "conv.u8", .none, .sequential⟩
  | .callvirt => ⟨.one 0x6F, "callvirt", .token, .call⟩
  | .cpobj => ⟨.one 0x70, "cpobj", .token, .sequential⟩
  | .ldobj => ⟨.one 0x71, "ldobj", .token, .sequential⟩
  | .ldstr => ⟨.one 0x72, "ldstr", .token, .sequential⟩
  | .newobj => ⟨.one 0x73, "newobj", .token, .call⟩
  | .castclass => ⟨.one 0x74, "castclass", .token, .sequential⟩
  | .isinst => ⟨.one 0x75, "isinst", .token, .sequential⟩
  | .convRUn => ⟨.one 0x76, "conv.r.un", .none, .sequential⟩
  | .unbox => ⟨.one 0x79, "unbox", .token, .sequential⟩
  | .throw => ⟨.one 0x7A, "throw", .none, .throw⟩
  | .ldfld => ⟨.one 0x7B, "ldfld", .token, .sequential⟩
  | .ldflda => ⟨.one 0x7C, "ldflda", .token, .sequential⟩
  | .stfld => ⟨.one 0x7D, "stfld", .token, .sequential⟩
  | .ldsfld => ⟨.one 0x7E, "ldsfld", .token, .sequential⟩
  | .ldsflda => ⟨.one 0x7F, "ldsflda", .token, .sequential⟩
  | .stsfld => ⟨.one 0x80, "stsfld", .token, .sequential⟩
  | .stobj => ⟨.one 0x81, "stobj", .token, .sequential⟩
  | .convOvfI1Un => ⟨.one 0x82, "conv.ovf.i1.un", .none, .sequential⟩
  | .convOvfI2Un => ⟨.one 0x83, "conv.ovf.i2.un", .none, .sequential⟩
  | .convOvfI4Un => ⟨.one 0x84, "conv.ovf.i4.un", .none, .sequential⟩
  | .convOvfI8Un => ⟨.one 0x85, "conv.ovf.i8.un", .none, .sequential⟩
  | .convOvfU1Un => ⟨.one 0x86, "conv.ovf.u1.un", .none, .sequential⟩
  | .convOvfU2Un => ⟨.one 0x87, "conv.ovf.u2.un", .none, .sequential⟩
  | .convOvfU4Un => ⟨.one 0x88, "conv.ovf.u4.un", .none, .sequential⟩
  | .convOvfU8Un => ⟨.one 0x89, "conv.ovf.u8.un", .none, .sequential⟩
  | .convOvfIUn => ⟨.one 0x8A, "conv.ovf.i.un", .none, .sequential⟩
  | .convOvfUUn => ⟨.one 0x8B, "conv.ovf.u.un", .none, .sequential⟩
  | .box => ⟨.one 0x8C, "box", .token, .sequential⟩
  | .newarr => ⟨.one 0x8D, "newarr", .token, .sequential⟩
  | .ldlen => ⟨.one 0x8E, "ldlen", .none, .sequential⟩
  | .ldelema => ⟨.one 0x8F, "ldelema", .token, .sequential⟩
  | .ldelemI1 => ⟨.one 0x90, "ldelem.i1", .none, .sequential⟩
  | .ldelemU1 => ⟨.one 0x91, "ldelem.u1", .none, .sequential⟩
  | .ldelemI2 => ⟨.one 0x92, "ldelem.i2", .none, .sequential⟩
  | .ldelemU2 => ⟨.one 0x93, "ldelem.u2", .none, .sequential⟩
  | .ldelemI4 => ⟨.one 0x94, "ldelem.i4", .none, .sequential⟩
  | .ldelemU4 => ⟨.one 0x95, "ldelem.u4", .none, .sequential⟩
  | .ldelemI8 => ⟨.one 0x96, "ldelem.i8", .none, .sequential⟩
  | .ldelemI => ⟨.one 0x97, "ldelem.i", .none, .sequential⟩
  | .ldelemR4 => ⟨.one 0x98, "ldelem.r4", .none, .sequential⟩
  | .ldelemR8 => ⟨.one 0x99, "ldelem.r8", .none, .sequential⟩
  | .ldelemRef => ⟨.one 0x9A, "ldelem.ref", .none, .sequential⟩
  | .stelemI => ⟨.one 0x9B, "stelem.i", .none, .sequential⟩
  | .stelemI1 => ⟨.one 0x9C, "stelem.i1", .none, .sequential⟩
  | .stelemI2 => ⟨.one 0x9D, "stelem.i2", .none, .sequential⟩
  | .stelemI4 => ⟨.one 0x9E, "stelem.i4", .none, .sequential⟩
  | .stelemI8 => ⟨.one 0x9F, "stelem.i8", .none, .sequential⟩
  | .stelemR4 => ⟨.one 0xA0, "stelem.r4", .none, .sequential⟩
  | .stelemR8 => ⟨.one 0xA1, "stelem.r8", .none, .sequential⟩
  | .stelemRef => ⟨.one 0xA2, "stelem.ref", .none, .sequential⟩
  | .ldelem => ⟨.one 0xA3, "ldelem", .token, .sequential⟩
  | .stelem => ⟨.one 0xA4, "stelem", .token, .sequential⟩
  | .unboxAny => ⟨.one 0xA5, "unbox.any", .token, .sequential⟩
  | .convOvfI1 => ⟨.one 0xB3, "conv.ovf.i1", .none, .sequential⟩
  | .convOvfU1 => ⟨.one 0xB4, "conv.ovf.u1", .none, .sequential⟩
  | .convOvfI2 => ⟨.one 0xB5, "conv.ovf.i2", .none, .sequential⟩
  | .convOvfU2 => ⟨.one 0xB6, "conv.ovf.u2", .none, .sequential⟩
  | .convOvfI4 => ⟨.one 0xB7, "conv.ovf.i4", .none, .sequential⟩
  | .convOvfU4 => ⟨.one 0xB8, "conv.ovf.u4", .none, .sequential⟩
  | .convOvfI8 => ⟨.one 0xB9, "conv.ovf.i8", .none, .sequential⟩
  | .convOvfU8 => ⟨.one 0xBA, "conv.ovf.u8", .none, .sequential⟩
  | .refanyval => ⟨.one 0xC2, "refanyval", .token, .sequential⟩
  | .ckfinite => ⟨.one 0xC3, "ckfinite", .none, .sequential⟩
  | .mkrefany => ⟨.one 0xC6, "mkrefany", .token, .sequential⟩
  | .ldtoken => ⟨.one 0xD0, "ldtoken", .token, .sequential⟩
  | .convU2 => ⟨.one 0xD1, "conv.u2", .none, .sequential⟩
  | .convU1 => ⟨.one 0xD2, "conv.u1", .none, .sequential⟩
  | .convI => ⟨.one 0xD3, "conv.i", .none, .sequential⟩
  | .convOvfI => ⟨.one 0xD4, "conv.ovf.i", .none, .sequential⟩
  | .convOvfU => ⟨.one 0xD5, "conv.ovf.u", .none, .sequential⟩
  | .addOvf => ⟨.one 0xD6, "add.ovf", .none, .sequential⟩
  | .addOvfUn => ⟨.one 0xD7, "add.ovf.un", .none, .sequential⟩
  | .mulOvf => ⟨.one 0xD8, "mul.ovf", .none, .sequential⟩
  | .mulOvfUn => ⟨.one 0xD9, "mul.ovf.un", .none, .sequential⟩
  | .subOvf => ⟨.one 0xDA, "sub.ovf", .none, .sequential⟩
  | .subOvfUn => ⟨.one 0xDB, "sub.ovf.un", .none, .sequential⟩
  | .endfinally => ⟨.one 0xDC, "endfinally", .none, .ret⟩
  | .leave => ⟨.one 0xDD, "leave", .branch, .unconditionalBranch⟩
  | .leaveS => ⟨.one 0xDE, "leave.s", .shortBranch, .unconditionalBranch⟩
  | .stindI => ⟨.one 0xDF, "stind.i", .none, .sequential⟩
  | .convU => ⟨.one 0xE0, "conv.u", .none, .sequential⟩
  | .arglist => ⟨.two 0x00, "arglist", .none, .sequential⟩
  | .ceq => ⟨.two 0x01, "ceq", .none, .sequential⟩
  | .cgt => ⟨.two 0x02, "cgt", .none, .sequential⟩
  | .cgtUn => ⟨.two 0x03, "cgt.un", .none, .sequential⟩
  | .clt => ⟨.two 0x04, "clt", .none, .sequential⟩
  | .cltUn => ⟨.two 0x05, "clt.un", .none, .sequential⟩
  | .ldftn => ⟨.two 0x06, "ldftn", .token, .sequential⟩
  | .ldvirtftn => ⟨.two 0x07, "ldvirtftn", .token, .sequential⟩
  | .ldarg => ⟨.two 0x09, "ldarg", .var, .sequential⟩
  | .ldarga => ⟨.two 0x0A, "ldarga", .var, .sequential⟩
  | .starg => ⟨.two 0x0B, "starg", .var, .sequential⟩
  | .ldloc => ⟨.two 0x0C, "ldloc", .var, .sequential⟩
  | .ldloca => ⟨.two 0x0D, "ldloca", .var, .sequential⟩
  | .stloc => ⟨.two 0x0E, "stloc", .var, .sequential⟩
  | .localloc => ⟨.two 0x0F, "localloc", .none, .sequential⟩
  | .endfilter => ⟨.two 0x11, "endfilter", .none, .ret⟩
  | .unaligned => ⟨.two 0x12, "unaligned.", .shortInt, .modifier⟩
  | .volatile => ⟨.two 0x13, "volatile.", .none, .modifier⟩
  | .tail => ⟨.two 0x14, "tail.", .none, .modifier⟩
  | .initobj => ⟨.two 0x15, "initobj", .token, .sequential⟩
  | .constrained => ⟨.two 0x16, "constrained.", .token, .modifier⟩
  | .cpblk => ⟨.two 0x17, "cpblk", .none, .sequential⟩
  | .initblk => ⟨.two 0x18, "initblk", .none, .sequential⟩
  | .no => ⟨.two 0x19, "no.", .shortInt, .modifier⟩
  | .rethrow => ⟨.two 0x1A, "rethrow", .none, .throw⟩
  | .sizeof => ⟨.two 0x1C, "sizeof", .token, .sequential⟩
  | .refanytype => ⟨.two 0x1D, "refanytype", .none, .sequential⟩
  | .readonly => ⟨.two 0x1E, "readonly.", .none, .modifier⟩
  | .label => ⟨.pseudo, "label", .none, .modifier⟩

/-- All operations, `label` last. -/
def all : List Opcode :=
  [.nop, .breakpoint, .ldarg0, .ldarg1, .ldarg2, .ldarg3, .ldloc0, .ldloc1, .ldloc2, .ldloc3,
   .stloc0, .stloc1, .stloc2, .stloc3, .ldargS, .ldargaS, .stargS, .ldlocS, .ldlocaS, .stlocS,
   .ldnull, .ldcI4M1, .ldcI4_0, .ldcI4_1, .ldcI4_2, .ldcI4_3, .ldcI4_4, .ldcI4_5, .ldcI4_6,
   .ldcI4_7, .ldcI4_8, .ldcI4S, .ldcI4, .ldcI8, .ldcR4, .ldcR8, .dup, .pop, .jmp, .call, .calli,
   .ret, .brS, .brfalseS, .brtrueS, .beqS, .bgeS, .bgtS, .bleS, .bltS, .bneUnS, .bgeUnS, .bgtUnS,
   .bleUnS, .bltUnS, .br, .brfalse, .brtrue, .beq, .bge, .bgt, .ble, .blt, .bneUn, .bgeUn,
   .bgtUn, .bleUn, .bltUn, .switch, .ldindI1, .ldindU1, .ldindI2, .ldindU2, .ldindI4, .ldindU4,
   .ldindI8, .ldindI, .ldindR4, .ldindR8, .ldindRef, .stindRef, .stindI1, .stindI2, .stindI4,
   .stindI8, .stindR4, .stindR8, .add, .sub, .mul, .div, .divUn, .rem, .remUn, .and, .or, .xor,
   .shl, .shr, .shrUn, .neg, .not, .convI1, .convI2, .convI4, .convI8, .convR4, .convR8, .convU4,
   .convU8, .callvirt, .cpobj, .ldobj, .ldstr, .newobj, .castclass, .isinst, .convRUn, .unbox,
   .throw, .ldfld, .ldflda, .stfld, .ldsfld, .ldsflda, .stsfld, .stobj, .convOvfI1Un,
   .convOvfI2Un, .convOvfI4Un, .convOvfI8Un, .convOvfU1Un, .convOvfU2Un, .convOvfU4Un,
   .convOvfU8Un, .convOvfIUn, .convOvfUUn, .box, .newarr, .ldlen, .ldelema, .ldelemI1, .ldelemU1,
   .ldelemI2, .ldelemU2, .ldelemI4, .ldelemU4, .ldelemI8, .ldelemI, .ldelemR4, .ldelemR8,
   .ldelemRef, .stelemI, .stelemI1, .stelemI2, .stelemI4, .stelemI8, .stelemR4, .stelemR8,
   .stelemRef, .ldelem, .stelem, .unboxAny, .convOvfI1, .convOvfU1, .convOvfI2, .convOvfU2,
   .convOvfI4, .convOvfU4, .convOvfI8, .convOvfU8, .refanyval, .ckfinite, .mkrefany, .ldtoken,
   .convU2, .convU1, .convI, .convOvfI, .convOvfU, .addOvf, .addOvfUn, .mulOvf, .mulOvfUn,
   .subOvf, .subOvfUn, .endfinally, .leave, .leaveS, .stindI, .convU, .arglist, .ceq, .cgt,
   .cgtUn, .clt, .cltUn, .ldftn, .ldvirtftn, .ldarg, .ldarga, .starg, .ldloc, .ldloca, .stloc,
   .localloc, .endfilter, .unaligned, .volatile, .tail, .initobj, .constrained, .cpblk, .initblk,
   .no, .rethrow, .sizeof, .refanytype, .readonly, .label]

/-- The bytes that stand for the operation. -/
def encoding (op : Opcode) : Encoding := op.spec.encoding

/-- Its name in listings. -/
def mnemonic (op : Opcode) : String := op.spec.mnemonic

/-- How its operand is laid out. -/
def operandKind (op : Opcode) : OperandKind := op.spec.operand

/-- Where control goes after it. -/
def flow (op : Opcode) : Flow := op.spec.flow

/-- Number of opcode bytes, 0 for `label`. -/
def length (op : Opcode) : Nat := op.encoding.length

/-- Whether the operation may transfer control to a target of its own, `switch` included. -/
def isBranch (op : Opcode) : Bool :=
  op.flow == .unconditionalBranch || op.flow == .conditionalBranch

/-- The operation with the same effect and a four-byte displacement, for the short branches. -/
def longForm? : Opcode → Option Opcode
  | .brS => some .br
  | .brfalseS => some .brfalse
  | .brtrueS => some .brtrue
  | .beqS => some .beq
  | .bgeS => some .bge
  | .bgtS => some .bgt
  | .bleS => some .ble
  | .bltS => some .blt
  | .bneUnS => some .bneUn
  | .bgeUnS => some .bgeUn
  | .bgtUnS => some .bgtUn
  | .bleUnS => some .bleUn
  | .bltUnS => some .bltUn
  | .leaveS => some .leave
  | _ => none

/-- The long form where there is one, the operation itself otherwise. -/
def widened (op : Opcode) : Opcode := op.longForm?.getD op

/-- The operation that an encoding stands for. -/
def ofEncoding? (encoding : Encoding) : Option Opcode :=
  all.find? fun op => op.encoding == encoding

/-- The operation with the given name. -/
def ofMnemonic? (name : String) : Option Opcode :=
  all.find? fun op => op.mnemonic == name

/-- The operation that starts with `first`; `second` is looked at only behind the extension byte,
which stands for nothing alone. -/
def decode? (first : UInt8) (second : Option UInt8) : Option Opcode :=
  if first == extensionByte then
    second.bind fun code => ofEncoding? (.two code)
  else
    ofEncoding? (.one first)

end Opcode

end CilCoverage
