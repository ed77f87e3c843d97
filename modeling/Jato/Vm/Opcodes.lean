import Mathlib.Tactic.Common

/-!
# Opcodes and the opcode property table

The opcode bytes of `vm/opcodes.h`, and `vm/bytecode-def.h` as a list of rows in the order of the file: the size of
the instruction (`0` for the variable-length ones) and its property bits. `bytecodeInfo` is the array
`bytecode_infos` that the C preprocessor makes of the rows: an opcode without a row has the zero entry.
-/

namespace Jato.Vm

/-! ## Opcode bytes -/

abbrev opcNop : Nat := 0x00
abbrev opcAconstNull : Nat := 0x01
abbrev opcIconstM1 : Nat := 0x02
abbrev opcIconst0 : Nat := 0x03
abbrev opcIconst1 : Nat := 0x04
abbrev opcIconst2 : Nat := 0x05
abbrev opcIconst3 : Nat := 0x06
abbrev opcIconst4 : Nat := 0x07
abbrev opcIconst5 : Nat := 0x08
abbrev opcLconst0 : Nat := 0x09
abbrev opcLconst1 : Nat := 0x0a
abbrev opcFconst0 : Nat := 0x0b
abbrev opcFconst1 : Nat := 0x0c
abbrev opcFconst2 : Nat := 0x0d
abbrev opcDconst0 : Nat := 0x0e
abbrev opcDconst1 : Nat := 0x0f
abbrev opcBipush : Nat := 0x10
abbrev opcSipush : Nat := 0x11
abbrev opcLdc : Nat := 0x12
abbrev opcLdcW : Nat := 0x13
abbrev opcLdc2W : Nat := 0x14
abbrev opcIload : Nat := 0x15
abbrev opcLload : Nat := 0x16
abbrev opcFload : Nat := 0x17
abbrev opcDload : Nat := 0x18
abbrev opcAload : Nat := 0x19
abbrev opcIload0 : Nat := 0x1a
abbrev opcIload1 : Nat := 0x1b
abbrev opcIload2 : Nat := 0x1c
abbrev opcIload3 : Nat := 0x1d
abbrev opcLload0 : Nat := 0x1e
abbrev opcLload1 : Nat := 0x1f
abbrev opcLload2 : Nat := 0x20
abbrev opcLload3 : Nat := 0x21
abbrev opcFload0 : Nat := 0x22
abbrev opcFload1 : Nat := 0x23
abbrev opcFload2 : Nat := 0x24
abbrev opcFload3 : Nat := 0x25
abbrev opcDload0 : Nat := 0x26
abbrev opcDload1 : Nat := 0x27
abbrev opcDload2 : Nat := 0x28
abbrev opcDload3 : Nat := 0x29
abbrev opcAload0 : Nat := 0x2a
abbrev opcAload1 : Nat := 0x2b
abbrev opcAload2 : Nat := 0x2c
abbrev opcAload3 : Nat := 0x2d
abbrev opcIaload : Nat := 0x2e
abbrev opcLaload : Nat := 0x2f
abbrev opcFaload : Nat := 0x30
abbrev opcDaload : Nat := 0x31
abbrev opcAaload : Nat := 0x32
abbrev opcBaload : Nat := 0x33
abbrev opcCaload : Nat := 0x34
abbrev opcSaload : Nat := 0x35
abbrev opcIstore : Nat := 0x36
abbrev opcLstore : Nat := 0x37
abbrev opcFstore : Nat := 0x38
abbrev opcDstore : Nat := 0x39
abbrev opcAstore : Nat := 0x3a
abbrev opcIstore0 : Nat := 0x3b
abbrev opcIstore1 : Nat := 0x3c
abbrev opcIstore2 : Nat := 0x3d
abbrev opcIstore3 : Nat := 0x3e
abbrev opcLstore0 : Nat := 0x3f
abbrev opcLstore1 : Nat := 0x40
abbrev opcLstore2 : Nat := 0x41
abbrev opcLstore3 : Nat := 0x42
abbrev opcFstore0 : Nat := 0x43
abbrev opcFstore1 : Nat := 0x44
abbrev opcFstore2 : Nat := 0x45
abbrev opcFstore3 : Nat := 0x46
abbrev opcDstore0 : Nat := 0x47
abbrev opcDstore1 : Nat := 0x48
abbrev opcDstore2 : Nat := 0x49
abbrev opcDstore3 : Nat := 0x4a
abbrev opcAstore0 : Nat := 0x4b
abbrev opcAstore1 : Nat := 0x4c
abbrev opcAstore2 : Nat := 0x4d
abbrev opcAstore3 : Nat := 0x4e
abbrev opcIastore : Nat := 0x4f
abbrev opcLastore : Nat := 0x50
abbrev opcFastore : Nat := 0x51
abbrev opcDastore : Nat := 0x52
abbrev opcAastore : Nat := 0x53
abbrev opcBastore : Nat := 0x54
abbrev opcCastore : Nat := 0x55
abbrev opcSastore : Nat := 0x56
abbrev opcPop : Nat := 0x57
abbrev opcPop2 : Nat := 0x58
abbrev opcDup : Nat := 0x59
abbrev opcDupX1 : Nat := 0x5a
abbrev opcDupX2 : Nat := 0x5b
abbrev opcDup2 : Nat := 0x5c
abbrev opcDup2X1 : Nat := 0x5d
abbrev opcDup2X2 : Nat := 0x5e
abbrev opcSwap : Nat := 0x5f
abbrev opcIadd : Nat := 0x60
abbrev opcLadd : Nat := 0x61
abbrev opcFadd : Nat := 0x62
abbrev opcDadd : Nat := 0x63
abbrev opcIsub : Nat := 0x64
abbrev opcLsub : Nat := 0x65
abbrev opcFsub : Nat := 0x66
abbrev opcDsub : Nat := 0x67
abbrev opcImul : Nat := 0x68
abbrev opcLmul : Nat := 0x69
abbrev opcFmul : Nat := 0x6a
abbrev opcDmul : Nat := 0x6b
abbrev opcIdiv : Nat := 0x6c
abbrev opcLdiv : Nat := 0x6d
abbrev opcFdiv : Nat := 0x6e
abbrev opcDdiv : Nat := 0x6f
abbrev opcIrem : Nat := 0x70
abbrev opcLrem : Nat := 0x71
abbrev opcFrem : Nat := 0x72
abbrev opcDrem : Nat := 0x73
abbrev opcIneg : Nat := 0x74
abbrev opcLneg : Nat := 0x75
abbrev opcFneg : Nat := 0x76
abbrev opcDneg : Nat := 0x77
abbrev opcIshl : Nat := 0x78
abbrev opcLshl : Nat := 0x79
abbrev opcIshr : Nat := 0x7a
abbrev opcLshr : Nat := 0x7b
abbrev opcIushr : Nat := 0x7c
abbrev opcLushr : Nat := 0x7d
abbrev opcIand : Nat := 0x7e
abbrev opcLand : Nat := 0x7f
abbrev opcIor : Nat := 0x80
abbrev opcLor : Nat := 0x81
abbrev opcIxor : Nat := 0x82
abbrev opcLxor : Nat := 0x83
abbrev opcIinc : Nat := 0x84
abbrev opcI2l : Nat := 0x85
abbrev opcI2f : Nat := 0x86
abbrev opcI2d : Nat := 0x87
abbrev opcL2i : Nat := 0x88
abbrev opcL2f : Nat := 0x89
abbrev opcL2d : Nat := 0x8a
abbrev opcF2i : Nat := 0x8b
abbrev opcF2l : Nat := 0x8c
abbrev opcF2d : Nat := 0x8d
abbrev opcD2i : Nat := 0x8e
abbrev opcD2l : Nat := 0x8f
abbrev opcD2f : Nat := 0x90
abbrev opcI2b : Nat := 0x91
abbrev opcI2c : Nat := 0x92
abbrev opcI2s : Nat := 0x93
abbrev opcLcmp : Nat := 0x94
abbrev opcFcmpl : Nat := 0x95
abbrev opcFcmpg : Nat := 0x96
abbrev opcDcmpl : Nat := 0x97
abbrev opcDcmpg : Nat := 0x98
abbrev opcIfeq : Nat := 0x99
abbrev opcIfne : Nat := 0x9a
abbrev opcIflt : Nat := 0x9b
abbrev opcIfge : Nat := 0x9c
abbrev opcIfgt : Nat := 0x9d
abbrev opcIfle : Nat := 0x9e
abbrev opcIfIcmpeq : Nat := 0x9f
abbrev opcIfIcmpne : Nat := 0xa0
abbrev opcIfIcmplt : Nat := 0xa1
abbrev opcIfIcmpge : Nat := 0xa2
abbrev opcIfIcmpgt : Nat := 0xa3
abbrev opcIfIcmple : Nat := 0xa4
abbrev opcIfAcmpeq : Nat := 0xa5
abbrev opcIfAcmpne : Nat := 0xa6
abbrev opcGoto : Nat := 0xa7
abbrev opcJsr : Nat := 0xa8
abbrev opcRet : Nat := 0xa9
abbrev opcTableswitch : Nat := 0xaa
abbrev opcLookupswitch : Nat := 0xab
abbrev opcIreturn : Nat := 0xac
abbrev opcLreturn : Nat := 0xad
abbrev opcFreturn : Nat := 0xae
abbrev opcDreturn : Nat := 0xaf
abbrev opcAreturn : Nat := 0xb0
abbrev opcReturn : Nat := 0xb1
abbrev opcGetstatic : Nat := 0xb2
abbrev opcPutstatic : Nat := 0xb3
abbrev opcGetfield : Nat := 0xb4
abbrev opcPutfield : Nat := 0xb5
abbrev opcInvokevirtual : Nat := 0xb6
abbrev opcInvokespecial : Nat := 0xb7
abbrev opcInvokestatic : Nat := 0xb8
abbrev opcInvokeinterface : Nat := 0xb9
abbrev opcXxxunusedxxx : Nat := 0xba
abbrev opcXxxunusedxxx_ : Nat := 0xba
abbrev opcNew : Nat := 0xbb
abbrev opcNewarray : Nat := 0xbc
abbrev opcAnewarray : Nat := 0xbd
abbrev opcArraylength : Nat := 0xbe
abbrev opcAthrow : Nat := 0xbf
abbrev opcCheckcast : Nat := 0xc0
abbrev opcInstanceof : Nat := 0xc1
abbrev opcMonitorenter : Nat := 0xc2
abbrev opcMonitorexit : Nat := 0xc3
abbrev opcWide : Nat := 0xc4
abbrev opcMultianewarray : Nat := 0xc5
abbrev opcIfnull : Nat := 0xc6
abbrev opcIfnonnull : Nat := 0xc7
abbrev opcGotoW : Nat := 0xc8
abbrev opcJsrW : Nat := 0xc9
abbrev opcBreakpoint : Nat := 0xca

/-! ## The property table -/

/-- The property bits, `enum bytecode_type`. -/
abbrev bytecodeNormal : Nat := 0x01
abbrev bytecodeBranch : Nat := 0x02
abbrev bytecodeWide : Nat := 0x04
abbrev bytecodeReturn : Nat := 0x08
abbrev bytecodeVariableLen : Nat := 0x10
abbrev bytecodeUsesLocalVar : Nat := 0x20

/-- `struct bytecode_info`, with the opcode of its row. -/
structure BytecodeInfo where
  opc : Nat
  size : Nat
  type : Nat
deriving DecidableEq, Repr

/-- The rows of `vm/bytecode-def.h`. -/
def bytecodeDef : List BytecodeInfo := [ ⟨opcAaload, 1, bytecodeNormal⟩, ⟨opcAastore, 1, bytecodeNormal⟩,
  ⟨opcAconstNull, 1, bytecodeNormal⟩,
  ⟨opcAload, 2, bytecodeNormal ||| bytecodeUsesLocalVar⟩,
  ⟨opcAload0, 1, bytecodeNormal ||| bytecodeUsesLocalVar⟩,
  ⟨opcAload1, 1, bytecodeNormal ||| bytecodeUsesLocalVar⟩,
  ⟨opcAload2, 1, bytecodeNormal ||| bytecodeUsesLocalVar⟩,
  ⟨opcAload3, 1, bytecodeNormal ||| bytecodeUsesLocalVar⟩,
  ⟨opcAnewarray, 3, bytecodeNormal⟩,
  ⟨opcAreturn, 1, bytecodeReturn⟩,
  ⟨opcArraylength, 1, bytecodeNormal⟩,
  ⟨opcAstore, 2, bytecodeNormal ||| bytecodeUsesLocalVar⟩,
  ⟨opcAstore0, 1, bytecodeNormal ||| bytecodeUsesLocalVar⟩,
  ⟨opcAstore1, 1, bytecodeNormal ||| bytecodeUsesLocalVar⟩,
  ⟨opcAstore2, 1, bytecodeNormal ||| bytecodeUsesLocalVar⟩,
  ⟨opcAstore3, 1, bytecodeNormal ||| bytecodeUsesLocalVar⟩,
  ⟨opcAthrow, 1, bytecodeNormal⟩,
  ⟨opcBaload, 1, bytecodeNormal⟩,
  ⟨opcBastore, 1, bytecodeNormal⟩,
  ⟨opcBipush, 2, bytecodeNormal⟩,
  ⟨opcCaload, 1, bytecodeNormal⟩,
  ⟨opcCastore, 1, bytecodeNormal⟩,
  ⟨opcCheckcast, 3, bytecodeNormal⟩,
  ⟨opcD2f, 1, bytecodeNormal⟩,
  ⟨opcD2i, 1, bytecodeNormal⟩,
  ⟨opcD2l, 1, bytecodeNormal⟩,
  ⟨opcDadd, 1, bytecodeNormal⟩,
  ⟨opcDaload, 1, bytecodeNormal⟩,
  ⟨opcDastore, 1, bytecodeNormal⟩,
  ⟨opcDcmpg, 1, bytecodeNormal⟩,
  ⟨opcDcmpl, 1, bytecodeNormal⟩,
  ⟨opcDconst0, 1, bytecodeNormal⟩,
  ⟨opcDconst1, 1, bytecodeNormal⟩,
  ⟨opcDdiv, 1, bytecodeNormal⟩,
  ⟨opcDload, 2, bytecodeNormal ||| bytecodeUsesLocalVar⟩,
  ⟨opcDload0, 1, bytecodeNormal ||| bytecodeUsesLocalVar⟩,
  ⟨opcDload1, 1, bytecodeNormal ||| bytecodeUsesLocalVar⟩,
  ⟨opcDload2, 1, bytecodeNormal ||| bytecodeUsesLocalVar⟩,
  ⟨opcDload3, 1, bytecodeNormal ||| bytecodeUsesLocalVar⟩,
  ⟨opcDmul, 1, bytecodeNormal⟩,
  ⟨opcDneg, 1, bytecodeNormal⟩,
  ⟨opcDrem, 1, bytecodeNormal⟩,
  ⟨opcDreturn, 1, bytecodeReturn⟩,
  ⟨opcDstore, 2, bytecodeNormal ||| bytecodeUsesLocalVar⟩,
  ⟨opcDstore0, 1, bytecodeNormal ||| bytecodeUsesLocalVar⟩,
  ⟨opcDstore1, 1, bytecodeNormal ||| bytecodeUsesLocalVar⟩,
  ⟨opcDstore2, 1, bytecodeNormal ||| bytecodeUsesLocalVar⟩,
  ⟨opcDstore3, 1, bytecodeNormal ||| bytecodeUsesLocalVar⟩,
  ⟨opcDsub, 1, bytecodeNormal⟩,
  ⟨opcDup, 1, bytecodeNormal⟩,
  ⟨opcDup2, 1, bytecodeNormal⟩,
  ⟨opcDup2X1, 1, bytecodeNormal⟩,
  ⟨opcDup2X2, 1, bytecodeNormal⟩,
  ⟨opcDupX1, 1, bytecodeNormal⟩,
  ⟨opcDupX2, 1, bytecodeNormal⟩,
  ⟨opcF2d, 1, bytecodeNormal⟩,
  ⟨opcF2i, 1, bytecodeNormal⟩,
  ⟨opcF2l, 1, bytecodeNormal⟩,
  ⟨opcFadd, 1, bytecodeNormal⟩,
  ⟨opcFaload, 1, bytecodeNormal⟩,
  ⟨opcFastore, 1, bytecodeNormal⟩,
  ⟨opcFcmpg, 1, bytecodeNormal⟩,
  ⟨opcFcmpl, 1, bytecodeNormal⟩,
  ⟨opcFconst0, 1, bytecodeNormal⟩,
  ⟨opcFconst1, 1, bytecodeNormal⟩,
  ⟨opcFconst2, 1, bytecodeNormal⟩,
  ⟨opcFdiv, 1, bytecodeNormal⟩,
  ⟨opcFload, 2, bytecodeNormal ||| bytecodeUsesLocalVar⟩,
  ⟨opcFload0, 1, bytecodeNormal ||| bytecodeUsesLocalVar⟩,
  ⟨opcFload1, 1, bytecodeNormal ||| bytecodeUsesLocalVar⟩,
  ⟨opcFload2, 1, bytecodeNormal ||| bytecodeUsesLocalVar⟩,
  ⟨opcFload3, 1, bytecodeNormal ||| bytecodeUsesLocalVar⟩,
  ⟨opcFmul, 1, bytecodeNormal⟩,
  ⟨opcFneg, 1, bytecodeNormal⟩,
  ⟨opcFrem, 1, bytecodeNormal⟩,
  ⟨opcFreturn, 1, bytecodeReturn⟩,
  ⟨opcFstore, 2, bytecodeNormal ||| bytecodeUsesLocalVar⟩,
  ⟨opcFstore0, 1, bytecodeNormal ||| bytecodeUsesLocalVar⟩,
  ⟨opcFstore1, 1, bytecodeNormal ||| bytecodeUsesLocalVar⟩,
  ⟨opcFstore2, 1, bytecodeNormal ||| bytecodeUsesLocalVar⟩,
  ⟨opcFstore3, 1, bytecodeNormal ||| bytecodeUsesLocalVar⟩,
  ⟨opcFsub, 1, bytecodeNormal⟩,
  ⟨opcGetfield, 3, bytecodeNormal⟩,
  ⟨opcGetstatic, 3, bytecodeNormal⟩,
  ⟨opcGoto, 3, bytecodeBranch⟩,
  ⟨opcGotoW, 5, bytecodeBranch ||| bytecodeWide⟩,
  ⟨opcI2b, 1, bytecodeNormal⟩,
  ⟨opcI2c, 1, bytecodeNormal⟩,
  ⟨opcI2d, 1, bytecodeNormal⟩,
  ⟨opcI2f, 1, bytecodeNormal⟩,
  ⟨opcI2l, 1, bytecodeNormal⟩,
  ⟨opcI2s, 1, bytecodeNormal⟩,
  ⟨opcIadd, 1, bytecodeNormal⟩,
  ⟨opcIaload, 1, bytecodeNormal⟩,
  ⟨opcIand, 1, bytecodeNormal⟩,
  ⟨opcIastore, 1, bytecodeNormal⟩,
  ⟨opcIconst0, 1, bytecodeNormal⟩,
  ⟨opcIconst1, 1, bytecodeNormal⟩,
  ⟨opcIconst2, 1, bytecodeNormal⟩,
  ⟨opcIconst3, 1, bytecodeNormal⟩,
  ⟨opcIconst4, 1, bytecodeNormal⟩,
  ⟨opcIconst5, 1, bytecodeNormal⟩,
  ⟨opcIconstM1, 1, bytecodeNormal⟩,
  ⟨opcIdiv, 1, bytecodeNormal⟩,
  ⟨opcIfeq, 3, bytecodeBranch⟩,
  ⟨opcIfge, 3, bytecodeBranch⟩,
  ⟨opcIfgt, 3, bytecodeBranch⟩,
  ⟨opcIfle, 3, bytecodeBranch⟩,
  ⟨opcIflt, 3, bytecodeBranch⟩,
  ⟨opcIfne, 3, bytecodeBranch⟩,
  ⟨opcIfnonnull, 3, bytecodeBranch⟩,
  ⟨opcIfnull, 3, bytecodeBranch⟩,
  ⟨opcIfAcmpeq, 3, bytecodeBranch⟩,
  ⟨opcIfAcmpne, 3, bytecodeBranch⟩,
  ⟨opcIfIcmpeq, 3, bytecodeBranch⟩,
  ⟨opcIfIcmpge, 3, bytecodeBranch⟩,
  ⟨opcIfIcmpgt, 3, bytecodeBranch⟩,
  ⟨opcIfIcmple, 3, bytecodeBranch⟩,
  ⟨opcIfIcmplt, 3, bytecodeBranch⟩,
  ⟨opcIfIcmpne, 3, bytecodeBranch⟩,
  ⟨opcIinc, 3, bytecodeNormal⟩,
  ⟨opcIload, 2, bytecodeNormal ||| bytecodeUsesLocalVar⟩,
  ⟨opcIload0, 1, bytecodeNormal ||| bytecodeUsesLocalVar⟩,
  ⟨opcIload1, 1, bytecodeNormal ||| bytecodeUsesLocalVar⟩,
  ⟨opcIload2, 1, bytecodeNormal ||| bytecodeUsesLocalVar⟩,
  ⟨opcIload3, 1, bytecodeNormal ||| bytecodeUsesLocalVar⟩,
  ⟨opcImul, 1, bytecodeNormal⟩,
  ⟨opcIneg, 1, bytecodeNormal⟩,
  ⟨opcInstanceof, 3, bytecodeNormal⟩,
  ⟨opcInvokeinterface, 5, bytecodeNormal⟩,
  ⟨opcInvokespecial, 3, bytecodeNormal⟩,
  ⟨opcInvokestatic, 3, bytecodeNormal⟩,
  ⟨opcInvokevirtual, 3, bytecodeNormal⟩,
  ⟨opcIor, 1, bytecodeNormal⟩,
  ⟨opcIrem, 1, bytecodeNormal⟩,
  ⟨opcIreturn, 1, bytecodeReturn⟩,
  ⟨opcIshl, 1, bytecodeNormal⟩,
  ⟨opcIshr, 1, bytecodeNormal⟩,
  ⟨opcIstore, 2, bytecodeNormal ||| bytecodeUsesLocalVar⟩,
  ⟨opcIstore0, 1, bytecodeNormal ||| bytecodeUsesLocalVar⟩,
  ⟨opcIstore1, 1, bytecodeNormal ||| bytecodeUsesLocalVar⟩,
  ⟨opcIstore2, 1, bytecodeNormal ||| bytecodeUsesLocalVar⟩,
  ⟨opcIstore3, 1, bytecodeNormal ||| bytecodeUsesLocalVar⟩,
  ⟨opcIsub, 1, bytecodeNormal⟩,
  ⟨opcIushr, 1, bytecodeNormal⟩,
  ⟨opcIxor, 1, bytecodeNormal⟩,
  ⟨opcJsr, 3, bytecodeBranch⟩,
  ⟨opcJsrW, 5, bytecodeBranch ||| bytecodeWide⟩,
  ⟨opcL2d, 1, bytecodeNormal⟩,
  ⟨opcL2f, 1, bytecodeNormal⟩,
  ⟨opcL2i, 1, bytecodeNormal⟩,
  ⟨opcLadd, 1, bytecodeNormal⟩,
  ⟨opcLaload, 1, bytecodeNormal⟩,
  ⟨opcLand, 1, bytecodeNormal⟩,
  ⟨opcLastore, 1, bytecodeNormal⟩,
  ⟨opcLcmp, 1, bytecodeNormal⟩,
  ⟨opcLconst0, 1, bytecodeNormal⟩,
  ⟨opcLconst1, 1, bytecodeNormal⟩,
  ⟨opcLdc, 2, bytecodeNormal⟩,
  ⟨opcLdc2W, 3, bytecodeNormal ||| bytecodeWide⟩,
  ⟨opcLdcW, 3, bytecodeNormal ||| bytecodeWide⟩,
  ⟨opcLdiv, 1, bytecodeNormal⟩,
  ⟨opcLload, 2, bytecodeNormal ||| bytecodeUsesLocalVar⟩,
  ⟨opcLload0, 1, bytecodeNormal ||| bytecodeUsesLocalVar⟩,
  ⟨opcLload1, 1, bytecodeNormal ||| bytecodeUsesLocalVar⟩,
  ⟨opcLload2, 1, bytecodeNormal ||| bytecodeUsesLocalVar⟩,
  ⟨opcLload3, 1, bytecodeNormal ||| bytecodeUsesLocalVar⟩,
  ⟨opcLmul, 1, bytecodeNormal⟩,
  ⟨opcLneg, 1, bytecodeNormal⟩,
  ⟨opcLookupswitch, 0, bytecodeBranch ||| bytecodeVariableLen⟩,
  ⟨opcLor, 1, bytecodeNormal⟩,
  ⟨opcLrem, 1, bytecodeNormal⟩,
  ⟨opcLreturn, 1, bytecodeReturn⟩,
  ⟨opcLshl, 1, bytecodeNormal⟩,
  ⟨opcLshr, 1, bytecodeNormal⟩,
  ⟨opcLstore, 2, bytecodeNormal ||| bytecodeUsesLocalVar⟩,
  ⟨opcLstore0, 1, bytecodeNormal ||| bytecodeUsesLocalVar⟩,
  ⟨opcLstore1, 1, bytecodeNormal ||| bytecodeUsesLocalVar⟩,
  ⟨opcLstore2, 1, bytecodeNormal ||| bytecodeUsesLocalVar⟩,
  ⟨opcLstore3, 1, bytecodeNormal ||| bytecodeUsesLocalVar⟩,
  ⟨opcLsub, 1, bytecodeNormal⟩,
  ⟨opcLushr, 1, bytecodeNormal⟩,
  ⟨opcLxor, 1, bytecodeNormal⟩,
  ⟨opcMonitorenter, 1, bytecodeNormal⟩,
  ⟨opcMonitorexit, 1, bytecodeNormal⟩,
  ⟨opcMultianewarray, 4, bytecodeNormal⟩,
  ⟨opcNew, 3, bytecodeNormal⟩,
  ⟨opcNewarray, 2, bytecodeNormal⟩,
  ⟨opcNop, 1, bytecodeNormal⟩,
  ⟨opcPop, 1, bytecodeNormal⟩,
  ⟨opcPop2, 1, bytecodeNormal⟩,
  ⟨opcPutfield, 3, bytecodeNormal⟩,
  ⟨opcPutstatic, 3, bytecodeNormal⟩,
  ⟨opcRet, 2, bytecodeNormal⟩,
  ⟨opcReturn, 1, bytecodeReturn⟩,
  ⟨opcSaload, 1, bytecodeNormal⟩,
  ⟨opcSastore, 1, bytecodeNormal⟩,
  ⟨opcSipush, 3, bytecodeNormal⟩,
  ⟨opcSwap, 1, bytecodeNormal⟩,
  ⟨opcTableswitch, 0, bytecodeBranch ||| bytecodeVariableLen⟩,
  ⟨opcWide, 0, bytecodeNormal ||| bytecodeVariableLen⟩]

/-- The entry of `opc` in `bytecode_infos`. -/
def bytecodeInfo (opc : Nat) : BytecodeInfo := (bytecodeDef.find? fun row => row.opc == opc).getD ⟨opc, 0, 0⟩

/-- Whether the entry of `opc` has one of the bits of `flag`. -/
def hasType (flag opc : Nat) : Bool := (bytecodeInfo opc).type &&& flag != 0

def bcIsBranch (opc : Nat) : Bool := hasType bytecodeBranch opc

def bcIsWide (opc : Nat) : Bool := hasType bytecodeWide opc

def bcUsesLocalVar (opc : Nat) : Bool := hasType bytecodeUsesLocalVar opc

def bcIsReturn (opc : Nat) : Bool := hasType bytecodeReturn opc

def bcIsInvalid (opc : Nat) : Bool := opcBreakpoint ≤ opc || opc == opcXxxunusedxxx || opc == opcXxxunusedxxx_

def bcIsLdc (opc : Nat) : Bool := opc == opcLdc || opc == opcLdcW || opc == opcLdc2W

def bcIsGoto (opc : Nat) : Bool := opc == opcGoto

def bcIsAthrow (opc : Nat) : Bool := opc == opcAthrow

def bcIsJsr (opc : Nat) : Bool := opc == opcJsr || opc == opcJsrW

end Jato.Vm
