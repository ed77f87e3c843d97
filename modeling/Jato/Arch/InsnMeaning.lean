import Jato.Arch.Encode

/-!
# The meaning of an instruction

Every instruction that is routed through the table-driven encoder has a meaning as an x86 instruction (`Insn.meaning`),
read off the name of its type and off its operands. `DecodesBack` says that the emitted bytes decode to it with nothing
left over, and `Insn.encodable` lists the instructions for which they do by the operands that go wrong, such as `xSP` as
the r/m operand of a register-to-register instruction.
-/

namespace Jato.Arch

open Jato.Lib

/-! ## The meaning of an instruction -/

/-- What a type says of one operand; `regIndirect` is memory at the address in a register. -/
inductive OperandKind where
  | none
  | imm8
  | imm32
  | gpr
  | gprByte
  | regIndirect
  | xmm
  | membase
  | memindex
  | memdisp
  | memlocal
deriving DecidableEq

/-- The kinds of the source and of the destination. -/
def signature : InsnType → OperandKind × OperandKind
  | .adcImmReg | .addImmReg | .cmpImmReg | .sbbImmReg | .subImmReg => (.imm32, .gpr)
  | .sarImmReg => (.imm8, .gpr)
  | .adcMembaseReg | .addMembaseReg | .andMembaseReg | .cmpMembaseReg | .movMembaseReg | .orMembaseReg | .sbbMembaseReg
  | .subMembaseReg | .testMembaseReg | .xorMembaseReg | .movsx16MembaseReg | .movsx8MembaseReg => (.membase, .gpr)
  | .movRegMembase => (.gpr, .membase)
  | .adcRegReg | .addRegReg | .andRegReg | .cmpRegReg | .movRegReg | .orRegReg | .sbbRegReg | .subRegReg | .xorRegReg
  | .sarRegReg | .shlRegReg | .shrRegReg | .movsxdRegReg | .movsx16RegReg | .movzx16RegReg | .cltdRegReg => (.gpr, .gpr)
  | .movsx8RegReg => (.gprByte, .gpr)
  | .addsdXmmXmm | .addssXmmXmm | .divsdXmmXmm | .divssXmmXmm | .movsdXmmXmm | .movssXmmXmm | .mulsdXmmXmm | .mulssXmmXmm
  | .subsdXmmXmm | .subssXmmXmm | .xorpdXmmXmm | .xorpsXmmXmm => (.xmm, .xmm)
  | .movsdMembaseXmm | .movssMembaseXmm => (.membase, .xmm)
  | .movsdXmmMembase | .movssXmmMembase => (.xmm, .membase)
  | .movsdMemdispXmm | .movssMemdispXmm | .mulsdMemdispXmm => (.memdisp, .xmm)
  | .movsdXmmMemdisp | .movssXmmMemdisp => (.xmm, .memdisp)
  | .movsdMemlocalXmm | .movssMemlocalXmm => (.memlocal, .xmm)
  | .movsdXmmMemlocal | .movssXmmMemlocal => (.xmm, .memlocal)
  | .fld64Memlocal | .fldMemlocal | .fstp64Memlocal | .fstpMemlocal | .popMemlocal | .pushMemlocal => (.memlocal, .none)
  | .pushReg => (.gpr, .none)
  | .negReg | .popReg => (.none, .gpr)
  | .callReg => (.none, .regIndirect)
  | .jmpMembase => (.none, .membase)
  | .jmpMemindex => (.none, .memindex)
  | .nop | .ret | .icCall | .phi => (.none, .none)

def x86Op : InsnType → Option X86.Op
  | .adcImmReg | .adcMembaseReg | .adcRegReg => some .adc
  | .addImmReg | .addMembaseReg | .addRegReg => some .add
  | .andMembaseReg | .andRegReg => some .and
  | .cmpImmReg | .cmpMembaseReg | .cmpRegReg => some .cmp
  | .orMembaseReg | .orRegReg => some .or
  | .sbbImmReg | .sbbMembaseReg | .sbbRegReg => some .sbb
  | .subImmReg | .subMembaseReg | .subRegReg => some .sub
  | .testMembaseReg => some .test
  | .xorMembaseReg | .xorRegReg => some .xor
  | .negReg => some .neg
  | .sarImmReg | .sarRegReg => some .sar
  | .shlRegReg => some .shl
  | .shrRegReg => some .shr
  | .movMembaseReg | .movRegMembase | .movRegReg => some .mov
  | .movsx8MembaseReg | .movsx8RegReg => some .movsx8
  | .movsx16MembaseReg | .movsx16RegReg => some .movsx16
  | .movzx16RegReg => some .movzx16
  | .movsxdRegReg => some .movsxd
  | .cltdRegReg => some .cltd
  | .pushReg | .pushMemlocal => some .push
  | .popReg | .popMemlocal => some .pop
  | .callReg => some .call
  | .jmpMembase | .jmpMemindex => some .jmp
  | .nop => some .nop
  | .ret => some .ret
  | .fldMemlocal => some .fld32
  | .fld64Memlocal => some .fld64
  | .fstpMemlocal => some .fstp32
  | .fstp64Memlocal => some .fstp64
  | .movssMembaseXmm | .movssMemdispXmm | .movssMemlocalXmm | .movssXmmMembase | .movssXmmMemdisp | .movssXmmMemlocal
  | .movssXmmXmm => some .movss
  | .movsdMembaseXmm | .movsdMemdispXmm | .movsdMemlocalXmm | .movsdXmmMembase | .movsdXmmMemdisp | .movsdXmmMemlocal
  | .movsdXmmXmm => some .movsd
  | .addssXmmXmm => some .addss
  | .addsdXmmXmm => some .addsd
  | .subssXmmXmm => some .subss
  | .subsdXmmXmm => some .subsd
  | .mulssXmmXmm => some .mulss
  | .mulsdXmmXmm | .mulsdMemdispXmm => some .mulsd
  | .divssXmmXmm => some .divss
  | .divsdXmmXmm => some .divsd
  | .xorpsXmmXmm => some .xorps
  | .xorpdXmmXmm => some .xorpd
  | .icCall | .phi => none

/-- A slot that holds a value of 64 bits takes two words. -/
def localOffset (config : Config) (op : X86.Op) (slot : StackSlot) : Int :=
  if op ∈ [.fld64, .fstp64, .movsd] then slotOffset64 config slot else slotOffset config slot

def Operand.denote (config : Config) (op : X86.Op) : OperandKind → Operand → Option X86.Operand
  | .imm8, .imm v => some (.imm v)
  | .imm32, .imm v => some (.imm v)
  | .gpr, .reg r => some (.reg (x86EncodeReg r.machReg))
  | .gprByte, .reg r => some (.lowByte (x86EncodeReg r.machReg))
  | .regIndirect, .reg r => some (.mem ⟨some (x86EncodeReg r.machReg), Option.none, 0⟩)
  | .xmm, .reg r => some (.xmm (x86EncodeReg r.machReg))
  | .membase, .membase b disp => some (.mem ⟨some (x86EncodeReg b.machReg), Option.none, disp⟩)
  | .memindex, .memindex b i shift =>
    some (.mem ⟨some (x86EncodeReg b.machReg), some (x86EncodeReg i.machReg, shift), 0⟩)
  | .memdisp, .imm v => some (.mem ⟨Option.none, Option.none, v⟩)
  | .memlocal, .memlocal slot => some (.mem ⟨some 5, Option.none, localOffset config op slot⟩)
  | _, _ => Option.none

/-- The operand is a register whose variable has 64 bits; the base of an address is not the value operated on. -/
def Operand.holdsInt64 : Operand → Bool
  | .reg r => r.isInt64
  | _ => false

/-- The instruction that is meant. A single operand is the destination. -/
def Insn.meaning (config : Config) (self : Insn) : Option X86.Inst := do
  let op ← x86Op self.type
  let (srcKind, destKind) := signature self.type
  let wide := op.sized && (decide (config = .x86_64) && (self.src.holdsInt64 || self.dest.holdsInt64))
  if destKind = .none then return ⟨op, wide, self.src.denote config op srcKind, none⟩
  return ⟨op, wide, self.dest.denote config op destKind, self.src.denote config op srcKind⟩

/-! ## Well-formed instructions -/

def fitsInt32 (x : Int) : Prop := -2 ^ 31 ≤ x ∧ x < 2 ^ 31

theorem fitsInt32_zero : fitsInt32 0 := ⟨by decide, by decide⟩

/-- The registers of a configuration. -/
def MachReg.available (config : Config) (reg : MachReg) : Prop := config = .x86_32 → x86EncodeReg reg < 8

def UsePosition.IsGpr (config : Config) (r : UsePosition) : Prop := isXmmReg r.machReg = false ∧ r.machReg.available config

/-- The operand is of its kind: a register exists, and a number fits its field. -/
def Operand.IsOf (config : Config) : OperandKind → Operand → Prop
  | .none, .none => True
  | .imm8, .imm v => -128 ≤ v ∧ v ≤ 127
  | .imm32, .imm v => fitsInt32 v
  | .gpr, .reg r => r.IsGpr config
  | .gprByte, .reg r => r.IsGpr config
  | .regIndirect, .reg r => r.IsGpr config
  | .xmm, .reg r => isXmmReg r.machReg = true ∧ r.machReg.available config
  | .membase, .membase b disp => b.IsGpr config ∧ fitsInt32 disp
  | .memindex, .memindex b i shift => b.IsGpr config ∧ i.IsGpr config ∧ shift < 4
  | .memdisp, .imm v => fitsInt32 v
  | .memlocal, .memlocal slot => fitsInt32 (slotOffset config slot) ∧ fitsInt32 (slotOffset64 config slot)
  | _, _ => False

/-- The types that the table `emitters` of both configurations gives to `insn_encode`. -/
def routedByBoth : List InsnType :=
  [.addsdXmmXmm, .addssXmmXmm, .addImmReg, .addRegReg, .andRegReg, .callReg, .cltdRegReg, .divsdXmmXmm, .divssXmmXmm,
   .fld64Memlocal, .fldMemlocal, .fstp64Memlocal, .fstpMemlocal, .jmpMembase, .jmpMemindex, .movsdMembaseXmm,
   .movsdMemdispXmm, .movsdMemlocalXmm, .movsdXmmMembase, .movsdXmmMemdisp, .movsdXmmMemlocal, .movsdXmmXmm,
   .movssMembaseXmm, .movssMemdispXmm, .movssMemlocalXmm, .movssXmmMembase, .movssXmmMemdisp, .movssXmmMemlocal,
   .movssXmmXmm, .movsxdRegReg, .movsx16MembaseReg, .movsx16RegReg, .movsx8MembaseReg, .movsx8RegReg, .movzx16RegReg,
   .movRegReg, .mulsdMemdispXmm, .mulsdXmmXmm, .mulssXmmXmm, .negReg, .nop, .orRegReg, .popMemlocal, .popReg,
   .pushMemlocal, .pushReg, .ret, .sarImmReg, .sarRegReg, .shlRegReg, .shrRegReg, .subsdXmmXmm, .subssXmmXmm, .subImmReg,
   .subRegReg, .xorpdXmmXmm, .xorpsXmmXmm, .xorMembaseReg, .xorRegReg]

def routed : Config → List InsnType
  | .x86_64 => routedByBoth
  | .x86_32 => routedByBoth ++
    [.adcImmReg, .adcMembaseReg, .adcRegReg, .addMembaseReg, .andMembaseReg, .cmpImmReg, .cmpMembaseReg, .cmpRegReg,
     .movMembaseReg, .movRegMembase, .orMembaseReg, .sbbImmReg, .sbbMembaseReg, .sbbRegReg, .subMembaseReg, .testMembaseReg]

structure Insn.WellFormed (config : Config) (self : Insn) : Prop where
  routed : self.type ∈ routed config
  src : self.src.IsOf config (signature self.type).1
  dest : self.dest.IsOf config (signature self.type).2

def Config.mode : Config → X86.Mode
  | .x86_32 => .bits32
  | .x86_64 => .bits64

/-- The bytes of the instruction decode to its meaning. -/
def DecodesBack (config : Config) (self : Insn) : Prop :=
  ∃ bytes inst, insnEncode config self = some bytes ∧ self.meaning config = some inst ∧
    X86.decode config.mode bytes = some (inst, [])

/-! ## The instructions that are encoded correctly -/

/-- A base register with a displacement, next to a register operand. In 64-bit mode `r12` gets its SIB byte only with
a displacement of one byte, which `xBP` or `r13` as the other register also bring about; in 32-bit mode `xBP` gets no
displacement of zero. -/
def baseEncodable (config : Config) (baseReg : MachReg) (disp : Int) (reg : MachReg) : Bool :=
  match config with
  | .x86_64 => baseReg ≠ .r12 || (isImm8 disp && (disp ≠ 0 || reg = .xBP || reg = .r13))
  | .x86_32 => baseReg ≠ .xBP || disp ≠ 0

/-- A base register of an instruction that has no other operand. -/
def loneBaseEncodable (config : Config) (baseReg : MachReg) (disp : Int) : Bool :=
  baseReg ≠ .xSP && (config = .x86_64 || baseReg ≠ .xBP || disp ≠ 0)

/-- The general-purpose types with an opcode for `r/m ← reg`. -/
def destIsRm : List InsnType :=
  [.adcRegReg, .addRegReg, .andRegReg, .cmpRegReg, .movRegReg, .orRegReg, .sbbRegReg, .subRegReg, .xorRegReg]

def Insn.encodable (config : Config) (self : Insn) : Bool :=
  match self.src, self.dest with
  | .membase b disp, .reg r =>
    self.type ≠ .movsx16MembaseReg && self.type ≠ .movsx8MembaseReg && baseEncodable config b.machReg disp r.machReg &&
      (config = .x86_32 || isXmmReg r.machReg || !b.isInt64 || r.isInt64)
  | .reg r, .membase b disp =>
    baseEncodable config b.machReg disp r.machReg && (config = .x86_32 || isXmmReg r.machReg || !b.isInt64 || r.isInt64)
  | .none, .membase b disp => loneBaseEncodable config b.machReg disp
  | .none, .memindex b i shift =>
    i.machReg ≠ .xSP && (config = .x86_64 || b.machReg ≠ .xBP) &&
      (encodeReg b ≠ 0 || encodeReg i ≠ 0 || shift ≠ 0)
  | .none, .reg r => self.type ≠ .callReg || loneBaseEncodable config r.machReg 0
  | .reg s, .reg d =>
    if self.type ∈ [.sarRegReg, .shlRegReg, .shrRegReg] then s.machReg = .xCX
    else if self.type = .cltdRegReg then s.machReg = .xAX && d.machReg = .xDX
    else if self.type ∈ destIsRm then d.machReg ≠ .xSP
    else s.machReg ≠ .xSP && (self.type ≠ .movsxdRegReg || config = .x86_64) &&
      (self.type ≠ .movsx8RegReg || x86EncodeReg s.machReg < 4 ||
        (config = .x86_64 && (8 ≤ x86EncodeReg s.machReg || 8 ≤ x86EncodeReg d.machReg || s.isInt64 || d.isInt64)))
  | .imm _, .reg r => config = .x86_32 || !isXmmReg r.machReg
  | .reg _, .imm _ => config = .x86_32
  | _, _ => true

end Jato.Arch
