import Jato.Lib.X86

/-!
# The table-driven x86 encoder

`insn_encode` of `arch/x86/encode.c` for both configurations of the architecture. An instruction is encoded from the
flags of its type in `encode_table` and from the registers, the displacement and the immediate of its operands. What
the C code does by `die` or by following a null pointer is `none` here.
-/

namespace Jato.Arch

open Jato.Lib.X86 (Byte)

/-- `CONFIG_X86_32` or `CONFIG_X86_64`. -/
inductive Config where
  | x86_32
  | x86_64
deriving DecidableEq

/-! ## Registers and operands -/

/-- `enum machine_reg`, under the names for both configurations. -/
inductive MachReg where
  | xAX | xCX | xDX | xBX | xSI | xDI | r8 | r9 | r10 | r11 | r12 | r13 | r14 | r15
  | xmm0 | xmm1 | xmm2 | xmm3 | xmm4 | xmm5 | xmm6 | xmm7 | xmm8 | xmm9 | xmm10 | xmm11 | xmm12 | xmm13 | xmm14 | xmm15
  | xSP | xBP
deriving DecidableEq

/-- `x86_register_numbers`. -/
def x86EncodeReg : MachReg → Nat
  | .xAX => 0x00
  | .xCX => 0x01
  | .xDX => 0x02
  | .xBX => 0x03
  | .xSP => 0x04
  | .xBP => 0x05
  | .xSI => 0x06
  | .xDI => 0x07
  | .r8 => 0x08
  | .r9 => 0x09
  | .r10 => 0x0a
  | .r11 => 0x0b
  | .r12 => 0x0c
  | .r13 => 0x0d
  | .r14 => 0x0e
  | .r15 => 0x0f
  | .xmm0 => 0x00
  | .xmm1 => 0x01
  | .xmm2 => 0x02
  | .xmm3 => 0x03
  | .xmm4 => 0x04
  | .xmm5 => 0x05
  | .xmm6 => 0x06
  | .xmm7 => 0x07
  | .xmm8 => 0x08
  | .xmm9 => 0x09
  | .xmm10 => 0x0a
  | .xmm11 => 0x0b
  | .xmm12 => 0x0c
  | .xmm13 => 0x0d
  | .xmm14 => 0x0e
  | .xmm15 => 0x0f

def isXmmReg : MachReg → Bool
  | .xmm0 | .xmm1 | .xmm2 | .xmm3 | .xmm4 | .xmm5 | .xmm6 | .xmm7 => true
  | .xmm8 | .xmm9 | .xmm10 | .xmm11 | .xmm12 | .xmm13 | .xmm14 | .xmm15 => true
  | _ => false

/-- The register of a `struct use_position`, and whether `vm_type_is_int64` holds of its variable. -/
structure UsePosition where
  machReg : MachReg
  isInt64 : Bool
deriving DecidableEq

/-- A `struct stack_slot` with the number of arguments of its frame. -/
structure StackSlot where
  index : Nat
  nrArgs : Nat
deriving DecidableEq

/-- A `struct operand`. The displacement of a `memdisp` instruction is passed as an immediate. -/
inductive Operand where
  | none
  | imm (imm : Int)
  | membase (baseReg : UsePosition) (disp : Int)
  | memindex (baseReg indexReg : UsePosition) (shift : Nat)
  | memlocal (slot : StackSlot)
  | reg (reg : UsePosition)
deriving DecidableEq

/-- The field `reg`, which shares its place with `base_reg`. -/
def Operand.reg? : Operand → Option UsePosition
  | .reg r => some r
  | .membase r _ => some r
  | .memindex r _ _ => some r
  | _ => Option.none

/-- The field `disp`, zero in an operand that has none. -/
def Operand.disp : Operand → Int
  | .membase _ disp => disp
  | _ => 0

def Operand.immediate : Operand → Int
  | .imm v => v
  | _ => 0

def Operand.slot? : Operand → Option StackSlot
  | .memlocal slot => some slot
  | _ => Option.none

def Operand.index? : Operand → Option (UsePosition × Nat)
  | .memindex _ index shift => some (index, shift)
  | _ => Option.none

/-- The types with an entry in `encode_table`. -/
inductive InsnType where
  | adcImmReg | adcMembaseReg | adcRegReg | addsdXmmXmm | addssXmmXmm | addImmReg | addMembaseReg | addRegReg
  | andMembaseReg | andRegReg | callReg | cltdRegReg | cmpImmReg | cmpMembaseReg | cmpRegReg | divsdXmmXmm
  | divssXmmXmm | fld64Memlocal | fldMemlocal | fstp64Memlocal | fstpMemlocal | icCall | jmpMembase
  | jmpMemindex | movsdMembaseXmm | movsdMemdispXmm | movsdMemlocalXmm | movsdXmmMembase | movsdXmmMemdisp
  | movsdXmmMemlocal | movsdXmmXmm | movssMembaseXmm | movssMemdispXmm | movssMemlocalXmm | movssXmmMembase
  | movssXmmMemdisp | movssXmmMemlocal | movssXmmXmm | movsxdRegReg | movsx16MembaseReg | movsx16RegReg
  | movsx8MembaseReg | movsx8RegReg | movzx16RegReg | movMembaseReg | movRegMembase | movRegReg
  | mulsdMemdispXmm | mulsdXmmXmm | mulssXmmXmm | negReg | nop | orMembaseReg | orRegReg | phi | popMemlocal
  | popReg | pushMemlocal | pushReg | ret | sarImmReg | sarRegReg | sbbImmReg | sbbMembaseReg | sbbRegReg
  | shlRegReg | shrRegReg | subsdXmmXmm | subssXmmXmm | subImmReg | subMembaseReg | subRegReg | testMembaseReg
  | xorpdXmmXmm | xorpsXmmXmm | xorMembaseReg | xorRegReg
deriving DecidableEq

structure Insn where
  type : InsnType
  src : Operand
  dest : Operand
deriving DecidableEq

/-! ## Flags -/

namespace Flag

def modRm : Nat := 1 <<< 8
def dirReversed : Nat := 1 <<< 9
def srcNone : Nat := 1 <<< 11
def srcImm : Nat := 1 <<< 12
def srcImm8 : Nat := 1 <<< 13
def srcReg : Nat := 1 <<< 14
def srcAcc : Nat := 1 <<< 15
def srcMem : Nat := 1 <<< 16
def srcMemDispByte : Nat := 1 <<< 17
def srcMemDispFull : Nat := 1 <<< 18
def srcMemdisp : Nat := 1 <<< 19
def srcMemlocal : Nat := 1 <<< 20

def srcMask : Nat :=
  srcNone ||| srcImm ||| srcReg ||| srcAcc ||| srcMem ||| srcMemDispByte ||| srcMemDispFull ||| srcMemdisp ||| srcMemlocal

def dstNone : Nat := 1 <<< 21
def dstReg : Nat := 1 <<< 22
def dstAcc : Nat := 1 <<< 23
def dstMem : Nat := 1 <<< 24
def dstMemDispByte : Nat := 1 <<< 25
def dstMemDispFull : Nat := 1 <<< 26
def dstMemdisp : Nat := 1 <<< 27
def dstMemlocal : Nat := 1 <<< 28

def dstMask : Nat :=
  dstReg ||| dstAcc ||| dstMem ||| dstMemDispByte ||| dstMemDispFull ||| dstMemdisp ||| dstMemlocal

def memDispMask : Nat := srcMemDispByte ||| srcMemDispFull ||| dstMemDispByte ||| dstMemDispFull

def escapeOpcByte : Nat := 1 <<< 29
def repnePrefix : Nat := 1 <<< 30
def repePrefix : Nat := 1 <<< 31
def opcExt : Nat := 1 <<< 32
def opcReg : Nat := 1 <<< 33
def rexWPrefix : Nat := 1 <<< 34
def index : Nat := 1 <<< 35
def operandSizePrefix : Nat := 1 <<< 36
def widthFull : Nat := 1 <<< 37
def width64 : Nat := 1 <<< 38

def addmodeImm8Reg : Nat := srcImm8 ||| dstReg ||| dirReversed
def addmodeImmReg : Nat := srcImm ||| dstReg ||| dirReversed
def addmodeImplied : Nat := srcNone ||| dstNone
def addmodeMemdispReg : Nat := srcMemdisp ||| dstReg ||| modRm
def addmodeMemlocal : Nat := srcMemlocal ||| dstMemlocal ||| modRm
def addmodeMemlocalReg : Nat := srcMemlocal ||| dstReg ||| modRm
def addmodeReg : Nat := srcReg ||| dstReg
def addmodeRegMemdisp : Nat := srcReg ||| dstMemdisp ||| modRm ||| dirReversed
def addmodeRegMemlocal : Nat := srcReg ||| dstMemlocal ||| modRm ||| dirReversed
def addmodeRegReg : Nat := srcReg ||| dstReg ||| modRm
def addmodeRegRm : Nat := srcReg ||| modRm ||| dirReversed
def addmodeRm : Nat := srcReg ||| modRm ||| dstNone ||| dirReversed
def addmodeRmReg : Nat := dstReg ||| modRm

def opcode (opc : Nat) : Nat := opc
def opcodeMask : Nat := 0x00000000000000ff
def flagsMask : Nat := 0x1fffffffffffff00
def opcodeExtShift : Nat := 61
def opcodeExt (ext : Nat) : Nat := (ext <<< opcodeExtShift) ||| opcExt ||| modRm
def opcodeExtMask : Nat := 0xe000000000000000

end Flag

def invalidInsn : Nat := 0

open Flag in
def encodeTable : InsnType → Nat
  | .adcImmReg => opcode 0x81 ||| opcodeExt 2 ||| addmodeImmReg ||| widthFull ||| rexWPrefix
  | .adcMembaseReg => opcode 0x13 ||| addmodeRmReg ||| widthFull ||| rexWPrefix
  | .adcRegReg => opcode 0x11 ||| addmodeRegReg ||| dirReversed ||| widthFull ||| rexWPrefix
  | .addsdXmmXmm => repnePrefix ||| escapeOpcByte ||| opcode 0x58 ||| addmodeRegReg ||| width64
  | .addssXmmXmm => repePrefix ||| escapeOpcByte ||| opcode 0x58 ||| addmodeRegReg ||| widthFull
  | .addImmReg => opcode 0x81 ||| opcodeExt 0 ||| addmodeImmReg ||| widthFull ||| rexWPrefix
  | .addMembaseReg => opcode 0x03 ||| addmodeRmReg ||| widthFull ||| rexWPrefix
  | .addRegReg => opcode 0x01 ||| addmodeRegReg ||| dirReversed ||| widthFull ||| rexWPrefix
  | .andMembaseReg => opcode 0x23 ||| addmodeRmReg ||| widthFull ||| rexWPrefix
  | .andRegReg => opcode 0x21 ||| addmodeRegReg ||| dirReversed ||| widthFull ||| rexWPrefix
  | .callReg => opcode 0xff ||| opcodeExt 2 ||| addmodeRm ||| widthFull
  | .cltdRegReg => opcode 0x99 ||| widthFull ||| rexWPrefix
  | .cmpImmReg => opcode 0x81 ||| opcodeExt 7 ||| addmodeImmReg ||| widthFull ||| rexWPrefix
  | .cmpMembaseReg => opcode 0x3b ||| addmodeRmReg ||| widthFull ||| rexWPrefix
  | .cmpRegReg => opcode 0x39 ||| addmodeRegReg ||| dirReversed ||| widthFull ||| rexWPrefix
  | .divsdXmmXmm => repnePrefix ||| escapeOpcByte ||| opcode 0x5e ||| addmodeRegReg ||| width64
  | .divssXmmXmm => repePrefix ||| escapeOpcByte ||| opcode 0x5e ||| addmodeRegReg ||| widthFull
  | .fld64Memlocal => opcode 0xdd ||| opcodeExt 0 ||| addmodeMemlocal ||| width64
  | .fldMemlocal => opcode 0xd9 ||| opcodeExt 0 ||| addmodeMemlocal ||| widthFull
  | .fstp64Memlocal => opcode 0xdd ||| opcodeExt 3 ||| addmodeMemlocal ||| width64
  | .fstpMemlocal => opcode 0xd9 ||| opcodeExt 3 ||| addmodeMemlocal ||| widthFull
  | .icCall => invalidInsn
  | .jmpMembase => opcode 0xff ||| opcodeExt 4 ||| addmodeRm ||| widthFull
  | .jmpMemindex => opcode 0xff ||| opcodeExt 4 ||| addmodeRm ||| dirReversed ||| index ||| widthFull
  | .movsdMembaseXmm => repnePrefix ||| escapeOpcByte ||| opcode 0x10 ||| addmodeRmReg ||| width64
  | .movsdMemdispXmm => repnePrefix ||| escapeOpcByte ||| opcode 0x10 ||| addmodeMemdispReg ||| width64
  | .movsdMemlocalXmm => repnePrefix ||| escapeOpcByte ||| opcode 0x10 ||| addmodeMemlocalReg ||| width64
  | .movsdXmmMembase => repnePrefix ||| escapeOpcByte ||| opcode 0x11 ||| addmodeRegRm ||| width64
  | .movsdXmmMemdisp => repnePrefix ||| escapeOpcByte ||| opcode 0x11 ||| addmodeRegMemdisp ||| width64
  | .movsdXmmMemlocal => repnePrefix ||| escapeOpcByte ||| opcode 0x11 ||| addmodeRegMemlocal ||| width64
  | .movsdXmmXmm => repnePrefix ||| escapeOpcByte ||| opcode 0x10 ||| addmodeRegReg ||| width64
  | .movssMembaseXmm => repePrefix ||| escapeOpcByte ||| opcode 0x10 ||| addmodeRmReg ||| widthFull
  | .movssMemdispXmm => repePrefix ||| escapeOpcByte ||| opcode 0x10 ||| addmodeMemdispReg ||| width64
  | .movssMemlocalXmm => repePrefix ||| escapeOpcByte ||| opcode 0x10 ||| addmodeMemlocalReg ||| widthFull
  | .movssXmmMembase => repePrefix ||| escapeOpcByte ||| opcode 0x11 ||| addmodeRegRm ||| widthFull
  | .movssXmmMemdisp => repePrefix ||| escapeOpcByte ||| opcode 0x11 ||| addmodeRegMemdisp ||| width64
  | .movssXmmMemlocal => repePrefix ||| escapeOpcByte ||| opcode 0x11 ||| addmodeRegMemlocal ||| widthFull
  | .movssXmmXmm => repePrefix ||| escapeOpcByte ||| opcode 0x10 ||| addmodeRegReg ||| widthFull
  | .movsxdRegReg => opcode 0x63 ||| addmodeRegReg ||| widthFull ||| rexWPrefix
  | .movsx16MembaseReg => opcode 0xbf ||| escapeOpcByte ||| addmodeRegReg ||| widthFull ||| rexWPrefix
  | .movsx16RegReg => opcode 0xbf ||| escapeOpcByte ||| addmodeRegReg ||| widthFull ||| rexWPrefix
  | .movsx8MembaseReg => opcode 0xbe ||| escapeOpcByte ||| addmodeRegReg ||| widthFull ||| rexWPrefix
  | .movsx8RegReg => opcode 0xbe ||| escapeOpcByte ||| addmodeRegReg ||| widthFull ||| rexWPrefix
  | .movzx16RegReg => opcode 0xb7 ||| escapeOpcByte ||| addmodeRegReg ||| widthFull ||| rexWPrefix
  | .movMembaseReg => opcode 0x8b ||| addmodeRmReg ||| widthFull ||| rexWPrefix
  | .movRegMembase => opcode 0x89 ||| addmodeRegRm ||| widthFull ||| rexWPrefix
  | .movRegReg => opcode 0x89 ||| addmodeRegReg ||| dirReversed ||| widthFull ||| rexWPrefix
  | .mulsdMemdispXmm => repnePrefix ||| escapeOpcByte ||| opcode 0x59 ||| addmodeMemdispReg ||| width64
  | .mulsdXmmXmm => repnePrefix ||| escapeOpcByte ||| opcode 0x59 ||| addmodeRegReg ||| width64
  | .mulssXmmXmm => repePrefix ||| escapeOpcByte ||| opcode 0x59 ||| addmodeRegReg ||| widthFull
  | .negReg => opcode 0xf7 ||| opcodeExt 3 ||| addmodeReg ||| dirReversed ||| widthFull ||| rexWPrefix
  | .nop => opcode 0x90 ||| addmodeImplied
  | .orMembaseReg => opcode 0x0b ||| addmodeRmReg ||| widthFull ||| rexWPrefix
  | .orRegReg => opcode 0x09 ||| addmodeRegReg ||| dirReversed ||| widthFull ||| rexWPrefix
  | .phi => invalidInsn
  | .popMemlocal => opcode 0x8f ||| opcodeExt 0 ||| addmodeMemlocal ||| widthFull
  | .popReg => opcode 0x58 ||| opcReg ||| addmodeReg ||| dirReversed ||| widthFull
  | .pushMemlocal => opcode 0xff ||| opcodeExt 6 ||| addmodeMemlocal ||| widthFull
  | .pushReg => opcode 0x50 ||| opcReg ||| addmodeReg ||| widthFull
  | .ret => opcode 0xc3 ||| addmodeImplied
  | .sarImmReg => opcode 0xc1 ||| opcodeExt 7 ||| addmodeImm8Reg ||| dirReversed ||| widthFull ||| rexWPrefix
  | .sarRegReg => opcode 0xd3 ||| opcodeExt 7 ||| addmodeRegReg ||| dirReversed ||| widthFull ||| rexWPrefix
  | .sbbImmReg => opcode 0x81 ||| opcodeExt 3 ||| addmodeImmReg ||| widthFull ||| rexWPrefix
  | .sbbMembaseReg => opcode 0x1b ||| addmodeRmReg ||| widthFull ||| rexWPrefix
  | .sbbRegReg => opcode 0x19 ||| addmodeRegReg ||| dirReversed ||| widthFull ||| rexWPrefix
  | .shlRegReg => opcode 0xd3 ||| opcodeExt 4 ||| addmodeRegReg ||| dirReversed ||| widthFull ||| rexWPrefix
  | .shrRegReg => opcode 0xd3 ||| opcodeExt 5 ||| addmodeRegReg ||| dirReversed ||| widthFull ||| rexWPrefix
  | .subsdXmmXmm => repnePrefix ||| escapeOpcByte ||| opcode 0x5c ||| addmodeRegReg ||| width64
  | .subssXmmXmm => repePrefix ||| escapeOpcByte ||| opcode 0x5c ||| addmodeRegReg ||| widthFull
  | .subImmReg => opcode 0x81 ||| opcodeExt 5 ||| addmodeImmReg ||| widthFull ||| rexWPrefix
  | .subMembaseReg => opcode 0x2b ||| addmodeRmReg ||| widthFull ||| rexWPrefix
  | .subRegReg => opcode 0x29 ||| addmodeRegReg ||| dirReversed ||| widthFull ||| rexWPrefix
  | .testMembaseReg => opcode 0x85 ||| addmodeRmReg ||| widthFull ||| rexWPrefix
  | .xorpdXmmXmm => operandSizePrefix ||| escapeOpcByte ||| opcode 0x57 ||| addmodeRegReg ||| widthFull
  | .xorpsXmmXmm => escapeOpcByte ||| opcode 0x57 ||| addmodeRegReg ||| widthFull
  | .xorMembaseReg => opcode 0x33 ||| addmodeRmReg ||| widthFull ||| rexWPrefix
  | .xorRegReg => opcode 0x31 ||| addmodeRegReg ||| dirReversed ||| widthFull ||| rexWPrefix

/-- `flags & mask`, as a condition. -/
def has (flags mask : Nat) : Bool := flags &&& mask != 0

/-! ## Emitting bytes -/

def isImm8 (imm : Int) : Bool := decide (-128 ≤ imm) && decide (imm ≤ 127)

/-- The value of an `int32_t` that is assigned a wider value. -/
def toInt32 (x : Int) : Int := x.bmod (2 ^ 32)

def emit (c : Int) : List Byte := [BitVec.ofInt 8 c]

def emitImm32 (imm : Int) : List Byte :=
  let val := BitVec.ofInt 32 imm
  [val.extractLsb' 0 8, val.extractLsb' 8 8, val.extractLsb' 16 8, val.extractLsb' 24 8]

def emitImm (imm : Int) : List Byte := if isImm8 imm then emit imm else emitImm32 imm

def x86EncodeModRm (mod regOpcode rm : Nat) : Nat := ((mod &&& 0x3) <<< 6) ||| ((regOpcode &&& 0x7) <<< 3) ||| (rm &&& 0x7)

def x86EncodeSib (scale index base : Nat) : Nat := ((scale &&& 0x3) <<< 6) ||| ((index &&& 0x7) <<< 3) ||| (base &&& 0x7)

def encodeReg (reg : UsePosition) : Nat := x86EncodeReg reg.machReg &&& 0x7

/-! ## Stack slots -/

/-- `sizeof(unsigned long)`. -/
def Config.wordSize : Config → Nat
  | .x86_32 => 4
  | .x86_64 => 8

def argsStartOffset (config : Config) : Nat := 2 * config.wordSize

def indexToOffset (config : Config) (idx size nrArgs : Nat) : Int :=
  if idx < nrArgs then argsStartOffset config + idx * config.wordSize
  else -((idx - nrArgs + size) * config.wordSize : Nat)

def slotOffset (config : Config) (slot : StackSlot) : Int := indexToOffset config slot.index 1 slot.nrArgs

def slotOffset64 (config : Config) (slot : StackSlot) : Int := indexToOffset config slot.index 2 slot.nrArgs

/-! ## The ModRM and SIB bytes -/

def modSrcEncode (flags : Nat) : Option Nat :=
  let src := flags &&& Flag.srcMask
  if src = Flag.srcMemdisp ∨ src = Flag.srcMem then some 0x00
  else if src = Flag.srcMemDispByte then some 0x01
  else if src = Flag.srcMemDispFull ∨ src = Flag.srcMemlocal then some 0x02
  else if src = Flag.srcReg then some 0x03
  else none

def modDestEncode (flags : Nat) : Option Nat :=
  let dst := flags &&& Flag.dstMask
  if dst = Flag.dstMemdisp ∨ dst = Flag.dstMem then some 0x00
  else if dst = Flag.dstMemDispByte then some 0x01
  else if dst = Flag.dstMemDispFull ∨ dst = Flag.dstMemlocal then some 0x02
  else if dst = Flag.dstReg then some 0x03
  else none

def operandUsesReg (operand : Operand) (reg : MachReg) : Bool :=
  match operand.reg? with
  | some r => decide (r.machReg = reg)
  | none => false

def insnUsesReg (self : Insn) (reg : MachReg) : Bool := operandUsesReg self.src reg || operandUsesReg self.dest reg

def insnNeedDisp (config : Config) (self : Insn) : Bool :=
  match config with
  | .x86_64 => insnUsesReg self .r13 || insnUsesReg self .xBP
  | .x86_32 => false

def insnNeedSib (config : Config) (self : Insn) (flags : Nat) : Option Bool :=
  if has flags Flag.index then some true
  else if decide (config = .x86_64) && has flags Flag.dstNone && insnUsesReg self .r12 then some true
  else if has flags Flag.opcExt then some false
  else if has flags Flag.dirReversed then
    if has flags (Flag.dstMemdisp ||| Flag.dstMemlocal) then some false
    else self.dest.reg?.map fun reg =>
      if decide (config = .x86_64) && has flags Flag.dstMemDispByte && decide (reg.machReg = .r12) then true
      else decide (reg.machReg = .xSP)
  else
    if has flags (Flag.srcMemdisp ||| Flag.srcMemlocal) then some false
    else self.src.reg?.map fun reg =>
      if decide (config = .x86_64) && has flags Flag.srcMemDispByte && decide (reg.machReg = .r12) then true
      else decide (reg.machReg = .xSP)

/-- The operand that the fields `mod` and `rm` are for. -/
def rmOperand (self : Insn) (flags : Nat) : Operand := if has flags Flag.dirReversed then self.dest else self.src

def insnEncodeSib (config : Config) (self : Insn) (flags : Nat) : Option Nat := do
  let needSib ← insnNeedSib config self flags
  if needSib then
    let (index, shift) ←
      (if has flags Flag.index then (rmOperand self flags).index?.map fun (reg, shift) => (encodeReg reg, shift)
      else some (0x04, 0x00) : Option (Nat × Nat))
    let base ← (rmOperand self flags).reg?.map encodeReg
    return x86EncodeSib shift index base
  else return 0

def insnEncodeRm (self : Insn) (flags : Nat) : Option Nat :=
  if has flags Flag.dirReversed then
    if has flags Flag.dstMemdisp then some 0x05
    else if has flags Flag.dstMemlocal then some (x86EncodeReg .xBP)
    else self.dest.reg?.map encodeReg
  else
    if has flags Flag.srcMemdisp then some 0x05
    else if has flags Flag.srcMemlocal then some (x86EncodeReg .xBP)
    else self.src.reg?.map encodeReg

def insnEncodeReg (self : Insn) (flags : Nat) : Option Nat :=
  if has flags Flag.dirReversed then self.src.reg?.map encodeReg else self.dest.reg?.map encodeReg

def insnEncodeMod (config : Config) (self : Insn) (flags : Nat) : Option Nat :=
  if has flags Flag.index then
    match config with
    | .x86_64 => some (if insnUsesReg self .r13 || insnUsesReg self .xBP then 0x01 else 0x00)
    | .x86_32 => some 0x00
  else if has flags Flag.dirReversed then modDestEncode flags
  else modSrcEncode flags

def insnEncodeModRm (config : Config) (self : Insn) (flags opcExt : Nat) : Option Nat := do
  let needSib ← insnNeedSib config self flags
  let mod ← insnEncodeMod config self flags
  let regOpcode ← (if has flags Flag.opcExt then some opcExt else insnEncodeReg self flags : Option Nat)
  let rm ← (if needSib then some 0x04 else insnEncodeRm self flags : Option Nat)
  return x86EncodeModRm mod regOpcode rm

/-! ## The REX prefix -/

def rexW : Nat := 0x48
def rexR : Nat := 0x44
def rexX : Nat := 0x42
def rexB : Nat := 0x41

def operandIsRegHigh (operand : Operand) : Bool :=
  match operand.reg? with
  | some r => has (x86EncodeReg r.machReg) 0x8
  | none => false

def operandIsIndexRegHigh (operand : Operand) : Bool :=
  match operand.index? with
  | some (r, _) => has (x86EncodeReg r.machReg) 0x8
  | none => false

def operandIsReg64 (operand : Operand) : Bool :=
  match operand.reg? with
  | some r => r.isInt64
  | none => false

def insnRexOperand64 (self : Insn) (flags : Nat) : Nat :=
  if !has flags Flag.rexWPrefix then 0
  else if operandIsReg64 self.src || operandIsReg64 self.dest then rexW
  else 0

def insnRexPrefix (config : Config) (self : Insn) (flags : Nat) : Nat :=
  match config with
  | .x86_32 => 0
  | .x86_64 =>
    if has flags Flag.dirReversed then
      insnRexOperand64 self flags ||| (if operandIsRegHigh self.src then rexR else 0) |||
        (if operandIsRegHigh self.dest then rexB else 0) ||| (if operandIsIndexRegHigh self.dest then rexX else 0)
    else
      insnRexOperand64 self flags ||| (if operandIsRegHigh self.src then rexB else 0) |||
        (if operandIsIndexRegHigh self.src then rexX else 0) ||| (if operandIsRegHigh self.dest then rexR else 0)

/-! ## The encoder -/

def insnSlotOffset (config : Config) (flags : Nat) (slot : StackSlot) : Int :=
  if has flags Flag.width64 then toInt32 (slotOffset64 config slot) else toInt32 (slotOffset config slot)

/-- The displacement of the instruction, and its flags with those for the size of the displacement. -/
def insnDisp (config : Config) (self : Insn) (flags : Nat) : Option (Int × Nat) :=
  if has flags (Flag.srcMemlocal ||| Flag.dstMemlocal) then
    (rmOperand self flags).slot?.map fun slot => (insnSlotOffset config flags slot, flags)
  else if has flags (Flag.srcMemdisp ||| Flag.dstMemdisp) then
    some (toInt32 (rmOperand self flags).immediate, flags)
  else if has flags Flag.dirReversed then
    if has flags Flag.dstReg then some (0, flags)
    else
      let disp := if has flags Flag.index then 0 else toInt32 self.dest.disp
      if decide (disp = 0) && !insnNeedDisp config self then some (disp, flags ||| Flag.dstMem)
      else if isImm8 disp then some (disp, flags ||| Flag.dstMemDispByte)
      else some (disp, flags ||| Flag.dstMemDispFull)
  else
    if has flags Flag.srcReg then some (0, flags)
    else
      let disp := if has flags Flag.index then 0 else toInt32 self.src.disp
      if decide (disp = 0) && !insnNeedDisp config self then some (disp, flags ||| Flag.srcMem)
      else if isImm8 disp then some (disp, flags ||| Flag.srcMemDispByte)
      else some (disp, flags ||| Flag.srcMemDispFull)

def insnFlags (encode : Nat) : Nat := encode &&& Flag.flagsMask

def insnOpcExt (encode : Nat) : Nat := (encode &&& Flag.opcodeExtMask) >>> Flag.opcodeExtShift

def insnOpcode (encode : Nat) : Nat := encode &&& Flag.opcodeMask

structure X86Insn where
  flags : Nat
  rexPrefix : Nat
  opcode : Nat
  modRm : Nat
  sib : Nat
  imm : Int
  disp : Int

def x86InsnEncode (insn : X86Insn) : List Byte :=
  (if has insn.flags Flag.repnePrefix then emit 0xf2 else []) ++
  ((if has insn.flags Flag.repePrefix then emit 0xf3 else []) ++
  ((if has insn.flags Flag.operandSizePrefix then emit 0x66 else []) ++
  ((if insn.rexPrefix ≠ 0 then emit insn.rexPrefix else []) ++
  ((if has insn.flags Flag.escapeOpcByte then emit 0x0f else []) ++
  (emit insn.opcode ++
  ((if has insn.flags Flag.modRm then emit insn.modRm else []) ++
  ((if insn.sib ≠ 0 then emit insn.sib else []) ++
  ((if has insn.flags Flag.memDispMask then emitImm insn.disp else []) ++
  ((if has insn.flags (Flag.srcMemdisp ||| Flag.dstMemdisp ||| Flag.srcMemlocal ||| Flag.dstMemlocal) then
      emitImm32 insn.disp else []) ++
  ((if has insn.flags Flag.srcImm8 then emit insn.imm else []) ++
  (if has insn.flags Flag.srcImm then emitImm32 insn.imm else [])))))))))))

def insnEncode (config : Config) (self : Insn) : Option (List Byte) := do
  let encode := encodeTable self.type
  if encode = invalidInsn then none
  else
    let (disp, flags) ← insnDisp config self (insnFlags encode)
    let rexPrefix := insnRexPrefix config self flags
    let reg ← (if has flags Flag.opcReg then (rmOperand self flags).reg?.map encodeReg else some 0 : Option Nat)
    let modRm ← (if has flags Flag.modRm then insnEncodeModRm config self flags (insnOpcExt encode) else some 0 : Option Nat)
    let sib ← (if has flags Flag.modRm then insnEncodeSib config self flags else some 0 : Option Nat)
    let imm :=
      if has flags (Flag.srcImm8 ||| Flag.srcImm) then
        toInt32 (if has flags Flag.dirReversed then self.src.immediate else self.dest.immediate)
      else 0
    return x86InsnEncode
      { flags, rexPrefix, opcode := insnOpcode encode + reg, modRm, sib, imm, disp }

end Jato.Arch
