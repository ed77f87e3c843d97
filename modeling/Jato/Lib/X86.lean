import Mathlib.Data.BitVec

/-!
# The x86 instruction format

A decoder for the instruction format in 32-bit and 64-bit mode: legacy prefixes, the REX prefix, the escape byte, the
opcode, the ModRM byte with its SIB byte and displacement, and the immediate. `decode` reads one instruction and
returns what is left of the bytes. The opcode map holds a part of the integer, x87 and SSE instructions.

The lemmas say how each part is read back: `takeLegacy_legacyBytes`, `takeRex_rexBytes`, `takeImm8_ofInt`,
`takeImm32_imm32Bytes`, and `decode_opcode` for all that stands before the operands.
-/

namespace Jato.Lib.X86

abbrev Byte : Type := BitVec 8

inductive Mode where
  | bits32
  | bits64
deriving DecidableEq

/-! ## Instructions -/

/-- `base + index * 2 ^ scale + disp`. -/
structure Mem where
  base : Option Nat
  index : Option (Nat × Nat)
  disp : Int
deriving DecidableEq

/-- Registers are numbered as the processor does; `highByte` is the second byte of one of the first four. -/
inductive Operand where
  | reg (n : Nat)
  | lowByte (n : Nat)
  | highByte (n : Nat)
  | xmm (n : Nat)
  | mem (m : Mem)
  | ripRelative (disp : Int)
  | imm (v : Int)
deriving DecidableEq

inductive Op where
  | adc | add | and | cmp | or | sbb | sub | test | xor | neg | sar | shl | shr
  | mov | movsx8 | movsx16 | movzx16 | movsxd | arpl | cltd
  | push | pop | call | jmp | nop | ret
  | fld32 | fld64 | fstp32 | fstp64
  | movss | movsd | addss | addsd | subss | subsd | mulss | mulsd | divss | divsd | xorps | xorpd
deriving DecidableEq

/-- The bit `W` of the REX prefix selects 64-bit operands. -/
def Op.sized : Op → Bool
  | .adc | .add | .and | .cmp | .or | .sbb | .sub | .test | .xor | .neg | .sar | .shl | .shr
  | .mov | .movsx8 | .movsx16 | .movzx16 | .movsxd | .cltd => true
  | _ => false

structure Inst where
  op : Op
  wide : Bool
  dst : Option Operand
  src : Option Operand
deriving DecidableEq

/-! ## Prefixes -/

structure Legacy where
  repne : Bool
  repe : Bool
  operandSize : Bool
deriving DecidableEq

structure Rex where
  w : Bool
  r : Bool
  x : Bool
  b : Bool
deriving DecidableEq

def Rex.plain : Rex := ⟨false, false, false, false⟩

def takeLegacy (legacy : Legacy) : List Byte → Legacy × List Byte
  | [] => (legacy, [])
  | byte :: rest =>
    if byte = 0xf2#8 then takeLegacy { legacy with repne := true } rest
    else if byte = 0xf3#8 then takeLegacy { legacy with repe := true } rest
    else if byte = 0x66#8 then takeLegacy { legacy with operandSize := true } rest
    else (legacy, byte :: rest)

/-- In 64-bit mode the bytes `0x40` to `0x4f` are REX prefixes. -/
def takeRex : Mode → List Byte → Option Rex × List Byte
  | .bits64, byte :: rest =>
    if byte.toNat / 16 = 4 then
      (some ⟨byte.getLsbD 3, byte.getLsbD 2, byte.getLsbD 1, byte.getLsbD 0⟩, rest)
    else (none, byte :: rest)
  | _, bytes => (none, bytes)

def takeEscape : List Byte → Bool × List Byte
  | [] => (false, [])
  | byte :: rest => if byte = 0x0f#8 then (true, rest) else (false, byte :: rest)

/-! ## The opcode map -/

/-- What the bits of a register field of an instruction name. -/
inductive RegKind where
  | gpr
  | byte
  | xmm
deriving DecidableEq

/-- Without a REX prefix the byte registers 4 to 7 are the second bytes of the registers 0 to 3. -/
def RegKind.operand (hasRex : Bool) (n : Nat) : RegKind → Operand
  | .gpr => .reg n
  | .byte => if !hasRex && decide (4 ≤ n) then .highByte (n - 4) else .lowByte n
  | .xmm => .xmm n

/-- The operand next to the one behind the ModRM byte. -/
inductive Other where
  | single
  | memOnly
  | fromReg
  | toReg (rm : RegKind)
  | imm8
  | imm32
  | shiftCount
deriving DecidableEq

/-- The operands of an opcode; `kind` is the kind of the register field. -/
inductive Form where
  | implied (dst src : Option Operand)
  | inOpcode
  | modRm (kind : RegKind) (other : Other)
deriving DecidableEq

/-- An opcode with its operands, and the operation for the value of the register field where that selects it. -/
structure Entry where
  form : Form
  op : Nat → Option Op

def just (form : Form) (op : Op) : Option Entry := some ⟨form, fun _ => some op⟩

def group1 : Nat → Option Op
  | 0 => some .add
  | 1 => some .or
  | 2 => some .adc
  | 3 => some .sbb
  | 4 => some .and
  | 5 => some .sub
  | 6 => some .xor
  | 7 => some .cmp
  | _ => none

def group2 : Nat → Option Op
  | 4 => some .shl
  | 5 => some .shr
  | 7 => some .sar
  | _ => none

def group3 : Nat → Option Op
  | 3 => some .neg
  | _ => none

def group5 : Nat → Option Op
  | 2 => some .call
  | 4 => some .jmp
  | 6 => some .push
  | _ => none

def floatGroup (load store : Op) : Nat → Option Op
  | 0 => some load
  | 3 => some store
  | _ => none

/-- The one-byte opcodes. The operands of `test` have no order. -/
def oneByte (mode : Mode) (opcode : Byte) : Option Entry :=
  match opcode.toNat with
  | 0x01 => just (.modRm .gpr .fromReg) .add
  | 0x03 => just (.modRm .gpr (.toReg .gpr)) .add
  | 0x09 => just (.modRm .gpr .fromReg) .or
  | 0x0b => just (.modRm .gpr (.toReg .gpr)) .or
  | 0x11 => just (.modRm .gpr .fromReg) .adc
  | 0x13 => just (.modRm .gpr (.toReg .gpr)) .adc
  | 0x19 => just (.modRm .gpr .fromReg) .sbb
  | 0x1b => just (.modRm .gpr (.toReg .gpr)) .sbb
  | 0x21 => just (.modRm .gpr .fromReg) .and
  | 0x23 => just (.modRm .gpr (.toReg .gpr)) .and
  | 0x29 => just (.modRm .gpr .fromReg) .sub
  | 0x2b => just (.modRm .gpr (.toReg .gpr)) .sub
  | 0x31 => just (.modRm .gpr .fromReg) .xor
  | 0x33 => just (.modRm .gpr (.toReg .gpr)) .xor
  | 0x39 => just (.modRm .gpr .fromReg) .cmp
  | 0x3b => just (.modRm .gpr (.toReg .gpr)) .cmp
  | 0x63 => match mode with
    | .bits32 => just (.modRm .gpr .fromReg) .arpl
    | .bits64 => just (.modRm .gpr (.toReg .gpr)) .movsxd
  | 0x81 => some ⟨.modRm .gpr .imm32, group1⟩
  | 0x85 => just (.modRm .gpr (.toReg .gpr)) .test
  | 0x89 => just (.modRm .gpr .fromReg) .mov
  | 0x8b => just (.modRm .gpr (.toReg .gpr)) .mov
  | 0x8f => some ⟨.modRm .gpr .single, fun ext => if ext = 0 then some .pop else none⟩
  | 0x90 => just (.implied none none) .nop
  | 0x99 => just (.implied (some (.reg 2)) (some (.reg 0))) .cltd
  | 0xc1 => some ⟨.modRm .gpr .imm8, group2⟩
  | 0xc3 => just (.implied none none) .ret
  | 0xc7 => some ⟨.modRm .gpr .imm32, fun ext => if ext = 0 then some .mov else none⟩
  | 0xd3 => some ⟨.modRm .gpr .shiftCount, group2⟩
  | 0xd9 => some ⟨.modRm .gpr .memOnly, floatGroup .fld32 .fstp32⟩
  | 0xdd => some ⟨.modRm .gpr .memOnly, floatGroup .fld64 .fstp64⟩
  | 0xf7 => some ⟨.modRm .gpr .single, group3⟩
  | 0xff => some ⟨.modRm .gpr .single, group5⟩
  | n => if n / 8 = 0x0a then just .inOpcode .push else if n / 8 = 0x0b then just .inOpcode .pop else none

/-- The SSE instructions on one value, with the operation for single or double precision. -/
def scalar (move plus times minus by_ : Op) (opcode : Byte) : Option Entry :=
  match opcode.toNat with
  | 0x10 => just (.modRm .xmm (.toReg .xmm)) move
  | 0x11 => just (.modRm .xmm .fromReg) move
  | 0x58 => just (.modRm .xmm (.toReg .xmm)) plus
  | 0x59 => just (.modRm .xmm (.toReg .xmm)) times
  | 0x5c => just (.modRm .xmm (.toReg .xmm)) minus
  | 0x5e => just (.modRm .xmm (.toReg .xmm)) by_
  | _ => none

/-- The opcodes behind the escape byte, where a legacy prefix is part of the opcode. -/
def twoByte (legacy : Legacy) (opcode : Byte) : Option Entry :=
  match legacy with
  | ⟨true, false, false⟩ => scalar .movsd .addsd .mulsd .subsd .divsd opcode
  | ⟨false, true, false⟩ => scalar .movss .addss .mulss .subss .divss opcode
  | ⟨false, false, true⟩ => if opcode = 0x57#8 then just (.modRm .xmm (.toReg .xmm)) .xorpd else none
  | ⟨false, false, false⟩ => match opcode.toNat with
    | 0x57 => just (.modRm .xmm (.toReg .xmm)) .xorps
    | 0xb7 => just (.modRm .gpr (.toReg .gpr)) .movzx16
    | 0xbe => just (.modRm .gpr (.toReg .byte)) .movsx8
    | 0xbf => just (.modRm .gpr (.toReg .gpr)) .movsx16
    | _ => none
  | _ => none

def opcodeMap (mode : Mode) (legacy : Legacy) (escape : Bool) (opcode : Byte) : Option Entry :=
  if escape then twoByte legacy opcode
  else if legacy = ⟨false, false, false⟩ then oneByte mode opcode
  else none

/-! ## Operands -/

def takeImm8 : List Byte → Option (Int × List Byte)
  | byte :: rest => some (byte.toInt, rest)
  | [] => none

def takeImm32 : List Byte → Option (Int × List Byte)
  | b0 :: b1 :: b2 :: b3 :: rest => some ((b3 ++ b2 ++ b1 ++ b0 : BitVec 32).toInt, rest)
  | _ => none

/-- The displacement that the field `mod` of the ModRM byte asks for. -/
def takeDisp (mod : Nat) (bytes : List Byte) : Option (Int × List Byte) :=
  if mod = 1 then takeImm8 bytes
  else if mod = 2 then takeImm32 bytes
  else some (0, bytes)

/-- A register field of three bits, extended by a bit of the REX prefix. -/
def regNumber (ext : Bool) (bits : Nat) : Nat := if ext then bits + 8 else bits

/-- Index 4 is no index, and base 5 without a displacement is a displacement without a base. -/
def takeSib (rex : Rex) (mod : Nat) : List Byte → Option (Operand × List Byte)
  | [] => none
  | sib :: rest =>
    let index := regNumber rex.x (sib.toNat / 8 % 8)
    let scaled := if index = 4 then none else some (index, sib.toNat / 64)
    if sib.toNat % 8 = 5 ∧ mod = 0 then
      (takeImm32 rest).map fun (disp, rest) => (.mem ⟨none, scaled, disp⟩, rest)
    else
      (takeDisp mod rest).map fun (disp, rest) => (.mem ⟨some (regNumber rex.b (sib.toNat % 8)), scaled, disp⟩, rest)

/-- The memory operand of the fields `mod` and `rm`. Without a base it is relative to the instruction in 64-bit
mode. -/
def takeMem (mode : Mode) (rex : Rex) (mod rm : Nat) (bytes : List Byte) : Option (Operand × List Byte) :=
  if rm = 4 then takeSib rex mod bytes
  else if rm = 5 ∧ mod = 0 then
    (takeImm32 bytes).map fun (disp, rest) => match mode with
      | .bits32 => (.mem ⟨none, none, disp⟩, rest)
      | .bits64 => (.ripRelative disp, rest)
  else (takeDisp mod bytes).map fun (disp, rest) => (.mem ⟨some (regNumber rex.b rm), none, disp⟩, rest)

def takeRm (mode : Mode) (rex : Option Rex) (kind : RegKind) (mod rm : Nat) (bytes : List Byte) :
    Option (Operand × List Byte) :=
  if mod = 3 then some (kind.operand rex.isSome (regNumber (rex.getD .plain).b rm), bytes)
  else takeMem mode (rex.getD .plain) mod rm bytes

def takeOther (op : Op) (wide : Bool) (rm : Operand) (reg : Operand) (isReg : Bool) (bytes : List Byte) :
    Other → Option (Inst × List Byte)
  | .single => some (⟨op, wide, some rm, none⟩, bytes)
  | .memOnly => if isReg then none else some (⟨op, wide, some rm, none⟩, bytes)
  | .fromReg => some (⟨op, wide, some rm, some reg⟩, bytes)
  | .toReg _ => some (⟨op, wide, some reg, some rm⟩, bytes)
  | .imm8 => (takeImm8 bytes).map fun (v, rest) => (⟨op, wide, some rm, some (.imm v)⟩, rest)
  | .imm32 => (takeImm32 bytes).map fun (v, rest) => (⟨op, wide, some rm, some (.imm v)⟩, rest)
  | .shiftCount => some (⟨op, wide, some rm, some (.reg 1)⟩, bytes)

/-- The kind of the operand behind the ModRM byte when it is a register. -/
def Other.rmKind (kind : RegKind) : Other → RegKind
  | .toReg rm => rm
  | _ => kind

def takeOperands (mode : Mode) (rex : Option Rex) (opcode : Byte) (entry : Entry) (bytes : List Byte) :
    Option (Inst × List Byte) :=
  match entry.form with
  | .implied dst src => (entry.op 0).map fun op => (⟨op, op.sized && (rex.getD .plain).w, dst, src⟩, bytes)
  | .inOpcode => (entry.op 0).map fun op =>
    (⟨op, op.sized && (rex.getD .plain).w, some (.reg (regNumber (rex.getD .plain).b (opcode.toNat % 8))), none⟩, bytes)
  | .modRm kind other => match bytes with
    | [] => none
    | m :: bytes => (entry.op (m.toNat / 8 % 8)).bind fun op =>
      (takeRm mode rex (other.rmKind kind) (m.toNat / 64) (m.toNat % 8) bytes).bind fun (rm, rest) =>
        takeOther op (op.sized && (rex.getD .plain).w) rm
          (kind.operand rex.isSome (regNumber (rex.getD .plain).r (m.toNat / 8 % 8))) (decide (m.toNat / 64 = 3)) rest
          other

/-- Read one instruction. -/
def decode (mode : Mode) (bytes : List Byte) : Option (Inst × List Byte) :=
  let (legacy, bytes) := takeLegacy ⟨false, false, false⟩ bytes
  let (rex, bytes) := takeRex mode bytes
  let (escape, bytes) := takeEscape bytes
  match bytes with
  | [] => none
  | opcode :: bytes => (opcodeMap mode legacy escape opcode).bind fun entry => takeOperands mode rex opcode entry bytes

/-! ## Reading back prefixes -/

def legacyBytes (legacy : Legacy) : List Byte :=
  (if legacy.repne then [0xf2#8] else []) ++ (if legacy.repe then [0xf3#8] else []) ++
    if legacy.operandSize then [0x66#8] else []

/-- A REX prefix without any bit is left out. -/
def rexBytes (rex : Rex) : List Byte :=
  if rex = .plain then [] else [BitVec.ofNat 8 (0x40 + 8 * rex.w.toNat + 4 * rex.r.toNat + 2 * rex.x.toNat + rex.b.toNat)]

def rexOf (rex : Rex) : Option Rex := if rex = .plain then none else some rex

def escapeBytes (escape : Bool) : List Byte := if escape then [0x0f#8] else []

@[simp] theorem rexOf_getD (rex : Rex) : (rexOf rex).getD .plain = rex := by
  unfold rexOf
  split_ifs with h
  · exact h.symm
  · rfl

/-- A byte that starts an opcode. -/
structure Opens (byte : Byte) : Prop where
  repne : byte ≠ 0xf2#8
  repe : byte ≠ 0xf3#8
  operandSize : byte ≠ 0x66#8
  rex : byte.toNat / 16 ≠ 4

variable {byte : Byte} {mode : Mode} {rex : Rex} {v : Int}

theorem takeLegacy_of_opens (h : Opens byte) (legacy : Legacy) (rest : List Byte) :
    takeLegacy legacy (byte :: rest) = (legacy, byte :: rest) := by
  rw [takeLegacy, if_neg h.repne, if_neg h.repe, if_neg h.operandSize]

theorem takeLegacy_rex (legacy : Legacy) (rex : Rex) (rest : List Byte) :
    takeLegacy legacy (BitVec.ofNat 8 (0x40 + 8 * rex.w.toNat + 4 * rex.r.toNat + 2 * rex.x.toNat + rex.b.toNat) :: rest) =
      (legacy, BitVec.ofNat 8 (0x40 + 8 * rex.w.toNat + 4 * rex.r.toNat + 2 * rex.x.toNat + rex.b.toNat) :: rest) := by
  obtain ⟨w, r, x, b⟩ := rex
  rw [takeLegacy, if_neg, if_neg, if_neg] <;> revert w r x b <;> decide

theorem takeLegacy_rexBytes (h : Opens byte) (legacy : Legacy) (rex : Rex) (rest : List Byte) :
    takeLegacy legacy (rexBytes rex ++ byte :: rest) = (legacy, rexBytes rex ++ byte :: rest) := by
  unfold rexBytes
  split_ifs
  · exact takeLegacy_of_opens h legacy rest
  · exact takeLegacy_rex legacy rex _

theorem takeLegacy_legacyBytes (h : Opens byte) (legacy : Legacy) (rex : Rex) (rest : List Byte) :
    takeLegacy ⟨false, false, false⟩ (legacyBytes legacy ++ (rexBytes rex ++ byte :: rest)) =
      (legacy, rexBytes rex ++ byte :: rest) := by
  have hstop := fun legacy => takeLegacy_rexBytes h legacy rex rest
  obtain ⟨_ | _, _ | _, _ | _⟩ := legacy <;> simp [legacyBytes, takeLegacy, hstop]

theorem takeRex_rexBytes (hmode : mode = .bits32 → rex = .plain) (h : Opens byte) (rest : List Byte) :
    takeRex mode (rexBytes rex ++ byte :: rest) = (rexOf rex, byte :: rest) := by
  unfold rexBytes rexOf
  split_ifs with hrex
  · cases mode with
    | bits32 => rfl
    | bits64 => exact if_neg h.rex
  · cases mode with
    | bits32 => exact absurd (hmode rfl) hrex
    | bits64 =>
      obtain ⟨w, r, x, b⟩ := rex
      cases w <;> cases r <;> cases x <;> cases b <;> rfl

theorem opens_escape : Opens 0x0f#8 := by
  constructor <;> decide

/-- **The bytes before the operands**, read back. -/
theorem decode_opcode (hmode : mode = .bits32 → rex = .plain) (legacy : Legacy) {escape : Bool}
    {opcode : Byte} (hopcode : escape = false → Opens opcode ∧ opcode ≠ 0x0f#8) (rest : List Byte) :
    decode mode (legacyBytes legacy ++ (rexBytes rex ++ (escapeBytes escape ++ opcode :: rest))) =
      (opcodeMap mode legacy escape opcode).bind fun entry => takeOperands mode (rexOf rex) opcode entry rest := by
  cases escape with
  | true =>
    rw [escapeBytes, if_pos rfl, List.singleton_append, decode, takeLegacy_legacyBytes opens_escape]
    simp [takeRex_rexBytes hmode opens_escape, takeEscape]
  | false =>
    obtain ⟨hopens, hescape⟩ := hopcode rfl
    rw [escapeBytes, if_neg Bool.false_ne_true, List.nil_append, decode, takeLegacy_legacyBytes hopens]
    simp [takeRex_rexBytes hmode hopens, takeEscape, if_neg hescape]

/-! ## Reading back operands -/

/-- The bytes of an immediate or a displacement, the lowest first. -/
def imm32Bytes (v : Int) : List Byte :=
  let word := BitVec.ofInt 32 v
  [word.extractLsb' 0 8, word.extractLsb' 8 8, word.extractLsb' 16 8, word.extractLsb' 24 8]

theorem word_of_bytes (v : BitVec 32) :
    (v.extractLsb' 24 8 ++ v.extractLsb' 16 8 ++ v.extractLsb' 8 8 ++ v.extractLsb' 0 8 : BitVec 32) = v := by
  ext i hi
  simp only [BitVec.getElem_append, BitVec.getElem_extractLsb']
  split_ifs <;> (rw [BitVec.getLsbD_eq_getElem (by omega)]; congr 1; omega)

theorem takeImm32_imm32Bytes (h : -2 ^ 31 ≤ v ∧ v < 2 ^ 31) (rest : List Byte) :
    takeImm32 (imm32Bytes v ++ rest) = some (v, rest) := by
  have hv : (BitVec.ofInt 32 v).toInt = v := by
    rw [BitVec.toInt_ofInt]
    exact Int.bmod_eq_of_le (by omega) (by omega)
  simp [imm32Bytes, takeImm32, word_of_bytes, hv]

theorem takeImm8_ofInt (h : -128 ≤ v ∧ v ≤ 127) (rest : List Byte) :
    takeImm8 (BitVec.ofInt 8 v :: rest) = some (v, rest) := by
  have hv : (BitVec.ofInt 8 v).toInt = v := by
    rw [BitVec.toInt_ofInt]
    exact Int.bmod_eq_of_le (by omega) (by omega)
  rw [takeImm8, hv]

/-- A register field with the bit that extends it gives the number of the register back. -/
theorem regNumber_mod {n : Nat} (h : n < 16) : regNumber (decide (8 ≤ n)) (n % 8) = n := by
  unfold regNumber
  split_ifs with h8
  · have := of_decide_eq_true h8
    omega
  · have : ¬ 8 ≤ n := fun h => h8 (decide_eq_true h)
    omega

end Jato.Lib.X86
