import Jato.Arch.EncodeDecode

/-!
# The hand-coded emitters for memory operands

The functions of `arch/x86/emit_64.c` that write instructions with a base register and a displacement
(`__emit_lopc_membase`) or with a base and a scaled index register (`__emit_lopc_memindex`). `emitMem_iff` says which of the
instructions decode to what is meant: `xBP` as a base needs a displacement byte, which only `r13` gets, `xSP` is no
index register, and most of the functions write the opcode for general-purpose registers also when the operand is an XMM
register, as it is for elements of arrays of floats.
-/

namespace Jato.Arch.EmitMem

open Jato.Lib List X86
open Jato.Lib.X86 (Byte)

/-! ## Writing the bytes -/

def regHigh (reg : Nat) : Bool := has reg 0x8

/-- The REX prefix with the bits that are asked for, and `0` where there is none. -/
def rexPfx (w r x b : Bool) : Nat :=
  (if w then 0x48 else 0) ||| (if r then 0x44 else 0) ||| (if x then 0x42 else 0) ||| (if b then 0x41 else 0)

def hasLegacyPrefix : List Byte → Bool
  | [] => false
  | [_] => false
  | c :: _ => c = 0xf2#8 || c = 0xf3#8

/-- The REX prefix stands behind a legacy prefix and in front of the rest of the opcode. -/
def emitLopc (rex : Nat) (str : List Byte) : List Byte :=
  if rex ≠ 0 && hasLegacyPrefix str then emit ((str.headD 0#8).toNat : Nat) ++ emit (rex : Nat) ++ str.tail
  else (if rex ≠ 0 then emit (rex : Nat) else []) ++ str

section Membase

variable (rexW : Bool) (lopc : List Byte) (baseReg : MachReg) (disp : Int) (regOpcode : Nat)

def needsSib : Bool := baseReg = .xSP || baseReg = .r12

def needsDisp : Bool := disp ≠ 0 || baseReg = .r13

def dispMode : Nat := if !needsDisp baseReg disp then 0x00 else if isImm8 disp then 0x01 else 0x02

def rmOf : Nat := if needsSib baseReg then 0x04 else x86EncodeReg baseReg

def emitLopcMembase : List Byte :=
  emitLopc (rexPfx rexW (regHigh regOpcode) false (regHigh (x86EncodeReg baseReg))) lopc ++
    (emit (x86EncodeModRm (dispMode baseReg disp) regOpcode (rmOf baseReg) : Nat) ++
      ((if needsSib baseReg then emit (x86EncodeSib 0x00 0x04 (x86EncodeReg baseReg) : Nat) else []) ++
        if needsDisp baseReg disp then emitImm disp else []))

end Membase

def emitLopcMemindex (rexW : Bool) (lopc : List Byte) (shift : Nat) (indexReg baseReg : MachReg) (regOpcode : Nat) :
    List Byte :=
  emitLopc (rexPfx rexW (regHigh regOpcode) (regHigh (x86EncodeReg indexReg)) (regHigh (x86EncodeReg baseReg))) lopc ++
    (emit (x86EncodeModRm (if baseReg = .r13 then 0x01 else 0x00) regOpcode 0x04 : Nat) ++
      (emit (x86EncodeSib shift (x86EncodeReg indexReg) (x86EncodeReg baseReg) : Nat) ++
        if baseReg = .r13 then emit 0 else []))

/-! ## The instructions -/

/-- A general-purpose register. -/
abbrev Gpr : Type := { reg : MachReg // isXmmReg reg = false }

/-- The instructions with these operands. Base and index registers are general-purpose ones, as there are no others in an
address; a register operand can be of either kind. The field `is64` is what `is_64bit_reg` says of the register operand,
and for `testMembaseReg` what `is_64bit_bin_reg_op` says of both; the displacement of a local slot is its offset. -/
inductive MemInsn
  | movRegMembase (src : MachReg) (is64 : Bool) (base : Gpr) (disp : BitVec 32)
  | movRegThreadLocalMembase (src : MachReg) (is64 : Bool) (base : Gpr) (disp : BitVec 32)
  | movMembaseReg (base : Gpr) (disp : BitVec 32) (dest : MachReg) (is64 : Bool)
  | testMembaseReg (base : Gpr) (disp : BitVec 32) (dest : MachReg) (is64 : Bool)
  | cmpMembaseReg (base : Gpr) (disp : BitVec 32) (dest : MachReg) (is64 : Bool)
  | movImmMembase (imm : Int) (base : Gpr) (disp : BitVec 32)
  | movMemlocalReg (offset : BitVec 32) (dest : MachReg) (is64 : Bool)
  | movRegMemlocal (src : MachReg) (is64 : Bool) (offset : BitVec 32)
  | movImmMemlocal (imm : Int) (offset : BitVec 32)
  | movMemindexReg (base index : Gpr) (shift : Fin 4) (dest : MachReg) (is64 : Bool)
  | movRegMemindex (src : MachReg) (is64 : Bool) (base index : Gpr) (shift : Fin 4)

/-- The opcode of `movss` or `movsd`. -/
def sseOpcode (is64 : Bool) (opcode : Byte) : List Byte := [if is64 then 0xf2#8 else 0xf3#8, 0x0f#8, opcode]

def emitMovRegMembase (src : MachReg) (is64 : Bool) (base : MachReg) (disp : Int) : List Byte :=
  if isXmmReg src then emitLopcMembase false (sseOpcode is64 0x11#8) base disp (x86EncodeReg src)
  else emitLopcMembase is64 [0x89#8] base disp (x86EncodeReg src)

def emitMembaseReg (rexW : Bool) (opc : Byte) (base : MachReg) (disp : Int) (dest : MachReg) : List Byte :=
  emitLopcMembase rexW [opc] base disp (x86EncodeReg dest)

def emitMovImmMembase (imm : Int) (base : MachReg) (disp : Int) : List Byte :=
  emitLopcMembase false [0xc7#8] base disp 0 ++ emitImm32 imm

def emitMovMemlocalReg (disp : Int) (dest : MachReg) (is64 : Bool) : List Byte :=
  if isXmmReg dest then emitLopcMembase false (sseOpcode is64 0x10#8) .xBP disp (x86EncodeReg dest)
  else emitMembaseReg true 0x8b#8 .xBP disp dest

def MemInsn.emit : MemInsn → List Byte
  | movRegMembase src is64 base disp => emitMovRegMembase src is64 base disp.toInt
  | movRegThreadLocalMembase src is64 base disp => Arch.emit 0x64 ++ emitMovRegMembase src is64 base disp.toInt
  | movMembaseReg base disp dest _ => emitMembaseReg true 0x8b#8 base disp.toInt dest
  | testMembaseReg base disp dest is64 => emitMembaseReg is64 0x85#8 base disp.toInt dest
  | cmpMembaseReg base disp dest is64 => emitMembaseReg is64 0x3b#8 base disp.toInt dest
  | movImmMembase imm base disp => emitMovImmMembase imm base disp.toInt
  | movMemlocalReg offset dest is64 => emitMovMemlocalReg offset.toInt dest is64
  | movRegMemlocal src _ offset => emitLopcMembase true [0x89#8] .xBP offset.toInt (x86EncodeReg src)
  | movImmMemlocal imm offset => emitMovImmMembase imm .xBP offset.toInt
  | movMemindexReg base index shift dest is64 =>
    emitLopcMemindex is64 [0x8b#8] shift index base (x86EncodeReg dest)
  | movRegMemindex src is64 base index shift => emitLopcMemindex is64 [0x89#8] shift index base (x86EncodeReg src)

/-! ## What is meant -/

def memOf (base : MachReg) (disp : BitVec 32) : Option X86.Operand :=
  some (.mem ⟨some (x86EncodeReg base), none, disp.toInt⟩)

def memIndexOf (base index : MachReg) (shift : Fin 4) : Option X86.Operand :=
  some (.mem ⟨some (x86EncodeReg base), some (x86EncodeReg index, shift), 0⟩)

/-- A register operand, and the move of its kind. -/
def regOf (reg : MachReg) : Option X86.Operand :=
  some (if isXmmReg reg then .xmm (x86EncodeReg reg) else .reg (x86EncodeReg reg))

def movOf (reg : MachReg) (is64 : Bool) : X86.Op :=
  if isXmmReg reg then (if is64 then .movsd else .movss) else .mov

def MemInsn.meaning : MemInsn → X86.Inst
  | movRegMembase src is64 base disp | movRegThreadLocalMembase src is64 base disp =>
    ⟨movOf src is64, !isXmmReg src && is64, memOf base disp, regOf src⟩
  | movMembaseReg base disp dest is64 => ⟨movOf dest is64, !isXmmReg dest, regOf dest, memOf base disp⟩
  | testMembaseReg base disp dest is64 => ⟨.test, is64, regOf dest, memOf base disp⟩
  | cmpMembaseReg base disp dest is64 => ⟨.cmp, is64, regOf dest, memOf base disp⟩
  | movImmMembase imm base disp => ⟨.mov, false, memOf base disp, some (.imm (toInt32 imm))⟩
  | movMemlocalReg offset dest is64 => ⟨movOf dest is64, !isXmmReg dest, regOf dest, memOf .xBP offset⟩
  | movRegMemlocal src is64 offset => ⟨movOf src is64, !isXmmReg src, memOf .xBP offset, regOf src⟩
  | movImmMemlocal imm offset => ⟨.mov, false, memOf .xBP offset, some (.imm (toInt32 imm))⟩
  | movMemindexReg base index shift dest is64 =>
    ⟨movOf dest is64, !isXmmReg dest && is64, regOf dest, memIndexOf base index shift⟩
  | movRegMemindex src is64 base index shift =>
    ⟨movOf src is64, !isXmmReg src && is64, memIndexOf base index shift, regOf src⟩

/-- The memory operand is one of the segment for thread-local data. -/
def MemInsn.fs : MemInsn → Bool
  | movRegThreadLocalMembase _ _ _ _ => true
  | _ => false

/-- The bytes begin without a segment prefix. -/
def Plain (bytes : List Byte) : Prop := bytes.head?.any (· ≠ 0x64#8) = true

instance (bytes : List Byte) : Decidable (Plain bytes) := inferInstanceAs (Decidable (_ = true))

/-- Read an instruction with or without a segment prefix. -/
def decodeFs : List Byte → Option (Bool × X86.Inst × List Byte)
  | byte :: bytes =>
    if byte = 0x64#8 then (X86.decode .bits64 bytes).map (true, ·) else (X86.decode .bits64 (byte :: bytes)).map (false, ·)
  | [] => none

/-- The bytes of the instruction decode to what is meant. -/
def MemInsn.DecodesBack (i : MemInsn) : Prop := decodeFs i.emit = some (i.fs, i.meaning, [])

/-- A base register `xBP` has a displacement, and is not used with an index; `xSP` is no index; and the register operand
is an XMM register only in a move to a base with a displacement and in a move from a local slot. -/
def MemInsn.encodable : MemInsn → Bool
  | movRegMembase _ _ base disp | movRegThreadLocalMembase _ _ base disp | movImmMembase _ base disp =>
    base.1 ≠ .xBP || disp ≠ 0
  | movMembaseReg base disp dest _ | testMembaseReg base disp dest _ | cmpMembaseReg base disp dest _ =>
    (base.1 ≠ .xBP || disp ≠ 0) && !isXmmReg dest
  | movMemlocalReg offset _ _ | movImmMemlocal _ offset => offset ≠ 0
  | movRegMemlocal src _ offset => offset ≠ 0 && !isXmmReg src
  | movMemindexReg base index _ reg _ | movRegMemindex reg _ base index _ =>
    (base.1 ≠ .xBP && index.1 ≠ .xSP) && !isXmmReg reg

/-! ## Opcodes -/

/-- An opcode string with the entry of the opcode map that it stands for. -/
structure Coding (lopc : List Byte) (legacy : Legacy) (escape : Bool) (opcode : Byte) (kind : RegKind)
    (other : Other) (ops : Nat → Option X86.Op) : Prop where
  bytes : ∀ w r x b, emitLopc (rexPfx w r x b) lopc =
    legacyBytes legacy ++ (rexBytes ⟨w, r, x, b⟩ ++ (escapeBytes escape ++ [opcode]))
  plain : ∀ w r x b, Plain (emitLopc (rexPfx w r x b) lopc)
  opens : escape = false → Opens opcode ∧ opcode ≠ 0x0f#8
  entry : opcodeMap .bits64 legacy escape opcode = some ⟨.modRm kind other, ops⟩

def noLegacy : Legacy := ⟨false, false, false⟩

theorem coding_movFromReg : Coding [0x89#8] noLegacy false 0x89#8 .gpr .fromReg fun _ => some .mov :=
  ⟨by decide, by decide, fun _ => ⟨⟨by decide, by decide, by decide, by decide⟩, by decide⟩, rfl⟩

theorem coding_movToReg : Coding [0x8b#8] noLegacy false 0x8b#8 .gpr (.toReg .gpr) fun _ => some .mov :=
  ⟨by decide, by decide, fun _ => ⟨⟨by decide, by decide, by decide, by decide⟩, by decide⟩, rfl⟩

theorem coding_test : Coding [0x85#8] noLegacy false 0x85#8 .gpr (.toReg .gpr) fun _ => some .test :=
  ⟨by decide, by decide, fun _ => ⟨⟨by decide, by decide, by decide, by decide⟩, by decide⟩, rfl⟩

theorem coding_cmp : Coding [0x3b#8] noLegacy false 0x3b#8 .gpr (.toReg .gpr) fun _ => some .cmp :=
  ⟨by decide, by decide, fun _ => ⟨⟨by decide, by decide, by decide, by decide⟩, by decide⟩, rfl⟩

theorem coding_movImm : Coding [0xc7#8] noLegacy false 0xc7#8 .gpr .imm32 fun ext => if ext = 0 then some .mov else none :=
  ⟨by decide, by decide, fun _ => ⟨⟨by decide, by decide, by decide, by decide⟩, by decide⟩, rfl⟩

theorem coding_sseFromReg (is64 : Bool) : Coding (sseOpcode is64 0x11#8) ⟨is64, !is64, false⟩ true 0x11#8 .xmm .fromReg
    fun _ => some (if is64 then .movsd else .movss) := by
  cases is64 <;> exact ⟨by decide, by decide, by simp, rfl⟩

theorem coding_sseToReg (is64 : Bool) : Coding (sseOpcode is64 0x10#8) ⟨is64, !is64, false⟩ true 0x10#8 .xmm
    (.toReg .xmm) fun _ => some (if is64 then .movsd else .movss) := by
  cases is64 <;> exact ⟨by decide, by decide, by simp, rfl⟩

/-! ## Operands -/

theorem x86EncodeModRm_mod (mod reg rm : Nat) : x86EncodeModRm mod reg rm = x86EncodeModRm mod (reg % 8) (rm % 8) := by
  have hand n : n &&& 0x7 = n % 8 := Nat.and_two_pow_sub_one_eq_mod n 3
  rw [x86EncodeModRm, x86EncodeModRm, hand, hand, hand, hand, Nat.mod_mod, Nat.mod_mod]

theorem x86EncodeSib_mod (scale index base : Nat) :
    x86EncodeSib scale index base = x86EncodeSib scale (index % 8) (base % 8) := x86EncodeModRm_mod scale index base

variable {n : Nat} {bytes : List Byte}

theorem regHigh_eq (h : n < 16) : regHigh n = decide (8 ≤ n) := by
  revert n
  decide

theorem regNumber_regHigh (h : n < 16) : regNumber (regHigh n) (n % 8) = n := by
  rw [regHigh_eq h]
  exact regNumber_mod h

variable {index : MachReg} {shift : Fin 4}

section Base

variable {base : MachReg} {disp : Int} {tail : List Byte}

theorem dispMode_eq_zero : dispMode base disp = 0 ↔ needsDisp base disp = false := by
  unfold dispMode
  cases needsDisp base disp <;> cases isImm8 disp <;> decide

theorem dispMode_lt : dispMode base disp < 3 := by
  unfold dispMode
  cases needsDisp base disp <;> cases isImm8 disp <;> decide

/-- The displacement is read back in the size that was written. -/
theorem takeDisp_dispMode (hdisp : fitsInt32 disp) : takeDisp (dispMode base disp)
    ((if needsDisp base disp then emitImm disp else []) ++ tail) = some (disp, tail) := by
  unfold dispMode
  cases hneeds : needsDisp base disp with
  | false =>
    have hzero : disp = 0 := by
      have h := (Bool.or_eq_false_iff.mp hneeds).1
      simpa using h
    rw [hzero]
    rfl
  | true =>
    cases h8 : isImm8 disp with
    | true =>
      simp only [takeDisp, emitImm, h8, emit, Bool.not_true, Bool.false_eq_true, if_false, if_true]
      exact takeImm8_ofInt (isImm8_iff.mp h8) tail
    | false =>
      simp only [takeDisp, emitImm, h8, Bool.not_true, Bool.false_eq_true, if_false, if_true,
        show ¬(0x02 : Nat) = 1 by decide]
      exact takeImm32_imm32Bytes hdisp tail

theorem needsSib_iff (hbase : isXmmReg base = false) : needsSib base = true ↔ x86EncodeReg base % 8 = 4 := by
  revert hbase
  cases base <;> decide

theorem mod_eq_five_iff (hbase : isXmmReg base = false) : x86EncodeReg base % 8 = 5 ↔ base = .xBP ∨ base = .r13 := by
  revert hbase
  cases base <;> decide

variable {rex : X86.Rex}

/-- **A base register with a displacement** is read back, unless it is `xBP` without one. -/
theorem takeMem_base (hbase : isXmmReg base = false) (hdisp : fitsInt32 disp) (hx : rex.x = false)
    (hb : rex.b = regHigh (x86EncodeReg base)) : takeMem .bits64 rex (dispMode base disp) (rmOf base % 8)
      ((if needsSib base then emit (x86EncodeSib 0x00 0x04 (x86EncodeReg base) : Nat) else []) ++
        ((if needsDisp base disp then emitImm disp else []) ++ tail)) =
      if base = .xBP ∧ disp = 0 then (takeImm32 tail).map fun (d, rest) => (.ripRelative d, rest)
      else some (.mem ⟨some (x86EncodeReg base), none, disp⟩, tail) := by
  have hnumber : regNumber rex.b (x86EncodeReg base % 8) = x86EncodeReg base := by
    rw [hb]
    exact regNumber_regHigh (x86EncodeReg_lt base)
  cases hsib : needsSib base with
  | true =>
    have h4 := (needsSib_iff hbase).mp hsib
    have hne : ¬(base = .xBP ∧ disp = 0) := by
      rintro ⟨rfl, -⟩
      cases hsib
    have hbyte : emit (x86EncodeSib 0x00 0x04 (x86EncodeReg base) : Nat) = [0x24#8] := by
      revert hsib
      cases base <;> decide
    have hread : takeSib rex (dispMode base disp)
        (0x24#8 :: ((if needsDisp base disp then emitImm disp else []) ++ tail)) =
        some (.mem ⟨some (regNumber rex.b 4), none, disp⟩, tail) := by
      simp only [takeSib, takeDisp_dispMode hdisp, hx]
      rfl
    rw [h4] at hnumber
    rw [if_neg hne, rmOf, hsib, if_pos rfl, if_pos rfl, takeMem, if_pos rfl, hbyte, ← hnumber]
    exact hread
  | false =>
    have h4 : x86EncodeReg base % 8 ≠ 4 := fun h => by
      rw [(needsSib_iff hbase).mpr h] at hsib
      cases hsib
    rw [rmOf, hsib, if_neg Bool.false_ne_true, if_neg Bool.false_ne_true, nil_append, takeMem, if_neg h4]
    by_cases hrip : base = .xBP ∧ disp = 0
    · have hmode : x86EncodeReg base % 8 = 5 ∧ dispMode base disp = 0 := by
        obtain ⟨rfl, rfl⟩ := hrip
        decide
      have hneeds := dispMode_eq_zero.mp hmode.2
      rw [if_pos hmode, if_pos hrip, hneeds]
      rfl
    · have hmode : ¬(x86EncodeReg base % 8 = 5 ∧ dispMode base disp = 0) := by
        rintro ⟨h5, h0⟩
        have hneeds := Bool.or_eq_false_iff.mp (dispMode_eq_zero.mp h0)
        rcases (mod_eq_five_iff hbase).mp h5 with h | h
        · exact hrip ⟨h, by simpa using hneeds.1⟩
        · exact absurd h (by simpa using hneeds.2)
      rw [if_neg hmode, if_neg hrip, takeDisp_dispMode hdisp, Option.map_some, hnumber]

/-- **A base and an index register** are read back, unless the base is `xBP` or the index is `xSP`. -/
theorem takeMem_index (hbase : isXmmReg base = false)
    (hindex : isXmmReg index = false) (hx : rex.x = regHigh (x86EncodeReg index))
    (hb : rex.b = regHigh (x86EncodeReg base)) : takeMem .bits64 rex (if base = .r13 then 0x01 else 0x00) 4
      (emit (x86EncodeSib shift (x86EncodeReg index) (x86EncodeReg base) : Nat) ++
        ((if base = .r13 then emit 0 else []) ++ tail)) = if base = .xBP then (takeImm32 tail).map fun (d, rest) =>
        (.mem ⟨none, if index = .xSP then none else some (x86EncodeReg index, shift), d⟩, rest)
      else some (.mem ⟨some (x86EncodeReg base), if index = .xSP then none else some (x86EncodeReg index, shift), 0⟩,
        tail) := by
  have hbaseNumber : regNumber rex.b (x86EncodeReg base % 8) = x86EncodeReg base := by
    rw [hb]
    exact regNumber_regHigh (x86EncodeReg_lt base)
  have hindexNumber : regNumber rex.x (x86EncodeReg index % 8) = x86EncodeReg index := by
    rw [hx]
    exact regNumber_regHigh (x86EncodeReg_lt index)
  have hsp : x86EncodeReg index = 4 ↔ index = .xSP := by
    revert hindex
    cases index <;> decide
  have hlt n : n % 8 < 8 := Nat.mod_lt n (by decide)
  have hnat := x86EncodeSib_toNat shift.isLt (hlt (x86EncodeReg index)) (hlt (x86EncodeReg base))
  have h64 : (64 * (shift : Nat) + 8 * (x86EncodeReg index % 8) + x86EncodeReg base % 8) / 64 = shift := by omega
  have h8 : (64 * (shift : Nat) + 8 * (x86EncodeReg index % 8) + x86EncodeReg base % 8) / 8 % 8 =
      x86EncodeReg index % 8 := by
    omega
  have h1 : (64 * (shift : Nat) + 8 * (x86EncodeReg index % 8) + x86EncodeReg base % 8) % 8 = x86EncodeReg base % 8 := by
    omega
  rw [takeMem, if_pos rfl, x86EncodeSib_mod]
  simp only [emit, cons_append, nil_append, takeSib, hnat, h64, h8, h1, hindexNumber, hbaseNumber, hsp]
  by_cases h13 : base = .r13
  · subst h13
    rfl
  · rw [if_neg h13, if_neg h13, nil_append]
    by_cases hbp : base = .xBP
    · subst hbp
      rfl
    · have h5 : ¬(x86EncodeReg base % 8 = 5 ∧ (0 : Nat) = 0) := fun h =>
        ((mod_eq_five_iff hbase).mp h.1).elim hbp h13
      rw [if_neg h5, if_neg hbp]
      rfl

end Base

/-! ## Decoding -/

section Decode

variable {lopc : List Byte} {legacy : Legacy} {escape : Bool} {opcode : Byte} {kind : RegKind}
  {other : Other} {ops : Nat → Option X86.Op} {op : X86.Op} {rexW : Bool} {base : MachReg} {regOpcode : Nat}

section

variable (hc : Coding lopc legacy escape opcode kind other ops) (hkind : kind ≠ .byte)
  (hops : ops (regOpcode % 8) = some op) (hreg : regOpcode < 16)

include hc hkind hops hreg

theorem Coding.decode {x b : Bool} {mod rm : Nat} (hmod : mod < 3) (bytes : List Byte) :
    X86.decode .bits64 (emitLopc (rexPfx rexW (regHigh regOpcode) x b) lopc ++
        (emit (x86EncodeModRm mod regOpcode rm : Nat) ++ bytes)) =
      (takeMem .bits64 ⟨rexW, regHigh regOpcode, x, b⟩ mod (rm % 8) bytes).bind fun (o, rest) =>
        takeOther op (op.sized && rexW) o (kind.operand true regOpcode) false rest other := by
  have hoperand (hasRex : Bool) : kind.operand hasRex regOpcode = kind.operand true regOpcode := by
    cases kind with
    | byte => exact absurd rfl hkind
    | gpr => rfl
    | xmm => rfl
  have hmode : X86.Mode.bits64 = .bits32 → (⟨rexW, regHigh regOpcode, x, b⟩ : X86.Rex) = .plain := nofun
  rw [hc.bytes]
  simp only [append_assoc, emit, cons_append, nil_append]
  rw [decode_opcode hmode legacy hc.opens, hc.entry, Option.bind_some, x86EncodeModRm_mod,
    takeOperands_modRm (by omega) (Nat.mod_lt _ (by decide)) (Nat.mod_lt _ (by decide)), hops, Option.bind_some, takeRm,
    if_neg (by omega), rexOf_getD, regNumber_regHigh hreg, hoperand]
  simp only [show ¬mod = 3 by omega, decide_false]

theorem Coding.decode_membase (hbase : isXmmReg base = false) {disp : Int} (hdisp : fitsInt32 disp) (tail : List Byte) :
    X86.decode .bits64 (emitLopcMembase rexW lopc base disp regOpcode ++ tail) =
      (if base = .xBP ∧ disp = 0 then (takeImm32 tail).map fun (d, rest) => (.ripRelative d, rest)
        else some (.mem ⟨some (x86EncodeReg base), none, disp⟩, tail)).bind fun (o, rest) =>
        takeOther op (op.sized && rexW) o (kind.operand true regOpcode) false rest other := by
  rw [emitLopcMembase]
  simp only [append_assoc]
  rw [hc.decode hkind hops hreg dispMode_lt, takeMem_base hbase hdisp rfl rfl]

theorem Coding.decode_memindex (hbase : isXmmReg base = false) (hindex : isXmmReg index = false) (tail : List Byte) :
    X86.decode .bits64 (emitLopcMemindex rexW lopc shift index base regOpcode ++ tail) =
      (if base = .xBP then (takeImm32 tail).map fun (d, rest) =>
          (.mem ⟨none, if index = .xSP then none else some (x86EncodeReg index, shift), d⟩, rest)
        else some (.mem ⟨some (x86EncodeReg base), if index = .xSP then none else some (x86EncodeReg index, shift), 0⟩,
          tail)).bind fun (o, rest) =>
        takeOther op (op.sized && rexW) o (kind.operand true regOpcode) false rest other := by
  have hmod : (if base = .r13 then 0x01 else 0x00) < 3 := by split_ifs <;> decide
  rw [emitLopcMemindex]
  simp only [append_assoc]
  rw [hc.decode hkind hops hreg hmod, takeMem_index hbase hindex rfl rfl]

end

variable {disp : Int} {tail : List Byte} {inst : X86.Inst}

/-- An instruction with a base register is read to its end, unless the base is `xBP` without a displacement. -/
theorem Coding.decode_inst (hc : Coding lopc legacy escape opcode kind other ops) (hkind : kind ≠ .byte)
    (hops : ops (regOpcode % 8) = some op) (hreg : regOpcode < 16) (hbase : isXmmReg base = false)
    (hdisp : fitsInt32 disp)
    (hinst : takeOther op (op.sized && rexW) (.mem ⟨some (x86EncodeReg base), none, disp⟩) (kind.operand true regOpcode)
      false tail other = some (inst, []))
    (hshort : ((takeImm32 tail).bind fun (d, rest) => takeOther op (op.sized && rexW) (.ripRelative d)
      (kind.operand true regOpcode) false rest other) = none) :
    X86.decode .bits64 (emitLopcMembase rexW lopc base disp regOpcode ++ tail) =
      if base = .xBP ∧ disp = 0 then none else some (inst, []) := by
  rw [hc.decode_membase hkind hops hreg hbase hdisp]
  split_ifs with h
  · rw [← hshort]
    cases takeImm32 tail <;> rfl
  · exact hinst

theorem Plain.append {front : List Byte} (h : Plain front) (rest : List Byte) : Plain (front ++ rest) := by
  cases front with
  | nil => cases h
  | cons byte front => exact h

theorem Plain.decodeFs (h : Plain bytes) : decodeFs bytes = (X86.decode .bits64 bytes).map (false, ·) := by
  cases bytes with
  | nil => cases h
  | cons byte bytes =>
    have hne : byte ≠ 0x64#8 := by simpa [Plain] using h
    rw [EmitMem.decodeFs, if_neg hne]

theorem Coding.plain_membase (hc : Coding lopc legacy escape opcode kind other ops) :
    Plain (emitLopcMembase rexW lopc base disp regOpcode) := (hc.plain _ _ _ _).append _

theorem Coding.plain_memindex (hc : Coding lopc legacy escape opcode kind other ops) {shift : Nat} :
    Plain (emitLopcMemindex rexW lopc shift index base regOpcode) := (hc.plain _ _ _ _).append _

end Decode

/-! ## The result -/

section Result

variable {base index : Gpr} {disp : BitVec 32}

theorem fitsInt32_toInt (disp : BitVec 32) : fitsInt32 disp.toInt := ⟨disp.le_toInt, disp.toInt_lt⟩

theorem toInt_eq_zero_iff : disp.toInt = 0 ↔ disp = 0 := by
  rw [← BitVec.toInt_inj]
  rfl

theorem encodable_iff : (base.1 ≠ .xBP || disp ≠ 0) = true ↔ ¬(base.1 = .xBP ∧ disp.toInt = 0) := by
  rw [toInt_eq_zero_iff]
  simp [or_iff_not_imp_left]

theorem map_ite_none_iff {α β : Type} {f : α → β} {c : Prop} [Decidable c] {a : α} :
    (if c then none else some a).map f = some (f a) ↔ ¬c := by
  split_ifs with h <;> simp [h]

theorem takeImm32_emitImm32 (imm : Int) : takeImm32 (emitImm32 imm) = some (toInt32 imm, []) := by
  have hbytes : emitImm32 imm = imm32Bytes imm := rfl
  have hword := word_of_bytes (BitVec.ofInt 32 imm)
  rw [hbytes, imm32Bytes, takeImm32, hword, BitVec.toInt_ofInt]
  rfl

/-- An instruction with a base register decodes to what is meant when the register has a displacement or is not `xBP`. -/
theorem decodeFs_iff {inst : X86.Inst} (hplain : Plain bytes) (hdecode : X86.decode .bits64 bytes =
      if base.1 = .xBP ∧ disp.toInt = 0 then none else some (inst, [])) :
    decodeFs bytes = some (false, inst, []) ↔ (base.1 ≠ .xBP || disp ≠ 0) = true := by
  rw [encodable_iff, hplain.decodeFs, hdecode]
  exact map_ite_none_iff

/-- An instruction whose operand is read as a general-purpose register decodes to what is meant when moreover the operand
is one. -/
theorem decodeFs_gpr_iff {reg : MachReg} {inst meant : X86.Inst} (hplain : Plain bytes) (hdecode : X86.decode .bits64 bytes =
      if base.1 = .xBP ∧ disp.toInt = 0 then none else some (inst, []))
    (hmeant : inst = meant ↔ isXmmReg reg = false) :
    decodeFs bytes = some (false, meant, []) ↔ ((base.1 ≠ .xBP || disp ≠ 0) && !isXmmReg reg) = true := by
  rw [Bool.and_eq_true, encodable_iff, hplain.decodeFs, hdecode, Bool.not_eq_true', ← hmeant]
  split_ifs with h <;> simp [h]

theorem decode_movRegMembase (src : MachReg) (is64 : Bool) :
    X86.decode .bits64 (emitMovRegMembase src is64 base disp.toInt) = if base.1 = .xBP ∧ disp.toInt = 0 then none
      else some (⟨movOf src is64, !isXmmReg src && is64, memOf base disp, regOf src⟩, []) := by
  have hlt := x86EncodeReg_lt src
  have hfits := fitsInt32_toInt disp
  unfold emitMovRegMembase movOf memOf regOf
  cases isXmmReg src with
  | true =>
    rw [if_pos rfl, ← append_nil (emitLopcMembase _ _ _ _ _)]
    refine (coding_sseFromReg is64).decode_inst (by simp) rfl hlt base.2 hfits ?_ rfl
    cases is64 <;> rfl
  | false =>
    rw [if_neg Bool.false_ne_true, ← append_nil (emitLopcMembase _ _ _ _ _)]
    exact coding_movFromReg.decode_inst (by simp) rfl hlt base.2 hfits rfl rfl

theorem plain_movRegMembase (src : MachReg) (is64 : Bool) : Plain (emitMovRegMembase src is64 base disp.toInt) := by
  unfold emitMovRegMembase
  split_ifs
  · exact (coding_sseFromReg is64).plain_membase
  · exact coding_movFromReg.plain_membase

/-- The frame pointer is a base register like the others. -/
def framePointer : Gpr := ⟨.xBP, rfl⟩

theorem decode_movMemlocalReg (dest : MachReg) (is64 : Bool) :
    X86.decode .bits64 (emitMovMemlocalReg disp.toInt dest is64) = if framePointer.1 = .xBP ∧ disp.toInt = 0 then none
      else some (⟨movOf dest is64, !isXmmReg dest, regOf dest, memOf .xBP disp⟩, []) := by
  have hlt := x86EncodeReg_lt dest
  have hfits := fitsInt32_toInt disp
  unfold emitMovMemlocalReg movOf memOf regOf
  cases isXmmReg dest with
  | true =>
    rw [if_pos rfl, ← append_nil (emitLopcMembase _ _ _ _ _)]
    refine (coding_sseToReg is64).decode_inst (by simp) rfl hlt rfl hfits ?_ rfl
    cases is64 <;> rfl
  | false =>
    rw [if_neg Bool.false_ne_true, emitMembaseReg, ← append_nil (emitLopcMembase _ _ _ _ _)]
    exact coding_movToReg.decode_inst (by simp) rfl hlt rfl hfits rfl rfl

theorem plain_movMemlocalReg (dest : MachReg) (is64 : Bool) : Plain (emitMovMemlocalReg disp.toInt dest is64) := by
  unfold emitMovMemlocalReg
  split_ifs
  · exact (coding_sseToReg is64).plain_membase
  · exact coding_movToReg.plain_membase

/-- An instruction that reads memory into a register, or compares them. -/
theorem decode_membaseReg {opc : Byte} {op : X86.Op} {rexW : Bool} (dest : MachReg)
    (hc : Coding [opc] noLegacy false opc .gpr (.toReg .gpr) fun _ => some op) (hop : op.sized = true) :
    X86.decode .bits64 (emitMembaseReg rexW opc base disp.toInt dest) = if base.1 = .xBP ∧ disp.toInt = 0 then none
      else some (⟨op, rexW, some (.reg (x86EncodeReg dest)), memOf base disp⟩, []) := by
  rw [emitMembaseReg, ← append_nil (emitLopcMembase _ _ _ _ _)]
  refine hc.decode_inst (by simp) rfl (x86EncodeReg_lt dest) base.2 (fitsInt32_toInt disp) ?_ rfl
  rw [hop]
  rfl

theorem decode_movRegMemlocal (src : MachReg) :
    X86.decode .bits64 (emitLopcMembase true [0x89#8] .xBP disp.toInt (x86EncodeReg src)) =
      if framePointer.1 = .xBP ∧ disp.toInt = 0 then none
      else some (⟨.mov, true, memOf .xBP disp, some (.reg (x86EncodeReg src))⟩, []) := by
  rw [← append_nil (emitLopcMembase _ _ _ _ _)]
  exact coding_movFromReg.decode_inst (by simp) rfl (x86EncodeReg_lt src) rfl (fitsInt32_toInt disp) rfl rfl

/-- What is read as a general-purpose register is the operand that is meant exactly if that is one. -/
theorem reg_eq_regOf_iff (reg : MachReg) : some (.reg (x86EncodeReg reg)) = regOf reg ↔ isXmmReg reg = false := by
  unfold regOf
  cases isXmmReg reg <;> simp

theorem inst_eq_iff {reg : MachReg} {op op' : X86.Op} {w w' : Bool} {mem mem' : Option X86.Operand}
    (hgpr : isXmmReg reg = false → op = op' ∧ w = w') :
    (⟨op, w, some (.reg (x86EncodeReg reg)), mem⟩ : X86.Inst) = ⟨op', w', regOf reg, mem'⟩ ↔
      mem = mem' ∧ isXmmReg reg = false := by
  rw [X86.Inst.mk.injEq, reg_eq_regOf_iff]
  exact ⟨fun h => ⟨h.2.2.2, h.2.2.1⟩, fun h => ⟨(hgpr h.2).1, (hgpr h.2).2, h.2, h.1⟩⟩

theorem inst_eq_iff' {reg : MachReg} {op op' : X86.Op} {w w' : Bool} {mem mem' : Option X86.Operand}
    (hgpr : isXmmReg reg = false → op = op' ∧ w = w') :
    (⟨op, w, mem, some (.reg (x86EncodeReg reg))⟩ : X86.Inst) = ⟨op', w', mem', regOf reg⟩ ↔
      mem = mem' ∧ isXmmReg reg = false := by
  rw [X86.Inst.mk.injEq, reg_eq_regOf_iff]
  exact ⟨fun h => ⟨h.2.2.1, h.2.2.2⟩, fun h => ⟨(hgpr h.2).1, (hgpr h.2).2, h.1, h.2⟩⟩

/-- A move of a general-purpose register is a `mov`. -/
theorem movOf_eq {reg : MachReg} (is64 : Bool) (h : isXmmReg reg = false) : .mov = movOf reg is64 := by
  rw [movOf, h]
  rfl

theorem decode_movImmMembase (imm : Int) : X86.decode .bits64 (emitMovImmMembase imm base disp.toInt) =
      if base.1 = .xBP ∧ disp.toInt = 0 then none
      else some (⟨.mov, false, memOf base disp, some (.imm (toInt32 imm))⟩, []) := by
  have himm := takeImm32_emitImm32 imm
  refine coding_movImm.decode_inst nofun rfl (by decide) base.2 (fitsInt32_toInt disp) ?_ ?_
  · rw [takeOther, himm]
    rfl
  · rw [himm]
    rfl

theorem plain_movImmMembase (imm : Int) : Plain (emitMovImmMembase imm base disp.toInt) :=
  coding_movImm.plain_membase.append _

theorem offset_encodable_iff : decide (disp ≠ 0) = true ↔ (framePointer.1 ≠ .xBP || disp ≠ 0) = true := by
  rw [show decide (framePointer.1 ≠ .xBP) = false from rfl, Bool.false_or]

/-- An instruction with an index register; an index `xSP` is read as none. -/
theorem memindex_iff {lopc : List Byte} {opcode : Byte} {other : Other} {reg : MachReg} {is64 : Bool}
    {inst : Option (Nat × Nat) → X86.Inst} {meant : X86.Inst}
    (hc : Coding lopc noLegacy false opcode .gpr other fun _ => some .mov)
    (hinst : ∀ i, takeOther .mov is64 (.mem ⟨some (x86EncodeReg base), i, 0⟩) (.reg (x86EncodeReg reg)) false [] other =
      some (inst i, []))
    (hmeant : ∀ i, inst i = meant ↔ i = some (x86EncodeReg index, shift.1) ∧ isXmmReg reg = false) :
    decodeFs (emitLopcMemindex is64 lopc shift index base (x86EncodeReg reg)) = some (false, meant, []) ↔
      ((base.1 ≠ .xBP && index.1 ≠ .xSP) && !isXmmReg reg) = true := by
  have hdecode : X86.decode .bits64 (emitLopcMemindex is64 lopc shift index base (x86EncodeReg reg) ++ []) = _ :=
    hc.decode_memindex nofun rfl (x86EncodeReg_lt reg) base.2 index.2 []
  rw [append_nil] at hdecode
  rw [hc.plain_memindex.decodeFs, hdecode]
  by_cases hbp : base.1 = .xBP
  · simp [hbp, takeImm32]
  · rw [if_neg hbp, Option.bind_some]
    change Option.map (fun x => (false, x)) (takeOther .mov is64 _ (.reg (x86EncodeReg reg)) false [] other) = _ ↔ _
    rw [hinst]
    by_cases hsp : index.1 = .xSP
    · simp [hbp, hsp, hmeant]
    · simp [hbp, hsp, hmeant]

theorem memIndexOf_eq_iff (i : Option (Nat × Nat)) :
    some (.mem ⟨some (x86EncodeReg base), i, 0⟩) = memIndexOf base index shift ↔ i = some (x86EncodeReg index, shift.1) := by
  simp [memIndexOf]

/-- **Which instructions decode to what is meant.** -/
theorem emitMem_iff (i : MemInsn) : i.DecodesBack ↔ i.encodable = true := by
  cases i with
  | movRegMembase src is64 base disp => exact decodeFs_iff (plain_movRegMembase src is64) (decode_movRegMembase src is64)
  | movRegThreadLocalMembase src is64 base disp =>
    refine Iff.trans ?_ encodable_iff.symm
    change (X86.decode .bits64 (emitMovRegMembase src is64 base disp.toInt)).map (true, ·) = _ ↔ _
    rw [decode_movRegMembase]
    exact map_ite_none_iff
  | movMembaseReg base disp dest is64 =>
    refine decodeFs_gpr_iff coding_movToReg.plain_membase (decode_membaseReg dest coding_movToReg rfl) ?_
    exact (inst_eq_iff fun h => ⟨movOf_eq is64 h, by rw [h]; rfl⟩).trans (and_iff_right rfl)
  | testMembaseReg base disp dest is64 =>
    refine decodeFs_gpr_iff coding_test.plain_membase (decode_membaseReg dest coding_test rfl) ?_
    exact (inst_eq_iff fun _ => ⟨rfl, rfl⟩).trans (and_iff_right rfl)
  | cmpMembaseReg base disp dest is64 =>
    refine decodeFs_gpr_iff coding_cmp.plain_membase (decode_membaseReg dest coding_cmp rfl) ?_
    exact (inst_eq_iff fun _ => ⟨rfl, rfl⟩).trans (and_iff_right rfl)
  | movImmMembase imm base disp => exact decodeFs_iff (plain_movImmMembase imm) (decode_movImmMembase imm)
  | movMemlocalReg offset dest is64 =>
    refine Iff.trans ?_ offset_encodable_iff.symm
    exact decodeFs_iff (plain_movMemlocalReg dest is64) (decode_movMemlocalReg dest is64)
  | movRegMemlocal src is64 offset =>
    change _ ↔ (decide (offset ≠ 0) && !isXmmReg src) = true
    rw [Bool.and_eq_true, offset_encodable_iff, ← Bool.and_eq_true]
    refine decodeFs_gpr_iff coding_movFromReg.plain_membase (decode_movRegMemlocal src) ?_
    exact (inst_eq_iff' fun h => ⟨movOf_eq is64 h, by rw [h]; rfl⟩).trans (and_iff_right rfl)
  | movImmMemlocal imm offset =>
    refine Iff.trans ?_ offset_encodable_iff.symm
    change decodeFs (emitMovImmMembase imm framePointer offset.toInt) = some (false, ⟨.mov, false, _, _⟩, []) ↔ _
    exact decodeFs_iff (plain_movImmMembase imm) (decode_movImmMembase imm)
  | movMemindexReg base index shift dest is64 =>
    refine memindex_iff coding_movToReg (fun _ => rfl) fun i => ?_
    exact (inst_eq_iff fun h => ⟨movOf_eq is64 h, by rw [h]; rfl⟩).trans (and_congr_left' (memIndexOf_eq_iff i))
  | movRegMemindex src is64 base index shift =>
    refine memindex_iff coding_movFromReg (fun _ => rfl) fun i => ?_
    exact (inst_eq_iff' fun h => ⟨movOf_eq is64 h, by rw [h]; rfl⟩).trans (and_congr_left' (memIndexOf_eq_iff i))

/-- `mov` from the address in `xBP` is written as a load relative to the instruction pointer, without its displacement. -/
theorem not_decodesBack_xBP : ¬(MemInsn.movMembaseReg ⟨.xBP, rfl⟩ 0 .xAX true).DecodesBack := by
  unfold MemInsn.DecodesBack
  decide

end Result

end Jato.Arch.EmitMem
