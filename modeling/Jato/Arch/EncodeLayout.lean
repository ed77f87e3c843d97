import Jato.Arch.InsnMeaning

/-!
# The layout of the emitted bytes

`Parts` collects what `insn_encode` computes before it emits: the flags of the addressing mode, the ModRM and the SIB byte
and the displacement. `Parts.decodesBack_iff` reduces decoding to the bytes behind the opcode. `layout_base` and
`layout_ext` give the parts of the instructions whose r/m operand is a register or has one as its base.
-/

namespace Jato.Arch

open Jato.Lib Option Flag X86 Bool
open Flag (srcMask dstMask repnePrefix repePrefix rexWPrefix dirReversed srcMemdisp dstMemdisp srcMemlocal
  dstMemlocal srcImm8 srcImm escapeOpcByte opcReg index opcExt dstNone)

/-! ## Flags -/

variable (self : Insn) (config : Config) (flags : Nat)

section Flags

variable {flags mask x : Nat}

/-- The flags that decide about the addressing mode. -/
def coreMask : Nat := 0xb1fffff00

theorem has_and (h : mask &&& x = x) : has (flags &&& mask) x = has flags x := by
  unfold has
  rw [Nat.and_assoc, h]

theorem has_or : has (flags ||| x) mask = (has flags mask || has x mask) := by
  unfold has
  rw [Nat.and_or_distrib_right]
  simp only [bne, Bool.not_eq_eq_eq_not, ← Bool.not_and]
  rw [Bool.eq_iff_iff]
  simp [Nat.or_eq_zero_iff]

theorem has_or_of_disjoint (h : x &&& mask = 0) : has (flags ||| x) mask = has flags mask := by
  have hx : has x mask = false := by
    unfold has
    rw [h]
    rfl
  rw [has_or, hx, Bool.or_false]

theorem has_or_mask : has flags (mask ||| x) = (has flags mask || has flags x) := by
  unfold has
  rw [Nat.and_or_distrib_left, Bool.eq_iff_iff]
  simp only [bne_iff_ne, ne_eq, Nat.or_eq_zero_iff, Bool.or_eq_true]
  tauto

theorem has_core (h : coreMask &&& mask = mask) : has (flags &&& coreMask) mask = has flags mask := has_and h

theorem rmOperand_core : rmOperand self (flags &&& coreMask) = rmOperand self flags := by
  rw [rmOperand, has_core rfl, rmOperand]

theorem insnNeedSib_core :
    insnNeedSib config self (flags &&& coreMask) = insnNeedSib config self flags := by
  unfold insnNeedSib
  rw [has_core rfl, has_core rfl, has_core rfl, has_core rfl, has_core rfl, has_core rfl, has_core rfl, has_core rfl]

theorem insnEncodeSib_core :
    insnEncodeSib config self (flags &&& coreMask) = insnEncodeSib config self flags := by
  unfold insnEncodeSib
  rw [insnNeedSib_core, rmOperand_core, has_core rfl]

theorem insnEncodeRm_core : insnEncodeRm self (flags &&& coreMask) = insnEncodeRm self flags := by
  unfold insnEncodeRm
  rw [has_core rfl, has_core rfl, has_core rfl, has_core rfl, has_core rfl]

theorem insnEncodeReg_core : insnEncodeReg self (flags &&& coreMask) = insnEncodeReg self flags := by
  rw [insnEncodeReg, has_core rfl, insnEncodeReg]

theorem modSrcEncode_core : modSrcEncode (flags &&& coreMask) = modSrcEncode flags := by
  rw [modSrcEncode, Nat.and_assoc, show coreMask &&& srcMask = srcMask from rfl, modSrcEncode]

theorem modDestEncode_core : modDestEncode (flags &&& coreMask) = modDestEncode flags := by
  rw [modDestEncode, Nat.and_assoc, show coreMask &&& dstMask = dstMask from rfl, modDestEncode]

theorem insnEncodeMod_core :
    insnEncodeMod config self (flags &&& coreMask) = insnEncodeMod config self flags := by
  unfold insnEncodeMod
  rw [modSrcEncode_core, modDestEncode_core, has_core rfl, has_core rfl]

theorem insnEncodeModRm_core (ext : Nat) :
    insnEncodeModRm config self (flags &&& coreMask) ext = insnEncodeModRm config self flags ext := by
  unfold insnEncodeModRm
  rw [insnNeedSib_core, insnEncodeRm_core, insnEncodeReg_core, insnEncodeMod_core, has_core rfl]

end Flags

/-! ## The layout of the bytes -/

abbrev flagsOf (t : InsnType) : Nat := insnFlags (encodeTable t)

abbrev opcodeOf (t : InsnType) : Nat := insnOpcode (encodeTable t)

abbrev extOf (t : InsnType) : Nat := insnOpcExt (encodeTable t)

def legacyOf (flags : Nat) : Legacy :=
  ⟨has flags Flag.repnePrefix, has flags Flag.repePrefix, has flags Flag.operandSizePrefix⟩

def Insn.rex (self : Insn) (flags : Nat) : X86.Rex :=
  let wide := has flags Flag.rexWPrefix && (operandIsReg64 self.src || operandIsReg64 self.dest)
  if has flags Flag.dirReversed then
    ⟨wide, operandIsRegHigh self.src, operandIsIndexRegHigh self.dest, operandIsRegHigh self.dest⟩
  else ⟨wide, operandIsRegHigh self.dest, operandIsIndexRegHigh self.src, operandIsRegHigh self.src⟩

/-- There are no REX prefixes in 32-bit mode. -/
def Config.rex (config : Config) (self : Insn) (flags : Nat) : X86.Rex :=
  match config with
  | .x86_32 => .plain
  | .x86_64 => self.rex flags

def rexNat (w r x b : Bool) : Nat :=
  (if w then rexW else 0) ||| (if r then rexR else 0) ||| (if b then rexB else 0) ||| (if x then rexX else 0)

theorem insnRexOperand64_eq : insnRexOperand64 self flags =
    if has flags rexWPrefix && (operandIsReg64 self.src || operandIsReg64 self.dest) then rexW else 0 := by
  unfold insnRexOperand64
  cases has flags rexWPrefix <;> rfl

theorem insnRexPrefix_eq : insnRexPrefix .x86_64 self flags =
    rexNat (self.rex flags).w (self.rex flags).r (self.rex flags).x (self.rex flags).b := by
  have hcomm : ∀ w r x b : Bool, (if w then rexW else 0) ||| (if b then rexB else 0) ||| (if x then rexX else 0) |||
      (if r then rexR else 0) = rexNat w r x b := by decide
  unfold insnRexPrefix Insn.rex
  rw [insnRexOperand64_eq]
  cases has flags dirReversed with
  | true => rfl
  | false => exact hcomm ..

theorem emit_rexNat : ∀ w r x b : Bool,
    (if rexNat w r x b ≠ 0 then emit (rexNat w r x b) else []) = rexBytes ⟨w, r, x, b⟩ := by
  decide

theorem rexBytes_eq :
    (if insnRexPrefix config self flags ≠ 0 then emit (insnRexPrefix config self flags) else []) =
      rexBytes (config.rex self flags) := by
  cases config with
  | x86_32 => rfl
  | x86_64 =>
    rw [insnRexPrefix_eq]
    exact emit_rexNat ..

/-- The bytes behind the opcode. -/
def operandBytes (flags modRm sib : Nat) (disp imm : Int) : List Byte :=
  (if has flags Flag.modRm then emit modRm else []) ++
  ((if sib ≠ 0 then emit sib else []) ++
  ((if has flags Flag.memDispMask then emitImm disp else []) ++
  ((if has flags (Flag.srcMemdisp ||| Flag.dstMemdisp ||| Flag.srcMemlocal ||| Flag.dstMemlocal) then
      emitImm32 disp else []) ++
  ((if has flags Flag.srcImm8 then emit imm else []) ++
  (if has flags Flag.srcImm then emitImm32 imm else [])))))

theorem operandBytes_core (modRm sib : Nat) (disp imm : Int) :
    operandBytes (flags &&& coreMask) modRm sib disp imm = operandBytes flags modRm sib disp imm := by
  unfold operandBytes
  rw [has_core rfl, has_core rfl, has_core rfl, has_core rfl, has_core rfl]

theorem x86InsnEncode_eq (insn : X86Insn) : x86InsnEncode insn = legacyBytes (legacyOf insn.flags) ++
      ((if insn.rexPrefix ≠ 0 then emit insn.rexPrefix else []) ++ (escapeBytes (has insn.flags escapeOpcByte) ++
      (BitVec.ofInt 8 insn.opcode :: operandBytes insn.flags insn.modRm insn.sib insn.disp insn.imm))) := by
  simp only [x86InsnEncode, legacyBytes, legacyOf, escapeBytes, operandBytes, List.append_assoc, emit,
    List.singleton_append]
  rfl

/-- The flags outside the addressing mode. -/
def headMask : Nat :=
  Flag.repnePrefix ||| Flag.repePrefix ||| Flag.operandSizePrefix ||| Flag.escapeOpcByte ||| Flag.rexWPrefix |||
    Flag.dirReversed

variable {x flags v m sib n mod reg rm : Nat} {disp : Int} {entry : X86.Entry} {inst : X86.Inst}

theorem has_or_head {mask : Nat} (hx : x &&& headMask = 0) (h : headMask &&& mask = mask) :
    has (flags ||| x) mask = has flags mask := by
  apply has_or_of_disjoint
  rw [← h, ← Nat.and_assoc, hx, Nat.zero_and]

/-- The parts of an instruction: the flags `x` that the displacement adds, the resulting addressing mode `v`, the
register `n` in the opcode, the ModRM byte `m`, the SIB byte `b` and the displacement. -/
structure Parts (config : Config) (insn : Insn) (x v n m b : Nat) (d : Int) : Prop where
  valid : encodeTable insn.type ≠ invalidInsn
  disp : insnDisp config insn (flagsOf insn.type) = some (d, flagsOf insn.type ||| x)
  head : x &&& headMask = 0
  core : (flagsOf insn.type ||| x) &&& coreMask = v
  reg : (if has v Flag.opcReg then (rmOperand insn v).reg?.map encodeReg else some 0) = some n
  modRm : (if has v Flag.modRm then insnEncodeModRm config insn v (extOf insn.type) else some 0) = some m
  sib : (if has v Flag.modRm then insnEncodeSib config insn v else some 0) = some b

/-- The immediate of an instruction with the addressing mode `v`. -/
def Insn.immOf (self : Insn) (v : Nat) : Int :=
  if has v (Flag.srcImm8 ||| Flag.srcImm) then
    toInt32 (if has v Flag.dirReversed then self.src.immediate else self.dest.immediate)
  else 0

variable {config : Config} {self : Insn} {needSib : Bool} {r : UsePosition}

theorem Parts.insnEncode (h : Parts config self x v n m sib disp) :
    insnEncode config self = some (legacyBytes (legacyOf (flagsOf self.type)) ++
      (rexBytes (config.rex self (flagsOf self.type)) ++ (escapeBytes (has (flagsOf self.type) escapeOpcByte) ++
      (BitVec.ofInt 8 (opcodeOf self.type + n : Nat) :: operandBytes v m sib disp (self.immOf v))))) := by
  obtain ⟨hvalid, hdisp, hx, hv, hreg, hm, hsib⟩ := h
  subst hv
  rw [rmOperand_core, has_core rfl] at hreg
  rw [insnEncodeModRm_core, has_core rfl] at hm
  rw [insnEncodeSib_core, has_core rfl] at hsib
  have hrex : config.rex self (flagsOf self.type ||| x) = config.rex self (flagsOf self.type) := by
    cases config with
    | x86_32 => rfl
    | x86_64 => simp [Config.rex, Insn.rex, has_or_head hx (show headMask &&& rexWPrefix = _ from rfl), has_or_head hx (show headMask &&& dirReversed = _ from rfl)]
  have hlegacy : legacyOf (flagsOf self.type ||| x) = legacyOf (flagsOf self.type) := by
    simp [legacyOf, has_or_head hx (show headMask &&& repnePrefix = _ from rfl), has_or_head hx (show headMask &&& repePrefix = _ from rfl), has_or_head hx (show headMask &&& Flag.operandSizePrefix = _ from rfl)]
  have hescape : has (flagsOf self.type ||| x) escapeOpcByte = has (flagsOf self.type) escapeOpcByte :=
    has_or_head hx rfl
  rw [Insn.immOf, operandBytes_core, has_core rfl, has_core rfl, ← hescape, ← hlegacy, ← hrex, ← rexBytes_eq]
  simp only [Arch.insnEncode, if_neg hvalid]
  simp only [hdisp, bind_eq_bind, bind_some, hreg, hm, hsib, x86InsnEncode_eq]
  rfl

theorem opens_opcodeOf {t : InsnType} (hvalid : encodeTable t ≠ invalidInsn)
    (hescape : has (flagsOf t) escapeOpcByte = false) :
    Opens (BitVec.ofInt 8 (opcodeOf t : Nat)) ∧ BitVec.ofInt 8 (opcodeOf t : Nat) ≠ 0x0f#8 := by
  cases t <;> first
    | exact absurd hescape (by decide)
    | exact absurd rfl hvalid
    | exact ⟨⟨by decide, by decide, by decide, by decide⟩, by decide⟩

theorem Config.rex_plain (h : config.mode = .bits32) (self : Insn) (flags : Nat) : config.rex self flags = .plain := by
  cases config with
  | x86_32 => rfl
  | x86_64 => cases h

theorem Parts.decodesBack_iff (h : Parts config self x v n m sib disp)
    (hopens : has (flagsOf self.type) escapeOpcByte = false →
      Opens (BitVec.ofInt 8 (opcodeOf self.type + n : Nat)) ∧ BitVec.ofInt 8 (opcodeOf self.type + n : Nat) ≠ 0x0f#8)
    (hentry : opcodeMap config.mode (legacyOf (flagsOf self.type)) (has (flagsOf self.type) escapeOpcByte)
      (BitVec.ofInt 8 (opcodeOf self.type + n : Nat)) = some entry) (hmeaning : self.meaning config = some inst) :
    DecodesBack config self ↔ takeOperands config.mode (rexOf (config.rex self (flagsOf self.type)))
        (BitVec.ofInt 8 (opcodeOf self.type + n : Nat)) entry (operandBytes v m sib disp (self.immOf v)) =
          some (inst, []) := by
  have hdecode := decode_opcode (fun hmode : config.mode = .bits32 => Config.rex_plain hmode self (flagsOf self.type))
    (legacyOf (flagsOf self.type)) hopens (operandBytes v m sib disp (self.immOf v))
  rw [hentry, bind_some] at hdecode
  constructor
  · rintro ⟨bytes, inst', hbytes, hinst, hdec⟩
    cases h.insnEncode.symm.trans hbytes
    cases hmeaning.symm.trans hinst
    exact hdecode.symm.trans hdec
  · intro htake
    exact ⟨_, inst, h.insnEncode, hmeaning, hdecode.trans htake⟩

/-- The parts of an instruction with a ModRM byte. -/
structure Layout (config : Config) (insn : Insn) (x v m b : Nat) (d : Int) : Prop where
  valid : encodeTable insn.type ≠ invalidInsn
  disp : insnDisp config insn (flagsOf insn.type) = some (d, flagsOf insn.type ||| x)
  head : x &&& headMask = 0
  core : (flagsOf insn.type ||| x) &&& coreMask = v
  hasModRm : has v Flag.modRm = true
  opcReg : has v Flag.opcReg = false
  modRm : insnEncodeModRm config insn v (extOf insn.type) = some m
  sib : insnEncodeSib config insn v = some b

theorem Layout.parts {b : Nat} {d : Int} (h : Layout config self x v m b d) : Parts config self x v 0 m b d := by
  refine ⟨h.valid, h.disp, h.head, h.core, ?_, ?_, ?_⟩
  · rw [h.opcReg, if_neg Bool.false_ne_true]
  · rw [h.hasModRm, if_pos rfl, h.modRm]
  · rw [h.hasModRm, if_pos rfl, h.sib]

/-- What the decoder has for the opcode of a type. -/
abbrev opcodeEntry (config : Config) (t : InsnType) : Option X86.Entry :=
  opcodeMap config.mode (legacyOf (flagsOf t)) (has (flagsOf t) Flag.escapeOpcByte) (BitVec.ofInt 8 (opcodeOf t : Nat))

theorem Layout.decodesBack_iff (h : Layout config self x v m sib disp)
    (hentry : opcodeEntry config self.type = some entry) (hmeaning : self.meaning config = some inst) :
    DecodesBack config self ↔ takeOperands config.mode (rexOf (config.rex self (flagsOf self.type)))
        (BitVec.ofInt 8 (opcodeOf self.type : Nat)) entry (operandBytes v m sib disp (self.immOf v)) = some (inst, []) :=
  h.parts.decodesBack_iff (opens_opcodeOf h.valid) hentry hmeaning

/-! ## ModRM and SIB bytes -/

theorem x86EncodeModRm_toNat (hmod : mod < 4) (hreg : reg < 8) (hrm : rm < 8) :
    (BitVec.ofInt 8 (x86EncodeModRm mod reg rm : Nat)).toNat = 64 * mod + 8 * reg + rm := by
  have h : ∀ mod : Fin 4, ∀ reg rm : Fin 8,
      (BitVec.ofInt 8 (x86EncodeModRm mod reg rm : Nat)).toNat = 64 * mod + 8 * reg + rm := by decide
  exact h ⟨mod, hmod⟩ ⟨reg, hreg⟩ ⟨rm, hrm⟩

theorem x86EncodeSib_toNat {scale index base : Nat} (hscale : scale < 4) (hindex : index < 8) (hbase : base < 8) :
    (BitVec.ofInt 8 (x86EncodeSib scale index base : Nat)).toNat = 64 * scale + 8 * index + base :=
  x86EncodeModRm_toNat hscale hindex hbase

theorem takeOperands_modRm {mode : X86.Mode} {rex : Option X86.Rex} {opcode : Byte} {kind : RegKind}
    {other : Other} {ops : Nat → Option X86.Op} (hmod : mod < 4) (hreg : reg < 8) (hrm : rm < 8) (bytes : List Byte) :
    takeOperands mode rex opcode ⟨.modRm kind other, ops⟩ (BitVec.ofInt 8 (x86EncodeModRm mod reg rm : Nat) :: bytes) =
      (ops reg).bind fun op => (takeRm mode rex (other.rmKind kind) mod rm bytes).bind fun (o, rest) =>
        takeOther op (op.sized && (rex.getD .plain).w) o
          (kind.operand rex.isSome (regNumber (rex.getD .plain).r reg)) (decide (mod = 3)) rest other := by
  have hnat := x86EncodeModRm_toNat hmod hreg hrm
  have h1 : (64 * mod + 8 * reg + rm) / 64 = mod := by omega
  have h2 : (64 * mod + 8 * reg + rm) / 8 % 8 = reg := by omega
  have h3 : (64 * mod + 8 * reg + rm) % 8 = rm := by omega
  simp only [takeOperands, hnat, h1, h2, h3]

theorem encodeReg_eq (r : UsePosition) : encodeReg r = x86EncodeReg r.machReg % 8 := by
  exact Nat.and_two_pow_sub_one_eq_mod _ 3

theorem encodeReg_lt (r : UsePosition) : encodeReg r < 8 := by
  rw [encodeReg_eq]
  exact Nat.mod_lt _ (by decide)

theorem x86EncodeReg_lt (reg : MachReg) : x86EncodeReg reg < 16 := by
  cases reg <;> decide

theorem has_eight (reg : MachReg) : has (x86EncodeReg reg) 0x8 = decide (8 ≤ x86EncodeReg reg) := by
  cases reg <;> rfl

/-! ## Register operands -/

/-- The size of the displacement that `insn_disp` picks. -/
def dispMod (config : Config) (self : Insn) (disp : Int) : Nat :=
  if decide (disp = 0) && !insnNeedDisp config self then 0 else if isImm8 disp then 1 else 2

def srcDispFlag : Nat → Nat
  | 0 => Flag.srcMem
  | 1 => Flag.srcMemDispByte
  | _ => Flag.srcMemDispFull

def dstDispFlag : Nat → Nat
  | 0 => Flag.dstMem
  | 1 => Flag.dstMemDispByte
  | _ => Flag.dstMemDispFull

theorem insnDisp_of_core (h : flags &&& coreMask = v) : insnDisp config self flags =
      if has v (srcMemlocal ||| dstMemlocal) then
        (rmOperand self v).slot?.map fun slot => (insnSlotOffset config flags slot, flags)
      else if has v (srcMemdisp ||| dstMemdisp) then
        some (toInt32 (rmOperand self v).immediate, flags)
      else if has v dirReversed then
        if has v Flag.dstReg then some (0, flags)
        else
          let disp := if has v index then 0 else toInt32 self.dest.disp
          some (disp, flags ||| dstDispFlag (dispMod config self disp))
      else
        if has v Flag.srcReg then some (0, flags)
        else
          let disp := if has v index then 0 else toInt32 self.src.disp
          some (disp, flags ||| srcDispFlag (dispMod config self disp)) := by
  subst h
  rw [rmOperand_core, has_core rfl, has_core rfl, has_core rfl, has_core rfl, has_core rfl, has_core rfl, insnDisp]
  simp only [dispMod]
  split_ifs <;> rfl

theorem insnEncodeModRm_eq {ext : Nat}
    (hsib : insnNeedSib config self v = some needSib) (hmod : insnEncodeMod config self v = some mod)
    (hreg : (if has v opcExt then some ext else insnEncodeReg self v) = some reg)
    (hrm : (if needSib then some 0x04 else insnEncodeRm self v) = some rm) :
    insnEncodeModRm config self v ext = some (x86EncodeModRm mod reg rm) := by
  simp only [insnEncodeModRm, hsib, hmod, hreg, hrm, bind_eq_bind, bind_some]
  rfl

/-- The SIB byte of a base register without an index. -/
def sibOf (needSib : Bool) : Nat := if needSib then 0x24 else 0

theorem insnEncodeSib_eq (hsib : insnNeedSib config self v = some needSib) (hindex : has v index = false)
    (hreg : (rmOperand self v).reg? = some r) (hfour : needSib = true → encodeReg r = 4) :
    insnEncodeSib config self v = some (sibOf needSib) := by
  simp only [insnEncodeSib, hsib, hindex, hreg, bind_eq_bind, bind_some]
  cases needSib with
  | false => rfl
  | true => simp only [if_true, false_eq_true, if_false, bind_some, map_some, hfour rfl]; rfl

/-- The flag for a displacement of one byte, on the side of the r/m operand. -/
def hasDispByte (v : Nat) : Bool :=
  if has v Flag.dirReversed then has v Flag.dstMemDispByte else has v Flag.srcMemDispByte

/-- The flag for a memory operand without a base register, on the side of the r/m operand. -/
def hasBaseless (v : Nat) : Bool :=
  if has v Flag.dirReversed then has v (Flag.dstMemdisp ||| Flag.dstMemlocal)
  else has v (Flag.srcMemdisp ||| Flag.srcMemlocal)

theorem insnNeedSib_base (hindex : has v index = false) (hnone : has v dstNone = false)
    (hext : has v opcExt = false) (hmem : hasBaseless v = false) (hreg : (rmOperand self v).reg? = some r) :
    insnNeedSib config self v = some (decide (config = .x86_64) && hasDispByte v && decide (r.machReg = .r12) ||
      decide (r.machReg = .xSP)) := by
  unfold hasBaseless at hmem
  unfold insnNeedSib hasDispByte
  unfold rmOperand at hreg
  rw [hindex, hnone, hext]
  cases hrev : has v dirReversed <;>
    simp only [hrev, Bool.false_eq_true, if_true, if_false, Bool.and_false, Bool.false_and] at hreg hmem ⊢ <;>
    simp [hreg, hmem]

theorem insnNeedSib_ext (hindex : has v index = false) (hext : has v opcExt = true) :
    insnNeedSib config self v = some (decide (config = .x86_64) && has v dstNone && insnUsesReg self .r12) := by
  unfold insnNeedSib
  rw [hindex, hext]
  cases decide (config = .x86_64) && has v dstNone && insnUsesReg self .r12 <;> rfl

theorem four_of_sib {c : Bool}
    (h : (c && decide (r.machReg = .r12) || decide (r.machReg = .xSP)) = true) : encodeReg r = 4 := by
  rcases or_eq_true_iff.mp h with h12 | hsp
  · rw [encodeReg, of_decide_eq_true (and_eq_true_iff.mp h12).2]
    rfl
  · rw [encodeReg, of_decide_eq_true hsp]
    rfl

/-- The register field 4 names `xSP`, so the escape to the SIB byte does not change the ModRM byte. -/
theorem rm_of_needSib (h : needSib = true → encodeReg r = 4) :
    (if needSib then some 0x04 else some (encodeReg r)) = some (encodeReg r) := by
  cases needSib with
  | false => rfl
  | true => rw [h rfl]; rfl

/-- The operand that the register field is for. -/
def regOperand (self : Insn) (v : Nat) : Operand := if has v Flag.dirReversed then self.src else self.dest

theorem insnEncodeRm_eq (hmem : hasBaseless v = false)
    (hreg : (rmOperand self v).reg? = some r) : insnEncodeRm self v = some (encodeReg r) := by
  unfold hasBaseless at hmem
  unfold insnEncodeRm
  unfold rmOperand at hreg
  cases hrev : has v dirReversed <;>
    simp only [hrev, false_eq_true, if_true, if_false] at hreg hmem ⊢ <;>
    rw [Nat.or_comm, has_or_mask, or_eq_false_iff] at hmem <;>
    simp [hmem.1, hmem.2, hreg]

/-- The flags that a displacement adds do not turn the operands around. -/
theorem rmOperand_or (hx : x &&& headMask = 0) (hv : (flags ||| x) &&& coreMask = v) :
    rmOperand self v = rmOperand self flags := by
  rw [← hv, rmOperand_core, rmOperand, has_or_head hx rfl, rmOperand]

theorem regOperand_or (hx : x &&& headMask = 0) (hv : (flags ||| x) &&& coreMask = v) :
    regOperand self v = regOperand self flags := by
  rw [← hv, regOperand, has_core rfl, has_or_head hx rfl, regOperand]

/-- An addressing mode with a register as the r/m operand or as its base, and a register field. -/
structure BaseMode (v mod : Nat) : Prop where
  hasModRm : has v Flag.modRm = true
  opcReg : has v Flag.opcReg = false
  index : has v Flag.index = false
  dstNone : has v Flag.dstNone = false
  opcExt : has v Flag.opcExt = false
  baseless : hasBaseless v = false
  mod : (if has v Flag.dirReversed then modDestEncode v else modSrcEncode v) = some mod

/-- An addressing mode with a register as the r/m operand or as its base, and a part of the opcode in the register
field. -/
structure ExtMode (v mod : Nat) : Prop where
  hasModRm : has v Flag.modRm = true
  opcReg : has v Flag.opcReg = false
  index : has v Flag.index = false
  opcExt : has v Flag.opcExt = true
  baseless : hasBaseless v = false
  mod : (if has v Flag.dirReversed then modDestEncode v else modSrcEncode v) = some mod

theorem insnEncodeMod_eq (hindex : has v index = false)
    (hmod : (if has v dirReversed then modDestEncode v else modSrcEncode v) = some mod) :
    insnEncodeMod config self v = some mod := by
  simp [insnEncodeMod, hindex, hmod]

section Layouts

variable {config : Config} {self : Insn} {x v mod : Nat} {disp : Int} {r q : UsePosition}

theorem layout_base (hmode : BaseMode v mod) (hvalid : encodeTable self.type ≠ invalidInsn)
    (hdisp : insnDisp config self (flagsOf self.type) = some (disp, flagsOf self.type ||| x)) (hx : x &&& headMask = 0)
    (hv : (flagsOf self.type ||| x) &&& coreMask = v) (hr : (rmOperand self v).reg? = some r)
    (hq : (regOperand self v).reg? = some q) : Layout config self x v (x86EncodeModRm mod (encodeReg q) (encodeReg r))
      (sibOf (decide (config = .x86_64) && hasDispByte v && decide (r.machReg = .r12) || decide (r.machReg = .xSP)))
      disp := by
  obtain ⟨hmodRm, hopcReg, hindex, hnone, hext, hbaseless, hmod⟩ := hmode
  have hsib : insnNeedSib config self v = some (_ || _) := insnNeedSib_base hindex hnone hext hbaseless hr
  have hfour := four_of_sib (r := r) (c := decide (config = .x86_64) && hasDispByte v)
  have hreg : insnEncodeReg self v = some (encodeReg q) := by
    unfold regOperand at hq
    unfold insnEncodeReg
    cases hrev : has v dirReversed <;>
      simp only [hrev, false_eq_true, if_true, if_false] at hq ⊢ <;>
      rw [hq, map_some]
  refine ⟨hvalid, hdisp, hx, hv, hmodRm, hopcReg, insnEncodeModRm_eq hsib (insnEncodeMod_eq hindex hmod) ?_ ?_,
    insnEncodeSib_eq hsib hindex hr hfour⟩
  · rw [hext, hreg]
    rfl
  · rw [insnEncodeRm_eq hbaseless hr]
    exact rm_of_needSib hfour

theorem layout_ext (hmode : ExtMode v mod) (hvalid : encodeTable self.type ≠ invalidInsn)
    (hdisp : insnDisp config self (flagsOf self.type) = some (disp, flagsOf self.type ||| x)) (hx : x &&& headMask = 0)
    (hv : (flagsOf self.type ||| x) &&& coreMask = v) (hr : (rmOperand self v).reg? = some r)
    (huses : has v dstNone = true → insnUsesReg self .r12 = decide (r.machReg = .r12)) :
    Layout config self x v (x86EncodeModRm mod (extOf self.type) (encodeReg r))
      (sibOf (decide (config = .x86_64) && has v dstNone && decide (r.machReg = .r12))) disp := by
  obtain ⟨hmodRm, hopcReg, hindex, hext, hbaseless, hmod⟩ := hmode
  have hsib : insnNeedSib config self v =
      some (decide (config = .x86_64) && has v dstNone && decide (r.machReg = .r12)) := by
    rw [insnNeedSib_ext hindex hext]
    cases hnone : has v dstNone with
    | false => simp only [Bool.and_false, Bool.false_and]
    | true => rw [huses hnone]
  have hfour : (decide (config = .x86_64) && has v dstNone && decide (r.machReg = .r12)) = true → encodeReg r = 4 := by
    intro h
    rw [encodeReg, of_decide_eq_true (Bool.and_eq_true_iff.mp h).2]
    rfl
  refine ⟨hvalid, hdisp, hx, hv, hmodRm, hopcReg, insnEncodeModRm_eq hsib (insnEncodeMod_eq hindex hmod) ?_ ?_,
    insnEncodeSib_eq hsib hindex hr hfour⟩
  · rw [hext]
    rfl
  · rw [insnEncodeRm_eq hbaseless hr]
    exact rm_of_needSib hfour

end Layouts

end Jato.Arch
