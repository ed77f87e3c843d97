import Jato.Arch.EncodeLayout

/-!
# What the encoder's bytes mean

The shapes of instructions are decoded one by one: a base register with a displacement (`decodesBack_mem`,
`decodesBack_loneBase`), the jump through a table (`decodesBack_memindex`), registers (`decodesBack_regs`,
`decodesBack_extReg`), memory without a base register (`decodesBack_memlocal`, `decodesBack_baselessReg`) and no ModRM byte
at all (`decodesBack_cltd`, `decodesBack_inOpcode`). `insnEncode_iff` puts them together: the bytes that `insn_encode` emits
decode to the meaning of the instruction exactly when it is `Insn.encodable`.
-/

namespace Jato.Arch

open Jato.Lib Flag X86
open BitVec (ofInt)

/-! ## Decoding operands -/

theorem Config.rex_eq (config : Config) (self : Insn) (flags : Nat) : config.rex self flags =
    ⟨decide (config = .x86_64) && (has flags rexWPrefix && (operandIsReg64 self.src || operandIsReg64 self.dest)),
      decide (config = .x86_64) && operandIsRegHigh (regOperand self flags),
      decide (config = .x86_64) && operandIsIndexRegHigh (rmOperand self flags),
      decide (config = .x86_64) && operandIsRegHigh (rmOperand self flags)⟩ := by
  unfold Config.rex Insn.rex regOperand rmOperand
  cases config with
  | x86_32 => rfl
  | x86_64 => cases has flags dirReversed <;> simp

variable {config : Config} {r : UsePosition} {self : Insn} {disp : Int} {mod : Nat} {rex : X86.Rex}
  {ops : Nat → Option X86.Op} {op : X86.Op}

/-- The register field and the bit that extends it give the register back. -/
theorem regNumber_rex {operand : Operand} (hr : operand.reg? = some r) (havailable : r.machReg.available config) :
    regNumber (decide (config = .x86_64) && operandIsRegHigh operand) (encodeReg r) = x86EncodeReg r.machReg := by
  have hhigh : operandIsRegHigh operand = decide (8 ≤ x86EncodeReg r.machReg) := by
    unfold operandIsRegHigh
    rw [hr]
    exact has_eight r.machReg
  rw [encodeReg_eq, hhigh]
  cases config with
  | x86_64 => exact regNumber_mod (x86EncodeReg_lt r.machReg)
  | x86_32 => exact Nat.mod_eq_of_lt (havailable rfl)

variable {flags v n : Nat} {t : InsnType} {form : X86.Form} {reg : MachReg} {b : UsePosition} {kind : OperandKind}

theorem rex_b (hr : (rmOperand self flags).reg? = some r) (havailable : r.machReg.available config) :
    regNumber (config.rex self flags).b (encodeReg r) = x86EncodeReg r.machReg := by
  rw [Config.rex_eq]
  exact regNumber_rex hr havailable

theorem rex_r (hr : (regOperand self flags).reg? = some r) (havailable : r.machReg.available config) :
    regNumber (config.rex self flags).r (encodeReg r) = x86EncodeReg r.machReg := by
  rw [Config.rex_eq]
  exact regNumber_rex hr havailable

/-- The displacement of a memory operand, in the size that `mod` stands for. -/
def dispBytes (mod : Nat) (disp : Int) : List Byte := if mod = 1 ∨ mod = 2 then emitImm disp else []

/-- `mod` is the size of the displacement. -/
structure DispMode (mod : Nat) (disp : Int) : Prop where
  le : mod ≤ 2
  zero : mod = 0 → disp = 0
  byte : mod = 1 → isImm8 disp = true
  full : mod = 2 → isImm8 disp = false
  fits : fitsInt32 disp

theorem mod_cases (h : mod ≤ 2) : mod = 0 ∨ mod = 1 ∨ mod = 2 := by omega

theorem isImm8_iff : isImm8 disp = true ↔ -128 ≤ disp ∧ disp ≤ 127 := by
  simp [isImm8]

theorem takeDisp_dispBytes (h : DispMode mod disp) : takeDisp mod (dispBytes mod disp) = some (disp, []) := by
  obtain ⟨hle, hzero, hbyte, hfull, hfits⟩ := h
  obtain rfl | rfl | rfl := mod_cases hle
  · rw [hzero rfl]
    rfl
  · have h8 := hbyte rfl
    simp only [takeDisp, dispBytes, if_true, true_or, emitImm, h8, emit]
    exact takeImm8_ofInt (isImm8_iff.mp h8) []
  · have h8 := hfull rfl
    simp only [takeDisp, dispBytes, if_true, or_true, emitImm, h8, Bool.false_eq_true, if_false,
      show ¬ (2 : Nat) = 1 by decide]
    exact takeImm32_imm32Bytes hfits []

/-- A SIB byte that is missing is taken from the displacement, which is then too short. -/
theorem takeSib_dispBytes (h : DispMode mod disp) : takeSib rex mod (dispBytes mod disp) = none := by
  obtain ⟨hle, hzero, hbyte, hfull, hfits⟩ := h
  obtain rfl | rfl | rfl := mod_cases hle
  · rfl
  · simp only [dispBytes, true_or, if_true, emitImm, hbyte rfl, emit, takeSib, takeDisp, takeImm8, Option.map_none,
      Nat.one_ne_zero, and_false, if_false]
  · simp only [dispBytes, or_true, if_true, emitImm, hfull rfl, Bool.false_eq_true, emitImm32, takeSib, takeDisp,
      takeImm32, Option.map_none, show ¬ (2 : Nat) = 0 by decide, show ¬ (2 : Nat) = 1 by decide, and_false, if_false]

/-- The base register with the number 4 has its SIB byte, and the one with the number 5 a displacement. -/
def baseReadable (sib : Bool) (mod : Nat) (r : UsePosition) : Bool :=
  (encodeReg r ≠ 4 || sib) && (encodeReg r ≠ 5 || mod ≠ 0)

/-- **A base register with a displacement** is read back, or nothing is. -/
theorem takeMem_base {mode : X86.Mode} {sib : Bool}
    (h : DispMode mod disp) (hx : rex.x = false) (hfour : sib = true → encodeReg r = 4) :
    takeMem mode rex mod (encodeReg r) ((if sibOf sib ≠ 0 then emit (sibOf sib) else []) ++ dispBytes mod disp) =
      if baseReadable sib mod r then some (.mem ⟨some (regNumber rex.b (encodeReg r)), none, disp⟩, []) else none := by
  by_cases h4 : encodeReg r = 4
  · cases sib with
    | true =>
      have hread : baseReadable true mod r = true := by
        simp [baseReadable, h4]
      have hsib : takeSib rex mod (0x24#8 :: dispBytes mod disp) =
          some (.mem ⟨some (regNumber rex.b 4), none, disp⟩, []) := by
        simp only [takeSib, takeDisp_dispBytes h, hx]
        rfl
      rw [hread, if_pos rfl, takeMem, h4, if_pos rfl]
      exact hsib
    | false =>
      have hread : baseReadable false mod r = false := by
        simp [baseReadable, h4]
      rw [hread, if_neg Bool.false_ne_true, takeMem, h4, if_pos rfl]
      exact takeSib_dispBytes h
  · obtain rfl : sib = false := by
      cases sib with
      | false => rfl
      | true => exact absurd (hfour rfl) h4
    rw [takeMem, if_neg h4]
    by_cases h5 : encodeReg r = 5 ∧ mod = 0
    · have hread : baseReadable false mod r = false := by
        simp [baseReadable, h5.1, h5.2]
      rw [hread, if_pos h5, h5.2]
      rfl
    · have hread : baseReadable false mod r = true := by
        simp only [baseReadable]
        simp
        tauto
      rw [hread, if_neg h5, if_pos rfl]
      exact congrArg (Option.map _) (takeDisp_dispBytes h)

/-! ## Instructions with a base register -/

/-- The entries of the tables for a type: the addressing mode, and the form and the operation of its opcode. -/
structure Coded (t : InsnType) (v : Nat) (form : X86.Form) (ops : Nat → Option X86.Op) (op : X86.Op) : Prop where
  valid : encodeTable t ≠ invalidInsn
  core : flagsOf t &&& coreMask = v
  entry : ∀ config : Config, opcodeMap config.mode (legacyOf (flagsOf t)) (has (flagsOf t) escapeOpcByte)
    (BitVec.ofInt 8 (opcodeOf t : Nat)) = some ⟨form, ops⟩
  hasOp : x86Op t = some op
  sized : has (flagsOf t) rexWPrefix = op.sized

theorem Coded.of
    (valid : encodeTable t ≠ invalidInsn := by decide) (core : flagsOf t &&& coreMask = v := by rfl)
    (entry : ∀ config : Config, opcodeEntry config t = some ⟨form, ops⟩ := by rintro ⟨⟩ <;> rfl)
    (hasOp : x86Op t = some op := by rfl) (sized : has (flagsOf t) rexWPrefix = op.sized := by rfl) :
    Coded t v form ops op :=
  ⟨valid, core, entry, hasOp, sized⟩

theorem Coded.meaning
    (hc : Coded t v form ops op) {ks kd : OperandKind} (hsig : signature t = (ks, kd)) (hkind : kd ≠ .none) (config : Config)
    (src dest : Operand) : Insn.meaning config ⟨t, src, dest⟩ = some ⟨op,
      op.sized && (decide (config = .x86_64) && (src.holdsInt64 || dest.holdsInt64)), dest.denote config op kd,
      src.denote config op ks⟩ := by
  simp only [Insn.meaning, hc.hasOp, hsig, Option.bind_eq_bind, Option.bind_some, if_neg hkind]
  rfl

theorem dispMode_dispMod (config : Config) (self : Insn) (hfits : fitsInt32 disp) :
    DispMode (dispMod config self disp) disp := by
  unfold dispMod
  cases h0 : decide (disp = 0) && !insnNeedDisp config self with
  | true =>
    have := of_decide_eq_true (Bool.and_eq_true_iff.mp h0).1
    exact ⟨Nat.zero_le _, fun _ => this, by simp, by simp, hfits⟩
  | false =>
    cases h8 : isImm8 disp with
    | true => exact ⟨by decide, by simp, fun _ => h8, by simp, hfits⟩
    | false => exact ⟨by decide, by simp, by simp, fun _ => h8, hfits⟩

theorem toInt32_eq {x : Int} (h : fitsInt32 x) : toInt32 x = x :=
  Int.bmod_eq_of_le (by have := h.1; omega) (by have := h.2; omega)

theorem insnDisp_src (hcore : flags &&& coreMask = addmodeRmReg)
    (hfits : fitsInt32 self.src.disp) : insnDisp config self flags =
      some (self.src.disp, flags ||| srcDispFlag (dispMod config self self.src.disp)) := by
  refine (insnDisp_of_core hcore).trans ?_
  change some (toInt32 self.src.disp, flags ||| srcDispFlag (dispMod config self (toInt32 self.src.disp))) = _
  rw [toInt32_eq hfits]

/-- The addressing modes whose displacement is that of the destination. -/
theorem insnDisp_dest (hcore : flags &&& coreMask = v)
    (hv : v = addmodeRegRm ∨ v = addmodeRm ||| opcExt) (hfits : fitsInt32 self.dest.disp) : insnDisp config self flags =
      some (self.dest.disp, flags ||| dstDispFlag (dispMod config self self.dest.disp)) := by
  have hdisp : insnDisp config self flags =
      some (toInt32 self.dest.disp, flags ||| dstDispFlag (dispMod config self (toInt32 self.dest.disp))) := by
    refine (insnDisp_of_core hcore).trans ?_
    obtain rfl | rfl := hv <;> rfl
  rw [hdisp, toInt32_eq hfits]

theorem core_or {x : Nat} (h : flags &&& coreMask = v) (hx : x &&& coreMask = x) :
    (flags ||| x) &&& coreMask = v ||| x := by
  rw [Nat.and_or_distrib_right, h, hx]

theorem encodeReg_eq_four (h : isXmmReg r.machReg = false) : encodeReg r = 4 ↔ r.machReg = .xSP ∨ r.machReg = .r12 := by
  unfold encodeReg
  revert h
  cases r.machReg <;> decide

theorem encodeReg_eq_five (h : isXmmReg r.machReg = false) : encodeReg r = 5 ↔ r.machReg = .xBP ∨ r.machReg = .r13 := by
  unfold encodeReg
  revert h
  cases r.machReg <;> decide

/-- The registers with a role of their own are told by their numbers. -/
theorem x86EncodeReg_eq (h : isXmmReg reg = false) :
    (x86EncodeReg reg = 0 ↔ reg = .xAX) ∧ (x86EncodeReg reg = 1 ↔ reg = .xCX) ∧ (x86EncodeReg reg = 2 ↔ reg = .xDX) ∧
      (x86EncodeReg reg = 4 ↔ reg = .xSP) := by
  revert h
  cases reg <;> decide

theorem available_low (h : reg.available .x86_32) : reg ≠ .r12 ∧ reg ≠ .r13 := by
  constructor <;> rintro rfl <;> exact absurd (h rfl) (by decide)

/-- The other register of an instruction takes part in the choice of the displacement. -/
theorem baseReadable_eq {r : UsePosition} (hb : b.IsGpr config)
    (hneed : insnNeedDisp config self = (decide (config = .x86_64) && ((b.machReg = .r13 || r.machReg = .r13) ||
      (b.machReg = .xBP || r.machReg = .xBP)))) :
    baseReadable (decide (config = .x86_64) && decide (dispMod config self disp = 1) && decide (b.machReg = .r12) ||
      decide (b.machReg = .xSP)) (dispMod config self disp) b = baseEncodable config b.machReg disp r.machReg := by
  unfold baseReadable baseEncodable
  simp only [encodeReg_eq_four hb.1, encodeReg_eq_five hb.1, ne_eq]
  cases config with
  | x86_32 =>
    obtain ⟨h12, h13⟩ := available_low hb.2
    have hmod : dispMod .x86_32 self disp = 0 ↔ disp = 0 := by
      simp only [dispMod, hneed]
      by_cases h0 : disp = 0
      · simp [h0]
      · simp [h0]
        split_ifs <;> simp
    simp [h12, h13, hmod]
  | x86_64 =>
    by_cases h12 : b.machReg = .r12
    · simp only [h12]
      simp only [dispMod, hneed, h12]
      by_cases h0 : disp = 0
      · by_cases hbp : r.machReg = .xBP
        · simp [h0, hbp, isImm8]
        · by_cases h13 : r.machReg = .r13
          · simp [h0, h13, isImm8]
          · simp [h0, h13, hbp]
      · cases h8 : isImm8 disp <;> simp [h0]
    · by_cases hsp : b.machReg = .xSP
      · simp [hsp]
      · by_cases h5 : b.machReg = .xBP ∨ b.machReg = .r13
        · have hmod : dispMod .x86_64 self disp ≠ 0 := by
            have : insnNeedDisp .x86_64 self = true := by
              rw [hneed]
              rcases h5 with h | h <;> simp [h]
            simp only [dispMod, this]
            split_ifs <;> simp_all
          simp [h12, hsp, hmod]
        · simp [h12, hsp, h5]

theorem operandBytes_src (hmod : mod ≤ 2) (m sib : Nat) (disp imm : Int) :
    operandBytes (addmodeRmReg ||| srcDispFlag mod) m sib disp imm =
      ofInt 8 m :: ((if sib ≠ 0 then emit sib else []) ++ dispBytes mod disp) := by
  obtain rfl | rfl | rfl := mod_cases hmod
  all_goals
    change emit m ++ ((if sib ≠ 0 then emit sib else []) ++ (_ ++ [])) = _
    rw [List.append_nil]
    rfl

theorem operandBytes_dest {mod : Nat} (hmod : mod ≤ 2)
    (hv : v = addmodeRegRm ∨ v = addmodeRm ||| opcExt) (m sib : Nat) (disp imm : Int) :
    operandBytes (v ||| dstDispFlag mod) m sib disp imm =
      ofInt 8 m :: ((if sib ≠ 0 then emit sib else []) ++ dispBytes mod disp) := by
  obtain rfl | rfl | rfl := mod_cases hmod
  all_goals
    obtain rfl | rfl := hv
    all_goals
      change emit m ++ ((if sib ≠ 0 then emit sib else []) ++ (_ ++ [])) = _
      rw [List.append_nil]
      rfl

/-- What the flags for a displacement add to an addressing mode. -/
structure DispFlag (v x mod : Nat) : Prop where
  base : BaseMode (v ||| x) mod
  head : x &&& headMask = 0
  core : x &&& coreMask = x
  byte : hasDispByte (v ||| x) = decide (mod = 1)

theorem dispFlag_src (hmod : mod ≤ 2) : DispFlag addmodeRmReg (srcDispFlag mod) mod := by
  obtain rfl | rfl | rfl := mod_cases hmod
  all_goals exact ⟨⟨rfl, rfl, rfl, rfl, rfl, rfl, rfl⟩, rfl, rfl, rfl⟩

theorem dispFlag_dest (hmod : mod ≤ 2) : DispFlag addmodeRegRm (dstDispFlag mod) mod := by
  obtain rfl | rfl | rfl := mod_cases hmod
  all_goals exact ⟨⟨rfl, rfl, rfl, rfl, rfl, rfl, rfl⟩, rfl, rfl, rfl⟩

theorem extDispFlag (hmod : mod ≤ 2) :
    ExtMode (addmodeRm ||| opcExt ||| dstDispFlag mod) mod ∧ dstDispFlag mod &&& headMask = 0 ∧
      dstDispFlag mod &&& coreMask = dstDispFlag mod ∧
      has (addmodeRm ||| opcExt ||| dstDispFlag mod) dstNone = true := by
  obtain rfl | rfl | rfl := mod_cases hmod
  all_goals exact ⟨⟨rfl, rfl, rfl, rfl, rfl, rfl⟩, rfl, rfl, rfl⟩

/-- The register kinds of the operands that are not memory. -/
def OperandKind.regKind : OperandKind → RegKind
  | .xmm => .xmm
  | _ => .gpr

theorem denote_reg (hkind : kind = .gpr ∨ kind = .xmm) (r : UsePosition) (hasRex : Bool) :
    (Operand.reg r).denote config op kind = some (kind.regKind.operand hasRex (x86EncodeReg r.machReg)) := by
  obtain rfl | rfl := hkind <;> rfl

theorem kind_ne_none (hkind : kind = .gpr ∨ kind = .xmm) : kind ≠ .none := by
  obtain rfl | rfl := hkind <;> exact nofun

section Base

variable {config : Config} {self : Insn} {x v mod reg : Nat} {disp : Int} {sib : Bool} {r : UsePosition}

/-- An instruction with a base register decodes back when the base is readable and the rest is as it was meant. -/
theorem Layout.decodesBack_base (h : Layout config self x v (x86EncodeModRm mod reg (encodeReg r)) (sibOf sib) disp)
    (hreg : reg < 8) (hmode : DispMode mod disp)
    (hbytes : operandBytes v (x86EncodeModRm mod reg (encodeReg r)) (sibOf sib) disp (self.immOf v) =
      ofInt 8 (x86EncodeModRm mod reg (encodeReg r) : Nat) ::
        ((if sibOf sib ≠ 0 then emit (sibOf sib) else []) ++ dispBytes mod disp))
    {kind : RegKind} {other : Other} {inst inst' : X86.Inst}
    (hentry : opcodeEntry config self.type = some ⟨.modRm kind other, ops⟩) (hops : ops reg = some op)
    (hr : (rmOperand self (flagsOf self.type)).reg? = some r)
    (hindex : (rmOperand self (flagsOf self.type)).index? = none) (havailable : r.machReg.available config)
    (hfour : sib = true → encodeReg r = 4) (hmeaning : self.meaning config = some inst)
    (hother : ∀ hasRex : Bool, takeOther op (op.sized && (config.rex self (flagsOf self.type)).w)
      (.mem ⟨some (x86EncodeReg r.machReg), none, disp⟩)
      (kind.operand hasRex (regNumber (config.rex self (flagsOf self.type)).r reg)) false [] other = some (inst', [])) :
    DecodesBack config self ↔ baseReadable sib mod r = true ∧ inst' = inst := by
  have hx : (config.rex self (flagsOf self.type)).x = false := by
    rw [Config.rex_eq]
    simp [operandIsIndexRegHigh, hindex]
  have hle := hmode.le
  have h3 : ¬ mod = 3 := by omega
  rw [h.decodesBack_iff hentry hmeaning, hbytes, takeOperands_modRm (by omega) hreg (encodeReg_lt r), hops, Option.bind_some,
    takeRm, if_neg h3, rexOf_getD, takeMem_base hmode hx hfour, rex_b hr havailable, decide_eq_false h3]
  cases hread : baseReadable sib mod r with
  | false => simp
  | true =>
    simp [hother]

variable {t : InsnType} {op : X86.Op} {kind : OperandKind} {b q : UsePosition} {w : Nat} {src dest : Operand}
  {other : Other} {ops : Nat → Option X86.Op}

/-- The width that the REX prefix gives, and the one that is meant, for a base register next to the register `q`. -/
def widthKept (config : Config) (op : X86.Op) (b q : UsePosition) : Prop :=
  (op.sized && (decide (config = .x86_64) && (b.isInt64 || q.isInt64))) =
    (op.sized && (decide (config = .x86_64) && q.isInt64))

theorem rex_w_eq (hsized : has (flagsOf t) rexWPrefix = op.sized) (config : Config)
    (src dest : Operand) : (op.sized && (config.rex ⟨t, src, dest⟩ (flagsOf t)).w) =
      (op.sized && (decide (config = .x86_64) && (operandIsReg64 src || operandIsReg64 dest))) := by
  rw [Config.rex_eq, hsized]
  cases op.sized <;> simp

theorem decodesBack_mem {inst : Bool → X86.Inst} (hc : Coded t w (.modRm kind.regKind other) (fun _ => some op) op)
    (hkind : kind = .gpr ∨ kind = .xmm) (hflag : DispFlag w x (dispMod config ⟨t, src, dest⟩ disp))
    (hdisp : insnDisp config ⟨t, src, dest⟩ (flagsOf t) = some (disp, flagsOf t ||| x))
    (hbytes : ∀ (m sib : Nat) (imm : Int), operandBytes (w ||| x) m sib disp imm =
      ofInt 8 m :: ((if sib ≠ 0 then emit sib else []) ++ dispBytes (dispMod config ⟨t, src, dest⟩ disp) disp))
    (hrm : rmOperand ⟨t, src, dest⟩ (flagsOf t) = .membase b disp) (hreg : regOperand ⟨t, src, dest⟩ (flagsOf t) = .reg q)
    (hsides : src = .membase b disp ∧ dest = .reg q ∨ src = .reg q ∧ dest = .membase b disp)
    (hother : ∀ wide, takeOther op wide (.mem ⟨some (x86EncodeReg b.machReg), none, disp⟩)
      (kind.regKind.operand true (x86EncodeReg q.machReg)) false [] other = some (inst wide, []))
    (hmeaning : Insn.meaning config ⟨t, src, dest⟩ = some (inst (op.sized && (decide (config = .x86_64) && q.isInt64))))
    (hinst : ∀ wide wide', inst wide = inst wide' ↔ wide = wide')
    (hb : b.IsGpr config) (hq : q.machReg.available config) (hfits : fitsInt32 disp) :
    DecodesBack config ⟨t, src, dest⟩ ↔
      baseEncodable config b.machReg disp q.machReg = true ∧ widthKept config op b q := by
  have hmode : DispMode (dispMod config ⟨t, src, dest⟩ disp) disp := dispMode_dispMod _ _ hfits
  obtain ⟨hbase, hhead, hcore, hbyte⟩ := hflag
  have hv := core_or hc.core hcore
  have hlayout := layout_base hbase hc.valid hdisp hhead hv (r := b) (q := q)
    (by rw [rmOperand_or hhead hv, hrm]; rfl) (by rw [regOperand_or hhead hv, hreg]; rfl)
  rw [hbyte] at hlayout
  have hneed : insnNeedDisp config ⟨t, src, dest⟩ = (decide (config = .x86_64) &&
      ((b.machReg = .r13 || q.machReg = .r13) || (b.machReg = .xBP || q.machReg = .xBP))) := by
    obtain ⟨rfl, rfl⟩ | ⟨rfl, rfl⟩ := hsides
    · cases config <;> rfl
    · rw [Bool.or_comm (decide (b.machReg = .r13)), Bool.or_comm (decide (b.machReg = .xBP))]
      cases config <;> rfl
  have hwide : (operandIsReg64 src || operandIsReg64 dest) = (b.isInt64 || q.isInt64) := by
    obtain ⟨rfl, rfl⟩ | ⟨rfl, rfl⟩ := hsides
    · rfl
    · exact Bool.or_comm ..
  have hother' : ∀ hasRex : Bool, takeOther op (op.sized && (config.rex ⟨t, src, dest⟩ (flagsOf t)).w)
      (.mem ⟨some (x86EncodeReg b.machReg), none, disp⟩) (kind.regKind.operand hasRex
        (regNumber (config.rex ⟨t, src, dest⟩ (flagsOf t)).r (encodeReg q))) false [] other =
      some (inst (op.sized && (decide (config = .x86_64) && (b.isInt64 || q.isInt64))), []) := by
    intro hasRex
    rw [rex_w_eq hc.sized, rex_r (by rw [hreg]; rfl) hq, hwide, ← hother]
    obtain rfl | rfl := hkind <;> rfl
  rw [hlayout.decodesBack_base (encodeReg_lt q) hmode (hbytes ..) (hc.entry config) rfl (by rw [hrm]; rfl)
    (by rw [hrm]; rfl) hb.2 four_of_sib hmeaning hother', baseReadable_eq hb hneed, hinst]
  rfl

theorem decodesBack_membaseReg
    (hc : Coded t addmodeRmReg (.modRm kind.regKind (.toReg kind.regKind)) (fun _ => some op) op)
    (hsig : signature t = (.membase, kind)) (hkind : kind = .gpr ∨ kind = .xmm) (hb : b.IsGpr config)
    (hq : q.machReg.available config) (hfits : fitsInt32 disp) : DecodesBack config ⟨t, .membase b disp, .reg q⟩ ↔
      baseEncodable config b.machReg disp q.machReg = true ∧ widthKept config op b q := by
  have hle := (dispMode_dispMod config ⟨t, .membase b disp, .reg q⟩ hfits).le
  have hflags : has (flagsOf t) dirReversed = false := by
    rw [← has_core rfl, hc.core]
    rfl
  refine decodesBack_mem hc hkind (dispFlag_src hle) (insnDisp_src hc.core hfits) (fun m sib imm => operandBytes_src hle ..)
    (by rw [rmOperand, hflags]; rfl) (by rw [regOperand, hflags]; rfl) (.inl ⟨rfl, rfl⟩) (fun wide => rfl) ?_ (by simp)
    hb hq hfits
  rw [hc.meaning hsig (kind_ne_none hkind), denote_reg hkind q true]
  rfl

theorem decodesBack_regMembase (hc : Coded t addmodeRegRm (.modRm kind.regKind .fromReg) (fun _ => some op) op)
    (hsig : signature t = (kind, .membase)) (hkind : kind = .gpr ∨ kind = .xmm) (hb : b.IsGpr config)
    (hq : q.machReg.available config) (hfits : fitsInt32 disp) : DecodesBack config ⟨t, .reg q, .membase b disp⟩ ↔
      baseEncodable config b.machReg disp q.machReg = true ∧ widthKept config op b q := by
  have hle := (dispMode_dispMod config ⟨t, .reg q, .membase b disp⟩ hfits).le
  have hflags : has (flagsOf t) dirReversed = true := by
    rw [← has_core rfl, hc.core]
    rfl
  refine decodesBack_mem hc hkind (dispFlag_dest hle) (insnDisp_dest hc.core (.inl rfl) hfits)
    (fun m sib imm => operandBytes_dest hle (.inl rfl) ..) (by rw [rmOperand, hflags]; rfl)
    (by rw [regOperand, hflags]; rfl) (.inr ⟨rfl, rfl⟩) (fun wide => rfl) ?_ (by simp) hb hq hfits
  simp only [hc.meaning hsig (by decide), denote_reg hkind q true, Operand.holdsInt64, Bool.or_false]
  rfl

/-- The base register of a lone operand has no SIB byte for `xSP`. -/
theorem baseReadable_lone (hb : b.IsGpr config)
    (hneed : insnNeedDisp config self = (decide (config = .x86_64) && (b.machReg = .r13 || b.machReg = .xBP))) :
    baseReadable (decide (config = .x86_64) && decide (b.machReg = .r12)) (dispMod config self disp) b =
      loneBaseEncodable config b.machReg disp := by
  unfold baseReadable loneBaseEncodable
  simp only [encodeReg_eq_four hb.1, encodeReg_eq_five hb.1, ne_eq]
  have hmod : dispMod config self disp = 0 ↔
      disp = 0 ∧ (config = .x86_32 ∨ b.machReg ≠ .r13 ∧ b.machReg ≠ .xBP) := by
    rw [dispMod, hneed]
    by_cases h0 : disp = 0
    · cases config <;> simp [h0, isImm8]
    · simp [h0]
      split_ifs <;> simp
  cases config with
  | x86_32 =>
    obtain ⟨h12, h13⟩ := available_low hb.2
    simp [hmod, h12, h13]
  | x86_64 =>
    by_cases hsp : b.machReg = .xSP
    · simp [hsp]
    · simp [hsp, hmod]
      tauto

theorem decodesBack_loneBase (dest : Operand) (hc : Coded t (addmodeRm ||| opcExt) (.modRm .gpr .single) ops op)
    (hsized : op.sized = false) (hext : extOf t < 8) (hops : ops (extOf t) = some op) (hreg : dest.reg? = some b)
    (hindex : dest.index? = none) (hfits : fitsInt32 dest.disp) (hb : b.IsGpr config)
    (hmeaning : Insn.meaning config ⟨t, .none, dest⟩ =
      some ⟨op, false, some (.mem ⟨some (x86EncodeReg b.machReg), none, dest.disp⟩), none⟩) :
    DecodesBack config ⟨t, .none, dest⟩ ↔ loneBaseEncodable config b.machReg dest.disp = true := by
  have hmode : DispMode (dispMod config ⟨t, .none, dest⟩ dest.disp) dest.disp := dispMode_dispMod _ _ hfits
  have hflags : has (flagsOf t) dirReversed = true := by
    rw [← has_core rfl, hc.core]
    rfl
  have hrm : rmOperand ⟨t, .none, dest⟩ (flagsOf t) = dest := by
    rw [rmOperand, hflags]
    rfl
  have huses reg : insnUsesReg ⟨t, .none, dest⟩ reg = decide (b.machReg = reg) := by
    simp only [insnUsesReg, operandUsesReg, hreg]
    exact Bool.false_or _
  have hneed : insnNeedDisp config ⟨t, .none, dest⟩ =
      (decide (config = .x86_64) && (b.machReg = .r13 || b.machReg = .xBP)) := by
    unfold insnNeedDisp
    cases config with
    | x86_32 => rfl
    | x86_64 => simp [huses]
  obtain ⟨hext, hhead, hcore, hnone⟩ := extDispFlag hmode.le
  have hv := core_or hc.core hcore
  have hdisp : insnDisp config ⟨t, .none, dest⟩ (flagsOf t) =
      some (dest.disp, flagsOf t ||| dstDispFlag (dispMod config ⟨t, .none, dest⟩ dest.disp)) :=
    insnDisp_dest hc.core (.inr rfl) hfits
  have hlayout := layout_ext hext hc.valid hdisp hhead hv
    (r := b) (by rw [rmOperand_or hhead hv, hrm, hreg]) (fun _ => huses .r12)
  rw [hnone, Bool.and_true] at hlayout
  rw [hlayout.decodesBack_base ‹_› hmode (operandBytes_dest hmode.le (.inr rfl) ..) (hc.entry config) hops
    (by rw [hrm, hreg]) (by rw [hrm, hindex]) hb.2 ?_ hmeaning (fun hasRex => rfl), baseReadable_lone hb hneed]
  · simp [hsized]
  · intro h
    exact (encodeReg_eq_four hb.1).mpr (.inr (of_decide_eq_true (Bool.and_eq_true_iff.mp h).2))

end Base

/-! ## The jump through a table -/

section Index

variable {config : Config} {b i : UsePosition} {shift : Nat}

abbrev memindexFlags : Nat := addmodeRm ||| opcExt ||| Flag.index

theorem coded_jmpMemindex : Coded .jmpMemindex memindexFlags (.modRm .gpr .single) group5 .jmp := .of

/-- With an index the displacement is zero, in one byte where the base register needs it. -/
def indexMod (config : Config) (b : UsePosition) : Nat :=
  match config with
  | .x86_64 => if b.machReg = .r13 || b.machReg = .xBP then 1 else 0
  | .x86_32 => 0

theorem indexMod_cases (config : Config) (b : UsePosition) : indexMod config b = 0 ∨ indexMod config b = 1 := by
  unfold indexMod
  split <;> (try split) <;> simp

theorem layout_memindex : Layout config ⟨.jmpMemindex, .none, .memindex b i shift⟩ (dstDispFlag (indexMod config b))
      (memindexFlags ||| dstDispFlag (indexMod config b)) (x86EncodeModRm (indexMod config b) 4 4)
      (x86EncodeSib shift (encodeReg i) (encodeReg b)) 0 := by
  have hc := coded_jmpMemindex
  have hneed : insnNeedDisp config ⟨.jmpMemindex, .none, .memindex b i shift⟩ = decide (indexMod config b = 1) := by
    cases config with
    | x86_32 => rfl
    | x86_64 =>
      change (decide (b.machReg = .r13) || decide (b.machReg = .xBP)) = _
      unfold indexMod
      cases decide (b.machReg = .r13) || decide (b.machReg = .xBP) <;> rfl
  have hdisp : insnDisp config ⟨.jmpMemindex, .none, .memindex b i shift⟩ (flagsOf .jmpMemindex) =
      some (0, flagsOf .jmpMemindex ||| dstDispFlag (indexMod config b)) := by
    refine (insnDisp_of_core hc.core).trans ?_
    change some ((0 : Int), flagsOf .jmpMemindex ||| dstDispFlag (dispMod config _ 0)) = _
    rw [dispMod, hneed]
    obtain h | h := indexMod_cases config b <;> rw [h] <;> rfl
  have hmod : ∀ v, has v Flag.index = true → insnEncodeMod config ⟨.jmpMemindex, .none, .memindex b i shift⟩ v =
      some (indexMod config b) := by
    intro v hv
    simp only [insnEncodeMod, hv, if_true]
    cases config <;> rfl
  have hext : some (extOf .jmpMemindex) = some 4 := by decide
  obtain h | h := indexMod_cases config b
  all_goals
    rw [h] at hdisp hmod ⊢
    exact ⟨hc.valid, hdisp, rfl, core_or hc.core rfl, rfl, rfl, insnEncodeModRm_eq rfl (hmod _ rfl) hext rfl, rfl⟩

theorem operandBytes_memindex (sib : Nat) (imm : Int) :
    operandBytes (memindexFlags ||| dstDispFlag (indexMod config b)) (x86EncodeModRm (indexMod config b) 4 4) sib 0 imm =
      ofInt 8 (x86EncodeModRm (indexMod config b) 4 4 : Nat) ::
        ((if sib ≠ 0 then emit sib else []) ++ dispBytes (indexMod config b) 0) := by
  obtain h | h := indexMod_cases config b
  all_goals
    rw [h]
    change emit _ ++ ((if sib ≠ 0 then emit sib else []) ++ (_ ++ [])) = _
    rw [List.append_nil]
    rfl

theorem encodeSib_eq_zero (hshift : shift < 4) :
    x86EncodeSib shift (encodeReg i) (encodeReg b) ≠ 0 ↔ encodeReg b ≠ 0 ∨ encodeReg i ≠ 0 ∨ shift ≠ 0 := by
  have h : ∀ shift : Fin 4, ∀ index base : Fin 8,
      (x86EncodeSib shift index base ≠ 0 ↔ (base : Nat) ≠ 0 ∨ (index : Nat) ≠ 0 ∨ (shift : Nat) ≠ 0) := by decide
  exact h ⟨shift, hshift⟩ ⟨_, encodeReg_lt i⟩ ⟨_, encodeReg_lt b⟩

theorem indexMod_readable (hb : b.IsGpr config) :
    (encodeReg b = 5 ∧ indexMod config b = 0) ↔ config = .x86_32 ∧ b.machReg = .xBP := by
  rw [encodeReg_eq_five hb.1]
  cases config with
  | x86_32 =>
    have h13 := (available_low hb.2).2
    simp [h13, indexMod]
  | x86_64 =>
    unfold indexMod
    by_cases h : b.machReg = .xBP <;> by_cases h' : b.machReg = .r13 <;> simp [h, h']

/-- **The jump through a table** needs its SIB byte, an index register that can be one, and a base register that is not
read as a displacement. -/
theorem decodesBack_memindex (hb : b.IsGpr config) (hi : i.IsGpr config) (hshift : shift < 4) :
    DecodesBack config ⟨.jmpMemindex, .none, .memindex b i shift⟩ ↔
      i.machReg ≠ .xSP ∧ (config = .x86_64 ∨ b.machReg ≠ .xBP) ∧ (encodeReg b ≠ 0 ∨ encodeReg i ≠ 0 ∨ shift ≠ 0) := by
  have hmode : DispMode (indexMod config b) 0 := by
    obtain h | h := indexMod_cases config b <;> rw [h]
    · exact ⟨by decide, fun _ => rfl, by simp, by simp, fitsInt32_zero⟩
    · exact ⟨by decide, by simp, fun _ => rfl, by simp, fitsInt32_zero⟩
  have hle : indexMod config b < 4 := lt_of_le_of_lt hmode.le (by decide)
  have h3 : ¬ indexMod config b = 3 := fun h => absurd (h ▸ hmode.le) (by decide)
  have hmeaning : Insn.meaning config ⟨.jmpMemindex, .none, .memindex b i shift⟩ = some ⟨.jmp, false,
      some (.mem ⟨some (x86EncodeReg b.machReg), some (x86EncodeReg i.machReg, shift), 0⟩), none⟩ := rfl
  have hbase : regNumber (config.rex ⟨.jmpMemindex, .none, .memindex b i shift⟩ (flagsOf .jmpMemindex)).b
      (encodeReg b) = x86EncodeReg b.machReg := rex_b rfl hb.2
  have hnum : regNumber (config.rex ⟨.jmpMemindex, .none, .memindex b i shift⟩ (flagsOf .jmpMemindex)).x
      (encodeReg i) = x86EncodeReg i.machReg := by
    rw [Config.rex_eq]
    exact regNumber_rex (show (Operand.reg i).reg? = some i from rfl) hi.2
  rw [layout_memindex.decodesBack_iff (coded_jmpMemindex.entry config) hmeaning, operandBytes_memindex,
    takeOperands_modRm hle (by decide) (by decide), show group5 4 = some .jmp from rfl, Option.bind_some, takeRm,
    if_neg h3, takeMem, if_pos rfl, rexOf_getD, ← encodeSib_eq_zero hshift]
  by_cases hsib : x86EncodeSib shift (encodeReg i) (encodeReg b) = 0
  · rw [if_neg (not_not.mpr hsib), List.nil_append, takeSib_dispBytes hmode]
    simp [hsib]
  · have hsibNat := x86EncodeSib_toNat hshift (encodeReg_lt i) (encodeReg_lt b)
    have hlt := encodeReg_lt b
    have hlt' := encodeReg_lt i
    have h1 : (64 * shift + 8 * encodeReg i + encodeReg b) / 64 = shift := by omega
    have h2 : (64 * shift + 8 * encodeReg i + encodeReg b) / 8 % 8 = encodeReg i := by omega
    have h3 : (64 * shift + 8 * encodeReg i + encodeReg b) % 8 = encodeReg b := by omega
    have hindex := (x86EncodeReg_eq hi.1).2.2.2
    simp only [if_pos hsib, emit, List.singleton_append, takeSib, hsibNat, h1, h2, h3, hbase, hnum,
      indexMod_readable hb, hindex, takeDisp_dispBytes hmode]
    by_cases h5 : config = .x86_32 ∧ b.machReg = .xBP
    · rw [if_pos h5, h5.1, show dispBytes (indexMod .x86_32 b) 0 = [] from rfl]
      simp [takeImm32, h5.2]
    · have hok : config = .x86_64 ∨ b.machReg ≠ .xBP := by
        cases config <;> simp_all
      rw [if_neg h5]
      by_cases hsp : i.machReg = .xSP <;> simp [hsp, hok, hsib, takeOther, X86.Op.sized]

end Index

/-! ## Register operands behind the ModRM byte -/

variable {tail : List Byte}

section Registers

variable {config : Config} {t : InsnType} {src dest : Operand} {v reg sib : Nat} {r q : UsePosition} {op : X86.Op}
  {kind : RegKind} {other : Other} {ops : Nat → Option X86.Op} {inst inst' : X86.Inst}

theorem Layout.decodesBack_reg
    (h : Layout config ⟨t, src, dest⟩ 0 v (x86EncodeModRm 3 reg (encodeReg r)) sib 0) (hreg : reg < 8)
    (hbytes : operandBytes v (x86EncodeModRm 3 reg (encodeReg r)) sib 0 (Insn.immOf ⟨t, src, dest⟩ v) =
      ofInt 8 (x86EncodeModRm 3 reg (encodeReg r) : Nat) :: tail)
    (hentry : opcodeEntry config t = some ⟨.modRm kind other, ops⟩) (hops : ops reg = some op)
    (hr : (rmOperand ⟨t, src, dest⟩ (flagsOf t)).reg? = some r) (havailable : r.machReg.available config)
    (hmeaning : Insn.meaning config ⟨t, src, dest⟩ = some inst) : DecodesBack config ⟨t, src, dest⟩ ↔
      takeOther op (op.sized && (config.rex ⟨t, src, dest⟩ (flagsOf t)).w)
        ((other.rmKind kind).operand (rexOf (config.rex ⟨t, src, dest⟩ (flagsOf t))).isSome (x86EncodeReg r.machReg))
        (kind.operand (rexOf (config.rex ⟨t, src, dest⟩ (flagsOf t))).isSome
          (regNumber (config.rex ⟨t, src, dest⟩ (flagsOf t)).r reg)) true tail other = some (inst, []) := by
  rw [h.decodesBack_iff hentry hmeaning, hbytes, takeOperands_modRm (by decide) hreg (encodeReg_lt r), hops,
    Option.bind_some, takeRm, if_pos rfl, Option.bind_some, rexOf_getD, rex_b hr havailable]
  rfl

section

variable (hvalid : encodeTable t ≠ invalidInsn) (hcore : flagsOf t &&& coreMask = v)
  (hv : v = addmodeRegReg ∨ v = addmodeRegReg ||| dirReversed)
  (hr : (rmOperand ⟨t, src, dest⟩ (flagsOf t)).reg? = some r)
  (hq : (regOperand ⟨t, src, dest⟩ (flagsOf t)).reg? = some q)

include hvalid hcore hv hr hq

theorem layout_regs :
    Layout config ⟨t, src, dest⟩ 0 v (x86EncodeModRm 3 (encodeReg q) (encodeReg r)) (sibOf (decide (r.machReg = .xSP)))
      0 := by
  have hcore' : (flagsOf t ||| 0) &&& coreMask = v := by
    rw [Nat.or_zero, hcore]
  have hbase : BaseMode v 3 ∧ hasDispByte v = false := by
    obtain rfl | rfl := hv
    all_goals exact ⟨⟨rfl, rfl, rfl, rfl, rfl, rfl, rfl⟩, rfl⟩
  have hdisp : insnDisp config ⟨t, src, dest⟩ (flagsOf t) = some (0, flagsOf t ||| 0) := by
    rw [insnDisp_of_core hcore, Nat.or_zero]
    obtain rfl | rfl := hv <;> rfl
  have hlayout := layout_base hbase.1 hvalid hdisp rfl hcore' (r := r) (q := q) (by rw [rmOperand_or rfl hcore', hr])
    (by rw [regOperand_or rfl hcore', hq])
  rwa [hbase.2, Bool.and_false, Bool.false_and, Bool.false_or] at hlayout

/-- The SIB byte of `xSP` is left over. -/
theorem decodesBack_regs (hrAvailable : r.machReg.available config) (hqAvailable : q.machReg.available config)
    (hentry : opcodeEntry config t = some ⟨.modRm kind other, fun _ => some op⟩)
    (hmeaning : Insn.meaning config ⟨t, src, dest⟩ = some inst)
    (hother : ∀ tail, takeOther op (op.sized && (config.rex ⟨t, src, dest⟩ (flagsOf t)).w)
      ((other.rmKind kind).operand (rexOf (config.rex ⟨t, src, dest⟩ (flagsOf t))).isSome (x86EncodeReg r.machReg))
      (kind.operand (rexOf (config.rex ⟨t, src, dest⟩ (flagsOf t))).isSome (x86EncodeReg q.machReg)) true tail other =
        some (inst', tail)) : DecodesBack config ⟨t, src, dest⟩ ↔ r.machReg ≠ .xSP ∧ inst' = inst := by
  have hbytes m sib imm : operandBytes v m sib 0 imm =
      ofInt 8 m :: if sib ≠ 0 then emit sib else [] := by
    obtain rfl | rfl := hv
    all_goals
      change emit m ++ ((if sib ≠ 0 then emit sib else []) ++ []) = _
      rw [List.append_nil]
      rfl
  rw [(layout_regs hvalid hcore hv hr hq).decodesBack_reg (encodeReg_lt q) (hbytes ..) hentry rfl hr hrAvailable hmeaning,
    rex_r hq hqAvailable, hother]
  by_cases hsp : r.machReg = .xSP
  · simp [hsp, sibOf, emit]
  · simp [hsp, sibOf]

end

variable {s d : UsePosition} {k : OperandKind}

theorem flags_notReversed (src dest : Operand) (hcore : flagsOf t &&& coreMask = v) (hv : has v dirReversed = false) :
    rmOperand ⟨t, src, dest⟩ (flagsOf t) = src ∧ regOperand ⟨t, src, dest⟩ (flagsOf t) = dest := by
  rw [← hcore, has_core rfl] at hv
  rw [rmOperand, regOperand, hv]
  exact ⟨rfl, rfl⟩

theorem flags_reversed (src dest : Operand) (hcore : flagsOf t &&& coreMask = v) (hv : has v dirReversed = true) :
    rmOperand ⟨t, src, dest⟩ (flagsOf t) = dest ∧ regOperand ⟨t, src, dest⟩ (flagsOf t) = src := by
  rw [← hcore, has_core rfl] at hv
  rw [rmOperand, regOperand, hv]
  exact ⟨rfl, rfl⟩

theorem meaning_regReg (hop : x86Op t = some op) (hsig : signature t = (k, k)) (hk : k = .gpr ∨ k = .xmm) (hasRex : Bool) :
    Insn.meaning config ⟨t, .reg s, .reg d⟩ = some ⟨op,
      op.sized && (decide (config = .x86_64) && (s.isInt64 || d.isInt64)),
      some (k.regKind.operand hasRex (x86EncodeReg d.machReg)),
      some (k.regKind.operand hasRex (x86EncodeReg s.machReg))⟩ := by
  simp only [Insn.meaning, hop, hsig, Option.bind_eq_bind, Option.bind_some, if_neg (kind_ne_none hk),
    denote_reg hk _ hasRex]
  rfl

theorem decodesBack_regReg (hc : Coded t addmodeRegReg (.modRm k.regKind (.toReg k.regKind)) (fun _ => some op) op)
    (hsig : signature t = (k, k)) (hk : k = .gpr ∨ k = .xmm) (hs : s.machReg.available config)
    (hd : d.machReg.available config) : DecodesBack config ⟨t, .reg s, .reg d⟩ ↔ s.machReg ≠ .xSP := by
  obtain ⟨hrm, hreg⟩ := flags_notReversed (.reg s) (.reg d) hc.core rfl
  rw [decodesBack_regs hc.valid hc.core (.inl rfl) (by rw [hrm]; rfl) (by rw [hreg]; rfl) hs hd (hc.entry config)
    (meaning_regReg hc.hasOp hsig hk _) (fun tail => by rw [rex_w_eq hc.sized]; rfl)]
  exact and_iff_left rfl

theorem decodesBack_regReg_reversed
    (hc : Coded t (addmodeRegReg ||| dirReversed) (.modRm .gpr .fromReg) (fun _ => some op) op)
    (hsig : signature t = (.gpr, .gpr)) (hs : s.machReg.available config) (hd : d.machReg.available config) :
    DecodesBack config ⟨t, .reg s, .reg d⟩ ↔ d.machReg ≠ .xSP := by
  obtain ⟨hrm, hreg⟩ := flags_reversed (.reg s) (.reg d) hc.core rfl
  rw [decodesBack_regs hc.valid hc.core (.inr rfl) (by rw [hrm]; rfl) (by rw [hreg]; rfl) hd hs (hc.entry config)
    (meaning_regReg hc.hasOp hsig (.inl rfl) true) (fun tail => by rw [rex_w_eq hc.sized]; rfl)]
  exact and_iff_left rfl

variable {hasRex : Bool} {imm : Int}

theorem operand_ne_mem {m : X86.Mem} : kind.operand hasRex n ≠ .mem m := by
  cases kind with
  | gpr => exact nofun
  | xmm => exact nofun
  | byte =>
    rw [RegKind.operand]
    split_ifs <;> exact (by simp)

/-- The types with a memory operand that is encoded as a register. -/
theorem not_decodesBack_regReg (hc : Coded t addmodeRegReg (.modRm .gpr (.toReg kind)) (fun _ => some op) op)
    (hsig : signature t = (.membase, .gpr)) (hs : s.machReg.available config) (hd : d.machReg.available config) :
    ¬ DecodesBack config ⟨t, .membase s disp, .reg d⟩ := by
  obtain ⟨hrm, hreg⟩ := flags_notReversed (.membase s disp) (.reg d) hc.core rfl
  have hmeaning : Insn.meaning config ⟨t, .membase s disp, .reg d⟩ = some ⟨op,
      op.sized && (decide (config = .x86_64) && d.isInt64), some (.reg (x86EncodeReg d.machReg)),
      some (.mem ⟨some (x86EncodeReg s.machReg), none, disp⟩)⟩ := hc.meaning hsig (by simp) ..
  rw [decodesBack_regs hc.valid hc.core (.inl rfl) (by rw [hrm]; rfl) (by rw [hreg]; rfl) hs hd (hc.entry config)
    hmeaning (fun tail => rfl)]
  rintro ⟨-, h⟩
  exact operand_ne_mem (Option.some.inj (congrArg X86.Inst.src h))

/-- The opcode of `MOVSXD` is another instruction in 32-bit mode. -/
theorem decodesBack_movsxd (hs : s.machReg.available config) (hd : d.machReg.available config) :
    DecodesBack config ⟨.movsxdRegReg, .reg s, .reg d⟩ ↔ s.machReg ≠ .xSP ∧ config = .x86_64 := by
  cases config with
  | x86_64 =>
    rw [decodesBack_regs (v := addmodeRegReg) (r := s) (q := d) (by decide) rfl (.inl rfl) rfl rfl hs hd rfl
      (meaning_regReg rfl rfl (.inl rfl) true) (fun tail => by rw [rex_w_eq rfl]; rfl)]
    exact ⟨fun h => ⟨h.1, rfl⟩, fun h => ⟨h.1, rfl⟩⟩
  | x86_32 =>
    rw [decodesBack_regs (v := addmodeRegReg) (r := s) (q := d) (by decide) rfl (.inl rfl) rfl rfl hs hd rfl
      (meaning_regReg rfl rfl (.inl rfl) true) (fun tail => rfl)]
    simp

theorem byte_operand : RegKind.byte.operand hasRex n = .lowByte n ↔ n < 4 ∨ hasRex = true := by
  rw [RegKind.operand]
  cases hasRex with
  | true => simp
  | false => by_cases h : 4 ≤ n <;> simp [h]; omega

theorem rexOf_isSome : (rexOf rex).isSome = true ↔ rex.w = true ∨ rex.r = true ∨ rex.x = true ∨ rex.b = true := by
  rw [rexOf]
  obtain ⟨w, r, x, b⟩ := rex
  cases w <;> cases r <;> cases x <;> cases b <;> decide

/-- The numbers 4 to 7 name a low byte only with a REX prefix. -/
theorem decodesBack_movsx8 (hs : s.machReg.available config) (hd : d.machReg.available config) :
    DecodesBack config ⟨.movsx8RegReg, .reg s, .reg d⟩ ↔ s.machReg ≠ .xSP ∧ (x86EncodeReg s.machReg < 4 ∨
      config = .x86_64 ∧ (8 ≤ x86EncodeReg s.machReg ∨ 8 ≤ x86EncodeReg d.machReg ∨ s.isInt64 ∨ d.isInt64)) := by
  have hmeaning : Insn.meaning config ⟨.movsx8RegReg, .reg s, .reg d⟩ = some ⟨.movsx8,
      true && (decide (config = .x86_64) && (s.isInt64 || d.isInt64)), some (.reg (x86EncodeReg d.machReg)),
      some (.lowByte (x86EncodeReg s.machReg))⟩ := rfl
  have hrex : (rexOf (config.rex ⟨.movsx8RegReg, .reg s, .reg d⟩ (flagsOf .movsx8RegReg))).isSome = true ↔
      config = .x86_64 ∧ (8 ≤ x86EncodeReg s.machReg ∨ 8 ≤ x86EncodeReg d.machReg ∨ s.isInt64 ∨ d.isInt64) := by
    have hhigh r : operandIsRegHigh (.reg r) = decide (8 ≤ x86EncodeReg r.machReg) := has_eight r.machReg
    rw [rexOf_isSome, Config.rex_eq]
    change ((decide (config = .x86_64) && (true && (s.isInt64 || d.isInt64))) = true ∨
      (decide (config = .x86_64) && operandIsRegHigh (.reg d)) = true ∨ (decide (config = .x86_64) && false) = true ∨
      (decide (config = .x86_64) && operandIsRegHigh (.reg s)) = true) ↔ _
    rw [hhigh, hhigh]
    simp only [Bool.and_eq_true, Bool.or_eq_true, decide_eq_true_eq, Bool.and_false, Bool.false_eq_true, true_and]
    tauto
  have hc : Coded .movsx8RegReg addmodeRegReg (.modRm .gpr (.toReg .byte)) (fun _ => some .movsx8) .movsx8 := .of
  rw [decodesBack_regs (r := s) (q := d) hc.valid hc.core (.inl rfl) rfl rfl hs hd (hc.entry config) hmeaning
    (fun tail => by rw [rex_w_eq hc.sized]; rfl), ← hrex, ← byte_operand]
  refine and_congr_right fun _ => ⟨fun h => Option.some.inj (congrArg X86.Inst.src h), fun h => ?_⟩
  change X86.Inst.mk _ _ _ (some (RegKind.byte.operand _ _)) = _
  rw [h]
  rfl

/-- An addressing mode with the destination register behind the ModRM byte and a part of the opcode in it. -/
structure ExtRegMode (v : Nat) : Prop where
  ext : ExtMode v 3
  dstNone : has v dstNone = false
  dirReversed : has v dirReversed = true
  dstReg : has v dstReg = true
  memlocal : has v (srcMemlocal ||| dstMemlocal) = false
  memdisp : has v (srcMemdisp ||| dstMemdisp) = false

theorem layout_extReg (hvalid : encodeTable t ≠ invalidInsn) (hcore : flagsOf t &&& coreMask = v) (hv : ExtRegMode v)
    (hd : dest.reg? = some d) : Layout config ⟨t, src, dest⟩ 0 v (x86EncodeModRm 3 (extOf t) (encodeReg d)) 0 0 := by
  have hcore' : (flagsOf t ||| 0) &&& coreMask = v := by
    rw [Nat.or_zero, hcore]
  have hdisp : insnDisp config ⟨t, src, dest⟩ (flagsOf t) = some (0, flagsOf t ||| 0) := by
    rw [insnDisp_of_core hcore, Nat.or_zero, hv.memlocal, hv.memdisp, hv.dirReversed, hv.dstReg]
    rfl
  have hlayout := layout_ext hv.ext hvalid hdisp rfl hcore' (r := d)
    (by rw [rmOperand, hv.dirReversed]; exact hd) (fun h => absurd (hv.dstNone.symm.trans h) Bool.false_ne_true)
  rwa [hv.dstNone, Bool.and_false, Bool.false_and] at hlayout

/-- A register with a part of the opcode in the register field, and the bytes of an immediate. -/
theorem decodesBack_extReg (hc : Coded t v (.modRm .gpr other) ops op) (hv : ExtRegMode v)
    (hext : extOf t < 8) (hops : ops (extOf t) = some op) (hrm : other.rmKind .gpr = .gpr)
    (hbytes : ∀ m : Nat, operandBytes v m 0 0 (Insn.immOf ⟨t, src, .reg d⟩ v) = ofInt 8 m :: tail)
    (hd : d.machReg.available config) (hmeaning : Insn.meaning config ⟨t, src, .reg d⟩ = some inst)
    (hother : ∀ reg, takeOther op (op.sized && (decide (config = .x86_64) && (operandIsReg64 src || d.isInt64)))
      (.reg (x86EncodeReg d.machReg)) reg true tail other = some (inst', [])) :
    DecodesBack config ⟨t, src, .reg d⟩ ↔ inst' = inst := by
  rw [(layout_extReg hc.valid hc.core hv rfl).decodesBack_reg hext (hbytes _) (hc.entry config) hops
    (by rw [(flags_reversed _ _ hc.core hv.dirReversed).1]; rfl) hd hmeaning, hrm, rex_w_eq hc.sized]
  refine Eq.congr_left (hother _) |>.trans ?_
  simp

/-- A shift takes its count from `CL`, whatever its source is. -/
theorem decodesBack_shift (hc : Coded t (addmodeRegReg ||| dirReversed ||| opcExt) (.modRm .gpr .shiftCount) ops op)
    (hext : extOf t < 8) (hops : ops (extOf t) = some op) (hsig : signature t = (.gpr, .gpr)) (hs : s.IsGpr config)
    (hd : d.machReg.available config) : DecodesBack config ⟨t, .reg s, .reg d⟩ ↔ s.machReg = .xCX := by
  rw [decodesBack_extReg hc ⟨⟨rfl, rfl, rfl, rfl, rfl, rfl⟩, rfl, rfl, rfl, rfl, rfl⟩ hext hops rfl (fun m => rfl) hd
    (meaning_regReg hc.hasOp hsig (.inl rfl) true) (fun reg => rfl)]
  have hone := (x86EncodeReg_eq hs.1).2.1
  constructor
  · intro h
    exact hone.mp (X86.Operand.reg.inj (Option.some.inj (congrArg X86.Inst.src h))).symm
  · intro h
    rw [h]
    rfl

theorem decodesBack_negReg (hd : d.machReg.available config) : DecodesBack config ⟨.negReg, .none, .reg d⟩ := by
  have hc : Coded .negReg (addmodeReg ||| dirReversed ||| opcExt ||| modRm) (.modRm .gpr .single)
      group3 .neg := .of
  exact (decodesBack_extReg hc ⟨⟨rfl, rfl, rfl, rfl, rfl, rfl⟩, rfl, rfl, rfl, rfl, rfl⟩ (by decide) (by decide) rfl
    (fun m => rfl) hd rfl (fun reg => rfl)).mpr rfl

theorem decodesBack_imm {ik : OperandKind}
    (hc : Coded t v (.modRm .gpr other) ops op) (hv : ExtRegMode v) (hext : extOf t < 8) (hops : ops (extOf t) = some op)
    (hrm : other.rmKind .gpr = .gpr) (hik : ik = .imm8 ∨ ik = .imm32) (hsig : signature t = (ik, .gpr))
    (himm : Insn.immOf ⟨t, .imm imm, .reg d⟩ v = imm)
    (hbytes : ∀ m : Nat, operandBytes v m 0 0 imm = ofInt 8 m :: tail)
    (hother : ∀ wide rm reg, takeOther op wide rm reg true tail other =
      some (⟨op, wide, some rm, some (.imm imm)⟩, [])) (hd : d.machReg.available config) :
    DecodesBack config ⟨t, .imm imm, .reg d⟩ := by
  have hmeaning : Insn.meaning config ⟨t, .imm imm, .reg d⟩ = some ⟨op,
      op.sized && (decide (config = .x86_64) && d.isInt64), some (.reg (x86EncodeReg d.machReg)), some (.imm imm)⟩ := by
    rw [hc.meaning hsig (by simp)]
    obtain rfl | rfl := hik <;> rfl
  refine (decodesBack_extReg hc hv hext hops hrm (fun m => ?_) hd hmeaning (fun reg => hother ..)).mpr rfl
  rw [himm, hbytes]

theorem decodesBack_immReg (hc : Coded t (addmodeImmReg ||| opcExt ||| modRm) (.modRm .gpr .imm32) ops op)
    (hext : extOf t < 8) (hops : ops (extOf t) = some op) (hsig : signature t = (.imm32, .gpr)) (hfits : fitsInt32 imm)
    (hd : d.machReg.available config) : DecodesBack config ⟨t, .imm imm, .reg d⟩ := by
  have himm :=
    toInt32_eq hfits
  have hbytes m : operandBytes (addmodeImmReg ||| opcExt ||| modRm) m 0 0 imm =
      ofInt 8 m :: (imm32Bytes imm ++ []) := rfl
  refine decodesBack_imm hc ⟨⟨rfl, rfl, rfl, rfl, rfl, rfl⟩, rfl, rfl, rfl, rfl, rfl⟩ hext hops rfl (.inr rfl) hsig
    himm hbytes (fun wide rm reg => ?_) hd
  rw [takeOther, takeImm32_imm32Bytes hfits []]
  rfl

theorem decodesBack_sarImmReg (himm : -128 ≤ imm ∧ imm ≤ 127) (hd : d.machReg.available config) :
    DecodesBack config ⟨.sarImmReg, .imm imm, .reg d⟩ := by
  have hc : Coded .sarImmReg (addmodeImm8Reg ||| opcExt ||| modRm) (.modRm .gpr .imm8) group2 .sar := .of
  have hbyte : Insn.immOf ⟨.sarImmReg, .imm imm, .reg d⟩ (addmodeImm8Reg ||| opcExt ||| modRm) = imm :=
    toInt32_eq (show fitsInt32 imm from ⟨by omega, by omega⟩)
  have hbytes m : operandBytes (addmodeImm8Reg ||| opcExt ||| modRm) m 0 0 imm =
      ofInt 8 m :: [ofInt 8 imm] := rfl
  refine decodesBack_imm hc ⟨⟨rfl, rfl, rfl, rfl, rfl, rfl⟩, rfl, rfl, rfl, rfl, rfl⟩ (by decide) (by decide) rfl
    (.inl rfl) rfl hbyte hbytes (fun wide rm reg => ?_) hd
  rw [takeOther, takeImm8_ofInt himm []]
  rfl

end Registers

/-! ## Memory operands without a base register of their own -/

section Baseless

variable {config : Config} {t : InsnType} {src dest : Operand} {v mod reg : Nat} {q : UsePosition} {disp : Int} {op : X86.Op}
  {kind : RegKind} {other : Other} {ops : Nat → Option X86.Op} {inst : X86.Inst} {k : OperandKind} {slot : StackSlot}

/-- An addressing mode whose address has its displacement in four bytes, on the frame or alone. -/
structure BaselessMode (v mod : Nat) : Prop where
  hasModRm : has v modRm = true
  opcReg : has v opcReg = false
  needSib : ∀ (config : Config) (self : Insn), insnNeedSib config self v = some false
  mod : ∀ (config : Config) (self : Insn), insnEncodeMod config self v = some mod
  rm : ∀ self : Insn, insnEncodeRm self v = some 5
  bytes : ∀ (m : Nat) (disp imm : Int), operandBytes v m 0 disp imm = BitVec.ofInt 8 m :: (imm32Bytes disp ++ [])

theorem layout_baseless (hmode : BaselessMode v mod) (hvalid : encodeTable t ≠ invalidInsn)
    (hcore : flagsOf t &&& coreMask = v) (hdisp : insnDisp config ⟨t, src, dest⟩ (flagsOf t) = some (disp, flagsOf t))
    (hreg : (if has v opcExt then some (extOf t) else insnEncodeReg ⟨t, src, dest⟩ v) = some reg) :
    Layout config ⟨t, src, dest⟩ 0 v (x86EncodeModRm mod reg 5) 0 disp := by
  refine ⟨hvalid, ?_, rfl, ?_, hmode.hasModRm, hmode.opcReg,
    insnEncodeModRm_eq (hmode.needSib ..) (hmode.mod ..) hreg (hmode.rm _), ?_⟩
  · rw [hdisp, Nat.or_zero]
  · rw [Nat.or_zero, hcore]
  · rw [insnEncodeSib, hmode.needSib]
    rfl

theorem Layout.decodesBack_baseless (h : Layout config ⟨t, src, dest⟩ 0 v (x86EncodeModRm mod reg 5) 0 disp)
    (hmode : BaselessMode v mod) (hmod : mod = 0 ∨ mod = 2) (hreg : reg < 8) (hfits : fitsInt32 disp)
    (hrm : (rmOperand ⟨t, src, dest⟩ (flagsOf t)).reg? = none)
    (hentry : opcodeEntry config t = some ⟨.modRm kind other, ops⟩) (hops : ops reg = some op)
    (hmeaning : Insn.meaning config ⟨t, src, dest⟩ = some inst) :
    DecodesBack config ⟨t, src, dest⟩ ↔
      takeOther op (op.sized && (config.rex ⟨t, src, dest⟩ (flagsOf t)).w)
        (if mod = 2 then .mem ⟨some 5, none, disp⟩ else match config.mode with
          | .bits32 => .mem ⟨none, none, disp⟩
          | .bits64 => .ripRelative disp)
        (kind.operand (rexOf (config.rex ⟨t, src, dest⟩ (flagsOf t))).isSome
          (regNumber (config.rex ⟨t, src, dest⟩ (flagsOf t)).r reg)) false [] other = some (inst, []) := by
  have hb : (config.rex ⟨t, src, dest⟩ (flagsOf t)).b = false := by
    rw [Config.rex_eq]
    simp [operandIsRegHigh, hrm]
  rw [h.decodesBack_iff hentry hmeaning, hmode.bytes, takeOperands_modRm (by omega) hreg (by decide), hops,
    Option.bind_some]
  obtain rfl | rfl := hmod
  · rw [takeRm, if_neg (by decide), takeMem, if_neg (by decide), if_pos (by decide), takeImm32_imm32Bytes hfits,
      rexOf_getD]
    cases config <;> rfl
  · rw [takeRm, if_neg (by decide), takeMem, if_neg (by decide), if_neg (by decide), takeDisp,
      takeImm32_imm32Bytes hfits, rexOf_getD, hb]
    rfl

theorem insnSlotOffset_eq (hwidth : has (flagsOf t) width64 = decide (op ∈ [.fld64, .fstp64, .movsd]))
    (hslot : fitsInt32 (slotOffset config slot) ∧ fitsInt32 (slotOffset64 config slot)) :
    insnSlotOffset config (flagsOf t) slot = localOffset config op slot := by
  rw [insnSlotOffset, hwidth, localOffset, toInt32_eq hslot.1, toInt32_eq hslot.2]
  by_cases h : op ∈ [.fld64, .fstp64, .movsd] <;> simp [h]

theorem fitsInt32_localOffset (hslot : fitsInt32 (slotOffset config slot) ∧ fitsInt32 (slotOffset64 config slot)) :
    fitsInt32 (localOffset config op slot) := by
  rw [localOffset]
  split_ifs
  · exact hslot.2
  · exact hslot.1

theorem decodesBack_memlocal (hc : Coded t (addmodeMemlocal ||| opcExt) (.modRm .gpr other) ops op)
    (hother : other = .single ∨ other = .memOnly) (hsized : op.sized = false) (hext : extOf t < 8)
    (hops : ops (extOf t) = some op) (hsig : signature t = (.memlocal, .none))
    (hwidth : has (flagsOf t) width64 = decide (op ∈ [.fld64, .fstp64, .movsd]))
    (hslot : fitsInt32 (slotOffset config slot) ∧ fitsInt32 (slotOffset64 config slot)) :
    DecodesBack config ⟨t, .memlocal slot, .none⟩ := by
  have hmode : BaselessMode (addmodeMemlocal ||| opcExt) 2 :=
    ⟨rfl, rfl, fun config _ => by cases config <;> rfl, fun _ _ => rfl, fun _ => rfl, fun _ _ _ => rfl⟩
  have hrm := (flags_notReversed (.memlocal slot) .none hc.core rfl).1
  have hdisp : insnDisp config ⟨t, .memlocal slot, .none⟩ (flagsOf t) =
      some (localOffset config op slot, flagsOf t) := by
    rw [insnDisp_of_core hc.core, ← insnSlotOffset_eq hwidth hslot]
    rfl
  have hmeaning : Insn.meaning config ⟨t, .memlocal slot, .none⟩ =
      some ⟨op, false, some (.mem ⟨some 5, none, localOffset config op slot⟩), none⟩ := by
    simp only [Insn.meaning, hc.hasOp, hsig, Option.bind_eq_bind, Option.bind_some, hsized]
    rfl
  rw [(layout_baseless hmode hc.valid hc.core hdisp rfl).decodesBack_baseless hmode (.inr rfl) hext
    (fitsInt32_localOffset hslot) (by rw [hrm]; rfl) (hc.entry config) hops hmeaning, hsized]
  obtain rfl | rfl := hother <;> rfl

/-- The r/m operand is a local variable or a fixed address, the other one the register `q`. -/
theorem decodesBack_baselessReg (hmode : BaselessMode v mod) (hmod : mod = 0 ∨ mod = 2) (hc : Coded t v (.modRm .xmm other)
    (fun _ => some op) op) (hext : has v opcExt = false) (hsized : op.sized = false) (hq : q.machReg.available config)
    (hdisp : insnDisp config ⟨t, src, dest⟩ (flagsOf t) = some (disp, flagsOf t)) (hfits : fitsInt32 disp)
    (hrm : (rmOperand ⟨t, src, dest⟩ (flagsOf t)).reg? = none)
    (hreg : regOperand ⟨t, src, dest⟩ (flagsOf t) = .reg q) (hmeaning : Insn.meaning config ⟨t, src, dest⟩ = some inst) :
    DecodesBack config ⟨t, src, dest⟩ ↔
      takeOther op false (if mod = 2 then .mem ⟨some 5, none, disp⟩ else match config.mode with
          | .bits32 => .mem ⟨none, none, disp⟩
          | .bits64 => .ripRelative disp) (.xmm (x86EncodeReg q.machReg)) false [] other = some (inst, []) := by
  have hregv : regOperand ⟨t, src, dest⟩ v = .reg q := by
    rw [← hreg, ← hc.core, regOperand, has_core rfl, regOperand]
  have hfield : (if has v opcExt then some (extOf t) else insnEncodeReg ⟨t, src, dest⟩ v) = some (encodeReg q) := by
    rw [hext, if_neg Bool.false_ne_true, insnEncodeReg]
    unfold regOperand at hregv
    split_ifs at hregv ⊢ <;> simp only at hregv <;> rw [hregv] <;> rfl
  rw [(layout_baseless hmode hc.valid hc.core hdisp hfield).decodesBack_baseless hmode hmod (encodeReg_lt q) hfits hrm
    (hc.entry config) rfl hmeaning, hsized, rex_r (by rw [hreg]; rfl) hq]
  rfl

/-- A register and a memory operand without a base register, in either order. -/
def Sides (t : InsnType) (v : Nat) (other : Other) (kind : OperandKind) (src dest mem : Operand) (q : UsePosition) :
    Prop :=
  has v dirReversed = false ∧ other = .toReg .xmm ∧ signature t = (kind, .xmm) ∧ src = mem ∧ dest = .reg q ∨
    has v dirReversed = true ∧ other = .fromReg ∧ signature t = (.xmm, kind) ∧ src = .reg q ∧ dest = mem

theorem Sides.spec (config : Config) {mem : Operand} {rm : X86.Operand} (hs : Sides t v other k src dest mem q)
    (hc : Coded t v (.modRm .xmm other) (fun _ => some op) op) (hsized : op.sized = false) (hk : k ≠ .none)
    (hmem : mem.denote config op k = some rm) :
    rmOperand ⟨t, src, dest⟩ (flagsOf t) = mem ∧ regOperand ⟨t, src, dest⟩ (flagsOf t) = .reg q ∧
      ∃ inst, Insn.meaning config ⟨t, src, dest⟩ = some inst ∧
        ∀ o, takeOther op false o (.xmm (x86EncodeReg q.machReg)) false [] other = some (inst, []) ↔ o = rm := by
  obtain ⟨hv, rfl, hsig, rfl, rfl⟩ | ⟨hv, rfl, hsig, rfl, rfl⟩ := hs
  · obtain ⟨hrm, hreg⟩ := flags_notReversed src (.reg q) hc.core hv
    refine ⟨hrm, hreg, _, hc.meaning hsig nofun .., fun o => ?_⟩
    rw [hmem, hsized]
    simp [takeOther, Operand.denote]
  · obtain ⟨hrm, hreg⟩ := flags_reversed (.reg q) dest hc.core hv
    refine ⟨hrm, hreg, _, hc.meaning hsig hk .., fun o => ?_⟩
    rw [hmem, hsized]
    simp [takeOther, Operand.denote]

theorem decodesBack_slot (hs : Sides t v other .memlocal src dest (.memlocal slot) q)
    (hv : v = addmodeMemlocalReg ∨ v = addmodeRegMemlocal)
    (hc : Coded t v (.modRm .xmm other) (fun _ => some op) op) (hsized : op.sized = false)
    (hq : q.machReg.available config) (hwidth : has (flagsOf t) width64 = decide (op ∈ [.fld64, .fstp64, .movsd]))
    (hslot : fitsInt32 (slotOffset config slot) ∧ fitsInt32 (slotOffset64 config slot)) :
    DecodesBack config ⟨t, src, dest⟩ := by
  have hmode : BaselessMode v 2 ∧ has v opcExt = false ∧ has v (srcMemlocal ||| dstMemlocal) = true := by
    obtain rfl | rfl := hv
    all_goals exact ⟨⟨rfl, rfl, fun config _ => by cases config <;> rfl, fun _ _ => rfl, fun _ => rfl, fun _ _ _ => rfl⟩,
      rfl, rfl⟩
  obtain ⟨hrm, hreg, inst, hmeaning, htake⟩ := hs.spec config hc hsized (by simp) rfl
  have hdisp : insnDisp config ⟨t, src, dest⟩ (flagsOf t) = some (localOffset config op slot, flagsOf t) := by
    rw [insnDisp_of_core hc.core, hmode.2.2, if_pos rfl, ← hc.core, rmOperand_core, hrm, ← insnSlotOffset_eq hwidth hslot]
    rfl
  exact (decodesBack_baselessReg hmode.1 (.inr rfl) hc hmode.2.1 hsized hq hdisp (fitsInt32_localOffset hslot)
    (by rw [hrm]; rfl) hreg hmeaning).mpr ((htake _).mpr rfl)

/-- A register and an address without a base register, which is relative to the instruction in 64-bit mode. -/
theorem decodesBack_address {addr : Int} (hs : Sides t v other .memdisp src dest (.imm addr) q)
    (hv : v = addmodeMemdispReg ∨ v = addmodeRegMemdisp) (hc : Coded t v (.modRm .xmm other) (fun _ => some op) op)
    (hsized : op.sized = false) (hq : q.machReg.available config) (haddr : fitsInt32 addr) :
    DecodesBack config ⟨t, src, dest⟩ ↔ config = .x86_32 := by
  have hmode : BaselessMode v 0 ∧ has v opcExt = false ∧ has v (srcMemlocal ||| dstMemlocal) = false ∧
      has v (srcMemdisp ||| dstMemdisp) = true := by
    obtain rfl | rfl := hv
    all_goals exact ⟨⟨rfl, rfl, fun config _ => by cases config <;> rfl, fun _ _ => rfl, fun _ => rfl, fun _ _ _ => rfl⟩,
      rfl, rfl, rfl⟩
  obtain ⟨hrm, hreg, inst, hmeaning, htake⟩ := hs.spec config hc hsized nofun rfl
  have hdisp : insnDisp config ⟨t, src, dest⟩ (flagsOf t) = some (addr, flagsOf t) := by
    rw [insnDisp_of_core hc.core, hmode.2.2.1, hmode.2.2.2, if_neg Bool.false_ne_true, if_pos rfl, ← hc.core,
      rmOperand_core, hrm, Operand.immediate, toInt32_eq haddr]
  rw [decodesBack_baselessReg hmode.1 (.inl rfl) hc hmode.2.1 hsized hq hdisp haddr (by rw [hrm]; rfl) hreg hmeaning,
    htake]
  cases config <;> simp [Config.mode]

end Baseless

/-! ## Instructions without a ModRM byte -/

section Plain

variable {config : Config} {t : InsnType} {s d : UsePosition} {op : X86.Op}

theorem decodesBack_nop : DecodesBack config ⟨.nop, .none, .none⟩ := by
  cases config <;> exact ⟨_, _, rfl, rfl, rfl⟩

theorem decodesBack_ret : DecodesBack config ⟨.ret, .none, .none⟩ := by
  cases config <;> exact ⟨_, _, rfl, rfl, rfl⟩

/-- `CLTD` works on `xAX` and `xDX`, whatever its operands are. -/
theorem decodesBack_cltd (hs : s.IsGpr config) (hd : d.IsGpr config) :
    DecodesBack config ⟨.cltdRegReg, .reg s, .reg d⟩ ↔ s.machReg = .xAX ∧ d.machReg = .xDX := by
  have hc : Coded .cltdRegReg 0 (.implied (some (.reg 2)) (some (.reg 0))) (fun _ => some .cltd) .cltd := .of
  generalize hmod : dispMod config ⟨.cltdRegReg, .reg s, .reg d⟩ 0 = mod
  have hmode : DispMode mod 0 := hmod ▸ dispMode_dispMod _ _ fitsInt32_zero
  have hle := hmode.le
  have hdisp : insnDisp config ⟨.cltdRegReg, .reg s, .reg d⟩ (flagsOf .cltdRegReg) =
      some (0, flagsOf .cltdRegReg ||| srcDispFlag mod) := by
    rw [← hmod]
    exact insnDisp_of_core hc.core
  have hparts : Parts config ⟨.cltdRegReg, .reg s, .reg d⟩ (srcDispFlag mod) (0 ||| srcDispFlag mod) 0 0 0 0 := by
    obtain rfl | rfl | rfl := mod_cases hle
    all_goals exact ⟨hc.valid, hdisp, rfl, core_or hc.core rfl, rfl, rfl, rfl⟩
  have hbytes imm : operandBytes (0 ||| srcDispFlag mod) 0 0 0 imm = dispBytes mod 0 := by
    obtain rfl | rfl | rfl := mod_cases hle
    all_goals rfl
  have hmeaning : Insn.meaning config ⟨.cltdRegReg, .reg s, .reg d⟩ = some ⟨.cltd,
      true && (decide (config = .x86_64) && (s.isInt64 || d.isInt64)), some (.reg (x86EncodeReg d.machReg)),
      some (.reg (x86EncodeReg s.machReg))⟩ := rfl
  have htake rest : takeOperands config.mode
      (rexOf (config.rex ⟨.cltdRegReg, .reg s, .reg d⟩ (flagsOf .cltdRegReg))) (ofInt 8 (opcodeOf .cltdRegReg : Nat))
      ⟨.implied (some (.reg 2)) (some (.reg 0)), fun _ => some .cltd⟩ rest = some (⟨.cltd,
        true && (decide (config = .x86_64) && (s.isInt64 || d.isInt64)), some (.reg 2), some (.reg 0)⟩, rest) := by
    have hw := rex_w_eq hc.sized config (.reg s) (.reg d)
    simp only [takeOperands, rexOf_getD, Option.map_some]
    rw [hw]
    rfl
  rw [hparts.decodesBack_iff (opens_opcodeOf hc.valid) (hc.entry config) hmeaning, hbytes]
  refine (Eq.congr_left (htake _)).trans ?_
  simp only [Option.some.injEq, Prod.mk.injEq, X86.Inst.mk.injEq, X86.Operand.reg.injEq, true_and]
  rw [eq_comm (a := 2), eq_comm (a := 0), (x86EncodeReg_eq hs.1).1, (x86EncodeReg_eq hd.1).2.2.1]
  constructor
  · rintro ⟨⟨hdx, hax⟩, -⟩
    exact ⟨hax, hdx⟩
  · rintro ⟨hax, hdx⟩
    refine ⟨⟨hdx, hax⟩, ?_⟩
    have hzero : mod = 0 := by
      rw [← hmod, dispMod]
      cases config <;> simp [insnNeedDisp, insnUsesReg, operandUsesReg, Operand.reg?, hax, hdx]
    rw [hzero]
    rfl

variable {base : Nat}

theorem toNat_inOpcode (hbase : base = 0x50 ∨ base = 0x58) (hn : n < 8) :
    (ofInt 8 (base + n : Nat)).toNat = base + n := by
  rw [BitVec.ofInt_natCast, BitVec.toNat_ofNat]
  omega

theorem opens_inOpcode (hbase : base = 0x50 ∨ base = 0x58) (hn : n < 8) :
    Opens (ofInt 8 (base + n : Nat)) ∧ ofInt 8 (base + n : Nat) ≠ 0x0f#8 := by
  have h := toNat_inOpcode hbase hn
  refine ⟨⟨?_, ?_, ?_, by omega⟩, ?_⟩
  all_goals
    intro he
    rw [he] at h
    simp at h
    omega

theorem opcodeMap_inOpcode (hbase : base = 0x50 ∧ op = .push ∨ base = 0x58 ∧ op = .pop) (hn : n < 8)
    (mode : X86.Mode) : opcodeMap mode ⟨false, false, false⟩ false (ofInt 8 (base + n : Nat)) =
      just .inOpcode op := by
  obtain rfl | rfl | rfl | rfl | rfl | rfl | rfl | rfl :
    n = 0 ∨ n = 1 ∨ n = 2 ∨ n = 3 ∨ n = 4 ∨ n = 5 ∨ n = 6 ∨ n = 7 := by omega
  all_goals obtain ⟨rfl, rfl⟩ | ⟨rfl, rfl⟩ := hbase <;> rfl

theorem decodesBack_inOpcode {src dest : Operand} (hvalid : encodeTable t ≠ invalidInsn)
    (hcore : flagsOf t &&& coreMask = v) (hmodRm : has v modRm = false) (hopcReg : has v opcReg = true)
    (hbytes : ∀ imm, operandBytes v 0 0 0 imm = [])
    (hdisp : insnDisp config ⟨t, src, dest⟩ (flagsOf t) = some (0, flagsOf t))
    (hrm : rmOperand ⟨t, src, dest⟩ (flagsOf t) = .reg s) (hlegacy : legacyOf (flagsOf t) = ⟨false, false, false⟩)
    (hescape : has (flagsOf t) escapeOpcByte = false)
    (hopcode : opcodeOf t = 0x50 ∧ op = .push ∨ opcodeOf t = 0x58 ∧ op = .pop) (hs : s.machReg.available config)
    (hmeaning : Insn.meaning config ⟨t, src, dest⟩ = some ⟨op, false, some (.reg (x86EncodeReg s.machReg)), none⟩) :
    DecodesBack config ⟨t, src, dest⟩ := by
  have hlt := encodeReg_lt s
  have hbase := hopcode.imp And.left And.left
  have hparts : Parts config ⟨t, src, dest⟩ 0 v (encodeReg s) 0 0 0 := by
    refine ⟨hvalid, by rw [hdisp, Nat.or_zero], rfl, by rw [Nat.or_zero, hcore], ?_, by rw [hmodRm]; rfl,
      by rw [hmodRm]; rfl⟩
    rw [hopcReg, ← hcore, rmOperand_core, hrm]
    rfl
  have hentry : opcodeMap config.mode (legacyOf (flagsOf t)) (has (flagsOf t) escapeOpcByte)
      (ofInt 8 (opcodeOf t + encodeReg s : Nat)) = just .inOpcode op := by
    rw [hlegacy, hescape]
    exact opcodeMap_inOpcode hopcode hlt config.mode
  have hb : regNumber (config.rex ⟨t, src, dest⟩ (flagsOf t)).b (encodeReg s) = x86EncodeReg s.machReg := by
    rw [Config.rex_eq]
    exact regNumber_rex (by rw [hrm]; rfl) hs
  have hfield : (opcodeOf t + encodeReg s) % 8 = encodeReg s := by omega
  have hsized : op.sized = false := by
    obtain ⟨-, rfl⟩ | ⟨-, rfl⟩ := hopcode <;> rfl
  rw [hparts.decodesBack_iff (fun _ => opens_inOpcode hbase hlt) hentry hmeaning, hbytes]
  simp only [takeOperands, toNat_inOpcode hbase hlt, hfield, rexOf_getD, hb, hsized, Bool.false_and, Option.map_some]

theorem decodesBack_pushReg (hs : s.machReg.available config) : DecodesBack config ⟨.pushReg, .reg s, .none⟩ :=
  decodesBack_inOpcode (v := opcReg ||| addmodeReg) (by decide) rfl rfl rfl (fun _ => rfl) rfl rfl rfl rfl
    (.inl ⟨by decide, rfl⟩) hs rfl

theorem decodesBack_popReg (hs : s.machReg.available config) : DecodesBack config ⟨.popReg, .none, .reg s⟩ :=
  decodesBack_inOpcode (v := opcReg ||| addmodeReg ||| dirReversed) (by decide) rfl rfl rfl (fun _ => rfl) rfl
    rfl rfl rfl (.inr ⟨by decide, rfl⟩) hs rfl

end Plain

/-! ## All instructions -/

section Main

variable {config : Config} {t : InsnType} {o : Operand} {op : X86.Op}

theorem isOf_none (h : o.IsOf config .none) : o = .none := by
  cases o <;> first | rfl | exact h.elim

theorem isOf_imm8 (h : o.IsOf config .imm8) : ∃ v, o = .imm v ∧ -128 ≤ v ∧ v ≤ 127 := by
  cases o <;> first | exact ⟨_, rfl, h⟩ | exact h.elim

theorem isOf_imm32 (h : o.IsOf config .imm32) : ∃ v, o = .imm v ∧ fitsInt32 v := by
  cases o <;> first | exact ⟨_, rfl, h⟩ | exact h.elim

theorem isOf_gpr (h : o.IsOf config .gpr) : ∃ r, o = .reg r ∧ r.IsGpr config := by
  cases o <;> first | exact ⟨_, rfl, h⟩ | exact h.elim

theorem isOf_gprByte (h : o.IsOf config .gprByte) : ∃ r, o = .reg r ∧ r.IsGpr config := by
  cases o <;> first | exact ⟨_, rfl, h⟩ | exact h.elim

theorem isOf_regIndirect (h : o.IsOf config .regIndirect) : ∃ r, o = .reg r ∧ r.IsGpr config := by
  cases o <;> first | exact ⟨_, rfl, h⟩ | exact h.elim

theorem isOf_xmm (h : o.IsOf config .xmm) :
    ∃ r, o = .reg r ∧ isXmmReg r.machReg = true ∧ r.machReg.available config := by
  cases o <;> first | exact ⟨_, rfl, h⟩ | exact h.elim

theorem isOf_membase (h : o.IsOf config .membase) : ∃ b disp, o = .membase b disp ∧ b.IsGpr config ∧ fitsInt32 disp := by
  cases o <;> first | exact ⟨_, _, rfl, h⟩ | exact h.elim

theorem isOf_memindex (h : o.IsOf config .memindex) :
    ∃ b i shift, o = .memindex b i shift ∧ b.IsGpr config ∧ i.IsGpr config ∧ shift < 4 := by
  cases o <;> first | exact ⟨_, _, _, rfl, h⟩ | exact h.elim

theorem isOf_memdisp (h : o.IsOf config .memdisp) : ∃ v, o = .imm v ∧ fitsInt32 v := by
  cases o <;> first | exact ⟨_, rfl, h⟩ | exact h.elim

theorem isOf_memlocal (h : o.IsOf config .memlocal) :
    ∃ slot, o = .memlocal slot ∧ fitsInt32 (slotOffset config slot) ∧ fitsInt32 (slotOffset64 config slot) := by
  cases o <;> first | exact ⟨_, rfl, h⟩ | exact h.elim

/-- The width is lost only where the base register of a 64-bit address stands next to a register of 32 bits. -/
theorem widthKept_iff {q : UsePosition} (hsized : op.sized = !isXmmReg q.machReg) :
    widthKept config op b q ↔ (config = .x86_32 || isXmmReg q.machReg || !b.isInt64 || q.isInt64) = true := by
  rw [widthKept, hsized]
  cases config <;> cases isXmmReg q.machReg <;> cases b.isInt64 <;> cases q.isInt64 <;> decide

end Main

/-- **The encoder and the decoder agree** on exactly the instructions that are encodable. -/
theorem insnEncode_iff (config : Config) (self : Insn) (h : self.WellFormed config) :
    DecodesBack config self ↔ self.encodable config = true := by
  obtain ⟨t, src, dest⟩ := self
  obtain ⟨hrouted, hsrc, hdest⟩ := h
  cases t
  case icCall | phi =>
    have hnot : ∀ config : Config, InsnType.icCall ∉ routed config ∧ InsnType.phi ∉ routed config := by
      rintro ⟨⟩ <;> decide
    first | exact absurd hrouted (hnot config).1 | exact absurd hrouted (hnot config).2
  case nop =>
    cases isOf_none hsrc
    cases isOf_none hdest
    exact iff_of_true decodesBack_nop rfl
  case ret =>
    cases isOf_none hsrc
    cases isOf_none hdest
    exact iff_of_true decodesBack_ret rfl
  case pushReg =>
    obtain ⟨r, rfl, hr⟩ := isOf_gpr hsrc
    cases isOf_none hdest
    exact iff_of_true (decodesBack_pushReg hr.2) rfl
  case popReg =>
    cases isOf_none hsrc
    obtain ⟨r, rfl, hr⟩ := isOf_gpr hdest
    exact iff_of_true (decodesBack_popReg hr.2) (by simp [Insn.encodable])
  case negReg =>
    cases isOf_none hsrc
    obtain ⟨r, rfl, hr⟩ := isOf_gpr hdest
    exact iff_of_true (decodesBack_negReg hr.2) (by simp [Insn.encodable])
  case cltdRegReg =>
    obtain ⟨r, rfl, hr⟩ := isOf_gpr hsrc
    obtain ⟨q, rfl, hq⟩ := isOf_gpr hdest
    rw [decodesBack_cltd hr hq]
    simp [Insn.encodable]
  case adcImmReg | addImmReg | cmpImmReg | sbbImmReg | subImmReg =>
    obtain ⟨imm, rfl, himm⟩ := isOf_imm32 hsrc
    obtain ⟨q, rfl, hq⟩ := isOf_gpr hdest
    exact iff_of_true (decodesBack_immReg .of (by decide)
      (by decide) rfl himm hq.2) (by simp [Insn.encodable, hq.1])
  case sarImmReg =>
    obtain ⟨imm, rfl, himm⟩ := isOf_imm8 hsrc
    obtain ⟨q, rfl, hq⟩ := isOf_gpr hdest
    exact iff_of_true (decodesBack_sarImmReg himm hq.2) (by simp [Insn.encodable, hq.1])
  case adcMembaseReg | addMembaseReg | andMembaseReg | cmpMembaseReg | movMembaseReg | orMembaseReg | sbbMembaseReg
    | subMembaseReg | testMembaseReg | xorMembaseReg =>
    obtain ⟨b, disp, rfl, hb, hfits⟩ := isOf_membase hsrc
    obtain ⟨q, rfl, hq⟩ := isOf_gpr hdest
    rw [decodesBack_membaseReg .of rfl (.inl rfl) hb hq.2 hfits, widthKept_iff (by rw [hq.1]; rfl)]
    simp [Insn.encodable]
  case movsdMembaseXmm | movssMembaseXmm =>
    obtain ⟨b, disp, rfl, hb, hfits⟩ := isOf_membase hsrc
    obtain ⟨q, rfl, hq⟩ := isOf_xmm hdest
    rw [decodesBack_membaseReg .of rfl (.inr rfl) hb hq.2 hfits, widthKept_iff (by rw [hq.1]; rfl)]
    simp [Insn.encodable]
  case movsx16MembaseReg | movsx8MembaseReg =>
    obtain ⟨b, disp, rfl, hb, hfits⟩ := isOf_membase hsrc
    obtain ⟨q, rfl, hq⟩ := isOf_gpr hdest
    exact iff_of_false (not_decodesBack_regReg .of rfl hb.2 hq.2) (by simp [Insn.encodable])
  case movRegMembase =>
    obtain ⟨q, rfl, hq⟩ := isOf_gpr hsrc
    obtain ⟨b, disp, rfl, hb, hfits⟩ := isOf_membase hdest
    rw [decodesBack_regMembase .of rfl (.inl rfl) hb hq.2 hfits, widthKept_iff (by rw [hq.1]; rfl)]
    simp [Insn.encodable]
  case movsdXmmMembase | movssXmmMembase =>
    obtain ⟨q, rfl, hq⟩ := isOf_xmm hsrc
    obtain ⟨b, disp, rfl, hb, hfits⟩ := isOf_membase hdest
    rw [decodesBack_regMembase .of rfl (.inr rfl) hb hq.2 hfits, widthKept_iff (by rw [hq.1]; rfl)]
    simp [Insn.encodable]
  case adcRegReg | addRegReg | andRegReg | cmpRegReg | movRegReg | orRegReg | sbbRegReg | subRegReg | xorRegReg =>
    obtain ⟨r, rfl, hr⟩ := isOf_gpr hsrc
    obtain ⟨q, rfl, hq⟩ := isOf_gpr hdest
    rw [decodesBack_regReg_reversed .of rfl hr.2 hq.2]
    simp [Insn.encodable, destIsRm]
  case sarRegReg | shlRegReg | shrRegReg =>
    obtain ⟨r, rfl, hr⟩ := isOf_gpr hsrc
    obtain ⟨q, rfl, hq⟩ := isOf_gpr hdest
    rw [decodesBack_shift .of (by decide) (by decide) rfl hr hq.2]
    simp [Insn.encodable]
  case movsx16RegReg | movzx16RegReg =>
    obtain ⟨r, rfl, hr⟩ := isOf_gpr hsrc
    obtain ⟨q, rfl, hq⟩ := isOf_gpr hdest
    rw [decodesBack_regReg (k := .gpr) .of rfl (.inl rfl) hr.2 hq.2]
    simp [Insn.encodable, destIsRm]
  case movsxdRegReg =>
    obtain ⟨r, rfl, hr⟩ := isOf_gpr hsrc
    obtain ⟨q, rfl, hq⟩ := isOf_gpr hdest
    rw [decodesBack_movsxd hr.2 hq.2]
    simp [Insn.encodable, destIsRm]
  case movsx8RegReg =>
    obtain ⟨r, rfl, hr⟩ := isOf_gprByte hsrc
    obtain ⟨q, rfl, hq⟩ := isOf_gpr hdest
    rw [decodesBack_movsx8 hr.2 hq.2]
    simp [Insn.encodable, destIsRm, or_assoc]
  case addsdXmmXmm | addssXmmXmm | divsdXmmXmm | divssXmmXmm | movsdXmmXmm | movssXmmXmm | mulsdXmmXmm | mulssXmmXmm
    | subsdXmmXmm | subssXmmXmm | xorpdXmmXmm | xorpsXmmXmm =>
    obtain ⟨r, rfl, hr⟩ := isOf_xmm hsrc
    obtain ⟨q, rfl, hq⟩ := isOf_xmm hdest
    rw [decodesBack_regReg (k := .xmm) .of rfl (.inr rfl) hr.2 hq.2]
    simp [Insn.encodable, destIsRm]
  case fld64Memlocal | fldMemlocal | fstp64Memlocal | fstpMemlocal =>
    obtain ⟨slot, rfl, hslot⟩ := isOf_memlocal hsrc
    cases isOf_none hdest
    exact iff_of_true (decodesBack_memlocal .of (.inr rfl)
      rfl (by decide) (by decide) rfl (by decide) hslot) rfl
  case popMemlocal | pushMemlocal =>
    obtain ⟨slot, rfl, hslot⟩ := isOf_memlocal hsrc
    cases isOf_none hdest
    exact iff_of_true (decodesBack_memlocal .of (.inl rfl)
      rfl (by decide) (by decide) rfl (by decide) hslot) rfl
  case movsdMemlocalXmm | movssMemlocalXmm =>
    obtain ⟨slot, rfl, hslot⟩ := isOf_memlocal hsrc
    obtain ⟨q, rfl, hq⟩ := isOf_xmm hdest
    exact iff_of_true (decodesBack_slot (.inl ⟨rfl, rfl, rfl, rfl, rfl⟩) (.inl rfl) .of rfl
      hq.2 (by decide) hslot) rfl
  case movsdXmmMemlocal | movssXmmMemlocal =>
    obtain ⟨q, rfl, hq⟩ := isOf_xmm hsrc
    obtain ⟨slot, rfl, hslot⟩ := isOf_memlocal hdest
    exact iff_of_true (decodesBack_slot (.inr ⟨rfl, rfl, rfl, rfl, rfl⟩) (.inr rfl) .of rfl
      hq.2 (by decide) hslot) rfl
  case movsdMemdispXmm | movssMemdispXmm | mulsdMemdispXmm =>
    obtain ⟨addr, rfl, haddr⟩ := isOf_memdisp hsrc
    obtain ⟨q, rfl, hq⟩ := isOf_xmm hdest
    rw [decodesBack_address (.inl ⟨rfl, rfl, rfl, rfl, rfl⟩) (.inl rfl) .of rfl hq.2 haddr]
    simp [Insn.encodable, hq.1]
  case movsdXmmMemdisp | movssXmmMemdisp =>
    obtain ⟨q, rfl, hq⟩ := isOf_xmm hsrc
    obtain ⟨addr, rfl, haddr⟩ := isOf_memdisp hdest
    rw [decodesBack_address (.inr ⟨rfl, rfl, rfl, rfl, rfl⟩) (.inr rfl) .of rfl hq.2 haddr]
    simp [Insn.encodable]
  case callReg =>
    cases isOf_none hsrc
    obtain ⟨b, rfl, hb⟩ := isOf_regIndirect hdest
    have hc : Coded .callReg (Flag.addmodeRm ||| Flag.opcExt) (.modRm .gpr .single) X86.group5 .call := .of
    rw [decodesBack_loneBase (.reg b) hc rfl (by decide) (by decide) rfl rfl fitsInt32_zero hb rfl]
    simp [Insn.encodable, Operand.disp]
  case jmpMembase =>
    cases isOf_none hsrc
    obtain ⟨b, disp, rfl, hb, hfits⟩ := isOf_membase hdest
    have hc : Coded .jmpMembase (Flag.addmodeRm ||| Flag.opcExt) (.modRm .gpr .single) X86.group5 .jmp := .of
    exact decodesBack_loneBase (.membase b disp) hc rfl (by decide) (by decide) rfl rfl hfits hb rfl
  case jmpMemindex =>
    cases isOf_none hsrc
    obtain ⟨b, i, shift, rfl, hb, hi, hshift⟩ := isOf_memindex hdest
    rw [decodesBack_memindex hb hi hshift]
    simp [Insn.encodable, and_assoc, or_assoc]

theorem insnEncode_iff_addRegReg : Insn.WellFormed .x86_64 ⟨.addRegReg, .reg ⟨.r9, true⟩, .reg ⟨.xAX, true⟩⟩ ∧
      DecodesBack .x86_64 ⟨.addRegReg, .reg ⟨.r9, true⟩, .reg ⟨.xAX, true⟩⟩ := by
  have hwell : Insn.WellFormed .x86_64 ⟨.addRegReg, .reg ⟨.r9, true⟩, .reg ⟨.xAX, true⟩⟩ :=
    ⟨by decide, ⟨rfl, (by rintro ⟨⟩)⟩, ⟨rfl, (by rintro ⟨⟩)⟩⟩
  exact ⟨hwell, (insnEncode_iff .x86_64 _ hwell).mpr rfl⟩

/-- A load from the address in `r12` is emitted without its SIB byte, so the byte that follows the instruction is read
as one. -/
theorem not_decodesBack_r12 : Insn.WellFormed .x86_64 ⟨.movsdMembaseXmm, .membase ⟨.r12, true⟩ 0, .reg ⟨.xmm0, false⟩⟩ ∧
      insnEncode .x86_64 ⟨.movsdMembaseXmm, .membase ⟨.r12, true⟩ 0, .reg ⟨.xmm0, false⟩⟩ =
        some [0xf2#8, 0x41#8, 0x0f#8, 0x10#8, 0x04#8] ∧
      ¬ DecodesBack .x86_64 ⟨.movsdMembaseXmm, .membase ⟨.r12, true⟩ 0, .reg ⟨.xmm0, false⟩⟩ := by
  have hbytes : insnEncode .x86_64 ⟨.movsdMembaseXmm, .membase ⟨.r12, true⟩ 0, .reg ⟨.xmm0, false⟩⟩ =
      some [0xf2#8, 0x41#8, 0x0f#8, 0x10#8, 0x04#8] := by decide
  refine ⟨⟨by decide, ⟨⟨rfl, (by rintro ⟨⟩)⟩, fitsInt32_zero⟩, ⟨rfl, (by rintro ⟨⟩)⟩⟩, hbytes, ?_⟩
  rintro ⟨bytes, inst, hb, -, hdecode⟩
  cases hbytes.symm.trans hb
  have hnone : X86.decode Config.x86_64.mode [0xf2#8, 0x41#8, 0x0f#8, 0x10#8, 0x04#8] = none := by decide
  exact absurd (hnone.symm.trans hdecode) (by simp)

end Jato.Arch
