import Jato.Arch.EmitMem

/-!
# Patching the accesses to static fields

`fixup_static` of `arch/x86/fixup.c` writes the address of a static field into the instructions that were compiled before
the class was initialized. It finds the displacement by looking at the first bytes of the instruction: a REX prefix comes
first, and an SSE instruction has two bytes in front of its opcode. `fixedUp_iff` says for which instructions this is where
the encoder has put the displacement, and when the displacement can reach the field.
-/

namespace Jato.Arch.Fixup

open Jato.Lib List X86
open Jato.Lib.X86 (Byte)
open EmitMem (rexPfx regHigh)

/-! ## The instructions -/

/-- The instructions that read or write a static field. -/
inductive StaticForm
  | movMemdispReg | movRegMemdisp | movsdMemdispXmm | movsdXmmMemdisp | movssMemdispXmm | movssXmmMemdisp
deriving DecidableEq

def StaticForm.isSse : StaticForm → Bool
  | movMemdispReg | movRegMemdisp => false
  | _ => true

/-- An instruction with a register of its kind. -/
structure StaticInsn (config : Config) where
  form : StaticForm
  reg : UsePosition
  kind : isXmmReg reg.machReg = form.isSse
  available : reg.machReg.available config

/-- `__emit_memdisp`, at the address `current` of the buffer. -/
def emitMemdisp (config : Config) (current : Nat) (rexW : Bool) (opc : Byte) (disp : Int) (regOpcode : Nat) : List Byte :=
  match config with
  | .x86_32 => [opc] ++ (emit (x86EncodeModRm 0 regOpcode 5 : Nat) ++ emitImm32 disp)
  | .x86_64 =>
    let front := (if rexPfx rexW (regHigh regOpcode) false false ≠ 0 then
      emit (rexPfx rexW (regHigh regOpcode) false false : Nat) else []) ++
        ([opc] ++ emit (x86EncodeModRm 0 regOpcode 5 : Nat))
    front ++ emitImm32 (disp - (current + front.length) - 4)

namespace StaticInsn

variable {config : Config} (i : StaticInsn config)

/-- The bytes of the instruction for the address `addr`, when the buffer is at `current`. -/
def emit (current : Nat) (addr : Int) : Option (List Byte) :=
  match i.form with
  | .movMemdispReg => some (emitMemdisp config current i.reg.isInt64 0x8b#8 addr (x86EncodeReg i.reg.machReg))
  | .movRegMemdisp => some (emitMemdisp config current i.reg.isInt64 0x89#8 addr (x86EncodeReg i.reg.machReg))
  | .movsdMemdispXmm => insnEncode config ⟨.movsdMemdispXmm, .imm addr, .reg i.reg⟩
  | .movsdXmmMemdisp => insnEncode config ⟨.movsdXmmMemdisp, .reg i.reg, .imm addr⟩
  | .movssMemdispXmm => insnEncode config ⟨.movssMemdispXmm, .imm addr, .reg i.reg⟩
  | .movssXmmMemdisp => insnEncode config ⟨.movssXmmMemdisp, .reg i.reg, .imm addr⟩

def op : X86.Op :=
  match i.form with
  | .movMemdispReg | .movRegMemdisp => .mov
  | .movsdMemdispXmm | .movsdXmmMemdisp => .movsd
  | .movssMemdispXmm | .movssXmmMemdisp => .movss

/-- What the instruction does with the memory operand `o`. -/
def meaning (o : X86.Operand) : X86.Inst :=
  let wide := decide (config = .x86_64) && (!i.form.isSse && i.reg.isInt64)
  match i.form with
  | .movMemdispReg | .movsdMemdispXmm | .movssMemdispXmm => ⟨i.op, wide, EmitMem.regOf i.reg.machReg, some o⟩
  | .movRegMemdisp | .movsdXmmMemdisp | .movssXmmMemdisp => ⟨i.op, wide, some o, EmitMem.regOf i.reg.machReg⟩

end StaticInsn

/-! ## The patch -/

/-- The bytes of the address space. -/
abbrev Memory : Type := Nat → Byte

/-- The bytes from the address `p` on. -/
def Holds (mem : Memory) (p : Nat) : List Byte → Prop
  | [] => True
  | byte :: bytes => mem p = byte ∧ Holds mem (p + 1) bytes

/-- A write of four bytes by `cpu_write_u32`. -/
structure Store where
  addr : Nat
  value : BitVec 32
deriving DecidableEq

def Store.byte (store : Store) (a : Nat) : Byte := store.value.extractLsb' (8 * (a - store.addr)) 8

def cpuWriteU32 (mem : Memory) (store : Store) : Memory := fun a =>
  if store.addr ≤ a ∧ a < store.addr + 4 then store.byte a else mem a

def isRexPrefix (config : Config) (opc : Byte) : Bool :=
  match config with
  | .x86_64 => opc &&& 0xf0#8 = 0x40#8
  | .x86_32 => false

def isSseInsn (opc0 opc1 : Byte) : Bool := opc0 &&& 0xfe#8 = 0xf2#8 && opc1 = 0x0f#8

def skipCount (config : Config) (mem : Memory) (machInsn : Nat) : Nat :=
  let rex := if isRexPrefix config (mem machInsn) then 1 else 0
  if isSseInsn (mem (machInsn + rex)) (mem (machInsn + rex + 1)) then rex + 4 else rex + 2

def doFixupStatic (config : Config) (siteAddr skipCount newTarget : Nat) : Store :=
  match config with
  | .x86_64 => ⟨siteAddr + skipCount, BitVec.ofInt 32 ((newTarget : Int) - siteAddr - (skipCount + 4))⟩
  | .x86_32 => ⟨siteAddr + skipCount, BitVec.ofInt 32 newTarget⟩

/-- A `struct static_fixup_site`: where the instruction is, and the offset of the field that it is for. -/
structure Site (config : Config) where
  machInsn : Nat
  insn : StaticInsn config
  offset : Nat

/-- The address of the field, as pointers are added. -/
def Site.newTarget {config : Config} (staticValues : Nat) (site : Site config) : Nat :=
  (staticValues + site.offset) % 2 ^ (8 * config.wordSize)

/-- The writes of `fixup_static` and the memory behind it; no site is left. -/
def fixupStatic {config : Config} (staticValues : Nat) : List (Site config) → Memory → List Store × Memory
  | [], mem => ([], mem)
  | site :: sites, mem =>
    let store := doFixupStatic config site.machInsn (skipCount config mem site.machInsn) (site.newTarget staticValues)
    let (stores, mem) := fixupStatic staticValues sites (cpuWriteU32 mem store)
    (store :: stores, mem)

/-! ## What the encoder has written -/

/-- An opcode with what stands in front of it. -/
structure Opcode where
  legacy : Legacy
  escape : Bool
  opcode : Byte

def StaticForm.opcode : StaticForm → Opcode
  | movMemdispReg => ⟨⟨false, false, false⟩, false, 0x8b#8⟩
  | movRegMemdisp => ⟨⟨false, false, false⟩, false, 0x89#8⟩
  | movsdMemdispXmm => ⟨⟨true, false, false⟩, true, 0x10#8⟩
  | movsdXmmMemdisp => ⟨⟨true, false, false⟩, true, 0x11#8⟩
  | movssMemdispXmm => ⟨⟨false, true, false⟩, true, 0x10#8⟩
  | movssXmmMemdisp => ⟨⟨false, true, false⟩, true, 0x11#8⟩

namespace StaticInsn

variable {config : Config} (i : StaticInsn config)

def rex : X86.Rex :=
  ⟨decide (config = .x86_64) && (!i.form.isSse && i.reg.isInt64),
    decide (config = .x86_64) && regHigh (x86EncodeReg i.reg.machReg), false, false⟩

/-- The bytes in front of the displacement. -/
def front : List Byte :=
  legacyBytes i.form.opcode.legacy ++ (rexBytes i.rex ++ (escapeBytes i.form.opcode.escape ++
    (i.form.opcode.opcode :: Arch.emit (x86EncodeModRm 0 (x86EncodeReg i.reg.machReg) 5 : Nat))))

def length : Nat := i.front.length + 4

end StaticInsn

section Encoder

variable {config : Config} {t : InsnType} {q : UsePosition} {addr : Int}

theorem rexBytes_rexPfx : ∀ w r : Bool,
    (if rexPfx w r false false ≠ 0 then emit (rexPfx w r false false : Nat) else []) = rexBytes ⟨w, r, false, false⟩ := by
  decide

theorem emitMemdisp_eq (config : Config) (current : Nat) (rexW : Bool) (opc : Byte) (disp : Int) (regOpcode : Nat) :
    ∃ d, emitMemdisp config current rexW opc disp regOpcode =
      rexBytes ⟨decide (config = .x86_64) && rexW, decide (config = .x86_64) && regHigh regOpcode, false, false⟩ ++
        (opc :: emit (x86EncodeModRm 0 regOpcode 5 : Nat)) ++ emitImm32 d := by
  cases config with
  | x86_32 => exact ⟨disp, rfl⟩
  | x86_64 =>
    simp only [emitMemdisp, rexBytes_rexPfx]
    exact ⟨_, rfl⟩

/-- The bytes of an SSE instruction that reads or writes a fixed address. -/
def memdispBytes (config : Config) (t : InsnType) (q : UsePosition) (d : Int) : List Byte :=
  legacyBytes (legacyOf (flagsOf t)) ++
    (rexBytes ⟨false, decide (config = .x86_64) && regHigh (x86EncodeReg q.machReg), false, false⟩ ++
    (escapeBytes (has (flagsOf t) Flag.escapeOpcByte) ++
    (BitVec.ofInt 8 (opcodeOf t : Nat) :: emit (x86EncodeModRm 0 (x86EncodeReg q.machReg) 5 : Nat)))) ++ emitImm32 d

theorem insnEncode_memdisp {src dest : Operand} {v : Nat} {d : Int} (hmode : BaselessMode v 0)
    (hvalid : encodeTable t ≠ invalidInsn) (hcore : flagsOf t &&& coreMask = v)
    (hwide : has (flagsOf t) Flag.rexWPrefix = false)
    (hdisp : insnDisp config ⟨t, src, dest⟩ (flagsOf t) = some (d, flagsOf t))
    (hrm : rmOperand ⟨t, src, dest⟩ (flagsOf t) = .imm addr) (hreg : regOperand ⟨t, src, dest⟩ (flagsOf t) = .reg q)
    (hfield : (if has v Flag.opcExt then some (extOf t) else insnEncodeReg ⟨t, src, dest⟩ v) = some (encodeReg q)) :
    insnEncode config ⟨t, src, dest⟩ = some (memdispBytes config t q d) := by
  have hmodRm : x86EncodeModRm 0 (x86EncodeReg q.machReg) 5 = x86EncodeModRm 0 (encodeReg q) 5 := by
    rw [EmitMem.x86EncodeModRm_mod, encodeReg_eq]
  have hrex : config.rex ⟨t, src, dest⟩ (flagsOf t) =
      ⟨false, decide (config = .x86_64) && regHigh (x86EncodeReg q.machReg), false, false⟩ := by
    rw [Config.rex_eq, hwide, hrm, hreg]
    simp only [Bool.false_and, Bool.and_false, operandIsIndexRegHigh, operandIsRegHigh, Operand.index?, Operand.reg?]
    rfl
  rw [(layout_baseless hmode hvalid hcore hdisp hfield).parts.insnEncode, hmode.bytes, hrex, memdispBytes, hmodRm]
  simp only [append_assoc, cons_append, append_nil, emit, nil_append]
  rfl

theorem insnEncode_memdispReg (hvalid : encodeTable t ≠ invalidInsn)
    (hcore : flagsOf t &&& coreMask = Flag.addmodeMemdispReg) (hwide : has (flagsOf t) Flag.rexWPrefix = false) :
    insnEncode config ⟨t, .imm addr, .reg q⟩ = some (memdispBytes config t q (toInt32 addr)) := by
  have hmode : BaselessMode Flag.addmodeMemdispReg 0 :=
    ⟨rfl, rfl, fun config _ => by cases config <;> rfl, fun _ _ => rfl, fun _ => rfl, fun _ _ _ => rfl⟩
  obtain ⟨hrm, hreg⟩ := flags_notReversed (.imm addr) (.reg q) hcore rfl
  refine insnEncode_memdisp hmode hvalid hcore hwide ?_ hrm hreg rfl
  rw [insnDisp_of_core hcore]
  rfl

theorem insnEncode_regMemdisp (hvalid : encodeTable t ≠ invalidInsn)
    (hcore : flagsOf t &&& coreMask = Flag.addmodeRegMemdisp) (hwide : has (flagsOf t) Flag.rexWPrefix = false) :
    insnEncode config ⟨t, .reg q, .imm addr⟩ = some (memdispBytes config t q (toInt32 addr)) := by
  have hmode : BaselessMode Flag.addmodeRegMemdisp 0 :=
    ⟨rfl, rfl, fun config _ => by cases config <;> rfl, fun _ _ => rfl, fun _ => rfl, fun _ _ _ => rfl⟩
  obtain ⟨hrm, hreg⟩ := flags_reversed (.reg q) (.imm addr) hcore rfl
  refine insnEncode_memdisp hmode hvalid hcore hwide ?_ hrm hreg rfl
  rw [insnDisp_of_core hcore]
  rfl

end Encoder

namespace StaticInsn

variable {config : Config} (i : StaticInsn config)

theorem rex_of_sse (h : i.form.isSse = true) :
    i.rex = ⟨false, decide (config = .x86_64) && regHigh (x86EncodeReg i.reg.machReg), false, false⟩ := by
  rw [rex, h, Bool.not_true, Bool.false_and, Bool.and_false]

/-- **The displacement is last** in every instruction. -/
theorem emit_eq (current : Nat) (addr : Int) : ∃ d, i.emit current addr = some (i.front ++ emitImm32 d) := by
  have hrex := i.rex_of_sse
  obtain ⟨form, reg, hkind, havailable⟩ := i
  cases form with
  | movMemdispReg =>
    obtain ⟨d, hd⟩ := emitMemdisp_eq config current reg.isInt64 0x8b#8 addr (x86EncodeReg reg.machReg)
    exact ⟨d, congrArg some hd⟩
  | movRegMemdisp =>
    obtain ⟨d, hd⟩ := emitMemdisp_eq config current reg.isInt64 0x89#8 addr (x86EncodeReg reg.machReg)
    exact ⟨d, congrArg some hd⟩
  | movsdMemdispXmm =>
    refine ⟨toInt32 addr, ?_⟩
    rw [front, hrex rfl]
    exact insnEncode_memdispReg (t := .movsdMemdispXmm) (by decide) rfl rfl
  | movsdXmmMemdisp =>
    refine ⟨toInt32 addr, ?_⟩
    rw [front, hrex rfl]
    exact insnEncode_regMemdisp (t := .movsdXmmMemdisp) (by decide) rfl rfl
  | movssMemdispXmm =>
    refine ⟨toInt32 addr, ?_⟩
    rw [front, hrex rfl]
    exact insnEncode_memdispReg (t := .movssMemdispXmm) (by decide) rfl rfl
  | movssXmmMemdisp =>
    refine ⟨toInt32 addr, ?_⟩
    rw [front, hrex rfl]
    exact insnEncode_regMemdisp (t := .movssXmmMemdisp) (by decide) rfl rfl

/-- The memory operand with the displacement `d`. -/
def operand (config : Config) (d : Int) : X86.Operand :=
  match config with
  | .x86_32 => .mem ⟨none, none, d⟩
  | .x86_64 => .ripRelative d

/-- The register operand is of the general-purpose or of the XMM kind. -/
def regKind (form : StaticForm) : RegKind := if form.isSse then .xmm else .gpr

theorem opcodeMap_eq : ∃ other, opcodeMap config.mode i.form.opcode.legacy i.form.opcode.escape i.form.opcode.opcode =
      some ⟨.modRm (regKind i.form) other, fun _ => some i.op⟩ ∧ ∀ o, takeOther i.op (i.op.sized && i.rex.w) o
      ((regKind i.form).operand true (x86EncodeReg i.reg.machReg)) false [] other = some (i.meaning o, []) := by
  obtain ⟨form, reg, hkind, havailable⟩ := i
  cases form
  case movMemdispReg | movsdMemdispXmm | movssMemdispXmm =>
    refine ⟨.toReg _, by cases config <;> rfl, fun o => ?_⟩
    simp only [meaning, EmitMem.regOf, hkind]
    cases config <;> rfl
  case movRegMemdisp | movsdXmmMemdisp | movssXmmMemdisp =>
    refine ⟨.fromReg, by cases config <;> rfl, fun o => ?_⟩
    simp only [meaning, EmitMem.regOf, hkind]
    cases config <;> rfl

/-- **An instruction with any displacement** does what it is meant to, with that displacement. -/
theorem decode_front (v : BitVec 32) :
    X86.decode config.mode (i.front ++ imm32Bytes v.toInt) = some (i.meaning (operand config v.toInt), []) := by
  have hplain : config.mode = .bits32 → i.rex = .plain := by
    intro h
    cases config with
    | x86_32 => rfl
    | x86_64 => cases h
  obtain ⟨other, hentry, hother⟩ := i.opcodeMap_eq
  have hopens : i.form.opcode.escape = false → Opens i.form.opcode.opcode ∧ i.form.opcode.opcode ≠ 0x0f#8 := by
    cases i.form <;> exact fun _ => ⟨⟨by decide, by decide, by decide, by decide⟩, by decide⟩
  have hlt : x86EncodeReg i.reg.machReg % 8 < 8 := Nat.mod_lt _ (by decide)
  have hnumber : regNumber i.rex.r (x86EncodeReg i.reg.machReg % 8) = x86EncodeReg i.reg.machReg := by
    cases config with
    | x86_32 => exact Nat.mod_eq_of_lt (i.available rfl)
    | x86_64 => exact EmitMem.regNumber_regHigh (x86EncodeReg_lt _)
  have hreg (hasRex : Bool) n : (regKind i.form).operand hasRex n = (regKind i.form).operand true n := by
    unfold regKind
    split_ifs <;> rfl
  have htake := takeImm32_imm32Bytes (v := v.toInt) (EmitMem.fitsInt32_toInt v) []
  rw [append_nil] at htake
  simp only [front, append_assoc, cons_append, Arch.emit, nil_append]
  rw [decode_opcode hplain _ hopens, hentry, Option.bind_some, EmitMem.x86EncodeModRm_mod,
    takeOperands_modRm (by decide) hlt (by decide), Option.bind_some, takeRm, if_neg (by decide), takeMem,
    if_neg (by decide), if_pos (by decide), htake, rexOf_getD, hnumber, hreg]
  have hresult := hother (operand config v.toInt)
  cases config <;> exact hresult

/-- Only a register that needs a REX prefix moves the displacement of an SSE instruction out of place. -/
def inPlace : Bool := !(i.form.isSse && i.rex.r)

variable {mem : Memory} {p : Nat}

theorem skipCount_noRex (h : isRexPrefix config (mem p) = false) :
    skipCount config mem p = if isSseInsn (mem p) (mem (p + 1)) then 4 else 2 := by
  rw [skipCount, h]
  rfl

theorem skipCount_rex (h : isRexPrefix config (mem p) = true) :
    skipCount config mem p = if isSseInsn (mem (p + 1)) (mem (p + 1 + 1)) then 5 else 3 := by
  rw [skipCount, h]
  rfl

/-- **The displacement is found** behind the bytes in front of it, or taken to be two bytes into the instruction. -/
theorem skipCount_eq (hmem : Holds mem p i.front) :
    skipCount config mem p = if i.inPlace then i.front.length else 2 := by
  unfold front at hmem ⊢
  unfold inPlace
  cases config with
  | x86_32 =>
    have hrex : i.rex = .plain := rfl
    rw [hrex] at hmem ⊢
    revert hmem
    cases i.form <;> rintro ⟨h0, h1, h2⟩ <;> rw [skipCount_noRex rfl, h0, h1] <;> rfl
  | x86_64 =>
    have hrex : i.rex = ⟨!i.form.isSse && i.reg.isInt64, regHigh (x86EncodeReg i.reg.machReg), false, false⟩ := by
      simp [rex]
    rw [hrex] at hmem ⊢
    revert hmem
    -- an SSE instruction begins with its legacy prefix, and a REX prefix stands between that and the escape byte
    cases i.form <;> cases i.reg.isInt64 <;> cases regHigh (x86EncodeReg i.reg.machReg) <;> rintro ⟨h0, h1, h2⟩ <;> first
      | (rw [skipCount_noRex (by rw [h0]; rfl), h0, h1]; rfl)
      | (rw [skipCount_rex (by rw [h0]; rfl), h1, h2.1]; rfl)

end StaticInsn

variable {a : Nat}

section Memory

variable {mem mem' : Memory} {p : Nat} {bytes rest : List Byte}

theorem holds_append : Holds mem p (bytes ++ rest) ↔ Holds mem p bytes ∧ Holds mem (p + bytes.length) rest := by
  induction bytes generalizing p with
  | nil => simp [Holds]
  | cons byte bytes ih =>
    rw [cons_append, Holds, Holds, ih, and_assoc, length_cons, Nat.add_assoc p 1, Nat.add_comm 1]

theorem Holds.congr (h : Holds mem p bytes) (heq : ∀ a, p ≤ a → a < p + bytes.length → mem' a = mem a) :
    Holds mem' p bytes := by
  induction bytes generalizing p with
  | nil => trivial
  | cons byte bytes ih =>
    rw [length_cons] at heq
    refine ⟨(heq p (by omega) (by omega)).trans h.1, ih h.2 fun a ha hlt => heq a (by omega) (by omega)⟩

theorem Holds.unique (h : Holds mem p bytes) (h' : Holds mem p rest) (hlen : bytes.length = rest.length) :
    bytes = rest := by
  induction bytes generalizing p rest with
  | nil => exact (eq_nil_of_length_eq_zero hlen.symm).symm
  | cons byte bytes ih =>
    cases rest with
    | nil => cases hlen
    | cons byte' rest =>
      rw [h.1.symm.trans h'.1, ih h.2 h'.2 (Nat.succ.inj hlen)]

variable {store : Store}

theorem cpuWriteU32_outside (h : ¬(store.addr ≤ a ∧ a < store.addr + 4)) :
    cpuWriteU32 mem store a = mem a := if_neg h

theorem cpuWriteU32_congr (h : mem a = mem' a) : cpuWriteU32 mem store a = cpuWriteU32 mem' store a := by
  rw [cpuWriteU32, cpuWriteU32, h]

theorem holds_cpuWriteU32 (store : Store) :
    Holds (cpuWriteU32 mem store) store.addr (imm32Bytes store.value.toInt) := by
  have hword : BitVec.ofInt 32 store.value.toInt = store.value := BitVec.ofInt_toInt
  simp [imm32Bytes, Holds, cpuWriteU32, Store.byte, hword, Nat.add_assoc]

end Memory

/-! ## All sites of a class -/

section Run

variable {config : Config} {site : Site config} {mem : Memory} {staticValues : Nat}

/-- The address of the displacement. -/
def Site.dispAddr (site : Site config) : Nat := site.machInsn + site.insn.front.length

/-- The address behind the instruction. -/
def Site.next (site : Site config) : Nat := site.machInsn + site.insn.length

/-- The instruction has been emitted, for some address. -/
def Site.Emitted (mem : Memory) (site : Site config) : Prop :=
  ∃ addr bytes, site.insn.emit site.machInsn addr = some bytes ∧ Holds mem site.machInsn bytes

def Site.Apart (s t : Site config) : Prop := s.next ≤ t.machInsn ∨ t.next ≤ s.machInsn

/-- The instructions of the fixup sites of a class in memory. -/
structure Compiled (config : Config) where
  mem : Memory
  sites : List (Site config)
  emitted : ∀ site ∈ sites, site.Emitted mem
  apart : sites.Pairwise Site.Apart

/-- The address that a memory operand stands for in an instruction before `next`. -/
def effectiveAddress (next : Nat) : X86.Operand → Option Nat
  | .mem ⟨none, none, d⟩ => some (d % 2 ^ 32).toNat
  | .ripRelative d => some ((next + d) % 2 ^ 64).toNat
  | _ => none

/-- The instruction is what it was, with a memory operand for the address `target`. -/
def Site.Accesses (site : Site config) (mem : Memory) (target : Nat) : Prop :=
  ∃ bytes o, bytes.length = site.insn.length ∧ Holds mem site.machInsn bytes ∧
    X86.decode config.mode bytes = some (site.insn.meaning o, []) ∧ effectiveAddress site.next o = some target

/-- `fixup_static` writes the displacements and nothing else, and every instruction then accesses its field. -/
structure FixedUp (staticValues : Nat) (c : Compiled config) : Prop where
  stores : (fixupStatic staticValues c.sites c.mem).1.map Store.addr = c.sites.map Site.dispAddr
  others : ∀ a, (∀ site ∈ c.sites, ¬(site.dispAddr ≤ a ∧ a < site.dispAddr + 4)) →
    (fixupStatic staticValues c.sites c.mem).2 a = c.mem a
  accesses : ∀ site ∈ c.sites, site.Accesses (fixupStatic staticValues c.sites c.mem).2 (site.newTarget staticValues)

/-- In 64-bit mode the register of an SSE instruction needs no REX prefix, and the field is within reach of a
displacement. -/
def Site.Patchable (staticValues : Nat) (site : Site config) : Prop :=
  config = .x86_64 → site.insn.inPlace = true ∧
    fitsInt32 (((site.newTarget staticValues : Int) - site.next).bmod (2 ^ 64))

/-- The write for a site. -/
def Site.store (staticValues : Nat) (site : Site config) : Store :=
  doFixupStatic config site.machInsn (if site.insn.inPlace then site.insn.front.length else 2) (site.newTarget staticValues)

theorem Site.Emitted.holds (h : site.Emitted mem) : ∃ d, Holds mem site.machInsn (site.insn.front ++ emitImm32 d) := by
  obtain ⟨addr, bytes, hemit, hmem⟩ := h
  obtain ⟨d, hd⟩ := site.insn.emit_eq site.machInsn addr
  cases hemit.symm.trans hd
  exact ⟨d, hmem⟩

theorem Site.Emitted.congr (h : site.Emitted mem) {mem' : Memory}
    (heq : ∀ a, site.machInsn ≤ a → a < site.next → mem' a = mem a) : site.Emitted mem' := by
  obtain ⟨addr, bytes, hemit, hmem⟩ := h
  obtain ⟨d, hd⟩ := site.insn.emit_eq site.machInsn addr
  refine ⟨addr, bytes, hemit, hmem.congr fun a ha hlt => heq a ha ?_⟩
  cases hemit.symm.trans hd
  rw [length_append] at hlt
  exact hlt

theorem Site.Emitted.store_eq (h : site.Emitted mem) : doFixupStatic config site.machInsn
    (skipCount config mem site.machInsn) (site.newTarget staticValues) = site.store staticValues := by
  obtain ⟨d, hmem⟩ := h.holds
  rw [site.insn.skipCount_eq (holds_append.mp hmem).1]
  rfl

theorem doFixupStatic_addr (siteAddr skip newTarget : Nat) :
    (doFixupStatic config siteAddr skip newTarget).addr = siteAddr + skip := by
  cases config <;> rfl

theorem StaticInsn.two_le_length (i : StaticInsn config) : 2 ≤ i.front.length := by
  simp only [front, length_append, length_cons, Arch.emit, length_nil]
  omega

theorem Site.store_within (staticValues : Nat) (site : Site config) :
    site.machInsn ≤ (site.store staticValues).addr ∧ (site.store staticValues).addr + 4 ≤ site.next := by
  have hlen := site.insn.two_le_length
  rw [store, doFixupStatic_addr, next, StaticInsn.length]
  split_ifs <;> omega

theorem Site.store_outside (h : ¬(site.machInsn ≤ a ∧ a < site.next)) :
    cpuWriteU32 mem (site.store staticValues) a = mem a := by
  have hwithin := site.store_within staticValues
  exact cpuWriteU32_outside (by omega)

/-- **A whole run.** The sites are patched independently of each other. -/
theorem fixupStatic_run (staticValues : Nat) (sites : List (Site config)) (mem : Memory)
    (hemitted : ∀ site ∈ sites, site.Emitted mem) (hapart : sites.Pairwise Site.Apart) :
    (fixupStatic staticValues sites mem).1 = sites.map (Site.store staticValues) ∧
    (∀ a, (∀ site ∈ sites, ¬((site.store staticValues).addr ≤ a ∧ a < (site.store staticValues).addr + 4)) →
      (fixupStatic staticValues sites mem).2 a = mem a) ∧ ∀ site ∈ sites, ∀ a, site.machInsn ≤ a → a < site.next →
      (fixupStatic staticValues sites mem).2 a = cpuWriteU32 mem (site.store staticValues) a := by
  induction sites generalizing mem with
  | nil => exact ⟨rfl, fun _ _ => rfl, nofun⟩
  | cons site sites ih =>
    obtain ⟨hhead, htail⟩ := pairwise_cons.mp hapart
    have hsite := hemitted site mem_cons_self
    have hkept {t} (ht : t ∈ sites) {a} (ha : t.machInsn ≤ a) (hlt : a < t.next) :
        cpuWriteU32 mem (site.store staticValues) a = mem a := by
      rcases hhead t ht with h | h <;> exact Site.store_outside (by omega)
    obtain ⟨hstores, hothers, hinside⟩ := ih (cpuWriteU32 mem (site.store staticValues))
      (fun t ht => (hemitted t (mem_cons_of_mem _ ht)).congr fun a ha hlt => hkept ht ha hlt) htail
    simp only [fixupStatic, hsite.store_eq]
    refine ⟨?_, fun a ha => ?_, fun t ht a hge hlt => ?_⟩
    · rw [hstores, map_cons]
    · rw [hothers a fun t ht => ha t (mem_cons_of_mem _ ht)]
      exact cpuWriteU32_outside (ha site mem_cons_self)
    · rcases mem_cons.mp ht with rfl | ht
      · refine hothers a fun u hu => ?_
        have hwithin := u.store_within staticValues
        rcases hhead u hu with h | h <;> omega
      · exact (hinside t ht a hge hlt).trans (cpuWriteU32_congr (hkept ht hge hlt))

/-! ## The result -/

theorem holds_store (hemitted : site.Emitted mem) (hplace : site.insn.inPlace = true) :
    Holds (cpuWriteU32 mem (site.store staticValues)) site.machInsn
      (site.insn.front ++ imm32Bytes (site.store staticValues).value.toInt) := by
  obtain ⟨d, hmem⟩ := hemitted.holds
  have haddr : (site.store staticValues).addr = site.dispAddr := by
    rw [Site.store, doFixupStatic_addr, hplace]
    rfl
  refine holds_append.mpr ⟨?_, ?_⟩
  · refine (holds_append.mp hmem).1.congr fun a _ hlt => cpuWriteU32_outside ?_
    rw [haddr, Site.dispAddr]
    omega
  · have hwritten : Holds (cpuWriteU32 mem (site.store staticValues)) _ _ := holds_cpuWriteU32 _
    rw [haddr] at hwritten
    exact hwritten

theorem StaticInsn.meaning_injective (i : StaticInsn config) {o o' : X86.Operand} (h : i.meaning o = i.meaning o') :
    o = o' := by
  unfold meaning at h
  cases hform : i.form <;> rw [hform] at h <;> cases h <;> rfl

/-- A patched instruction accesses the address of the operand that it decodes to. -/
theorem accesses_iff {v : BitVec 32} {target : Nat}
    (hmem : Holds mem site.machInsn (site.insn.front ++ imm32Bytes v.toInt)) :
    site.Accesses mem target ↔ effectiveAddress site.next (StaticInsn.operand config v.toInt) = some target := by
  have hlen : (site.insn.front ++ imm32Bytes v.toInt).length = site.insn.length := length_append
  have hdecode := site.insn.decode_front v
  constructor
  · rintro ⟨bytes, o, hbytes, hholds, ho, htarget⟩
    cases hholds.unique hmem (hbytes.trans hlen.symm)
    have heq := (hdecode.symm.trans ho)
    have hmeaning : site.insn.meaning (StaticInsn.operand config v.toInt) = site.insn.meaning o := by
      injection heq with heq
      injection heq
    rw [site.insn.meaning_injective hmeaning]
    exact htarget
  · intro htarget
    exact ⟨_, _, hlen, hmem, hdecode, htarget⟩

theorem reach_iff (target next : Nat) (h : target < 2 ^ 64) :
    (((next : Int) + ((target : Int) - next).bmod (2 ^ 32)) % 2 ^ 64).toNat = target ↔
      fitsInt32 (((target : Int) - next).bmod (2 ^ 64)) := by
  rw [fitsInt32, Int.bmod_def, Int.bmod_def]
  split_ifs <;> omega

theorem absolute_eq (target : Nat) (h : target < 2 ^ 32) : ((BitVec.ofInt 32 target).toInt % 2 ^ 32).toNat = target := by
  rw [BitVec.toInt_ofInt, Int.bmod_def]
  split_ifs <;> omega

theorem effectiveAddress_store (hplace : site.insn.inPlace = true) :
    effectiveAddress site.next (StaticInsn.operand config (site.store staticValues).value.toInt) =
      some (site.newTarget staticValues) ↔
    (config = .x86_64 → fitsInt32 (((site.newTarget staticValues : Int) - site.next).bmod (2 ^ 64))) := by
  cases config with
  | x86_32 =>
    refine iff_of_true ?_ nofun
    have hlt : site.newTarget staticValues < 2 ^ 32 := Nat.mod_lt _ (by decide)
    have hvalue : (site.store staticValues).value = BitVec.ofInt 32 (site.newTarget staticValues) := rfl
    rw [hvalue]
    exact congrArg some (absolute_eq _ hlt)
  | x86_64 =>
    have hlt : site.newTarget staticValues < 2 ^ 64 := Nat.mod_lt _ (by decide)
    have hvalue : (site.store staticValues).value.toInt = ((site.newTarget staticValues : Int) - site.next).bmod (2 ^ 32) := by
      have hnext : ((site.newTarget staticValues : Int) - site.machInsn - ((site.insn.front.length : Nat) + 4)) =
          (site.newTarget staticValues : Int) - site.next := by
        rw [Site.next, StaticInsn.length]
        omega
      rw [Site.store, hplace, if_pos rfl, doFixupStatic, hnext, BitVec.toInt_ofInt]
    rw [hvalue]
    refine Iff.trans ?_ (forall_prop_of_true rfl).symm
    rw [← reach_iff _ _ hlt]
    exact Option.some_inj

theorem StaticInsn.inPlace_of_x86_32 (i : StaticInsn .x86_32) : i.inPlace = true := by
  have hrex : i.rex.r = false := rfl
  rw [inPlace, hrex, Bool.and_false]
  rfl

theorem StaticForm.escape_eq_isSse (form : StaticForm) : form.opcode.escape = form.isSse := by
  cases form <;> rfl

theorem store_addr_iff : (site.store staticValues).addr = site.dispAddr ↔ site.insn.inPlace = true := by
  rw [Site.store, doFixupStatic_addr, Site.dispAddr]
  constructor
  · intro h
    by_contra hplace
    have hsse : site.insn.form.isSse = true := by
      rw [Bool.not_eq_true, StaticInsn.inPlace, Bool.not_eq_false', Bool.and_eq_true] at hplace
      exact hplace.1
    have hlong : 2 < site.insn.front.length := by
      have hescape := StaticForm.escape_eq_isSse site.insn.form
      simp only [StaticInsn.front, length_append, length_cons, Arch.emit, length_nil, hescape, hsse,
        escapeBytes, if_true]
      omega
    rw [if_neg hplace] at h
    omega
  · intro hplace
    rw [if_pos hplace]

/-- **When all accesses are patched.** -/
theorem fixedUp_iff (staticValues : Nat) (c : Compiled config) :
    FixedUp staticValues c ↔ ∀ site ∈ c.sites, site.Patchable staticValues := by
  obtain ⟨hstores, hothers, hinside⟩ := fixupStatic_run staticValues c.sites c.mem c.emitted c.apart
  have haccess {site} (hsite : site ∈ c.sites) (hplace : site.insn.inPlace = true) :
      site.Accesses (fixupStatic staticValues c.sites c.mem).2 (site.newTarget staticValues) ↔ (config = .x86_64 →
        fitsInt32 (((site.newTarget staticValues : Int) - site.next).bmod (2 ^ 64))) := by
    rw [← effectiveAddress_store hplace]
    refine accesses_iff ((holds_store (c.emitted site hsite) hplace).congr fun a hge hlt => ?_)
    rw [length_append] at hlt
    exact hinside site hsite a hge hlt
  constructor
  · rintro ⟨hdisps, -, haccesses⟩ site hsite h64
    rw [hstores, map_map, map_inj_left] at hdisps
    have hplace := store_addr_iff.mp (hdisps site hsite)
    exact ⟨hplace, (haccess hsite hplace).mp (haccesses site hsite) h64⟩
  · intro hpatchable
    have hplace site (hsite : site ∈ c.sites) : site.insn.inPlace = true := by
      cases config with
      | x86_32 => exact site.insn.inPlace_of_x86_32
      | x86_64 => exact (hpatchable site hsite rfl).1
    have haddr site (hsite : site ∈ c.sites) : (site.store staticValues).addr = site.dispAddr :=
      store_addr_iff.mpr (hplace site hsite)
    refine ⟨?_, fun a ha => hothers a fun site hsite => ?_, fun site hsite => ?_⟩
    · rw [hstores, map_map, map_inj_left]
      exact haddr
    · rw [haddr site hsite]
      exact ha site hsite
    · exact (haccess hsite (hplace site hsite)).mpr fun h64 => (hpatchable site hsite h64).2

end Run

/-! ## An SSE instruction with a REX prefix -/

def xmm8Load : StaticInsn .x86_64 := ⟨.movsdMemdispXmm, ⟨.xmm8, false⟩, rfl, nofun⟩

/-- `movsd` of a static field into `xmm8`, compiled at the address 0 for the address 0. -/
def xmm8Code : Compiled .x86_64 where
  mem a := ([0xf2#8, 0x44#8, 0x0f#8, 0x10#8, 0x05#8] : List Byte).getD a 0#8
  sites := [⟨0, xmm8Load, 0⟩]
  emitted := by
    rintro site hsite
    cases mem_singleton.mp hsite
    exact ⟨0, [0xf2#8, 0x44#8, 0x0f#8, 0x10#8, 0x05#8, 0#8, 0#8, 0#8, 0#8], by decide, by repeat constructor⟩
  apart := pairwise_singleton _ _

/-- The four bytes that are written begin with the escape byte. -/
theorem not_fixedUp_xmm8 : ¬FixedUp 4096 xmm8Code := by
  rintro ⟨hstores, -, -⟩
  exact absurd hstores (by decide)

end Jato.Arch.Fixup
