import Jato.Vm.Bytecode

/-!
# Instructions of the class file format

What a method body says in the terms of the Java virtual machine, with exact arithmetic: the length of the instruction
at a position (`insnLength`), the complete instructions (`InsnAt`), the positions where an instruction starts
(`InsnStart`), the destinations of a jump (`JumpDest`), the local variable slots an instruction touches (`localSlots`)
and the instructions after which execution never continues with the next one (`NeverContinues`).

`bcInsnSizeSafe` only returns sizes of complete instructions, except for a switch whose table is so long that the size
wraps (`insnAt_of_sizeSafe`).
-/

namespace Jato.Vm

/-- The first byte after the padding of the switch at `pc`. -/
def switchBody (pc : Nat) : Nat := pc + 1 + getTableswitchPadding pc

def tableswitchLow (code : List UInt8) (pc : Nat) : Int := readS32 code (switchBody pc + 4)

def tableswitchHigh (code : List UInt8) (pc : Nat) : Int := readS32 code (switchBody pc + 8)

/-- The number of entries of the tableswitch at `pc`. -/
def tableswitchCount (code : List UInt8) (pc : Nat) : Nat :=
  (tableswitchHigh code pc - tableswitchLow code pc + 1).toNat

/-- The number of pairs of the lookupswitch at `pc`. -/
def lookupswitchCount (code : List UInt8) (pc : Nat) : Nat := (readS32 code (switchBody pc + 4)).toNat

/-- The length of the instruction at `pc`. -/
def insnLength (code : List UInt8) (pc : Nat) : Option Nat :=
  let opc := byteAt code pc
  if bcIsInvalid opc then none
  else if opc = opcTableswitch then
    if tableswitchHigh code pc < tableswitchLow code pc then none
    else some (1 + getTableswitchPadding pc + 12 + 4 * tableswitchCount code pc)
  else if opc = opcLookupswitch then
    if readS32 code (switchBody pc + 4) < 0 then none
    else some (1 + getTableswitchPadding pc + 8 + 8 * lookupswitchCount code pc)
  else if opc = opcWide then if byteAt code (pc + 1) = opcIinc then some 6 else some 4
  else some (bytecodeInfo opc).size

/-- A complete instruction of length `len` stands at `pc`. -/
def InsnAt (code : List UInt8) (pc len : Nat) : Prop :=
  pc < code.length ∧ insnLength code pc = some len ∧ pc + len ≤ code.length

/-- The positions reached by decoding complete instructions from the first byte on. -/
inductive InsnStart (code : List UInt8) : Nat → Prop
  | zero : InsnStart code 0
  | next {pc len : Nat} : InsnStart code pc → InsnAt code pc len → InsnStart code (pc + len)

/-- `d` is a position inside the code where an instruction starts. -/
def ValidDest (code : List UInt8) (d : Int) : Prop := 0 ≤ d ∧ d < code.length ∧ InsnStart code d.toNat

/-- The destinations of the branch, tableswitch or lookupswitch at `pc`. -/
inductive JumpDest (code : List UInt8) (pc : Nat) : Int → Prop
  | branch : bcIsBranch (byteAt code pc) = true → byteAt code pc ≠ opcTableswitch →
      byteAt code pc ≠ opcLookupswitch → JumpDest code pc (pc + bcTargetOff code pc)
  | tableDefault : byteAt code pc = opcTableswitch → JumpDest code pc (pc + readS32 code (switchBody pc))
  | tableCase (i : Nat) : byteAt code pc = opcTableswitch → i < tableswitchCount code pc →
      JumpDest code pc (pc + readS32 code (switchBody pc + 12 + 4 * i))
  | lookupDefault : byteAt code pc = opcLookupswitch → JumpDest code pc (pc + readS32 code (switchBody pc))
  | lookupCase (i : Nat) : byteAt code pc = opcLookupswitch → i < lookupswitchCount code pc →
      JumpDest code pc (pc + readS32 code (switchBody pc + 8 + 8 * i + 4))

/-- The opcodes that load or store a local variable of one slot. -/
def isOneSlotAccess (opc : Nat) : Bool :=
  opc == opcIload || opc == opcFload || opc == opcAload || opc == opcIstore || opc == opcFstore || opc == opcAstore

/-- The opcodes that load or store a local variable of two slots. -/
def isTwoSlotAccess (opc : Nat) : Bool :=
  opc == opcLload || opc == opcDload || opc == opcLstore || opc == opcDstore

/-- The opcodes that load or store a one-slot local variable whose index, `0` to `3`, is in the opcode. -/
def oneSlotShort (opc : Nat) : Option Nat :=
  [opcIload0, opcFload0, opcAload0, opcIstore0, opcFstore0, opcAstore0].findSome? fun base =>
    if base ≤ opc ∧ opc < base + 4 then some (opc - base) else none

/-- The same for the two-slot local variables. -/
def twoSlotShort (opc : Nat) : Option Nat :=
  [opcLload0, opcDload0, opcLstore0, opcDstore0].findSome? fun base =>
    if base ≤ opc ∧ opc < base + 4 then some (opc - base) else none

/-- The local variable slots that the instruction at `pc` reads or writes. -/
def localSlots (code : List UInt8) (pc : Nat) : List Nat :=
  let opc := byteAt code pc
  if opc = opcWide then
    let idx := readU16 code (pc + 2)
    if isTwoSlotAccess (byteAt code (pc + 1)) then [idx, idx + 1]
    else if isOneSlotAccess (byteAt code (pc + 1)) || byteAt code (pc + 1) == opcIinc ||
        byteAt code (pc + 1) == opcRet then [idx]
    else []
  else if isTwoSlotAccess opc then [readU8 code (pc + 1), readU8 code (pc + 1) + 1]
  else if isOneSlotAccess opc || opc == opcIinc || opc == opcRet then [readU8 code (pc + 1)]
  else
    match oneSlotShort opc, twoSlotShort opc with
    | some n, _ => [n]
    | none, some n => [n, n + 1]
    | none, none => []

/-- The opcodes after which execution never continues with the next instruction. -/
def neverContinuesOpc (opc : Nat) : Bool :=
  opc == opcGoto || opc == opcGotoW || opc == opcTableswitch || opc == opcLookupswitch || opc == opcIreturn ||
    opc == opcLreturn || opc == opcFreturn || opc == opcDreturn || opc == opcAreturn || opc == opcReturn ||
    opc == opcAthrow || opc == opcRet

/-- Execution never continues with the instruction that follows the one at `pc`. -/
def NeverContinues (code : List UInt8) (pc : Nat) : Prop :=
  neverContinuesOpc (byteAt code pc) = true ∨ (byteAt code pc = opcWide ∧ byteAt code (pc + 1) = opcRet)

/-! ## Lengths and sizes -/

variable {size : Nat}

section Lengths

variable {code : List UInt8} {pc len : Nat}

/-- A valid opcode has a size in the table, or is one of the three of variable length. -/
theorem size_pos_or {opc : Nat} (hlt : opc < 256) (hv : bcIsInvalid opc = false) :
    0 < (bytecodeInfo opc).size ∧ opc ≠ opcTableswitch ∧ opc ≠ opcLookupswitch ∧ opc ≠ opcWide ∨
      (bytecodeInfo opc).size = 0 ∧ (opc = opcTableswitch ∨ opc = opcLookupswitch ∨ opc = opcWide) := by
  revert hlt hv
  revert opc
  decide +kernel

/-- A C `int` that did not turn negative holds the number itself, below `2 ^ 32`. -/
theorem toS32_eq {x : Int} (h0 : 0 ≤ x) (h : x < 2 ^ 32) (hn : 0 ≤ toS32 x) : toS32 x = x := by
  simp only [toS32, Int.bmod] at hn ⊢
  split at hn
  · rw [if_pos (by assumption)]; omega
  · omega

theorem toS32_of_lt {n : Nat} (h : n < 2 ^ 31) : toS32 n = n := by
  simp only [toS32, Int.bmod]
  omega

theorem bytecodeInfo_size_lt : ∀ opc < 256, (bytecodeInfo opc).size < 256 := by decide +kernel

theorem tableswitch_length {low high : Int} {pad : Nat} (h : ¬high < low) :
    1 + (pad : Int) + 12 + (high - low + 1) * 4 = (1 + pad + 12 + 4 * (high - low + 1).toNat : Nat) := by omega

theorem lookupswitch_length {n : Int} {pad : Nat} (h : ¬n < 0) :
    1 + (pad : Int) + 8 + n * 2 * 4 = (1 + pad + 8 + 8 * n.toNat : Nat) := by omega

theorem bcIsInvalid_of_insnLength (h : insnLength code pc = some len) : bcIsInvalid (byteAt code pc) = false := by
  by_contra hv
  simp [insnLength, hv] at h

/-- A size that `bcInsnSizeRaw` returns for a valid opcode is the length of the instruction, as a C `int`. -/
theorem insnLength_of_raw {size : Int} (hv : bcIsInvalid (byteAt code pc) = false)
    (h : bcInsnSizeRaw code pc = .ok size) : ∃ len : Nat, insnLength code pc = some len ∧ size = toS32 len := by
  simp only [bcInsnSizeRaw] at h
  simp only [insnLength, hv, Bool.false_eq_true, if_false]
  rcases size_pos_or (byteAt_lt code pc) hv with ⟨hs, hts, hls, hw⟩ | ⟨hs, hvar⟩
  · rw [if_pos (by omega)] at h
    cases h
    refine ⟨_, by rw [if_neg hts, if_neg hls, if_neg hw], (toS32_of_lt ?_).symm⟩
    exact lt_trans (bytecodeInfo_size_lt _ (byteAt_lt code pc)) (by decide)
  · rw [if_neg (by omega)] at h
    rcases hvar with ho | ho | ho
    · rw [ho, if_pos rfl] at h
      split at h
      · cases h
      · split at h
        · cases h
        · rename_i hlt
          have hlt' : ¬tableswitchHigh code pc < tableswitchLow code pc := hlt
          have hs := Except.ok.inj h
          refine ⟨_, by rw [ho, if_pos rfl, if_neg hlt'], ?_⟩
          rw [← hs]
          exact congrArg toS32 (tableswitch_length hlt')
    · rw [ho, if_neg (by decide), if_pos rfl] at h
      split at h
      · cases h
      · split at h
        · cases h
        · rename_i hlt
          have hlt' : ¬readS32 code (switchBody pc + 4) < 0 := hlt
          have hs := Except.ok.inj h
          refine ⟨_, by rw [ho, if_neg (by decide), if_pos rfl, if_neg hlt'], ?_⟩
          rw [← hs]
          exact congrArg toS32 (lookupswitch_length hlt')
    · rw [ho, if_neg (by decide), if_neg (by decide), if_pos rfl] at h
      rw [ho, if_neg (by decide), if_neg (by decide), if_pos rfl]
      split at h
      · cases h
      · split at h <;> rename_i hi <;> cases h
        · exact ⟨6, by rw [if_pos hi], (toS32_of_lt (by decide)).symm⟩
        · exact ⟨4, by rw [if_neg hi], (toS32_of_lt (by decide)).symm⟩

theorem sizeSafe_ok (h : bcInsnSizeSafe code pc = .ok size) : pc < code.length ∧ pc + size ≤ code.length ∧
      ∃ len : Nat, insnLength code pc = some len ∧ (size : Int) = toS32 len := by
  simp only [bcInsnSizeSafe] at h
  split at h
  · cases h
  · rename_i hpc
    split at h
    · cases h
    · rename_i hv
      cases hr : bcInsnSizeRaw code pc with
      | error e => rw [hr] at h; cases h
      | ok raw =>
        rw [hr] at h
        simp only at h
        split at h
        · cases h
        · split at h
          · cases h
          · rename_i hneg hend
            cases h
            obtain ⟨len, hl, hsize⟩ := insnLength_of_raw (by simpa using hv) hr
            exact ⟨by omega, by omega, len, hl, by rw [Int.toNat_of_nonneg (by omega)]; exact hsize⟩

theorem toS32_lt (x : Int) : toS32 x < 2 ^ 31 := by
  simp only [toS32, Int.bmod]
  omega

theorem size_lt_of_sizeSafe (h : bcInsnSizeSafe code pc = .ok size) : size < 2 ^ 31 := by
  obtain ⟨-, -, len, -, hsize⟩ := sizeSafe_ok h
  have := toS32_lt len
  omega

/-- An accepted size is the length of the instruction, when the instruction is not longer than the code. -/
theorem sizeSafe_eq_length (hc : code.length < 2 ^ 32) (h : bcInsnSizeSafe code pc = .ok size)
    (hi : InsnAt code pc len) : size = len := by
  obtain ⟨_, _, len', hl, hsize⟩ := sizeSafe_ok h
  obtain ⟨_, hl', hend⟩ := hi
  rw [hl] at hl'
  cases hl'
  rw [toS32_eq (by omega) (by omega) (by omega)] at hsize
  exact_mod_cast hsize

/-- An accepted size below `2 ^ 31` is the length of a complete instruction. -/
theorem insnAt_of_sizeSafe (h : bcInsnSizeSafe code pc = .ok size) (hl : insnLength code pc = some len)
    (hlt : len < 2 ^ 31) : InsnAt code pc len ∧ size = len := by
  obtain ⟨hpc, hend, len', hl', hsize⟩ := sizeSafe_ok h
  rw [hl] at hl'
  cases hl'
  rw [toS32_of_lt hlt] at hsize
  have heq : size = len := by exact_mod_cast hsize
  exact ⟨⟨hpc, hl, heq ▸ hend⟩, heq⟩

/-- Only a switch is longer than 255 bytes. -/
theorem insnLength_lt_of_not_switch (hl : insnLength code pc = some len) (hts : byteAt code pc ≠ opcTableswitch)
    (hls : byteAt code pc ≠ opcLookupswitch) : len < 2 ^ 31 := by
  have := bytecodeInfo_size_lt _ (byteAt_lt code pc)
  simp only [insnLength, if_neg hts, if_neg hls] at hl
  split at hl
  · cases hl
  · split at hl
    · split at hl <;> cases hl <;> decide
    · cases hl
      omega

theorem insnLength_tableswitch (ho : byteAt code pc = opcTableswitch) (hl : insnLength code pc = some len) :
    tableswitchLow code pc ≤ tableswitchHigh code pc ∧
      len = 1 + getTableswitchPadding pc + 12 + 4 * tableswitchCount code pc := by
  simp only [insnLength, ho] at hl
  rw [if_neg (by decide), if_pos trivial] at hl
  split at hl
  · cases hl
  · rename_i hlt
    exact ⟨Int.not_lt.mp hlt, (Option.some.inj hl).symm⟩

theorem insnLength_lookupswitch (ho : byteAt code pc = opcLookupswitch) (hl : insnLength code pc = some len) :
    0 ≤ readS32 code (switchBody pc + 4) ∧ len = 1 + getTableswitchPadding pc + 8 + 8 * lookupswitchCount code pc := by
  simp only [insnLength, ho] at hl
  rw [if_neg (by decide), if_neg (by decide), if_pos trivial] at hl
  split at hl
  · cases hl
  · rename_i hlt
    exact ⟨Int.not_lt.mp hlt, (Option.some.inj hl).symm⟩

end Lengths

/-! ## Instruction starts -/

section Starts

variable {code : List UInt8} {pc len : Nat}

theorem InsnAt.unique {len' : Nat} (h : InsnAt code pc len) (h' : InsnAt code pc len') : len = len' :=
  Option.some.inj (h.2.1.symm.trans h'.2.1)

theorem InsnAt.pos (h : InsnAt code pc len) : 0 < len := by
  obtain ⟨-, hl, -⟩ := h
  simp only [insnLength] at hl
  split at hl
  · cases hl
  · rename_i hv
    rcases size_pos_or (byteAt_lt code pc) (by simpa using hv) with ⟨hs, hts, hls, hw⟩ | ⟨-, ho⟩
    · rw [if_neg hts, if_neg hls, if_neg hw] at hl
      exact Option.some.inj hl ▸ hs
    · split at hl
      · split at hl
        · cases hl
        · exact Option.some.inj hl ▸ (by rw [add_assoc, add_assoc, Nat.one_add]; exact Nat.succ_pos _)
      · split at hl
        · split at hl
          · cases hl
          · exact Option.some.inj hl ▸ (by rw [add_assoc, add_assoc, Nat.one_add]; exact Nat.succ_pos _)
        · split at hl
          · split at hl <;> exact Option.some.inj hl ▸ (by decide)
          · omega

/-- No instruction starts inside another. -/
theorem InsnStart.le_of_lt {b : Nat} (hb : InsnStart code b) : ∀ {a len : Nat}, InsnStart code a →
    InsnAt code a len → a < b → a + len ≤ b := by
  -- strong induction on the larger of the two positions, which changes sides in the last case
  induction b using Nat.strongRecOn with
  | _ b ih =>
    intro a len ha hi hlt
    cases hb with
    | zero => omega
    | @next b' len' hb' hi' =>
      rcases Nat.lt_trichotomy a b' with h | h | h
      · have hpos := hi'.pos
        have := ih b' (by omega) hb' ha hi h
        omega
      · subst h
        exact le_of_eq (by rw [hi.unique hi'])
      · have := ih a hlt ha hb' hi' h
        omega

theorem InsnStart.complete {e : Nat} (he : InsnStart code e) {q : Nat} (hq : InsnStart code q) :
    q < e → ∃ len, InsnAt code q len := by
  induction he with
  | zero => exact fun h => absurd h (Nat.not_lt_zero q)
  | @next pc len hpc hi ih =>
    intro hlt
    rcases Nat.lt_trichotomy q pc with h | h | h
    · exact ih h
    · exact ⟨len, h ▸ hi⟩
    · exact absurd (hq.le_of_lt hpc hi h) (by omega)

/-- Every switch at an instruction start is complete, so that its size does not wrap. -/
def SwitchesComplete (code : List UInt8) : Prop :=
  ∀ pc < code.length, InsnStart code pc → byteAt code pc = opcTableswitch ∨ byteAt code pc = opcLookupswitch →
    ∃ len, InsnAt code pc len

/-- Sizes are lengths of complete instructions, at the starts of code with complete switches. -/
theorem InsnStart.insnAt (hc : code.length < 2 ^ 32) (hsw : SwitchesComplete code)
    (hpc : InsnStart code pc) (hsize : bcInsnSizeSafe code pc = .ok size) : InsnAt code pc size := by
  obtain ⟨hlt, -, len, hl, -⟩ := sizeSafe_ok hsize
  by_cases ho : byteAt code pc = opcTableswitch ∨ byteAt code pc = opcLookupswitch
  · obtain ⟨len', hi⟩ := hsw pc hlt hpc ho
    rw [sizeSafe_eq_length hc hsize hi]
    exact hi
  · rw [not_or] at ho
    obtain ⟨hi, heq⟩ := insnAt_of_sizeSafe hsize hl (insnLength_lt_of_not_switch hl ho.1 ho.2)
    exact heq ▸ hi

end Starts

end Jato.Vm
