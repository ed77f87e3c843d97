import Jato.Vm.InsnFormat

/-!
# Sizes of instructions

`bc_insn_size` of `vm/bytecode.c`, and when `bc_insn_size_safe` agrees with it and with the instructions of the class file
format. It does except for two kinds of switches (`sizeSafeCorrect_iff`): a lookupswitch without pairs at the end of the
code is complete but not accepted, and the size of a very long switch is computed in a C `int` that wraps.
-/

namespace Jato.Vm

/-- `insn_size` of `get_tableswitch_info`; the count is a `uint32_t`. -/
def tableswitchInsnSize (code : List UInt8) (pc : Nat) : Nat :=
  let count := (readU32 code (switchBody pc + 8) + (2 ^ 32 - readU32 code (switchBody pc + 4)) + 1) % 2 ^ 32
  1 + getTableswitchPadding pc + (3 + count) * 4 % 2 ^ 32

/-- `insn_size` of `get_lookupswitch_info`. -/
def lookupswitchInsnSize (code : List UInt8) (pc : Nat) : Nat :=
  1 + getTableswitchPadding pc + 2 * 4 + readU32 code (switchBody pc + 4) * 8 % 2 ^ 32

/-- The size of the instruction at `pc`, without a look at the end of the code; `none` is a call of `error`. -/
def bcInsnSize (code : List UInt8) (pc : Nat) : Option Nat :=
  let opc := byteAt code pc
  if opc = opcWide then if byteAt code (pc + 1) = opcIinc then some 6 else some 4
  else if opc = opcTableswitch then some (tableswitchInsnSize code pc)
  else if opc = opcLookupswitch then some (lookupswitchInsnSize code pc)
  else if (bytecodeInfo opc).size = 0 then none
  else some (bytecodeInfo opc).size

/-- A size is returned exactly for a complete instruction, and `bc_insn_size` gives the same one. -/
structure SizeSafeCorrect (code : List UInt8) (pc : Nat) : Prop where
  complete : ∀ size, bcInsnSizeSafe code pc = .ok size ↔ InsnAt code pc size
  same : ∀ size, bcInsnSizeSafe code pc = .ok size → bcInsnSize code pc = some size

/-! ## What is tested -/

section

variable {code : List UInt8} {pc : Nat}

/-- What has to lie inside the code before the size is computed. -/
def HeadInside (code : List UInt8) (pc : Nat) : Prop :=
  if byteAt code pc = opcTableswitch then switchBody pc + 12 < code.length
  else if byteAt code pc = opcLookupswitch then switchBody pc + 8 < code.length
  else if byteAt code pc = opcWide then pc + 2 < code.length
  else True

/-- The size before the last test is the length of the instruction, as a C `int`. -/
theorem bcInsnSizeRaw_iff {size : Int} (hv : bcIsInvalid (byteAt code pc) = false) :
    bcInsnSizeRaw code pc = .ok size ↔ HeadInside code pc ∧ ∃ len : Nat, insnLength code pc = some len ∧ size = toS32 len := by
  refine ⟨fun h => ⟨?_, insnLength_of_raw hv h⟩, ?_⟩
  · simp only [bcInsnSizeRaw] at h
    unfold HeadInside
    rcases size_pos_or (byteAt_lt code pc) hv with ⟨-, hts, hls, hw⟩ | ⟨hs, ho | ho | ho⟩
    · rw [if_neg hts, if_neg hls, if_neg hw]
      trivial
    · rw [if_neg (not_not.mpr hs), ho, if_pos rfl] at h
      rw [ho, if_pos rfl]
      split at h
      · cases h
      · exact not_le.mp ‹_›
    · rw [if_neg (not_not.mpr hs), ho, if_neg (by decide), if_pos rfl] at h
      rw [ho, if_neg (by decide), if_pos rfl]
      split at h
      · cases h
      · exact not_le.mp ‹_›
    · rw [if_neg (not_not.mpr hs), ho, if_neg (by decide), if_neg (by decide), if_pos rfl] at h
      rw [ho, if_neg (by decide), if_neg (by decide), if_pos rfl]
      split at h
      · cases h
      · exact not_le.mp ‹_›
  · rintro ⟨hhead, len, hlen, hsize⟩
    rw [hsize]
    simp only [bcInsnSizeRaw]
    unfold HeadInside at hhead
    rcases size_pos_or (byteAt_lt code pc) hv with ⟨hs, hts, hls, hw⟩ | ⟨hs, ho | ho | ho⟩
    · simp only [insnLength, hv, Bool.false_eq_true, if_false, if_neg hts, if_neg hls, if_neg hw] at hlen
      obtain rfl := Option.some.inj hlen
      rw [if_pos (Nat.ne_of_gt hs), toS32_of_lt (lt_trans (bytecodeInfo_size_lt _ (byteAt_lt code pc)) (by decide))]
    · rw [ho, if_pos rfl] at hhead
      obtain ⟨hlt, heq⟩ := insnLength_tableswitch ho hlen
      have hinside : ¬ code.length ≤ pc + 1 + getTableswitchPadding pc + 12 := not_le.mpr hhead
      have hle : ¬ readS32 code (pc + 1 + getTableswitchPadding pc + 8) <
        readS32 code (pc + 1 + getTableswitchPadding pc + 4) := Int.not_lt.mpr hlt
      rw [if_neg (not_not.mpr hs), ho, if_pos rfl, if_neg hinside, if_neg hle, heq]
      exact congrArg (fun x => Except.ok (toS32 x)) (tableswitch_length hle)
    · rw [ho, if_neg (by decide), if_pos rfl] at hhead
      obtain ⟨hlt, heq⟩ := insnLength_lookupswitch ho hlen
      have hinside : ¬ code.length ≤ pc + 1 + getTableswitchPadding pc + 8 := not_le.mpr hhead
      have hpairs : ¬ readS32 code (pc + 1 + getTableswitchPadding pc + 4) < 0 := Int.not_lt.mpr hlt
      rw [if_neg (not_not.mpr hs), ho, if_neg (by decide), if_pos rfl, if_neg hinside, if_neg hpairs, heq]
      exact congrArg (fun x => Except.ok (toS32 x)) (lookupswitch_length hpairs)
    · simp only [insnLength, hv, Bool.false_eq_true, if_false] at hlen
      rw [ho, if_neg (by decide), if_neg (by decide), if_pos rfl] at hhead hlen
      rw [if_neg (not_not.mpr hs), ho, if_neg (by decide), if_neg (by decide), if_pos rfl, if_neg (not_le.mpr hhead)]
      split at hlen
      · rename_i hi
        cases hlen
        rw [if_pos hi, toS32_of_lt (by decide)]
        rfl
      · rename_i hi
        cases hlen
        rw [if_neg hi, toS32_of_lt (by decide)]
        rfl

theorem bcInsnSizeSafe_iff {size : Nat} : bcInsnSizeSafe code pc = .ok size ↔ pc < code.length ∧ HeadInside code pc ∧
    pc + size ≤ code.length ∧ ∃ len : Nat, insnLength code pc = some len ∧ (size : Int) = toS32 len := by
  constructor
  · intro h
    obtain ⟨hpc, hend, len, hlen, hsize⟩ := sizeSafe_ok h
    refine ⟨hpc, ?_, hend, len, hlen, hsize⟩
    simp only [bcInsnSizeSafe] at h
    rw [if_neg (not_le.mpr hpc)] at h
    split at h
    · cases h
    · rename_i hv
      split at h
      · cases h
      · rename_i raw hraw
        exact ((bcInsnSizeRaw_iff (by simpa using hv)).mp hraw).1
  · rintro ⟨hpc, hhead, hend, len, hlen, hsize⟩
    have hv := bcIsInvalid_of_insnLength hlen
    have hraw := (bcInsnSizeRaw_iff hv).mpr ⟨hhead, len, hlen, hsize⟩
    simp only [bcInsnSizeSafe]
    rw [if_neg (not_le.mpr hpc), hv, if_neg (by decide), hraw]
    simp only
    rw [if_neg (by omega), Int.toNat_natCast, if_neg (by omega)]

/-! ## When the two sizes are the length -/

/-- The lookupswitch at `pc` has no pairs and ends where the code ends. -/
def EmptyLookupswitchAtEnd (code : List UInt8) (pc : Nat) : Prop :=
  byteAt code pc = opcLookupswitch ∧ readS32 code (switchBody pc + 4) = 0 ∧ switchBody pc + 8 = code.length

/-- The switch at `pc` is longer than a C `int` can say, and it is complete or its size wraps to one that seems to be. -/
def SizeWraps (code : List UInt8) (pc : Nat) : Prop :=
  HeadInside code pc ∧ ∃ len : Nat, insnLength code pc = some len ∧ 2 ^ 31 ≤ len ∧
    (pc + len ≤ code.length ∨ 0 ≤ toS32 len ∧ pc + (toS32 len).toNat ≤ code.length)

/-- The head of a complete instruction lies inside the code, with one exception. -/
theorem InsnAt.headInside {len : Nat} (h : InsnAt code pc len) (hne : ¬ EmptyLookupswitchAtEnd code pc) :
    HeadInside code pc := by
  obtain ⟨-, hlen, hend⟩ := h
  unfold HeadInside
  split_ifs with hts hls hw
  · obtain ⟨hle, heq⟩ := insnLength_tableswitch hts hlen
    simp only [tableswitchCount, switchBody] at heq ⊢
    omega
  · obtain ⟨hle, heq⟩ := insnLength_lookupswitch hls hlen
    have hpairs (hzero : readS32 code (switchBody pc + 4) = 0) : switchBody pc + 8 ≠ code.length :=
      fun he => hne ⟨hls, hzero, he⟩
    have hbody : switchBody pc = pc + 1 + getTableswitchPadding pc := rfl
    simp only [lookupswitchCount] at heq
    omega
  · have hv := bcIsInvalid_of_insnLength hlen
    simp only [insnLength, hv, Bool.false_eq_true, if_false, if_neg hts, if_neg hls, if_pos hw] at hlen
    split at hlen <;> obtain rfl := Option.some.inj hlen <;> omega

theorem readU32_lt (code : List UInt8) (p : Nat) : readU32 code p < 2 ^ 32 := by
  have h0 := byteAt_lt code p
  have h1 := byteAt_lt code (p + 1)
  have h2 := byteAt_lt code (p + 2)
  have h3 := byteAt_lt code (p + 3)
  unfold readU32
  omega

theorem tableswitchCount_eq (h : ¬ tableswitchHigh code pc < tableswitchLow code pc)
    (hlt : tableswitchCount code pc < 2 ^ 32) :
    (readU32 code (switchBody pc + 8) + (2 ^ 32 - readU32 code (switchBody pc + 4)) + 1) % 2 ^ 32 =
      tableswitchCount code pc := by
  have hlow := readU32_lt code (switchBody pc + 4)
  simp only [tableswitchCount, tableswitchHigh, tableswitchLow, readS32, toS32, Int.bmod] at h hlt ⊢
  omega

theorem bcInsnSize_of_insnLength {len : Nat} (hlen : insnLength code pc = some len) (hlt : len < 2 ^ 31) :
    bcInsnSize code pc = some len := by
  have hv := bcIsInvalid_of_insnLength hlen
  simp only [bcInsnSize]
  rcases size_pos_or (byteAt_lt code pc) hv with ⟨hs, hts, hls, hw⟩ | ⟨hs, ho | ho | ho⟩
  · simp only [insnLength, hv, Bool.false_eq_true, if_false, if_neg hts, if_neg hls, if_neg hw] at hlen
    rw [if_neg hw, if_neg hts, if_neg hls, if_neg (by omega)]
    exact hlen
  · rw [ho, if_neg (by decide), if_pos rfl]
    obtain ⟨hle, heq⟩ := insnLength_tableswitch ho hlen
    rw [tableswitchInsnSize, tableswitchCount_eq (Int.not_lt.mpr hle) (by omega)]
    refine congrArg some ?_
    omega
  · rw [ho, if_neg (by decide), if_neg (by decide), if_pos rfl]
    obtain ⟨hle, heq⟩ := insnLength_lookupswitch ho hlen
    rw [lookupswitchInsnSize]
    refine congrArg some ?_
    simp only [lookupswitchCount, readS32, toS32, Int.bmod] at hle heq ⊢
    omega
  · simp only [insnLength, hv, Bool.false_eq_true, if_false] at hlen
    rw [ho, if_neg (by decide), if_neg (by decide), if_pos rfl] at hlen
    rw [ho, if_pos rfl]
    exact hlen

/-- **The safe size** of an instruction is right exactly if the instruction is no lookupswitch without pairs that ends with
the code, and no switch whose size wraps. -/
theorem sizeSafeCorrect_iff : SizeSafeCorrect code pc ↔ ¬ EmptyLookupswitchAtEnd code pc ∧ ¬ SizeWraps code pc := by
  constructor
  · intro h
    constructor
    · rintro ⟨ho, hzero, hend⟩
      have hat : InsnAt code pc (1 + getTableswitchPadding pc + 8) := by
        have hv : bcIsInvalid opcLookupswitch = false := by decide
        have hlen : insnLength code pc = some (1 + getTableswitchPadding pc + 8) := by
          simp only [insnLength, ho, hv, lookupswitchCount, hzero]
          rfl
        simp only [switchBody] at hend
        exact ⟨by omega, hlen, by omega⟩
      obtain ⟨-, hhead, -⟩ := bcInsnSizeSafe_iff.mp ((h.complete _).mpr hat)
      rw [HeadInside, ho, if_neg (by decide), if_pos rfl] at hhead
      omega
    · rintro ⟨hhead, len, hlen, hge, hinside⟩
      have hs32 := toS32_lt len
      rcases hinside with hend | ⟨hnonneg, hend⟩
      · have hpc : pc < code.length := by omega
        obtain ⟨-, -, -, len', hlen', hsize⟩ := bcInsnSizeSafe_iff.mp ((h.complete _).mpr ⟨hpc, hlen, hend⟩)
        cases hlen.symm.trans hlen'
        omega
      · have hpc : pc < code.length := by
          by_contra hpc
          have hts : byteAt code pc ≠ opcTableswitch := by
            intro ho
            rw [HeadInside, if_pos ho, switchBody] at hhead
            omega
          have hls : byteAt code pc ≠ opcLookupswitch := by
            intro ho
            rw [HeadInside, if_neg hts, if_pos ho, switchBody] at hhead
            omega
          exact absurd (insnLength_lt_of_not_switch hlen hts hls) (not_lt.mpr hge)
        have hok := bcInsnSizeSafe_iff.mpr ⟨hpc, hhead, hend, len, hlen, Int.toNat_of_nonneg hnonneg⟩
        obtain ⟨-, hlen', -⟩ := (h.complete _).mp hok
        have heq := Option.some.inj (hlen.symm.trans hlen')
        omega
  · rintro ⟨hempty, hwraps⟩
    have hsound size (h : bcInsnSizeSafe code pc = .ok size) : InsnAt code pc size ∧ size < 2 ^ 31 := by
      obtain ⟨hpc, hhead, hend, len, hlen, hsize⟩ := bcInsnSizeSafe_iff.mp h
      have hlt : len < 2 ^ 31 := by
        by_contra hge
        refine hwraps ⟨hhead, len, hlen, not_lt.mp hge, .inr ⟨by omega, ?_⟩⟩
        rw [← hsize, Int.toNat_natCast]
        exact hend
      rw [toS32_of_lt hlt] at hsize
      have heq : size = len := by omega
      exact heq ▸ ⟨⟨hpc, hlen, heq ▸ hend⟩, hlt⟩
    refine ⟨fun size => ⟨fun h => (hsound size h).1, fun h => ?_⟩, fun size h => ?_⟩
    · have hhead := h.headInside hempty
      obtain ⟨hpc, hlen, hend⟩ := h
      have hlt : size < 2 ^ 31 := by
        by_contra hge
        exact hwraps ⟨hhead, size, hlen, not_lt.mp hge, .inl hend⟩
      exact bcInsnSizeSafe_iff.mpr ⟨hpc, hhead, hend, size, hlen, (toS32_of_lt hlt).symm⟩
    · obtain ⟨hat, hlt⟩ := hsound size h
      exact bcInsnSize_of_insnLength hat.2.1 hlt

end

/-- A complete lookupswitch without pairs at the end of the code is not accepted. -/
theorem not_sizeSafeCorrect_empty : ¬ SizeSafeCorrect [0xab, 0, 0, 0, 0, 0, 0, 0, 0, 0, 0, 0] 0 := by
  intro h
  have hat : InsnAt [0xab, 0, 0, 0, 0, 0, 0, 0, 0, 0, 0, 0] 0 12 := ⟨by decide, by decide, by decide⟩
  have herror : bcInsnSizeSafe [0xab, 0, 0, 0, 0, 0, 0, 0, 0, 0, 0, 0] 0 = .error .malformedBc := rfl
  have hok := (h.complete 12).mpr hat
  rw [herror] at hok
  simp at hok

end Jato.Vm
