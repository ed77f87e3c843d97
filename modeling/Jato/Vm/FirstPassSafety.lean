import Jato.Vm.FirstPass

/-!
# Accepted code

What the first pass establishes about the code that it accepts, and where it establishes nothing:

- jumps (`accepted_dests_iff`): the last entry of a tableswitch is not looked at, nothing is when the code begins with
  `ret`, and a switch whose size wraps is not decoded to its end;
- local variables (`accepted_locals_iff`): only the first slot of a load or store without `wide`;
- the exception table (`accepted_table_iff`): not the last entry of several, what stands at `start_pc`, empty ranges, and
  a handler behind the instruction map;
- the end of the code (`end_accepted_iff`), and so all runs of the code (`inside_of_continues`).
-/

namespace Jato.Vm

open Jato.Lib

variable {behind : Nat → Bool} {vrf : VerifierContext} {e : VrfErr} {code : List UInt8} {jd : List Nat} {pc : Nat}
  {s : FirstPassState}

/-! ## Jumps -/

variable {q basePc endPc step fuel last : Nat}

theorem insnStart_of_safeStart (hsw : SwitchesComplete vrf.code) (h : SafeStart vrf.code q) : InsnStart vrf.code q := by
  induction h with
  | zero => exact .zero
  | next _ hsize ih => exact ih.next (ih.insnAt vrf.codeLength_lt hsw hsize)

/-- Every instruction is complete and jumps only to instructions of the code. -/
def DestsValid (code : List UInt8) : Prop :=
  ∀ pc < code.length, InsnStart code pc →
    (∃ len, InsnAt code pc len) ∧ ∀ d, JumpDest code pc d → ValidDest code d

/-- The last entry of every tableswitch is an instruction of the code. -/
def LastEntriesValid (code : List UInt8) : Prop :=
  ∀ pc < code.length, InsnStart code pc → byteAt code pc = opcTableswitch →
    ValidDest code (pc + readS32 code (tableswitchLastEntry code pc))

/-- A registered destination of accepted code is valid, if the switches are complete. -/
theorem validDest_of_registered (hinv : LoopInv behind vrf s) (hjd : ∀ d ∈ jd, testBit behind s.insnMap d = true)
    (hsw : SwitchesComplete vrf.code) {d : Int} (hd : Registered vrf.code jd d) : ValidDest vrf.code d := by
  obtain ⟨h0, hlt, hmem⟩ := hd
  have hcap : d.toNat < s.insnMap.capacity := hinv.capacity ▸ lt_capacity_alloc (by omega)
  exact ⟨h0, hlt, insnStart_of_safeStart hsw (hinv.marked ⟨hcap, hjd _ hmem⟩).start⟩

/-- **Jumps of accepted code.** They are valid exactly when the switches are complete, the last entry of every
tableswitch is valid, and all of them are in case the code begins with `ret`. -/
theorem accepted_dests_iff (h : Accepted behind vrf) : DestsValid vrf.code ↔
    SwitchesComplete vrf.code ∧ LastEntriesValid vrf.code ∧
      (bcIsRet vrf.code 0 = true → ∀ pc < vrf.code.length, InsnStart vrf.code pc →
        ∀ d, JumpDest vrf.code pc d → ValidDest vrf.code d) := by
  constructor
  · intro hv
    refine ⟨fun pc hlt hpc _ => (hv pc hlt hpc).1, fun pc hlt hpc ho => ?_, fun _ pc hlt hpc => (hv pc hlt hpc).2⟩
    obtain ⟨⟨len, hi⟩, hd⟩ := hv pc hlt hpc
    have hle := (insnLength_tableswitch ho hi.2.1).1
    refine hd _ (.tableCase _ ho (Nat.sub_lt ?_ Nat.one_pos))
    exact Int.lt_toNat.mpr (Int.lt_add_one_of_le (Int.sub_nonneg_of_le hle))
  · rintro ⟨hsw, hlast, hret⟩ pc hlt hpc
    obtain ⟨s, jd, hinv, hend, hex, hjd⟩ := accepted_marks h
    obtain ⟨-, -, ⟨size, hsize, -⟩, hchk⟩ := hinv.marked (hinv.marked_of_insnStart hend hpc hlt)
    have hi := hpc.insnAt vrf.codeLength_lt hsw hsize
    refine ⟨⟨size, hi⟩, fun d hd => ?_⟩
    cases hr : bcIsRet vrf.code 0 with
    | true => exact hret hr pc hlt hpc d hd
    | false =>
      rcases hchk.dests hr hi (size_lt_of_sizeSafe hsize) hd with hreg | ⟨ho, heq⟩
      · exact validDest_of_registered hinv hjd hsw (hreg.mono (verifyExceptionTable_ok hex).1)
      · rw [heq]
        exact hlast pc hlt hpc ho

/-- `iconst_0`, a tableswitch at `1` with the one entry `entry` and its default on the `return` at `20`, `return`. -/
def switchMethod (entry : UInt8) : VerifierContext where
  code := [0x03, 0xaa, 0, 0, 0, 0, 0, 19, 0, 0, 0, 0, 0, 0, 0, 0, 0, 0, 0, entry, 0xb1]
  maxLocals := 0
  exceptionTable := []
  constantPool := []
  codeLength_lt := by simp

theorem switchMethod_start (entry : UInt8) : InsnStart (switchMethod entry).code 1 :=
  @InsnStart.next _ 0 1 .zero ⟨by simp [switchMethod], rfl, by simp [switchMethod]⟩

theorem switchMethod_length : ∀ entry ∈ ([5, 19] : List UInt8), insnLength (switchMethod entry).code 1 = some 19 := by
  decide +kernel

/-- The pass accepts the switch with an entry in the middle of the switch itself. -/
theorem accepted_dests_counterexample : Accepted (fun _ => false) (switchMethod 5) ∧ ¬DestsValid (switchMethod 5).code := by
  refine ⟨⟨4, rfl⟩, fun h => ?_⟩
  obtain ⟨-, -, h6⟩ := (h 1 (by decide) (switchMethod_start 5)).2 _ (.tableCase 0 rfl (by decide))
  have hi : InsnAt (switchMethod 5).code 1 19 := ⟨by decide, switchMethod_length 5 (by decide), by decide⟩
  have := h6.le_of_lt (switchMethod_start 5) hi (by decide)
  exact absurd this (by decide)

theorem switchMethod_starts (h : InsnStart (switchMethod 19).code q) : q = 0 ∨ q = 1 ∨ q = 20 ∨ q = 21 := by
  have h0 : insnLength (switchMethod 19).code 0 = some 1 := rfl
  have h1 := switchMethod_length 19 (by decide)
  have h20 : insnLength (switchMethod 19).code 20 = some 1 := rfl
  induction h with
  | zero => exact .inl rfl
  | next _ hi ih =>
    obtain ⟨hlt, hl, -⟩ := hi
    rcases ih with rfl | rfl | rfl | rfl
    · rw [h0] at hl; cases hl; omega
    · rw [h1] at hl; cases hl; omega
    · rw [h20] at hl; cases hl; omega
    · exact absurd hlt (by decide)

theorem switchMethod_validDest : ValidDest (switchMethod 19).code 20 := by
  refine ⟨by decide, by decide, ?_⟩
  exact @InsnStart.next _ 1 19 (switchMethod_start 19) ⟨by decide, switchMethod_length 19 (by decide), by decide⟩

/-- With the entry on the `return` all jumps are valid. -/
theorem accepted_dests_switch : DestsValid (switchMethod 19).code := by
  have hacc : Accepted (fun _ => false) (switchMethod 19) := ⟨4, rfl⟩
  refine (accepted_dests_iff hacc).mpr ⟨fun pc hlt hpc ho => ?_, fun pc hlt hpc ho => ?_, fun hr => ?_⟩
  · rcases switchMethod_starts hpc with rfl | rfl | rfl | rfl
    · exact absurd ho (by decide)
    · exact ⟨19, by decide, switchMethod_length 19 (by decide), by decide⟩
    · exact absurd ho (by decide)
    · exact absurd hlt (by decide)
  · rcases switchMethod_starts hpc with rfl | rfl | rfl | rfl
    · exact absurd ho (by decide)
    · have hd : ((1 : Nat) : Int) + readS32 (switchMethod 19).code (tableswitchLastEntry (switchMethod 19).code 1) = 20 := by
        decide +kernel
      rw [hd]
      exact switchMethod_validDest
    · exact absurd ho (by decide)
    · exact absurd hlt (by decide)
  · exact absurd hr (by decide)

/-! ## Local variables -/

/-- The index that `getLocalVarIndex` takes from the opcode. -/
def opcodeIndex (opc : Nat) : Option Nat :=
  [opcIload0, opcLload0, opcFload0, opcDload0, opcAload0, opcIstore0, opcLstore0, opcFstore0, opcDstore0,
    opcAstore0].findSome? fun base => if base ≤ opc ∧ opc < base + 4 then some (opc - base) else none

theorem getD_findSome_cons (opc base operand : Nat) (bases : List Nat) :
    ((base :: bases).findSome? fun b => if b ≤ opc ∧ opc < b + 4 then some (opc - b) else none).getD operand =
      if base ≤ opc ∧ opc < base + 4 then opc - base
      else (bases.findSome? fun b => if b ≤ opc ∧ opc < b + 4 then some (opc - b) else none).getD operand := by
  rw [List.findSome?_cons]
  by_cases h : base ≤ opc ∧ opc < base + 4
  · simp only [if_pos h, Option.getD_some]
  · simp only [if_neg h]

theorem getLocalVarIndex_eq (code : List UInt8) (pc : Nat) :
    getLocalVarIndex code pc = (opcodeIndex (byteAt code pc)).getD (readU8 code (pc + 1)) := by
  unfold opcodeIndex
  -- each range of the source ends where the next one begins, four opcodes later
  rw [getD_findSome_cons, getD_findSome_cons, getD_findSome_cons, getD_findSome_cons, getD_findSome_cons,
    getD_findSome_cons, getD_findSome_cons, getD_findSome_cons, getD_findSome_cons, getD_findSome_cons]
  rfl

/-- The loads and stores that are not `wide` are the ones the pass looks at, by the index of their first slot. -/
theorem usesLocalVar_access : ∀ opc < 256, (isTwoSlotAccess opc || isOneSlotAccess opc) = true →
    bcUsesLocalVar opc = true ∧ opcodeIndex opc = none := by
  decide +kernel

theorem usesLocalVar_short : ∀ opc < 256, ((oneSlotShort opc).or (twoSlotShort opc)).isSome = true →
    bcUsesLocalVar opc = true ∧ opcodeIndex opc = (oneSlotShort opc).or (twoSlotShort opc) := by
  decide +kernel

/-- The slots that the pass does not look at: the second ones, and those of `iinc`, `ret` and the `wide` forms. -/
def uncheckedSlots (code : List UInt8) (pc : Nat) : List Nat :=
  if byteAt code pc = opcWide ∨ byteAt code pc = opcIinc ∨ byteAt code pc = opcRet then localSlots code pc
  else (localSlots code pc).tail

/-- A load or store without `wide` touches the slot of its index, and the next one if it has two. -/
theorem localSlots_cases (hw : byteAt code pc ≠ opcWide)
    (hi : byteAt code pc ≠ opcIinc) (hr : byteAt code pc ≠ opcRet) : localSlots code pc = [] ∨
      bcUsesLocalVar (byteAt code pc) = true ∧ (localSlots code pc = [getLocalVarIndex code pc] ∨
        localSlots code pc = [getLocalVarIndex code pc, getLocalVarIndex code pc + 1]) := by
  have haccess := usesLocalVar_access _ (byteAt_lt code pc)
  have hshort := usesLocalVar_short _ (byteAt_lt code pc)
  have hi' := beq_false_of_ne hi
  have hr' := beq_false_of_ne hr
  simp only [localSlots, if_neg hw, getLocalVarIndex_eq, hi', hr', Bool.or_false]
  cases h2 : isTwoSlotAccess (byteAt code pc) with
  | true =>
    obtain ⟨hu, hidx⟩ := haccess (by rw [h2]; rfl)
    rw [hidx]
    exact .inr ⟨hu, .inr rfl⟩
  | false =>
    cases h1 : isOneSlotAccess (byteAt code pc) with
    | true =>
      obtain ⟨hu, hidx⟩ := haccess (by rw [h1, Bool.or_true])
      rw [hidx]
      exact .inr ⟨hu, .inl rfl⟩
    | false =>
      cases hs1 : oneSlotShort (byteAt code pc) with
      | some n =>
        obtain ⟨hu, hidx⟩ := hshort (by rw [hs1]; rfl)
        rw [hidx, hs1]
        exact .inr ⟨hu, .inl rfl⟩
      | none =>
        cases hs2 : twoSlotShort (byteAt code pc) with
        | some n =>
          obtain ⟨hu, hidx⟩ := hshort (by rw [hs1, hs2]; rfl)
          rw [hidx, hs1, hs2]
          exact .inr ⟨hu, .inr rfl⟩
        | none => exact .inl rfl

/-- A slot is unchecked, or it is the index that the pass compares with `maxLocals`. -/
theorem mem_localSlots {slot : Nat} (h : slot ∈ localSlots code pc) : slot ∈ uncheckedSlots code pc ∨
      (bcUsesLocalVar (byteAt code pc) = true ∧ slot = getLocalVarIndex code pc) := by
  unfold uncheckedSlots
  by_cases ho : byteAt code pc = opcWide ∨ byteAt code pc = opcIinc ∨ byteAt code pc = opcRet
  · rw [if_pos ho]
    exact .inl h
  · rw [if_neg ho]
    simp only [not_or] at ho
    rcases localSlots_cases ho.1 ho.2.1 ho.2.2 with hs | ⟨hu, hs | hs⟩
    · rw [hs] at h
      cases h
    · rw [hs] at h
      exact .inr ⟨hu, List.mem_singleton.mp h⟩
    · rw [hs] at h ⊢
      rcases List.mem_cons.mp h with h | h
      · exact .inr ⟨hu, h⟩
      · exact .inl h

theorem uncheckedSlots_subset (code : List UInt8) (pc : Nat) : uncheckedSlots code pc ⊆ localSlots code pc := by
  unfold uncheckedSlots
  split
  · exact fun _ h => h
  · exact fun _ h => List.mem_of_mem_tail h

/-- **Local variables of accepted code.** They are in range exactly when those that the pass does not look at are. -/
theorem accepted_locals_iff (h : Accepted behind vrf) :
    (∀ pc < vrf.code.length, InsnStart vrf.code pc → ∀ slot ∈ localSlots vrf.code pc, slot < vrf.maxLocals) ↔
      ∀ pc < vrf.code.length, InsnStart vrf.code pc → ∀ slot ∈ uncheckedSlots vrf.code pc, slot < vrf.maxLocals := by
  constructor
  · exact fun hall pc hlt hpc slot hslot => hall pc hlt hpc slot (uncheckedSlots_subset _ _ hslot)
  · intro hun pc hlt hpc slot hslot
    obtain ⟨s, jd, hinv, hend, -, -⟩ := accepted_marks h
    rcases mem_localSlots hslot with hslot | ⟨hu, heq⟩
    · exact hun pc hlt hpc slot hslot
    · rw [heq]
      exact (hinv.marked (hinv.marked_of_insnStart hend hpc hlt)).checked.locals hu

/-- `lload_0` and `lreturn`, with `maxLocals` local variables. -/
def lloadMethod (maxLocals : Nat) : VerifierContext where
  code := [0x1e, 0xad]
  maxLocals := maxLocals
  exceptionTable := []
  constantPool := []
  codeLength_lt := by simp

/-- The pass accepts a `long` whose second slot is out of range. -/
theorem accepted_locals_counterexample : Accepted (fun _ => false) (lloadMethod 1) ∧
    ∃ pc < (lloadMethod 1).code.length, InsnStart (lloadMethod 1).code pc ∧
      ∃ slot ∈ localSlots (lloadMethod 1).code pc, ¬slot < (lloadMethod 1).maxLocals :=
  ⟨⟨3, rfl⟩, 0, by decide, .zero, 1, by decide, by decide⟩

theorem accepted_locals_lload : Accepted (fun _ => false) (lloadMethod 1) ∧
    ((∀ pc < (lloadMethod 1).code.length, InsnStart (lloadMethod 1).code pc →
      ∀ slot ∈ localSlots (lloadMethod 1).code pc, slot < (lloadMethod 1).maxLocals) ↔
      ∀ pc < (lloadMethod 1).code.length, InsnStart (lloadMethod 1).code pc →
        ∀ slot ∈ uncheckedSlots (lloadMethod 1).code pc, slot < (lloadMethod 1).maxLocals) :=
  ⟨⟨3, rfl⟩, @accepted_locals_iff (fun _ => false) _ ⟨3, rfl⟩⟩

/-! ## The exception table -/

/-- A range of instructions of the code that is not empty, and a handler that is an instruction of the code. -/
structure EntryValid (code : List UInt8) (ex : ExceptionEntry) : Prop where
  lt : ex.startPc < ex.endPc
  le : ex.endPc ≤ code.length
  start : InsnStart code ex.startPc
  handler : ValidDest code ex.handlerPc

variable {k : Nat} {ex : ExceptionEntry}

/-- Every entry but the last of several is in order and ends inside the code. -/
theorem accepted_bounds (h : Accepted behind vrf) (hk : vrf.exceptionTable[k]? = some ex)
    (hlast : k = 0 ∨ k + 1 < vrf.exceptionTable.length) : ex.startPc ≤ ex.endPc ∧ ex.endPc ≤ vrf.code.length := by
  obtain ⟨s, jd, -, -, hex, -⟩ := accepted_marks h
  obtain ⟨hord, hend, -⟩ := (verifyExceptionTable_ok hex).2 hk hlast
  exact ⟨hord, hend⟩

/-- Its handler is an instruction of the code, unless it lies behind the instruction map, where the bit that is tested
belongs to other memory. -/
theorem accepted_handler (h : Accepted behind vrf) (hsw : SwitchesComplete vrf.code)
    (hk : vrf.exceptionTable[k]? = some ex) (hlast : k = 0 ∨ k + 1 < vrf.exceptionTable.length)
    (hcap : ex.handlerPc < (allocBitset vrf.code.length).capacity) : ValidDest vrf.code ex.handlerPc := by
  obtain ⟨s, jd, hinv, -, hex, hjd⟩ := accepted_marks h
  obtain ⟨-, -, hmem⟩ := (verifyExceptionTable_ok hex).2 hk hlast
  obtain ⟨hin, hstart, -, -⟩ := hinv.marked ⟨hinv.capacity ▸ hcap, hjd _ hmem⟩
  exact ⟨Int.natCast_nonneg _, by exact_mod_cast hin, insnStart_of_safeStart hsw hstart⟩

/-- **Exception table of accepted code.** All entries are valid exactly when the pass has been given what it does not
check: ranges that are not empty and start at instructions, a last entry of several that is in order, and handlers that
are instructions where the pass does not look at them. -/
theorem accepted_table_iff (h : Accepted behind vrf) : (∀ ex ∈ vrf.exceptionTable, EntryValid vrf.code ex) ↔
    ∀ k ex, vrf.exceptionTable[k]? = some ex →
      ex.startPc ≠ ex.endPc ∧ InsnStart vrf.code ex.startPc ∧
      (k ≠ 0 ∧ k + 1 = vrf.exceptionTable.length → ex.startPc ≤ ex.endPc ∧ ex.endPc ≤ vrf.code.length) ∧
      ((k ≠ 0 ∧ k + 1 = vrf.exceptionTable.length) ∨ (allocBitset vrf.code.length).capacity ≤ ex.handlerPc ∨
        ¬SwitchesComplete vrf.code → ValidDest vrf.code ex.handlerPc) := by
  constructor
  · intro hall k ex hk
    obtain ⟨hlt, hle, hstart, hhandler⟩ := hall ex (List.mem_of_getElem? hk)
    exact ⟨ne_of_lt hlt, hstart, fun _ => ⟨le_of_lt hlt, hle⟩, fun _ => hhandler⟩
  · intro hcond ex hmem
    obtain ⟨k, hk⟩ := List.mem_iff_getElem?.mp hmem
    obtain ⟨hne, hstart, hlast, hhandler⟩ := hcond k ex hk
    by_cases hl : k ≠ 0 ∧ k + 1 = vrf.exceptionTable.length
    · obtain ⟨hord, hend⟩ := hlast hl
      exact ⟨lt_of_le_of_ne hord hne, hend, hstart, hhandler (.inl hl)⟩
    · obtain ⟨hklt, -⟩ := List.getElem?_eq_some_iff.mp hk
      have hchecked : k = 0 ∨ k + 1 < vrf.exceptionTable.length := by omega
      obtain ⟨hord, hend⟩ := accepted_bounds h hk hchecked
      refine ⟨lt_of_le_of_ne hord hne, hend, hstart, ?_⟩
      by_cases hsw : SwitchesComplete vrf.code
      · rcases lt_or_ge ex.handlerPc (allocBitset vrf.code.length).capacity with hcap | hcap
        · exact accepted_handler h hsw hk hchecked hcap
        · exact hhandler (.inr (.inl hcap))
      · exact hhandler (.inr (.inr hsw))

/-- `nop` and `return`, with the exception table `table`. -/
def handlerMethod (table : List ExceptionEntry) : VerifierContext where
  code := [0x00, 0xb1]
  maxLocals := 0
  exceptionTable := table
  constantPool := []
  codeLength_lt := by simp

theorem handlerMethod_insnStart_one (table : List ExceptionEntry) : InsnStart (handlerMethod table).code 1 :=
  @InsnStart.next _ 0 1 .zero ⟨by change 0 < 2; decide, rfl, by change 1 ≤ 2; decide⟩

/-- **The last of several entries is never checked.** -/
theorem accepted_lastEntry : Accepted (fun _ => false) (handlerMethod [⟨0, 1, 1, 0⟩, ⟨9, 3, 70, 0⟩]) ∧
    ∃ ex ∈ (handlerMethod [⟨0, 1, 1, 0⟩, ⟨9, 3, 70, 0⟩]).exceptionTable, ex.endPc < ex.startPc ∧
      (handlerMethod [⟨0, 1, 1, 0⟩, ⟨9, 3, 70, 0⟩]).code.length < ex.endPc ∧
      ¬ValidDest (handlerMethod [⟨0, 1, 1, 0⟩, ⟨9, 3, 70, 0⟩]).code ex.handlerPc := by
  refine ⟨⟨3, rfl⟩, ⟨9, 3, 70, 0⟩, List.mem_cons_of_mem _ List.mem_cons_self, by decide, by decide, ?_⟩
  intro h
  exact absurd h.2.1 (by decide)

-- An empty range is accepted too.
example : verifierFirstPass (fun _ => false) 3 (handlerMethod [⟨1, 1, 1, 0⟩]) = some (.ok ()) := rfl

theorem accepted_table_twoEntries : EntryValid (handlerMethod [⟨0, 1, 1, 0⟩, ⟨1, 2, 0, 0⟩]).code ⟨0, 1, 1, 0⟩ ∧
    EntryValid (handlerMethod [⟨0, 1, 1, 0⟩, ⟨1, 2, 0, 0⟩]).code ⟨1, 2, 0, 0⟩ := by
  have hone := handlerMethod_insnStart_one [⟨0, 1, 1, 0⟩, ⟨1, 2, 0, 0⟩]
  have hall := (@accepted_table_iff (fun _ => false) (handlerMethod [⟨0, 1, 1, 0⟩, ⟨1, 2, 0, 0⟩]) ⟨3, rfl⟩).mpr ?_
  · exact ⟨hall _ (.head _), hall _ (.tail _ (.head _))⟩
  · intro k ex hk
    rcases k with _ | _ | k
    · cases hk
      exact ⟨by decide, .zero, fun hl => absurd rfl hl.1, fun _ => ⟨by decide, by decide, hone⟩⟩
    · cases hk
      exact ⟨by decide, hone, fun _ => ⟨by decide, by decide⟩, fun _ => ⟨by decide, by decide, .zero⟩⟩
    · cases hk

/-! ## The end of the code -/

theorem bcInsnSizeSafe_error (h : bcInsnSizeSafe code pc = .error e) : e = .malformedBc := by
  have hraw : ∀ {e'}, bcInsnSizeRaw code pc = .error e' → e' = .malformedBc := by
    intro e' h'
    simp only [bcInsnSizeRaw] at h'
    repeat' split at h'
    all_goals cases h'
    all_goals rfl
  simp only [bcInsnSizeSafe] at h
  split at h
  · cases h; rfl
  · split at h
    · cases h; rfl
    · cases hr : bcInsnSizeRaw code pc with
      | error e' =>
        rw [hr] at h
        cases h
        exact hraw hr
      | ok size =>
        rw [hr] at h
        simp only at h
        split at h
        · cases h; rfl
        · split at h <;> cases h
          rfl

theorem registerDest_error {off : Int} (h : registerDest code pc jd off = .error e) : e = .invalidBranch := by
  unfold registerDest validDest at h
  split at h
  · cases h; rfl
  · split at h
    · cases h; rfl
    · cases h

theorem addEntryDestinations_error {code : List UInt8} {e : VrfErr} :
    ∀ {fuel pc : Nat} {jd : List Nat}, addEntryDestinations code basePc endPc step fuel pc jd = .error e →
      e = .invalidBranch
  | 0, _, _, h => by cases h
  | fuel + 1, pc, jd, h => by
    rw [addEntryDestinations] at h
    split at h
    · cases hr : registerDest code basePc jd (readS32 code pc) with
      | error e' =>
        rw [hr] at h
        cases h
        exact registerDest_error hr
      | ok jd₁ =>
        rw [hr] at h
        exact addEntryDestinations_error h
    · cases h

theorem addSwitchDestinations_error {dflt : Int}
    (h : addSwitchDestinations code jd basePc dflt pc endPc step = .error e) : e = .invalidBranch := by
  unfold addSwitchDestinations at h
  cases hr : registerDest code basePc jd dflt with
  | error e' =>
    rw [hr] at h
    cases h
    exact registerDest_error hr
  | ok jd₁ =>
    rw [hr] at h
    exact addEntryDestinations_error h

theorem verifyConstantTags_error {index : Nat} {e : VrfErr} : ∀ {tags : List ConstantTag},
    verifyConstantTags vrf index tags = .error e → e ≠ .fallingOff
  | [], h => by cases h
  | [tag], h => by
    simp only [verifyConstantTags, verifyConstantTag] at h
    repeat' split at h
    all_goals cases h
    all_goals decide
  | tag :: tag' :: tags, h => by
    rw [verifyConstantTags] at h
    · split at h
      · cases h
      · exact verifyConstantTags_error h
    · simp

/-- No error about an instruction is the one for the end of the code. -/
theorem firstPassInsn_error (h : firstPassInsn vrf jd pc = .error e) : e ≠ .fallingOff := by
  have hne : e = .invalidBranch → e ≠ .fallingOff := by rintro rfl; nofun
  simp only [firstPassInsn] at h
  split at h
  · split at h
    · cases h
    · split at h
      · exact hne (addSwitchDestinations_error h)
      · split at h
        · exact hne (addSwitchDestinations_error h)
        · exact hne (registerDest_error h)
  · split at h
    · split at h <;> cases h
      decide
    · split at h
      · revert h
        generalize ht : verifyConstantTags vrf _ _ = r
        intro h
        cases r with
        | error e' =>
          cases h
          exact verifyConstantTags_error ht
        | ok u => cases h
      · cases h

theorem firstPassLoop_error {e : VrfErr} : ∀ {fuel : Nat} {s : FirstPassState},
    firstPassLoop vrf fuel s = some (.error e) → e ≠ .fallingOff
  | 0, _, h => by cases h
  | fuel + 1, s, h => by
    rw [firstPassLoop] at h
    split at h
    · split at h
      · rename_i hs
        cases h
        rw [bcInsnSizeSafe_error hs]
        decide
      · split at h
        · rename_i hi
          cases h
          exact firstPassInsn_error hi
        · exact firstPassLoop_error h
    · cases h

theorem verifyExceptionEntries_error {codeLength n : Nat} {e : VrfErr} :
    ∀ {i : Nat} {es : List ExceptionEntry} {jd : List Nat},
      verifyExceptionEntries codeLength n i es jd = .error e → e = .invalidExceptionHandler
  | _, [], _, h => by cases h
  | i, ex :: rest, jd, h => by
    rw [verifyExceptionEntries] at h
    split at h
    · cases h; rfl
    · split at h
      · cases h; rfl
      · simp only at h
        split at h
        · exact verifyExceptionEntries_error h
        · cases h

theorem checkJumpDests_error {m : Bitset} {e : VrfErr} : ∀ {jd : List Nat} {p : Option VrfErr × Nat},
    checkJumpDests behind vrf fuel m jd p = some (.error e) → e = .invalidBranch
  | [], _, h => by cases h
  | dest :: rest, (err, pc), h => by
    rw [checkJumpDests] at h
    split at h
    · exact checkJumpDests_error h
    · split at h
      · cases h
      · cases h; rfl
      · exact checkJumpDests_error h

/-- After an unconditional branch the end of the code is not what is wrong. -/
theorem checkEnd_ne_fallingOff {err : Option VrfErr} (herr : err ≠ some .fallingOff)
    (hb : bcIsUnconditionnalBranch vrf.code last = true) : checkEnd vrf last pc err ≠ .error .fallingOff := by
  unfold checkEnd
  by_cases hpc : pc = vrf.code.length
  · cases err with
    | none => simp [hpc, hb]
    | some e =>
      have hne : e ≠ .fallingOff := fun he => herr (congrArg some he)
      simp [hpc, hb, hne]
  · simp [hpc, hb]

/-- A pass that ends with success or at the end of the code judges the last instruction decoded. -/
theorem firstPass_end {r : Except VrfErr Unit} (h : verifierFirstPass behind fuel vrf = some r)
    (hr : r = .ok () ∨ r = .error .fallingOff) : ∃ s, LoopInv behind vrf s ∧ s.pc = vrf.code.length ∧
      (r = .ok () ↔ bcIsUnconditionnalBranch vrf.code s.lastInsn = true) := by
  -- an error of an earlier stage is neither of the two results
  have hother : ∀ {e}, e ≠ VrfErr.fallingOff → r ≠ .error e := by
    rintro e he rfl
    rcases hr with hr | hr
    · cases hr
    · exact he (Except.error.inj hr)
  unfold verifierFirstPass at h
  split at h
  · cases h
  · rename_i e hloop
    exact absurd (Option.some.inj h).symm (hother (firstPassLoop_error hloop))
  · rename_i s hloop
    obtain ⟨hinv, hend⟩ := firstPassLoop_inv (@LoopInv.init behind vrf) hloop
    refine ⟨s, hinv, hend, ?_⟩
    split at h
    · rename_i e hex
      have he : e = .invalidExceptionHandler := by
        unfold verifyExceptionTable at hex
        split at hex
        · cases hex
        · exact verifyExceptionEntries_error hex
      exact absurd (Option.some.inj h).symm (hother (by rw [he]; decide))
    · split at h
      · cases h
      · rename_i e hjd
        exact absurd (Option.some.inj h).symm (hother (by rw [checkJumpDests_error hjd]; decide))
      · rename_i err pc hjd
        have hcheck := Option.some.inj h
        constructor
        · intro hok
          exact (checkEnd_ok_iff.mp (hcheck.trans hok)).2.2
        · intro hb
          have herr : err ≠ some .fallingOff := by
            rcases (checkJumpDests_ok hjd).1 with he | he <;> rw [he] <;> decide
          exact hr.resolve_right fun hf => checkEnd_ne_fallingOff herr hb (hcheck.trans hf)

/-- The last instruction decoded is the last instruction of the code. -/
theorem LoopInv.lastInsn_eq (hinv : LoopInv behind vrf s) (hend : s.pc = vrf.code.length)
    {len : Nat} (hlast : InsnStart vrf.code last) (hi : InsnAt vrf.code last len)
    (hlen : last + len = vrf.code.length) : s.lastInsn = last := by
  have hwf : InsnStart vrf.code vrf.code.length := hlen ▸ hlast.next hi
  have hsw : SwitchesComplete vrf.code := fun pc hlt hpc _ => hwf.complete hpc hlt
  have hpos : 0 < s.pc := by rw [hend]; exact Nat.lt_of_le_of_lt (Nat.zero_le _) hi.1
  obtain ⟨hm, hsize, hle⟩ := hinv.last hpos
  have hstart := insnStart_of_safeStart hsw (hinv.marked hm).start
  have hi' := hstart.insnAt vrf.codeLength_lt hsw hsize
  have hlt := hi.1
  have hlt' := hi'.1
  rcases Nat.lt_trichotomy s.lastInsn last with h | h | h
  · have := hlast.le_of_lt hstart hi' h
    omega
  · exact h
  · have := hstart.le_of_lt hlast hi h
    omega

/-- The opcodes whose end of code the pass judges wrongly. -/
def endMisjudged (opc : Nat) : Bool :=
  opc == opcGotoW || opc == opcTableswitch || opc == opcLookupswitch || opc == opcJsr || opc == opcJsrW

theorem neverContinues_opc : ∀ opc < 256, opc ≠ opcWide →
    (((bcIsReturn opc || bcIsGoto opc || bcIsJsr opc || opc == opcRet || bcIsAthrow opc) = neverContinuesOpc opc) ↔
      endMisjudged opc = false) := by
  decide +kernel

theorem unconditional_iff_neverContinues (code : List UInt8) (p : Nat) :
    (bcIsUnconditionnalBranch code p = true ↔ NeverContinues code p) ↔ endMisjudged (byteAt code p) = false := by
  by_cases hw : byteAt code p = opcWide
  · have h1 : (bcIsReturn opcWide || bcIsGoto opcWide || bcIsJsr opcWide) = false := by decide
    have h2 : bcIsAthrow opcWide = false := by decide
    have h3 : neverContinuesOpc opcWide = false := by decide
    have h4 : endMisjudged opcWide = false := by decide
    simp [bcIsUnconditionnalBranch, NeverContinues, bcIsRet, hw, h1, h2, h3, h4]
  · rw [← neverContinues_opc _ (byteAt_lt code p) hw]
    simp only [bcIsUnconditionnalBranch, NeverContinues, bcIsRet, hw, if_false, false_and, or_false]
    exact Bool.eq_iff_iff.symm

/-- **The end of the code.** The pass accepts the end of well-formed code exactly when control cannot fall off it,
if and only if the last instruction is no `goto_w`, switch, `jsr` or `jsr_w`. -/
theorem end_accepted_iff {last len fuel : Nat} {r : Except VrfErr Unit} (hlast : InsnStart vrf.code last)
    (hi : InsnAt vrf.code last len) (hlen : last + len = vrf.code.length)
    (h : verifierFirstPass behind fuel vrf = some r) (hr : r = .ok () ∨ r = .error .fallingOff) :
    (r = .ok () ↔ NeverContinues vrf.code last) ↔ endMisjudged (byteAt vrf.code last) = false := by
  obtain ⟨s, hinv, hend, hok⟩ := firstPass_end h hr
  rw [hok, hinv.lastInsn_eq hend hlast hi hlen]
  exact unconditional_iff_neverContinues vrf.code last

/-- A `goto_w` to itself. -/
def gotoWMethod : VerifierContext where
  code := [0xc8, 0, 0, 0, 0]
  maxLocals := 0
  exceptionTable := []
  constantPool := []
  codeLength_lt := by simp

/-- The pass rejects code that ends with `goto_w`. -/
theorem end_accepted_counterexample : verifierFirstPass (fun _ => false) 2 gotoWMethod = some (.error .fallingOff) ∧
    InsnAt gotoWMethod.code 0 gotoWMethod.code.length ∧ NeverContinues gotoWMethod.code 0 :=
  ⟨rfl, ⟨by decide, rfl, by decide⟩, .inl (by decide)⟩

theorem end_accepted_return : NeverContinues (handlerMethod []).code 1 := by
  have h1 := handlerMethod_insnStart_one []
  have hi : InsnAt (handlerMethod []).code 1 1 := ⟨by decide, rfl, by decide⟩
  have hrun : verifierFirstPass (fun _ => false) 3 (handlerMethod []) = some (.ok ()) := rfl
  exact ((end_accepted_iff h1 hi rfl hrun (.inl rfl)).mpr (by decide)).mp rfl

/-! ## Runs -/

/-- Control can go on from the instruction at `p` to the one at `q`. -/
def Continues (code : List UInt8) (p q : Nat) : Prop :=
  ∃ len, InsnAt code p len ∧ (¬NeverContinues code p ∧ q = p + len ∨ JumpDest code p q)

/-- **Control stays inside accepted code** and on its instructions, if the jumps that the pass does not check are valid
and no subroutine returns to the end of the code. -/
theorem inside_of_continues (h : Accepted behind vrf) (hsw : SwitchesComplete vrf.code)
    (hentry : LastEntriesValid vrf.code) (hret : bcIsRet vrf.code 0 = false)
    (hjsr : ∀ p len, InsnStart vrf.code p → InsnAt vrf.code p len → p + len = vrf.code.length →
      bcIsJsr (byteAt vrf.code p) = false)
    (hrun : Relation.ReflTransGen (Continues vrf.code) 0 q) : q < vrf.code.length ∧ InsnStart vrf.code q := by
  obtain ⟨s, jd, hinv, hend, hex, hjd⟩ := accepted_marks h
  obtain ⟨fuel, h⟩ := h
  obtain ⟨s', hinv', hend', hok⟩ := firstPass_end h (.inl rfl)
  have hlast := hok.mp rfl
  induction hrun with
  | refl =>
    refine ⟨Nat.pos_of_ne_zero fun hzero => ?_, .zero⟩
    rw [List.length_eq_zero_iff.mp hzero] at hlast
    exact absurd hlast (by simp [bcIsUnconditionnalBranch, bcIsRet, byteAt]; decide)
  | @tail p q _ hstep ih =>
    obtain ⟨hlt, hp⟩ := ih
    obtain ⟨len, hi, ⟨hnext, rfl⟩ | hjump⟩ := hstep
    · refine ⟨Nat.lt_of_le_of_ne hi.2.2 fun heq => hnext ?_, hp.next hi⟩
      -- the pass has judged the last instruction
      rw [hinv'.lastInsn_eq hend' hp hi heq] at hlast
      by_cases hm : endMisjudged (byteAt vrf.code p) = false
      · exact ((unconditional_iff_neverContinues vrf.code p).mpr hm).mp hlast
      · have hno := hjsr p len hp hi heq
        simp only [endMisjudged, Bool.not_eq_false, Bool.or_eq_true, beq_iff_eq] at hm
        rcases hm with (((ho | ho) | ho) | ho) | ho <;> rw [ho] at hno
        all_goals first | exact .inl (by rw [ho]; decide) | exact absurd hno (by decide)
    · obtain ⟨-, -, ⟨size, hsize, -⟩, hchk⟩ := hinv.marked (hinv.marked_of_insnStart hend hp hlt)
      have hvalid : ValidDest vrf.code q := by
        rcases hchk.dests hret (hp.insnAt vrf.codeLength_lt hsw hsize) (size_lt_of_sizeSafe hsize) hjump with
          hreg | ⟨ho, heq⟩
        · exact validDest_of_registered hinv hjd hsw (hreg.mono (verifyExceptionTable_ok hex).1)
        · rw [heq]
          exact hentry p hlt hp ho
      exact ⟨by exact_mod_cast hvalid.2.1, hvalid.2.2⟩

theorem inside_of_continues_nop : 1 < (handlerMethod []).code.length ∧ InsnStart (handlerMethod []).code 1 := by
  have hno : ∀ p < 2, byteAt (handlerMethod []).code p ≠ opcTableswitch ∧
      byteAt (handlerMethod []).code p ≠ opcLookupswitch ∧ bcIsJsr (byteAt (handlerMethod []).code p) = false := by
    decide
  have hacc : Accepted (fun _ => false) (handlerMethod []) := ⟨3, rfl⟩
  refine inside_of_continues hacc (fun p hlt _ ho => ?_) (fun p hlt _ ho => absurd ho (hno p hlt).1) rfl
    (fun p _ _ hi _ => (hno p hi.1).2.2) (.single ⟨1, ⟨by decide, rfl, by decide⟩, .inl ⟨?_, rfl⟩⟩)
  · exact (ho.elim (hno p hlt).1 (hno p hlt).2.1).elim
  · unfold NeverContinues
    decide

end Jato.Vm
