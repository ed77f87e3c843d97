import Jato.Vm.InsnFormat
import Jato.Vm.Verifier

/-!
# What the first pass guarantees

- what one instruction adds to the destinations and what it was checked for (`firstPassInsn_ok`);
- the invariant of the decoding loop, kept by one step (`LoopInv.step`) and by the whole loop (`firstPassLoop_inv`):
  the marked positions are closed under decoding and every one of them was checked;
- what a pass that returns success has seen (`accepted_marks`).
-/

namespace Jato.Vm

open Jato.Lib

/-! ## Registered destinations -/

section Destinations

variable {code : List UInt8} {jd jd' : List Nat}

theorem mem_addJumpDestination {dest d : Nat} : d ∈ addJumpDestination jd dest ↔ d = dest ∨ d ∈ jd := by
  induction jd with
  | nil => simp [addJumpDestination]
  | cons cur rest ih =>
    simp only [addJumpDestination]
    split
    · simp only [List.mem_cons, ih]
      tauto
    · split
      · rename_i heq
        simp [heq]
      · simp [List.mem_cons]

/-- `d` lies inside the code and is in the list. -/
def Registered (code : List UInt8) (jd : List Nat) (d : Int) : Prop := 0 ≤ d ∧ d < code.length ∧ d.toNat ∈ jd

theorem Registered.mono {d : Int} (h : Registered code jd d) (hs : jd ⊆ jd') : Registered code jd' d :=
  ⟨h.1, h.2.1, hs h.2.2⟩

theorem registerDest_ok {pc : Nat} {offset : Int} (h : registerDest code pc jd offset = .ok jd') :
    jd ⊆ jd' ∧ Registered code jd' (pc + offset) := by
  unfold registerDest validDest at h
  split at h
  · cases h
  · split at h
    · cases h
    · have hj := Except.ok.inj h
      subst hj
      refine ⟨fun d hd => mem_addJumpDestination.mpr (.inr hd), by omega, by omega, ?_⟩
      exact mem_addJumpDestination.mpr (.inl rfl)

theorem addEntryDestinations_ok {basePc endPc step : Nat} (hstep : 0 < step) :
    ∀ {fuel pc : Nat} {jd : List Nat}, endPc - pc ≤ fuel →
      addEntryDestinations code basePc endPc step fuel pc jd = .ok jd' →
      jd ⊆ jd' ∧ ∀ i, pc + step * i < endPc → Registered code jd' (basePc + readS32 code (pc + step * i)) := by
  intro fuel
  induction fuel with
  | zero =>
    intro pc jd hf h
    cases Except.ok.inj h
    exact ⟨fun _ hd => hd, fun i hi => by omega⟩
  | succ fuel ih =>
    intro pc jd hf h
    rw [addEntryDestinations] at h
    split at h
    · cases hr : registerDest code basePc jd (readS32 code pc) with
      | error e => rw [hr] at h; cases h
      | ok jd₁ =>
        rw [hr] at h
        obtain ⟨hs₁, hreg⟩ := registerDest_ok hr
        obtain ⟨hs₂, hrest⟩ := ih (by omega) h
        refine ⟨fun d hd => hs₂ (hs₁ hd), fun i hi => ?_⟩
        cases i with
        | zero => exact hreg.mono hs₂
        | succ i =>
          have he : pc + step * (i + 1) = pc + step + step * i := by rw [Nat.mul_succ]; omega
          rw [he] at hi ⊢
          exact hrest i hi
    · cases Except.ok.inj h
      exact ⟨fun _ hd => hd, fun i hi => by omega⟩

theorem addSwitchDestinations_ok {basePc pc endPc step : Nat} {dflt : Int} (hstep : 0 < step)
    (h : addSwitchDestinations code jd basePc dflt pc endPc step = .ok jd') :
    jd ⊆ jd' ∧ Registered code jd' (basePc + dflt) ∧
      ∀ i, pc + step * i < endPc → Registered code jd' (basePc + readS32 code (pc + step * i)) := by
  unfold addSwitchDestinations at h
  cases hr : registerDest code basePc jd dflt with
  | error e => rw [hr] at h; cases h
  | ok jd₁ =>
    rw [hr] at h
    obtain ⟨hs₁, hreg⟩ := registerDest_ok hr
    obtain ⟨hs₂, hentries⟩ := addEntryDestinations_ok hstep (le_refl _) h
    exact ⟨fun d hd => hs₂ (hs₁ hd), hreg.mono hs₂, hentries⟩

theorem addInt_eq {x : Int} {pc : Nat} (h0 : 0 ≤ x) (hx : x < 2 ^ 31) (hpc : pc < 2 ^ 33) :
    addInt x pc = pc + x.toNat := by
  have hs : toS32 x = x := by
    simp only [toS32, Int.bmod]
    omega
  rw [addInt, hs]
  omega

end Destinations

/-! ## The switches -/

section Switches

variable {code : List UInt8} {jd jd' : List Nat} {pc len : Nat}

/-- The position of the last entry of the tableswitch at `pc`. -/
def tableswitchLastEntry (code : List UInt8) (pc : Nat) : Nat :=
  switchBody pc + 12 + 4 * (tableswitchCount code pc - 1)

theorem switchBody_lt (h : pc < 2 ^ 32) : switchBody pc + 12 < 2 ^ 33 := by
  simp only [switchBody, getTableswitchPadding]
  omega

-- The arithmetic of the two loops is stated over variables: `omega` is slow on the reads themselves.
theorem tableswitch_entry_lt {low high : Int} {p pad i : Nat} (hle : low ≤ high)
    (hlen : len = 1 + pad + 12 + 4 * (high - low + 1).toNat) (hlt : len < 2 ^ 31) (hp : p < 2 ^ 33)
    (hi : i + 1 < (high - low + 1).toNat) : p + 4 * i < addInt ((high - low) * 4) p := by
  rw [addInt_eq (by omega) (by omega) hp]
  omega

theorem lookupswitch_entry_lt {n : Int} {p pad i : Nat} (h0 : 0 ≤ n) (hlen : len = 1 + pad + 8 + 8 * n.toNat)
    (hlt : len < 2 ^ 31) (hp : p < 2 ^ 33) (hi : i < n.toNat) : p + 4 + 8 * i < addInt (n * 4 * 2) p := by
  rw [addInt_eq (by omega) (by omega) hp]
  omega

/-- A tableswitch has its default and all entries but the last registered. -/
theorem addTableswitchDestinations_ok (hc : code.length < 2 ^ 32) (ho : byteAt code pc = opcTableswitch)
    (hi : InsnAt code pc len) (hlt : len < 2 ^ 31) (h : addTableswitchDestinations code jd pc = .ok jd') :
    Registered code jd' (pc + readS32 code (switchBody pc)) ∧ ∀ i, i + 1 < tableswitchCount code pc →
        Registered code jd' (pc + readS32 code (switchBody pc + 12 + 4 * i)) := by
  obtain ⟨hpc, hl, -⟩ := hi
  obtain ⟨hle, hlen⟩ := insnLength_tableswitch ho hl
  have hbody := switchBody_lt (lt_trans hpc hc)
  obtain ⟨-, hdflt, hentries⟩ := addSwitchDestinations_ok (by decide) h
  exact ⟨hdflt, fun i hi => hentries i (tableswitch_entry_lt hle hlen hlt hbody hi)⟩

theorem addLookupswitchDestinations_ok (hc : code.length < 2 ^ 32) (ho : byteAt code pc = opcLookupswitch)
    (hi : InsnAt code pc len) (hlt : len < 2 ^ 31) (h : addLookupswitchDestinations code jd pc = .ok jd') :
    Registered code jd' (pc + readS32 code (switchBody pc)) ∧ ∀ i < lookupswitchCount code pc,
        Registered code jd' (pc + readS32 code (switchBody pc + 8 + 8 * i + 4)) := by
  obtain ⟨hpc, hl, -⟩ := hi
  obtain ⟨h0, hlen⟩ := insnLength_lookupswitch ho hl
  have hbody : switchBody pc + 8 < 2 ^ 33 :=
    lt_of_le_of_lt (Nat.add_le_add_left (by decide) _) (switchBody_lt (lt_trans hpc hc))
  obtain ⟨-, hdflt, hentries⟩ := addSwitchDestinations_ok (by decide) h
  refine ⟨hdflt, fun i hi => ?_⟩
  rw [Nat.add_right_comm]
  exact hentries i (lookupswitch_entry_lt h0 hlen hlt hbody hi)

end Switches

/-! ## One instruction -/

section Instruction

variable {vrf : VerifierContext} {jd jd' : List Nat} {pc : Nat}

theorem bcIsBranch_of_jumpDest {code : List UInt8} {d : Int} (h : JumpDest code pc d) :
    bcIsBranch (byteAt code pc) = true := by
  cases h with
  | branch hb => exact hb
  | tableDefault ho | tableCase i ho | lookupDefault ho | lookupCase i ho => rw [ho]; decide

theorem bcIsBranch_of_usesLocalVar : ∀ opc < 256, bcUsesLocalVar opc = true → bcIsBranch opc = false := by
  decide +kernel

/-- What the pass has checked about the instruction at `pc`, when its destinations are in `jd`. -/
structure InsnChecked (vrf : VerifierContext) (jd : List Nat) (pc : Nat) : Prop where
  dests : bcIsRet vrf.code 0 = false → ∀ {len : Nat}, InsnAt vrf.code pc len → len < 2 ^ 31 →
    ∀ {d : Int}, JumpDest vrf.code pc d → Registered vrf.code jd d ∨
      (byteAt vrf.code pc = opcTableswitch ∧ d = pc + readS32 vrf.code (tableswitchLastEntry vrf.code pc))
  locals : bcUsesLocalVar (byteAt vrf.code pc) = true → getLocalVarIndex vrf.code pc < vrf.maxLocals

theorem InsnChecked.mono (h : InsnChecked vrf jd pc) (hs : jd ⊆ jd') : InsnChecked vrf jd' pc :=
  ⟨fun hr _ hi hlt _ hd => (h.dests hr hi hlt hd).imp_left (·.mono hs), h.locals⟩

/-- Every instruction of a branch type that the pass goes on after is checked. -/
theorem firstPassInsn_branch (hb : bcIsBranch (byteAt vrf.code pc) = true) (h : firstPassInsn vrf jd pc = .ok jd') :
    jd ⊆ jd' ∧ InsnChecked vrf jd' pc := by
  have hloc : bcUsesLocalVar (byteAt vrf.code pc) = true → getLocalVarIndex vrf.code pc < vrf.maxLocals := by
    intro hu
    rw [bcIsBranch_of_usesLocalVar _ (byteAt_lt _ _) hu] at hb
    cases hb
  simp only [firstPassInsn, if_pos hb] at h
  split at h
  · rename_i hret
    cases Except.ok.inj h
    exact ⟨fun _ hd => hd, fun hr => absurd hret (by simp [hr]), hloc⟩
  · split at h
    · rename_i ho
      refine ⟨(addSwitchDestinations_ok (by decide) h).1, fun _ len hi hlt d hd => ?_, hloc⟩
      obtain ⟨hdflt, hcase⟩ := addTableswitchDestinations_ok vrf.codeLength_lt ho hi hlt h
      cases hd with
      | branch _ hts => exact absurd ho hts
      | tableDefault => exact .inl hdflt
      | tableCase i _ hlt' =>
        by_cases hlast : i + 1 < tableswitchCount vrf.code pc
        · exact .inl (hcase i hlast)
        · have hi' : i = tableswitchCount vrf.code pc - 1 := by omega
          exact .inr ⟨ho, by rw [tableswitchLastEntry, ← hi']⟩
      | lookupDefault ho' | lookupCase i ho' => rw [ho] at ho'; cases ho'
    · rename_i hts
      split at h
      · rename_i ho
        refine ⟨(addSwitchDestinations_ok (by decide) h).1, fun _ len hi hlt d hd => .inl ?_, hloc⟩
        obtain ⟨hdflt, hcase⟩ := addLookupswitchDestinations_ok vrf.codeLength_lt ho hi hlt h
        cases hd with
        | branch _ _ hls => exact absurd ho hls
        | tableDefault ho' | tableCase i ho' => exact absurd ho' hts
        | lookupDefault => exact hdflt
        | lookupCase i _ hlt' => exact hcase i hlt'
      · rename_i hls
        obtain ⟨hs, hreg⟩ := registerDest_ok h
        refine ⟨hs, fun _ len hi hlt d hd => .inl ?_, hloc⟩
        cases hd with
        | branch => exact hreg
        | tableDefault ho' | tableCase i ho' => exact absurd ho' hts
        | lookupDefault ho' | lookupCase i ho' => exact absurd ho' hls

theorem firstPassInsn_ok (h : firstPassInsn vrf jd pc = .ok jd') : jd ⊆ jd' ∧ InsnChecked vrf jd' pc := by
  by_cases hb : bcIsBranch (byteAt vrf.code pc) = true
  · exact firstPassInsn_branch hb h
  · simp only [firstPassInsn, if_neg hb] at h
    split at h
    · split at h
      · rename_i hidx
        cases Except.ok.inj h
        exact ⟨fun _ hd => hd, fun _ _ _ _ _ hd => absurd (bcIsBranch_of_jumpDest hd) hb, fun _ => hidx⟩
      · cases h
    · rename_i hu
      have hjd : jd = jd' := by
        split at h
        · revert h
          generalize verifyConstantTags vrf _ _ = r
          intro h
          cases r with
          | error e => cases h
          | ok u => exact Except.ok.inj h
        · exact Except.ok.inj h
      subst hjd
      exact ⟨fun _ hd => hd, fun _ _ _ _ _ hd => absurd (bcIsBranch_of_jumpDest hd) hb, fun hu' => absurd hu' hu⟩

end Instruction

/-! ## The decoding loop -/

section Loop

variable {behind : Nat → Bool} {vrf : VerifierContext}

/-- The positions that decoding with `bcInsnSizeSafe` comes to. -/
inductive SafeStart (code : List UInt8) : Nat → Prop
  | zero : SafeStart code 0
  | next {pc size : Nat} : SafeStart code pc → bcInsnSizeSafe code pc = .ok size → SafeStart code (pc + size)

/-- The instruction map has the bit of `q`. -/
def Marked (behind : Nat → Bool) (insnMap : Bitset) (q : Nat) : Prop :=
  q < insnMap.capacity ∧ testBit behind insnMap q = true

theorem marked_setBit {m : Bitset} {b q : Nat} (hb : b < m.capacity) :
    Marked behind (setBit m b) q ↔ Marked behind m q ∨ q = b := by
  unfold Marked
  rw [setBit_capacity]
  constructor
  · rintro ⟨hq, ht⟩
    rw [testBit_setBit hq, Bool.or_eq_true, decide_eq_true_eq] at ht
    exact ht.imp_left fun ht => ⟨hq, ht⟩
  · rintro (⟨hq, ht⟩ | rfl)
    · exact ⟨hq, by rw [testBit_setBit hq, ht, Bool.true_or]⟩
    · exact ⟨hb, by rw [testBit_setBit hb]; simp⟩

/-- What holds of a marked position. -/
structure MarkInv (behind : Nat → Bool) (vrf : VerifierContext) (s : FirstPassState) (q : Nat) : Prop where
  inside : q < vrf.code.length
  start : SafeStart vrf.code q
  next : ∃ size, bcInsnSizeSafe vrf.code q = .ok size ∧ (Marked behind s.insnMap (q + size) ∨ q + size = s.pc)
  checked : InsnChecked vrf s.jmpDests q

/-- The invariant of the decoding loop: the marks are closed under decoding up to the current position. -/
structure LoopInv (behind : Nat → Bool) (vrf : VerifierContext) (s : FirstPassState) : Prop where
  capacity : s.insnMap.capacity = (allocBitset vrf.code.length).capacity
  pc_le : s.pc ≤ vrf.code.length
  pc_start : SafeStart vrf.code s.pc
  first : Marked behind s.insnMap 0 ∨ s.pc = 0
  marked : ∀ {q}, Marked behind s.insnMap q → MarkInv behind vrf s q
  last : 0 < s.pc → Marked behind s.insnMap s.lastInsn ∧
    bcInsnSizeSafe vrf.code s.lastInsn = .ok (s.pc - s.lastInsn) ∧ s.lastInsn ≤ s.pc

theorem LoopInv.init : LoopInv behind vrf (firstPassInit vrf) where
  capacity := rfl
  pc_le := Nat.zero_le _
  pc_start := .zero
  first := Or.inr rfl
  marked h := by
    have hfalse := h.2
    rw [show (firstPassInit vrf).insnMap = allocBitset vrf.code.length from rfl, testBit_alloc h.1] at hfalse
    cases hfalse
  last h := absurd h (Nat.lt_irrefl 0)

theorem LoopInv.step {s : FirstPassState} {size : Nat} {jd : List Nat} (hinv : LoopInv behind vrf s)
    (hsize : bcInsnSizeSafe vrf.code s.pc = .ok size) (hinsn : firstPassInsn vrf s.jmpDests s.pc = .ok jd) :
    LoopInv behind vrf ⟨s.pc + size, setBit s.insnMap s.pc, jd, s.pc⟩ := by
  obtain ⟨hpc, hend, -⟩ := sizeSafe_ok hsize
  obtain ⟨hsub, hchk⟩ := firstPassInsn_ok hinsn
  have hcap : s.pc < s.insnMap.capacity := hinv.capacity ▸ lt_capacity_alloc hpc
  have hmark {q : Nat} := @marked_setBit behind _ _ q hcap
  refine ⟨?_, hend, hinv.pc_start.next hsize, .inl ?_, fun {q} hq => ?_, fun _ => ⟨hmark.mpr (.inr rfl), ?_, ?_⟩⟩
  · rw [setBit_capacity]; exact hinv.capacity
  · exact hmark.mpr (hinv.first.imp_right Eq.symm)
  · rcases hmark.mp hq with hq | rfl
    · obtain ⟨hin, hstart, ⟨sz, hsz, hnext⟩, hc⟩ := hinv.marked hq
      -- a mark whose successor was the current position now has a marked successor
      exact ⟨hin, hstart, ⟨sz, hsz, .inl (hmark.mpr hnext)⟩, hc.mono hsub⟩
    · exact ⟨hpc, hinv.pc_start, ⟨size, hsize, .inr rfl⟩, hchk⟩
  · rw [hsize]; simp
  · exact Nat.le_add_right _ _

/-- The whole loop keeps the invariant and ends at the end of the code. -/
theorem firstPassLoop_inv : ∀ {fuel : Nat} {s s' : FirstPassState}, LoopInv behind vrf s →
    firstPassLoop vrf fuel s = some (.ok s') → LoopInv behind vrf s' ∧ s'.pc = vrf.code.length
  | 0, _, _, _, h => by cases h
  | fuel + 1, s, s', hinv, h => by
    rw [firstPassLoop] at h
    split at h
    · cases hsize : bcInsnSizeSafe vrf.code s.pc with
      | error e => simp only [hsize] at h; cases h
      | ok size =>
        cases hinsn : firstPassInsn vrf s.jmpDests s.pc with
        | error e => simp only [hsize, hinsn] at h; cases h
        | ok jd =>
          simp only [hsize, hinsn] at h
          exact firstPassLoop_inv (hinv.step hsize hinsn) h
    · cases h
      exact ⟨hinv, Nat.le_antisymm hinv.pc_le (by omega)⟩

/-- After the loop every instruction start inside the code is marked. -/
theorem LoopInv.marked_of_insnStart {s : FirstPassState} (hinv : LoopInv behind vrf s)
    (hend : s.pc = vrf.code.length) {q : Nat} (hq : InsnStart vrf.code q) :
    q < vrf.code.length → Marked behind s.insnMap q := by
  induction hq with
  | zero => exact fun h0 => hinv.first.resolve_right (by omega)
  | @next pc len _ hi ih =>
    intro hlt
    obtain ⟨size, hsize, hnext⟩ := (hinv.marked (ih hi.1)).next
    rw [sizeSafe_eq_length vrf.codeLength_lt hsize hi] at hnext
    exact hnext.resolve_right (by omega)

end Loop

/-! ## The exception table and the end of the pass -/

section Ending

variable {behind : Nat → Bool} {vrf : VerifierContext} {jd jd' : List Nat}

/-- The entry is in order, ends inside the code and has its handler registered. -/
def EntryChecked (codeLength : Nat) (jd : List Nat) (ex : ExceptionEntry) : Prop :=
  ex.startPc ≤ ex.endPc ∧ ex.endPc ≤ codeLength ∧ ex.handlerPc ∈ jd

/-- The loop checks its first entry whatever `n` is, and the others while their index is below `n`. -/
theorem verifyExceptionEntries_ok {codeLength n : Nat} : ∀ {i : Nat} {es : List ExceptionEntry} {jd : List Nat},
    verifyExceptionEntries codeLength n i es jd = .ok jd' →
    jd ⊆ jd' ∧ ∀ {k ex}, es[k]? = some ex → k = 0 ∨ i + k < n → EntryChecked codeLength jd' ex
  | i, [], jd, h => by
    cases Except.ok.inj h
    exact ⟨fun _ hd => hd, fun hk => by cases hk⟩
  | i, ex :: rest, jd, h => by
    rw [verifyExceptionEntries] at h
    split at h
    · cases h
    · split at h
      · cases h
      · rename_i hord hend
        have hmem : ex.handlerPc ∈ addJumpDestination jd ex.handlerPc := mem_addJumpDestination.mpr (.inl rfl)
        have hsub : jd ⊆ addJumpDestination jd ex.handlerPc := fun d hd => mem_addJumpDestination.mpr (.inr hd)
        split at h
        · obtain ⟨hs, hrest⟩ := verifyExceptionEntries_ok h
          refine ⟨fun d hd => hs (hsub hd), fun {k ex'} hk hlt => ?_⟩
          cases k with
          | zero =>
            cases Option.some.inj hk
            exact ⟨not_lt.mp hord, not_lt.mp hend, hs hmem⟩
          | succ k => exact hrest hk (.inr (by omega))
        · cases Except.ok.inj h
          refine ⟨hsub, fun {k ex'} hk hlt => ?_⟩
          cases k with
          | zero =>
            cases Option.some.inj hk
            exact ⟨not_lt.mp hord, not_lt.mp hend, hmem⟩
          | succ k => omega

theorem verifyExceptionTable_ok (h : verifyExceptionTable vrf jd = .ok jd') :
    jd ⊆ jd' ∧ ∀ {k ex}, vrf.exceptionTable[k]? = some ex → k = 0 ∨ k + 1 < vrf.exceptionTable.length →
      EntryChecked vrf.code.length jd' ex := by
  unfold verifyExceptionTable at h
  split at h
  · rename_i hlen
    cases Except.ok.inj h
    refine ⟨fun _ hd => hd, fun hk => ?_⟩
    rw [List.length_eq_zero_iff.mp hlen] at hk
    cases hk
  · obtain ⟨hs, hall⟩ := verifyExceptionEntries_ok h
    exact ⟨hs, fun hk hlt => hall hk (by omega)⟩

/-- The comparison only reports `invalidBranch`, and reports nothing when every destination is marked. -/
theorem checkJumpDests_ok {fuel : Nat} {m : Bitset} : ∀ {jd : List Nat} {err err' : Option VrfErr} {pc pc' : Nat},
    checkJumpDests behind vrf fuel m jd (err, pc) = some (.ok (err', pc')) →
    (err' = err ∨ err' = some .invalidBranch) ∧
      (err' = none → (∀ d ∈ jd, testBit behind m d = true) ∧ err = none ∧ pc' = pc)
  | [], err, err', pc, pc', h => by
    cases h
    exact ⟨.inl rfl, fun he => ⟨nofun, he, rfl⟩⟩
  | dest :: rest, err, err', pc, pc', h => by
    rw [checkJumpDests] at h
    split at h
    · rename_i ht
      obtain ⟨herr, hall⟩ := checkJumpDests_ok h
      refine ⟨herr, fun he => ?_⟩
      obtain ⟨hd, hrest⟩ := hall he
      exact ⟨List.forall_mem_cons.mpr ⟨ht, hd⟩, hrest⟩
    · split at h
      · cases h
      · cases h
      · obtain ⟨herr, hall⟩ := checkJumpDests_ok h
        exact ⟨.inr (herr.elim id id), fun he => absurd (hall he).2.1 (by simp)⟩

theorem checkEnd_ok_iff {last pc : Nat} {err : Option VrfErr} : checkEnd vrf last pc err = .ok () ↔
    err = none ∧ pc = vrf.code.length ∧ bcIsUnconditionnalBranch vrf.code last = true := by
  unfold checkEnd
  by_cases hpc : pc = vrf.code.length <;> by_cases hb : bcIsUnconditionnalBranch vrf.code last = true <;>
    cases err <;> simp [hpc, hb]

/-- What a pass that returns success has seen. -/
theorem accepted_marks (h : Accepted behind vrf) : ∃ s jd, LoopInv behind vrf s ∧ s.pc = vrf.code.length ∧
    verifyExceptionTable vrf s.jmpDests = .ok jd ∧ ∀ d ∈ jd, testBit behind s.insnMap d = true := by
  obtain ⟨fuel, h⟩ := h
  unfold verifierFirstPass at h
  split at h
  · cases h
  · cases h
  · rename_i s hloop
    obtain ⟨hinv, hend⟩ := firstPassLoop_inv (@LoopInv.init behind vrf) hloop
    split at h
    · cases h
    · rename_i jd hex
      split at h
      · cases h
      · cases h
      · rename_i err pc hjd
        obtain ⟨rfl, -, -⟩ := checkEnd_ok_iff.mp (Option.some.inj h)
        exact ⟨s, jd, hinv, hend, hex, ((checkJumpDests_ok hjd).2 rfl).1⟩

end Ending

end Jato.Vm
