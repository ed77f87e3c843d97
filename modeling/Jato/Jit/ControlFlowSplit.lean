import Jato.Jit.ControlFlow

/-!
# Splitting behind the instructions that end a block

The first loop of the control-flow analysis, on verified code (`VerifiedMethod`). When it is done, a block starts exactly at
the first instruction and behind each instruction that ends a block (`Leads`), the flags and edges of each block are those
that its last instruction calls for (`EndsWith`), and the destinations of all jumps are in the bit set
(`splitAfterBranches_spec`).
-/

namespace Jato.Jit.Flow

open Jato.Lib Jato.Vm List

/-- A method whose code is a sequence of complete instructions, with jumps and handlers inside it. The length of the code
fits the `int` that holds it; the class file format allows less. -/
structure VerifiedMethod extends MethodCode where
  nonempty : 0 < code.length
  length_lt : code.length < 2 ^ 31
  complete : InsnStart code code.length
  dests : ∀ pc < code.length, InsnStart code pc → ∀ d, JumpDest code pc d → ValidDest code d
  handlers : ∀ eh ∈ exceptionTable, ValidDest code eh.handlerPc

/-! ## Targets of the instructions -/

variable {targets : Bitset} {cu cu' : CompilationUnit} {p o b : Nat} {offs : List Int}

section Targets

variable {code : List UInt8} {pc len : Nat}

theorem bcInsnSize_of_insnAt (hlen : code.length < 2 ^ 31) (hi : InsnAt code pc len) : bcInsnSize code pc = some len :=
  bcInsnSize_of_insnLength hi.2.1 (by have := hi.2.2; omega)

/-- The offsets that the loop over a tableswitch marks are its destinations. -/
theorem mem_tableswitchTargets (hlen : code.length < 2 ^ 31) (hi : InsnAt code pc len)
    (ho : byteAt code pc = opcTableswitch) (d : Int) : d ∈ tableswitchTargets code pc ↔ JumpDest code pc d := by
  obtain ⟨-, hl, hend⟩ := hi
  obtain ⟨hle, heq⟩ := insnLength_tableswitch ho hl
  have hcount := tableswitchCount_eq (Int.not_lt.mpr hle) (by omega)
  simp only [tableswitchTargets, hcount, mem_cons, mem_map, mem_range]
  constructor
  · rintro (hd | ⟨i, hi, hd⟩)
    · rw [hd]
      exact .tableDefault ho
    · rw [← hd]
      exact .tableCase i ho hi
  · intro hd
    cases hd with
    | branch _ hts => exact absurd ho hts
    | tableDefault => exact .inl rfl
    | tableCase i _ hi => exact .inr ⟨i, hi, rfl⟩
    | lookupDefault hls | lookupCase i hls => exact absurd (ho.symm.trans hls) (by decide)

theorem readU32_eq_toNat (h : ¬ readS32 code p < 0) : readU32 code p = (readS32 code p).toNat := by
  have := readU32_lt code p
  simp only [readS32, toS32, Int.bmod] at h ⊢
  omega

theorem mem_lookupswitchTargets (hi : InsnAt code pc len) (ho : byteAt code pc = opcLookupswitch) (d : Int) :
    d ∈ lookupswitchTargets code pc ↔ JumpDest code pc d := by
  have hne : opcLookupswitch ≠ opcTableswitch := by decide
  have hcount := readU32_eq_toNat (Int.not_lt.mpr (insnLength_lookupswitch ho hi.2.1).1)
  simp only [lookupswitchTargets, hcount, mem_cons, mem_map, mem_range]
  constructor
  · rintro (hd | ⟨i, hi, hd⟩)
    · rw [hd]
      exact .lookupDefault ho
    · rw [← hd]
      exact .lookupCase i ho hi
  · intro hd
    cases hd with
    | branch _ _ hls => exact absurd ho hls
    | tableDefault hts | tableCase i hts => exact absurd (ho.symm.trans hts) hne
    | lookupDefault => exact .inl rfl
    | lookupCase i _ hi => exact .inr ⟨i, hi, rfl⟩

theorem setTargets_spec (hoffs : ∀ d ∈ offs, 0 ≤ d ∧ d < targets.capacity) :
    ∃ targets', setTargets targets offs = some targets' ∧ targets'.capacity = targets.capacity ∧
      ∀ o < targets.capacity, testBit (fun _ => false) targets' o = true ↔
        testBit (fun _ => false) targets o = true ∨ (o : Int) ∈ offs := by
  induction offs generalizing targets with
  | nil => exact ⟨targets, rfl, rfl, by simp⟩
  | cons d ds ih =>
    obtain ⟨h0, hlt⟩ := hoffs d (by simp)
    have hrest : ∀ e ∈ ds, 0 ≤ e ∧ e < (setBit targets d.toNat).capacity :=
      fun e he => by simpa using hoffs e (mem_cons_of_mem _ he)
    obtain ⟨targets', hset, hcap, htest⟩ := ih hrest
    refine ⟨targets', ?_, by simpa using hcap, fun o ho => ?_⟩
    · rw [setTargets, if_pos ⟨h0, hlt⟩]
      exact hset
    · rw [htest o (by simpa using ho), testBit_setBit ho, mem_cons, Bool.or_eq_true, decide_eq_true_eq, or_assoc]
      have hd : o = d.toNat ↔ (o : Int) = d := by omega
      rw [hd]

end Targets

/-! ## What a block's last instruction calls for -/

/-- `p` is the instruction that ends where `e` is. -/
def LastInsn (code : List UInt8) (e p : Nat) : Prop := InsnStart code p ∧ ∃ len, InsnAt code p len ∧ p + len = e

/-- `q` is the first instruction or follows one that ends a block. -/
def Leads (code : List UInt8) (q : Nat) : Prop :=
  q = 0 ∨ ∃ p, LastInsn code q p ∧ bcEndsBasicBlock (byteAt code p) = true

/-- The branches apart from the switches. -/
def isPlainBranch (opc : Nat) : Bool := bcIsBranch opc && opc != opcTableswitch && opc != opcLookupswitch

/-- The instructions with an edge to the block behind them. -/
def hasFallThroughEdge (opc : Nat) : Bool := !bcEndsBasicBlock opc || bcIsBranch opc && !bcIsGoto opc

/-- The flags and edges of a block are those that belong to its last instruction `p`; edges to branch targets are there if
`targets` is set. -/
structure EndsWith (code : List UInt8) (targets : Bool) (cu : CompilationUnit) (b p : Nat) : Prop where
  hasBranch : (cu.block b).hasBranch = isPlainBranch (byteAt code p)
  brTargetOff : isPlainBranch (byteAt code p) = true → ((cu.block b).brTargetOff : Int) = p + bcTargetOff code p
  hasReturn : (cu.block b).hasReturn = bcIsReturn (byteAt code p)
  successors : ∀ c, c ∈ (cu.block b).successors ↔ c < cu.nrBb ∧
    (hasFallThroughEdge (byteAt code p) = true ∧ (cu.block c).start = (cu.block b).stop ∨
      targets = true ∧ isPlainBranch (byteAt code p) = true ∧ ((cu.block c).start : Int) = p + bcTargetOff code p)

section LastInsn

variable {code : List UInt8} {e p q len : Nat}

section

variable (h : LastInsn code e p)

include h

theorem LastInsn.lt : p < e ∧ e ≤ code.length := by
  obtain ⟨-, len, hi, rfl⟩ := h
  exact ⟨by have := hi.pos; omega, hi.2.2⟩

theorem LastInsn.insnStart : InsnStart code e := by
  obtain ⟨hp, len, hi, rfl⟩ := h
  exact hp.next hi

/-- An instruction that starts before the end `e` of another does not start behind it. -/
theorem LastInsn.le_of_lt (hq : InsnStart code q) (hlt : q < e) : q ≤ p := by
  obtain ⟨hp, len, hi, rfl⟩ := h
  by_contra hle
  have := hq.le_of_lt hp hi (by omega)
  omega

theorem LastInsn.unique (h' : LastInsn code e q) : p = q :=
  Nat.le_antisymm (h'.le_of_lt h.1 h.lt.1) (h.le_of_lt h'.1 h'.lt.1)

end

theorem exists_lastInsn (h : InsnStart code e) (he : 0 < e) : ∃ p, LastInsn code e p := by
  cases h with
  | zero => exact absurd he (lt_irrefl 0)
  | next hp hi => exact ⟨_, hp, _, hi, rfl⟩

theorem Leads.insnStart (h : Leads code q) : InsnStart code q := by
  rcases h with rfl | ⟨p, hp, -⟩
  · exact .zero
  · exact hp.insnStart

/-- What leads up to the end of an instruction that ends no block leads up to its start. -/
theorem Leads.le_of_not_ends (h : Leads code q) (hp : LastInsn code e p) (hends : bcEndsBasicBlock (byteAt code p) = false)
    (hle : q ≤ e) : q ≤ p := by
  rcases Nat.lt_or_eq_of_le hle with hlt | rfl
  · exact hp.le_of_lt h.insnStart hlt
  · rcases h with rfl | ⟨p', hp', hends'⟩
    · exact absurd hp.lt.1 (Nat.not_lt_zero _)
    · rw [hp.unique hp', hends'] at hends
      cases hends

end LastInsn

/-- A block that keeps its flags, edges and end still goes with its last instruction when a block is added that starts
neither behind it nor at its branch target. -/
theorem EndsWith.transfer {code : List UInt8} {targets : Bool} {b' : Nat}
    (h : EndsWith code targets cu b p) (hbranch : (cu'.block b').hasBranch = (cu.block b).hasBranch)
    (htarget : (cu'.block b').hasBranch = true → (cu'.block b').brTargetOff = (cu.block b).brTargetOff)
    (hreturn : (cu'.block b').hasReturn = (cu.block b).hasReturn)
    (hsucc : (cu'.block b').successors = (cu.block b).successors)
    (hstop : (cu'.block b').stop = (cu.block b).stop) (hnr : cu'.nrBb = cu.nrBb + 1)
    (hstart : ∀ c, (cu'.block c).start = if c = cu.nrBb then o else (cu.block c).start) (ho : o ≠ (cu.block b).stop)
    (hnot : targets = true → isPlainBranch (byteAt code p) = true → (o : Int) ≠ p + bcTargetOff code p) :
    EndsWith code targets cu' b' p where
  hasBranch := hbranch.trans h.hasBranch
  brTargetOff hb := by
    rw [htarget (by rw [hbranch, h.hasBranch, hb])]
    exact h.brTargetOff hb
  hasReturn := hreturn.trans h.hasReturn
  successors c := by
    rw [hsucc, h.successors, hnr, hstop, hstart]
    split
    · rename_i hc
      subst hc
      refine iff_of_false (fun hlt => lt_irrefl _ hlt.1) ?_
      rintro ⟨-, ⟨-, heq⟩ | ⟨ht, hb, heq⟩⟩
      · exact ho heq
      · exact hnot ht hb heq
    · rename_i hc
      exact and_congr_left fun _ => ⟨Nat.lt_succ_of_lt, fun hlt => Nat.lt_of_le_of_ne (Nat.le_of_lt_succ hlt) hc⟩

/-! ## The loop -/

/-- The instructions before `pc` are done: `bb` is the last block, with nothing noted yet if there are more instructions. -/
structure LoopInv (code : List UInt8) (pc : Nat) (s : AfterBranches) : Prop where
  wellFormed : s.cu.WellFormed code.length
  current : s.bb < s.cu.nrBb
  current_stop : (s.cu.block s.bb).stop = code.length
  current_start : (s.cu.block s.bb).start ≤ pc
  leads : ∀ q ≤ pc, q < code.length → Leads code q → ∃ b < s.cu.nrBb, (s.cu.block b).start = q
  only : ∀ b < s.cu.nrBb, Leads code (s.cu.block b).start
  ends : ∀ b < s.cu.nrBb, (s.cu.block b).stop ≤ pc → ∀ p, LastInsn code (s.cu.block b).stop p →
    EndsWith code false s.cu b p ∧ (s.cu.block b).hasAthrow = bcIsAthrow (byteAt code p)
  clean : pc < code.length → (s.cu.block s.bb).hasBranch = false ∧ (s.cu.block s.bb).hasReturn = false ∧
    (s.cu.block s.bb).hasAthrow = false ∧ (s.cu.block s.bb).successors = []
  capacity : code.length ≤ s.branchTargets.capacity
  targets : ∀ o < code.length, testBit (fun _ => false) s.branchTargets o = true ↔
    ∃ p < pc, InsnStart code p ∧ JumpDest code p o

section Loop

variable {code : List UInt8} {pc len : Nat} {s s' : AfterBranches}

theorem loopInv_start (hn : 0 < code.length) : LoopInv code 0 ⟨entryUnit code.length, 0, allocBitset code.length⟩ where
  wellFormed := wellFormed_entryUnit hn
  current := Nat.zero_lt_one
  current_stop := rfl
  current_start := le_refl 0
  leads q hq _ _ := ⟨0, Nat.zero_lt_one, (Nat.le_zero.mp hq).symm⟩
  only _ _ := .inl rfl
  ends b _ hb := absurd hn (not_lt.mpr hb)
  clean _ := ⟨rfl, rfl, rfl, rfl⟩
  capacity := by
    simp only [allocBitset, Bitset.capacity, length_replicate]
    omega
  targets o ho := by
    rw [testBit_alloc (lt_capacity_alloc ho)]
    simp

theorem LoopInv.stop_le (h : LoopInv code pc s) (hb : b < s.cu.nrBb) (hne : b ≠ s.bb) : (s.cu.block b).stop ≤ pc := by
  rcases h.wellFormed.tiles.apart ((h.wellFormed.mem b).mpr hb) ((h.wellFormed.mem s.bb).mpr h.current) with heq | hle | hle
  · exact absurd heq hne
  · exact le_trans hle h.current_start
  · have := h.wellFormed.bounds hb
    have := h.current_stop
    omega

theorem bcIsBranch_of_jumpDest {d : Int} (h : JumpDest code pc d) : bcIsBranch (byteAt code pc) = true := by
  have htable : bcIsBranch opcTableswitch = true := by decide
  have hlookup : bcIsBranch opcLookupswitch = true := by decide
  cases h with
  | branch hb => exact hb
  | tableDefault ho | tableCase _ ho => rw [ho, htable]
  | lookupDefault ho | lookupCase _ ho => rw [ho, hlookup]

/-- The destinations of the instructions up to the end of the one at `pc`. -/
theorem exists_dest_iff (hpc : InsnStart code pc) (hi : InsnAt code pc len) (o : Nat) :
    (∃ p < pc + len, InsnStart code p ∧ JumpDest code p o) ↔
      (∃ p < pc, InsnStart code p ∧ JumpDest code p o) ∨ JumpDest code pc o := by
  have hlast : LastInsn code (pc + len) pc := ⟨hpc, len, hi, rfl⟩
  constructor
  · rintro ⟨p, hlt, hp, hd⟩
    rcases Nat.lt_or_eq_of_le (hlast.le_of_lt hp hlt) with h | rfl
    · exact .inl ⟨p, h, hp, hd⟩
    · exact .inr hd
  · rintro (⟨p, hlt, hp, hd⟩ | hd)
    · exact ⟨p, by omega, hp, hd⟩
    · exact ⟨pc, by have := hi.pos; omega, hpc, hd⟩

variable {opc bb n : Nat} {targets' : Bitset}

set_option maxRecDepth 4096 in
theorem bcIsReturn_of_branch (h : bcIsBranch opc = true) : bcIsReturn opc = false := by
  have hrows : (bytecodeDef.all fun row => row.type &&& bytecodeBranch == 0 || row.type &&& bytecodeReturn == 0) = true := rfl
  simp only [bcIsBranch, bcIsReturn, hasType, bytecodeInfo, bne_iff_ne, bne_eq_false_iff_eq] at h ⊢
  cases hf : bytecodeDef.find? fun row => row.opc == opc with
  | none => simp
  | some row =>
    rw [hf] at h
    have hrow := all_eq_true.mp hrows row (mem_of_find?_eq_some hf)
    simp only [Bool.or_eq_true, beq_iff_eq] at hrow
    exact hrow.resolve_left h

theorem bcIsAthrow_of_branch (h : bcIsBranch opc = true ∨ bcIsReturn opc = true) : bcIsAthrow opc = false := by
  have hathrow : bcIsBranch opcAthrow = false ∧ bcIsReturn opcAthrow = false := by decide
  simp only [bcIsAthrow, beq_eq_false_iff_ne]
  rintro rfl
  rw [hathrow.1, hathrow.2] at h
  simp at h

theorem LoopInv.skip (h : LoopInv code pc s) (hpc : InsnStart code pc) (hi : InsnAt code pc len)
    (hends : bcEndsBasicBlock (byteAt code pc) = false) : LoopInv code (pc + len) s := by
  have hlast : LastInsn code (pc + len) pc := ⟨hpc, len, hi, rfl⟩
  simp only [bcEndsBasicBlock, Bool.or_eq_false_iff] at hends
  obtain ⟨⟨hbranch, hathrow⟩, hreturn⟩ := hends
  refine ⟨h.wellFormed, h.current, h.current_stop, by have := h.current_start; omega, ?_, h.only, ?_, ?_, h.capacity, ?_⟩
  · intro q hq hn hl
    exact h.leads q (hl.le_of_not_ends hlast (by simp [bcEndsBasicBlock, hbranch, hathrow, hreturn]) hq) hn hl
  · intro b hb hstop p hp
    by_cases hpast : (s.cu.block b).stop ≤ pc
    · exact h.ends b hb hpast p hp
    · -- the current block ends here, with the code
      obtain rfl : b = s.bb := by
        by_contra hne
        exact hpast (h.stop_le hb hne)
      obtain ⟨hcb, hcr, hca, hcs⟩ := h.clean hi.1
      have hstopEq : (s.cu.block s.bb).stop = pc + len := by
        have := h.current_stop
        have := hi.2.2
        omega
      rw [hstopEq] at hp
      obtain rfl := hp.unique hlast
      refine ⟨⟨?_, ?_, ?_, fun c => ?_⟩, ?_⟩
      · simp [hcb, isPlainBranch, hbranch]
      · simp [isPlainBranch, hbranch]
      · rw [hcr, hreturn]
      · rw [hcs]
        refine iff_of_false not_mem_nil ?_
        rintro ⟨hc, ⟨-, hstart⟩ | ⟨ht, -⟩⟩
        · have := h.wellFormed.bounds hc
          have := h.current_stop
          omega
        · cases ht
      · rw [hca, hathrow]
  · exact fun _ => h.clean hi.1
  · intro o ho
    rw [h.targets o ho, exists_dest_iff hpc hi, or_iff_left]
    intro hd
    rw [bcIsBranch_of_jumpDest hd] at hbranch
    cases hbranch

/-- What is noted at the end of the block `bb`: its flags and the destinations of its last instruction. -/
structure Noted (code : List UInt8) (pc bb : Nat) (cu cu' : CompilationUnit) (targets targets' : Bitset) : Prop where
  nrBb : cu'.nrBb = cu.nrBb
  bbList : cu'.bbList = cu.bbList
  shape : ∀ c, (cu'.block c).start = (cu.block c).start ∧ (cu'.block c).stop = (cu.block c).stop ∧
    (cu'.block c).successors = (cu.block c).successors ∧ (cu'.block c).predecessors = (cu.block c).predecessors
  other : ∀ c, c ≠ bb → cu'.block c = cu.block c
  hasBranch : (cu'.block bb).hasBranch = isPlainBranch (byteAt code pc)
  brTargetOff : isPlainBranch (byteAt code pc) = true → ((cu'.block bb).brTargetOff : Int) = pc + bcTargetOff code pc
  hasReturn : (cu'.block bb).hasReturn = bcIsReturn (byteAt code pc)
  hasAthrow : (cu'.block bb).hasAthrow = bcIsAthrow (byteAt code pc)
  capacity : targets'.capacity = targets.capacity
  targets : ∀ o < code.length, testBit (fun _ => false) targets' o = true ↔
    testBit (fun _ => false) targets o = true ∨ JumpDest code pc o

theorem setTargets_dests (hcap : code.length ≤ targets.capacity)
    (hmem : ∀ d, d ∈ offs ↔ JumpDest code pc d) (hdests : ∀ d, JumpDest code pc d → ValidDest code d) :
    ∃ targets', setTargets targets offs = some targets' ∧ targets'.capacity = targets.capacity ∧
      ∀ o < code.length, testBit (fun _ => false) targets' o = true ↔
        testBit (fun _ => false) targets o = true ∨ JumpDest code pc o := by
  have hoffs d (hd : d ∈ offs) : 0 ≤ d ∧ d < targets.capacity := by
    obtain ⟨h0, hlt, -⟩ := hdests d ((hmem d).mp hd)
    exact ⟨h0, by omega⟩
  obtain ⟨targets', hset, hcap', htest⟩ := setTargets_spec hoffs
  exact ⟨targets', hset, hcap', fun o ho => by rw [htest o (by omega), hmem]⟩

theorem noteInsn_spec {cu : CompilationUnit} (hlen : code.length < 2 ^ 31) (hi : InsnAt code pc len)
    (hcap : code.length ≤ targets.capacity) (hdests : ∀ d, JumpDest code pc d → ValidDest code d)
    (hends : bcEndsBasicBlock (byteAt code pc) = true) (hcb : (cu.block bb).hasBranch = false)
    (hcr : (cu.block bb).hasReturn = false) (hca : (cu.block bb).hasAthrow = false) :
    ∃ cu' targets', noteInsn code pc bb cu targets = some (cu', targets') ∧ Noted code pc bb cu cu' targets targets' := by
  -- nothing but bits is noted of a switch
  have hswitch {offs} (hmem : ∀ d, d ∈ offs ↔ JumpDest code pc d)
      (ho : byteAt code pc = opcTableswitch ∨ byteAt code pc = opcLookupswitch) :
      ∃ cu' targets', (setTargets targets offs).map (cu, ·) = some (cu', targets') ∧
        Noted code pc bb cu cu' targets targets' := by
    obtain ⟨targets', hset, hcap', htest⟩ := setTargets_dests hcap hmem hdests
    obtain ⟨hplain, hret, hathrow⟩ : isPlainBranch (byteAt code pc) = false ∧ bcIsReturn (byteAt code pc) = false ∧
        bcIsAthrow (byteAt code pc) = false := by rcases ho with ho | ho <;> rw [ho] <;> decide
    refine ⟨cu, targets', by rw [hset]; rfl, rfl, rfl, fun _ => ⟨rfl, rfl, rfl, rfl⟩, fun _ _ => rfl, ?_, ?_, ?_, ?_, hcap',
      htest⟩
    · rw [hcb, hplain]
    · simp [hplain]
    · rw [hcr, hret]
    · rw [hca, hathrow]
  -- no bits are marked at the end of a block that is left for good
  have hnone (hb : bcIsBranch (byteAt code pc) = false) o (_ : o < code.length) :
      testBit (fun _ => false) targets o = true ↔ testBit (fun _ => false) targets o = true ∨ JumpDest code pc o := by
    rw [or_iff_left]
    intro hd
    rw [bcIsBranch_of_jumpDest hd] at hb
    cases hb
  have hshape f (hf : ∀ b : BasicBlock, (f b).start = b.start ∧ (f b).stop = b.stop ∧
      (f b).successors = b.successors ∧ (f b).predecessors = b.predecessors) c :
      ((cu.updateBlock bb f).block c).start = (cu.block c).start ∧
        ((cu.updateBlock bb f).block c).stop = (cu.block c).stop ∧
        ((cu.updateBlock bb f).block c).successors = (cu.block c).successors ∧
        ((cu.updateBlock bb f).block c).predecessors = (cu.block c).predecessors := by
    rw [updateBlock_block]
    split
    · exact hf _
    · exact ⟨rfl, rfl, rfl, rfl⟩
  have hother f c (hc : c ≠ bb) : (cu.updateBlock bb f).block c = cu.block c := by
    rw [updateBlock_block, if_neg hc]
  have hself f : (cu.updateBlock bb f).block bb = f (cu.block bb) := by
    rw [updateBlock_block, if_pos rfl]
  simp only [noteInsn]
  by_cases hts : byteAt code pc = opcTableswitch
  · rw [if_pos hts]
    exact hswitch (mem_tableswitchTargets hlen hi hts) (.inl hts)
  by_cases hls : byteAt code pc = opcLookupswitch
  · rw [if_neg hts, if_pos hls]
    exact hswitch (mem_lookupswitchTargets hi hls) (.inr hls)
  rw [if_neg hts, if_neg hls]
  by_cases hb : bcIsBranch (byteAt code pc) = true
  · have hmem d : d ∈ [bcTargetOff code pc + pc] ↔ JumpDest code pc d := by
      rw [mem_singleton, Int.add_comm]
      constructor
      · intro hd
        rw [hd]
        exact .branch hb hts hls
      · intro hd
        cases hd with
        | branch => rfl
        | tableDefault ho | tableCase _ ho => exact absurd ho hts
        | lookupDefault ho | lookupCase _ ho => exact absurd ho hls
    obtain ⟨targets', hset, hcap', htest⟩ := setTargets_dests hcap hmem hdests
    have h0 := (hdests _ ((hmem _).mp (mem_singleton.mpr rfl))).1
    have hplain : isPlainBranch (byteAt code pc) = true := by simp [isPlainBranch, hb, hts, hls]
    rw [if_pos hb, hset]
    refine ⟨_, _, rfl, rfl, rfl, hshape _ fun _ => ⟨rfl, rfl, rfl, rfl⟩, hother _, ?_, fun _ => ?_, ?_, ?_, hcap', htest⟩
    · rw [hself, hplain]
    · rw [hself]
      change ((bcTargetOff code pc + pc).toNat : Int) = _
      omega
    · rw [hself, bcIsReturn_of_branch hb]
      exact hcr
    · rw [hself, bcIsAthrow_of_branch (.inl hb)]
      exact hca
  · rw [if_neg hb]
    have hplain : isPlainBranch (byteAt code pc) = false := by simp [isPlainBranch, hb]
    rw [Bool.not_eq_true] at hb
    by_cases hr : bcIsReturn (byteAt code pc) = true
    · rw [if_pos hr]
      refine ⟨_, _, rfl, rfl, rfl, hshape _ fun _ => ⟨rfl, rfl, rfl, rfl⟩, hother _, ?_, ?_, ?_, ?_, rfl, hnone hb⟩
      · rw [hself, hplain]
        exact hcb
      · simp [hplain]
      · rw [hself, hr]
      · rw [hself, bcIsAthrow_of_branch (.inr hr)]
        exact hca
    · have ha : bcIsAthrow (byteAt code pc) = true := by simpa [bcEndsBasicBlock, hb, hr] using hends
      rw [if_neg hr, if_pos ha]
      refine ⟨_, _, rfl, rfl, rfl, hshape _ fun _ => ⟨rfl, rfl, rfl, rfl⟩, hother _, ?_, ?_, ?_, ?_, rfl, hnone hb⟩
      · rw [hself, hplain]
        exact hcb
      · simp [hplain]
      · rw [hself, (Bool.not_eq_true _).mp hr]
        exact hcr
      · rw [hself, ha]

/-- The block `bb` was split at `o`, and there is an edge to the new block if `edge` is set. -/
structure SplitOff (n : Nat) (cu : CompilationUnit) (bb o : Nat) (edge : Bool) (cu' : CompilationUnit) : Prop where
  wellFormed : cu'.WellFormed n
  nrBb : cu'.nrBb = cu.nrBb + 1
  start : ∀ c, (cu'.block c).start = if c = cu.nrBb then o else (cu.block c).start
  stop : ∀ c, (cu'.block c).stop =
    if c = cu.nrBb then (cu.block bb).stop else if c = bb then o else (cu.block c).stop
  successors : ∀ c, (cu'.block c).successors = if c = cu.nrBb then (cu.block bb).successors
    else if c = bb then (if edge then [cu.nrBb] else []) else (cu.block c).successors
  hasBranch : ∀ c, (cu'.block c).hasBranch =
    if c = cu.nrBb then (cu.block bb).hasBranch else if c = bb then false else (cu.block c).hasBranch
  brTargetOff : ∀ c, (cu'.block c).hasBranch = true → (cu'.block c).brTargetOff =
    if c = cu.nrBb then (cu.block bb).brTargetOff else (cu.block c).brTargetOff
  hasReturn : ∀ c, (cu'.block c).hasReturn =
    if c = cu.nrBb then (cu.block bb).hasReturn else if c = bb then false else (cu.block c).hasReturn
  hasAthrow : ∀ c, (cu'.block c).hasAthrow = if c = cu.nrBb then false else (cu.block c).hasAthrow
  isEh : ∀ c, (cu'.block c).isEh = if c = cu.nrBb then false else (cu.block c).isEh

theorem splitOff_of_split (h : cu.WellFormed n) (hb : bb < cu.nrBb)
    (ho : (cu.block bb).start < o ∧ o < (cu.block bb).stop) (hs : Split cu bb o cu') : SplitOff n cu bb o false cu' where
  wellFormed := h.split hs hb ho
  nrBb := hs.nrBb
  start := hs.start
  stop := hs.stop
  successors := hs.successors
  hasBranch := hs.hasBranch
  brTargetOff _ := hs.brTargetOff
  hasReturn := hs.hasReturn
  hasAthrow := hs.hasAthrow
  isEh := hs.isEh

theorem SplitOff.addSuccessor (h : SplitOff n cu bb o false cu')
    (hb : bb < cu.nrBb) : SplitOff n cu bb o true (bbAddSuccessor cu' bb cu.nrBb) := by
  have hfield {α : Type} (f : BasicBlock → α) (hf : ∀ bb, f { bb with successors := [], predecessors := [] } = f bb)
      c : f ((bbAddSuccessor cu' bb cu.nrBb).block c) = f (cu'.block c) := by
    rw [← hf ((bbAddSuccessor cu' bb cu.nrBb).block c), ← hf (cu'.block c), bbAddSuccessor_block]
  refine ⟨h.wellFormed.addSuccessor (by have := h.nrBb; omega) (by have := h.nrBb; omega), h.nrBb, fun c => ?_, fun c => ?_,
    fun c => ?_, fun c => ?_, fun c => ?_, fun c => ?_, fun c => ?_, fun c => ?_⟩
  · rw [hfield BasicBlock.start (fun _ => rfl), h.start]
  · rw [hfield BasicBlock.stop (fun _ => rfl), h.stop]
  · rw [bbAddSuccessor_successors, h.successors]
    by_cases hc : c = bb
    · subst hc
      simp [Nat.ne_of_lt hb]
    · simp [hc]
  · rw [hfield BasicBlock.hasBranch (fun _ => rfl), h.hasBranch]
  · rw [hfield BasicBlock.hasBranch (fun _ => rfl), hfield BasicBlock.brTargetOff (fun _ => rfl)]
    exact h.brTargetOff c
  · rw [hfield BasicBlock.hasReturn (fun _ => rfl), h.hasReturn]
  · rw [hfield BasicBlock.hasAthrow (fun _ => rfl), h.hasAthrow]
  · rw [hfield BasicBlock.isEh (fun _ => rfl), h.isEh]

theorem hasFallThroughEdge_of_ends (h : bcEndsBasicBlock opc = true) :
    hasFallThroughEdge opc = (bcIsBranch opc && !bcIsGoto opc) := by
  simp [hasFallThroughEdge, h]

theorem splitBehind_spec {cu : CompilationUnit} (h : cu.WellFormed n) (hb : bb < cu.nrBb)
    (ho : (cu.block bb).start < o ∧ o < (cu.block bb).stop) (hends : bcEndsBasicBlock opc = true) :
    ∃ cu', splitBehind cu bb opc o = some (cu', some cu.nrBb) ∧ SplitOff n cu bb o (hasFallThroughEdge opc) cu' := by
  have hin : (cu.block bb).start ≤ o ∧ o ≤ (cu.block bb).stop := by omega
  obtain ⟨cu', hsplit⟩ := bbSplit_isSome hin
  have hoff := splitOff_of_split h hb ho (split_of_bbSplit hsplit).2
  rw [hasFallThroughEdge_of_ends hends, splitBehind, if_neg (Nat.ne_of_lt ho.2), hsplit]
  cases bcIsBranch opc && !bcIsGoto opc with
  | false => exact ⟨cu', rfl, hoff⟩
  | true => exact ⟨_, rfl, hoff.addSuccessor hb⟩

theorem EndsWith.congr {targets : Bool} (h : EndsWith code targets cu b p)
    (hnr : cu'.nrBb = cu.nrBb) (hstart : ∀ c, (cu'.block c).start = (cu.block c).start)
    (hb : { cu'.block b with predecessors := [], isEh := false } = { cu.block b with predecessors := [], isEh := false }) :
    EndsWith code targets cu' b p := by
  simp only [BasicBlock.mk.injEq, and_true, true_and] at hb
  obtain ⟨-, hstop, hbranch, hreturn, -, htarget, hsucc⟩ := hb
  refine ⟨hbranch.trans h.hasBranch, ?_, hreturn.trans h.hasReturn, fun c => ?_⟩
  · rw [htarget]
    exact h.brTargetOff
  · rw [hnr, hstart, hsucc, hstop, h.successors]

section

variable (h : LoopInv code pc s) (hpc : InsnStart code pc) (hi : InsnAt code pc len)

include h hpc hi

/-- The last instruction of the code ends the current block, which is not split. -/
theorem LoopInv.endCode (hend : pc + len = code.length) {cu' : CompilationUnit}
    (hn : Noted code pc s.bb s.cu cu' s.branchTargets targets') : LoopInv code (pc + len) ⟨cu', s.bb, targets'⟩ := by
  have hlast : LastInsn code (pc + len) pc := ⟨hpc, len, hi, rfl⟩
  have hstop c := (hn.shape c).2.1
  refine ⟨h.wellFormed.of_fields hn.nrBb hn.bbList hn.shape, hn.nrBb ▸ h.current, (hstop s.bb).trans h.current_stop, ?_, ?_, ?_,
    ?_, fun hlt => absurd hlt (by omega), hn.capacity ▸ h.capacity, ?_⟩
  · rw [(hn.shape s.bb).1]
    have := h.current_start
    omega
  · intro q hq hlt hl
    obtain ⟨b, hb, hs⟩ := h.leads q (hlast.le_of_lt hl.insnStart (by omega)) hlt hl
    exact ⟨b, hn.nrBb ▸ hb, (hn.shape b).1.trans hs⟩
  · intro b hb
    rw [(hn.shape b).1]
    exact h.only b (hn.nrBb ▸ hb)
  · intro b hb _ p hp
    rw [hn.nrBb] at hb
    rw [hstop b] at hp
    by_cases hbb : b = s.bb
    · subst hbb
      rw [h.current_stop, ← hend] at hp
      obtain rfl := hp.unique hlast
      refine ⟨⟨hn.hasBranch, hn.brTargetOff, hn.hasReturn, fun c => ?_⟩, hn.hasAthrow⟩
      rw [(hn.shape s.bb).2.2.1, (h.clean hi.1).2.2.2, (hn.shape c).1, hstop, h.current_stop, hn.nrBb]
      refine iff_of_false not_mem_nil ?_
      rintro ⟨hc, ⟨-, hs⟩ | ⟨ht, -⟩⟩
      · have := h.wellFormed.bounds hc
        omega
      · cases ht
    · obtain ⟨hends, hathrow⟩ := h.ends b hb (h.stop_le hb hbb) p hp
      refine ⟨hends.congr hn.nrBb (fun c => (hn.shape c).1) (by rw [hn.other b hbb]), ?_⟩
      rw [hn.other b hbb, hathrow]
  · intro o ho
    rw [hn.targets o ho, h.targets o ho, exists_dest_iff hpc hi]

theorem LoopInv.splitOff (hlt : pc + len < code.length) (hends : bcEndsBasicBlock (byteAt code pc) = true)
    (hs : SplitOff code.length s.cu s.bb (pc + len) (hasFallThroughEdge (byteAt code pc)) cu)
    (hn : Noted code pc s.bb cu cu' s.branchTargets targets') : LoopInv code (pc + len) ⟨cu', s.cu.nrBb, targets'⟩ := by
  have hlast : LastInsn code (pc + len) pc := ⟨hpc, len, hi, rfl⟩
  have hnr := hn.nrBb.trans hs.nrBb
  have hne := Nat.ne_of_lt h.current
  have hstart c : (cu'.block c).start = if c = s.cu.nrBb then pc + len else (s.cu.block c).start :=
    (hn.shape c).1.trans (hs.start c)
  have hstop c := (hn.shape c).2.1.trans (hs.stop c)
  have hnew : cu'.block s.cu.nrBb = cu.block s.cu.nrBb := hn.other _ hne.symm
  have hwf := hs.wellFormed.of_fields hn.nrBb hn.bbList hn.shape
  refine ⟨hwf, by simp [hnr], ?_, ?_, ?_, ?_, ?_, ?_, hn.capacity ▸ h.capacity, ?_⟩
  · rw [hstop, if_pos rfl, h.current_stop]
  · exact le_of_eq (by rw [hstart, if_pos rfl])
  · intro q hq hqn hl
    rcases Nat.lt_or_eq_of_le hq with hqlt | rfl
    · obtain ⟨b, hb, hbs⟩ := h.leads q (hlast.le_of_lt hl.insnStart hqlt) hqn hl
      refine ⟨b, by simp only [hnr]; omega, ?_⟩
      rw [hstart, if_neg (Nat.ne_of_lt hb), hbs]
    · exact ⟨s.cu.nrBb, by simp [hnr], by rw [hstart, if_pos rfl]⟩
  · intro b hb
    rw [hstart]
    split
    · exact .inr ⟨pc, hlast, hends⟩
    · rename_i hbn
      exact h.only b (by simp only [hnr] at hb; omega)
  · intro b hb hble p hp
    rw [hstop] at hp hble
    by_cases hbn : b = s.cu.nrBb
    · -- the new block is not done yet
      rw [if_pos hbn, h.current_stop] at hble
      omega
    · have hb' : b < s.cu.nrBb := by simp only [hnr] at hb; omega
      rw [if_neg hbn] at hp
      by_cases hbb : b = s.bb
      · subst hbb
        rw [if_pos rfl] at hp
        obtain rfl := hp.unique hlast
        refine ⟨⟨hn.hasBranch, hn.brTargetOff, hn.hasReturn, fun c => ?_⟩, hn.hasAthrow⟩
        rw [(hn.shape s.bb).2.2.1, hs.successors, if_neg hne, if_pos rfl, hstop, if_neg hne, if_pos rfl]
        -- the new block is the only one that starts there
        have honly : c < cu'.nrBb ∧ (cu'.block c).start = p + len ↔ c = s.cu.nrBb := by
          constructor
          · rintro ⟨hc, hcs⟩
            exact hwf.start_inj hc (by simp [hnr]) (by rw [hcs, hstart, if_pos rfl])
          · rintro rfl
            exact ⟨by simp [hnr], by rw [hstart, if_pos rfl]⟩
        cases hasFallThroughEdge (byteAt code p) with
        | false => simp
        | true => simpa using honly.symm
      · rw [if_neg hbb] at hp
        have hpast := h.stop_le hb' hbb
        obtain ⟨hends', hathrow⟩ := h.ends b hb' hpast p hp
        have hother := hn.other b hbb
        refine ⟨hends'.transfer ?_ ?_ ?_ ?_ ?_ hnr hstart (by have := hi.pos; omega) (fun ht => absurd ht (by decide)), ?_⟩
        · rw [hother, hs.hasBranch, if_neg hbn, if_neg hbb]
        · rw [hother]
          intro hbr
          rw [hs.brTargetOff b hbr, if_neg hbn]
        · rw [hother, hs.hasReturn, if_neg hbn, if_neg hbb]
        · rw [hother, hs.successors, if_neg hbn, if_neg hbb]
        · rw [hstop, if_neg hbn, if_neg hbb]
        · rw [hother, hs.hasAthrow, if_neg hbn, hathrow]
  · intro _
    obtain ⟨hcb, hcr, hca, hcs⟩ := h.clean hi.1
    refine ⟨?_, ?_, ?_, ?_⟩
    · rw [hnew, hs.hasBranch, if_pos rfl, hcb]
    · rw [hnew, hs.hasReturn, if_pos rfl, hcr]
    · rw [hnew, hs.hasAthrow, if_pos rfl]
    · rw [hnew, hs.successors, if_pos rfl, hcs]
  · intro o ho
    rw [hn.targets o ho, h.targets o ho, exists_dest_iff hpc hi]

end

/-- **One round of the loop.** -/
theorem LoopInv.step (h : LoopInv code pc s) (hlen : code.length < 2 ^ 31) (hpc : InsnStart code pc)
    (hi : InsnAt code pc len) (hdests : ∀ d, JumpDest code pc d → ValidDest code d) :
    ∃ s', splitAfterInsn code pc s = some s' ∧ LoopInv code (pc + len) s' := by
  unfold splitAfterInsn
  cases hends : bcEndsBasicBlock (byteAt code pc) with
  | false => exact ⟨s, rfl, h.skip hpc hi hends⟩
  | true =>
    obtain ⟨hcb, hcr, hca, -⟩ := h.clean hi.1
    simp only [bcInsnSize_of_insnAt hlen hi, Bool.not_true, Bool.false_eq_true, if_false, Option.bind_eq_bind,
      Option.bind_some]
    rcases Nat.lt_or_eq_of_le hi.2.2 with hlt | heq
    · have hin : (s.cu.block s.bb).start < pc + len ∧ pc + len < (s.cu.block s.bb).stop := by
        have := h.current_start
        have := h.current_stop
        have := hi.pos
        omega
      obtain ⟨cu, hsplit, hs⟩ := splitBehind_spec h.wellFormed h.current hin hends
      have hne := Nat.ne_of_lt h.current
      have hcb' : (cu.block s.bb).hasBranch = false := by rw [hs.hasBranch, if_neg hne, if_pos rfl]
      have hcr' : (cu.block s.bb).hasReturn = false := by rw [hs.hasReturn, if_neg hne, if_pos rfl]
      have hca' : (cu.block s.bb).hasAthrow = false := by rw [hs.hasAthrow, if_neg hne, hca]
      obtain ⟨cu', targets', hnote, hn⟩ := noteInsn_spec hlen hi h.capacity hdests hends hcb' hcr' hca'
      rw [hsplit]
      simp only [Option.bind_some, hnote]
      exact ⟨_, rfl, h.splitOff hpc hi hlt hends hs hn⟩
    · obtain ⟨cu', targets', hnote, hn⟩ := noteInsn_spec hlen hi h.capacity hdests hends hcb hcr hca
      rw [splitBehind, if_pos (heq.trans h.current_stop.symm)]
      simp only [Option.bind_some, hnote]
      exact ⟨_, rfl, h.endCode hpc hi heq hn⟩

end Loop

/-- **The first loop** comes to its end, with all instructions done. -/
theorem splitAfterBranches_spec (m : VerifiedMethod) : ∃ s,
    splitAfterBranches m.code (m.code.length + 1) 0 ⟨entryUnit m.code.length, 0, allocBitset m.code.length⟩ = some s ∧
      LoopInv m.code m.code.length s := by
  -- fuel for each byte that is left
  have hrun fuel pc s (hfuel : m.code.length < fuel + pc) (hpc : InsnStart m.code pc)
      (hle : pc ≤ m.code.length) (h : LoopInv m.code pc s) :
      ∃ s', splitAfterBranches m.code fuel pc s = some s' ∧ LoopInv m.code m.code.length s' := by
    induction fuel generalizing pc s with
    | zero => omega
    | succ fuel ih =>
      rw [splitAfterBranches]
      split
      · rename_i hend
        exact ⟨s, rfl, Nat.le_antisymm hle hend ▸ h⟩
      · rename_i hlt
        obtain ⟨len, hi⟩ := m.complete.complete hpc (Nat.lt_of_not_le hlt)
        obtain ⟨s', hstep, h'⟩ := h.step m.length_lt hpc hi (m.dests pc (Nat.lt_of_not_le hlt) hpc)
        rw [hstep, bcInsnSize_of_insnAt m.length_lt hi]
        exact ih (pc + len) s' (by have := hi.pos; omega) (hpc.next hi) hi.2.2 h'
  exact hrun _ 0 _ (by omega) .zero (Nat.zero_le _) (loopInv_start m.nonempty)

end Jato.Jit.Flow
