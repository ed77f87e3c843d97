import Jato.Lib.Bitset
import Jato.Jit.RegAlloc

/-!
# Liveness analysis

`jit/liveness.c`, with `compute_insn_positions` and the variables of `jit/compilation-unit.c`. An instruction has two
positions, an even one for its uses and the odd one after it for its definitions. Blocks, and the instructions of a block,
are visited from the last to the first one, and every visit adds a range at the front of an interval or extends the first
range of it.

The intervals that come out have their ranges in order, and each fixed register has one interval
(`analyzeLiveness_scanInput`). A range can be empty: a block without instructions gives one to the variables that are
live at its end.
-/

namespace Jato.Jit

open Jato.Lib List

/-! ## Variables -/

/-- The variables of a compilation unit. The interval of a variable has its index, `varInfos` is the list of the source
with the newest variable first, and `fixedVarInfos` has the variable of each fixed register. -/
structure VarInfos where
  vregs : List Nat
  nrVregs : Nat
  store : Intervals
  varInfos : List Nat
  fixedVarInfos : Nat → Option Nat

/-- The variables of a new compilation unit. -/
def noVars (arch : Arch) : VarInfos := ⟨[], arch.nrFixedRegisters, [], [], fun _ => none⟩

/-- `do_get_var` with the virtual register and the interval of the new variable. -/
def doGetVar (v : VarInfos) (vreg : Nat) (it : LiveInterval) : VarInfos :=
  { v with
    vregs := v.vregs ++ [vreg]
    store := v.store ++ [it]
    varInfos := v.store.length :: v.varInfos }

def getVar (v : VarInfos) (vmType : VmType) : VarInfos :=
  { doGetVar v v.nrVregs (allocInterval v.store.length vmType) with nrVregs := v.nrVregs + 1 }

/-- The variable of a fixed register, which is new at the first call. -/
def getFixedVar (arch : Arch) (v : VarInfos) (reg : Nat) : Option (VarInfos × Nat) := do
  guard (reg < arch.nrFixedRegisters)
  match v.fixedVarInfos reg with
  | some i => return (v, i)
  | none =>
    let it := { allocInterval v.store.length (arch.regDefaultType reg) with reg := some reg, fixedReg := true }
    return ({ doGetVar v reg it with fixedVarInfos := fun r => if r = reg then some v.store.length else v.fixedVarInfos r },
      v.store.length)

def insertRegisterToInterval (v : VarInfos) (i : Nat) (use : UsePosition) : VarInfos :=
  { v with store := v.store.put i { v.store.at i with usePositions := use :: (v.store.at i).usePositions } }

/-- The variables that instruction selection can make. -/
inductive Selected (arch : Arch) : VarInfos → Prop
  | init : Selected arch (noVars arch)
  | getVar {v : VarInfos} (h : Selected arch v) (vmType : VmType) : Selected arch (getVar v vmType)
  | getFixedVar {v v' : VarInfos} {reg i : Nat} (h : Selected arch v) (hget : getFixedVar arch v reg = some (v', i)) :
    Selected arch v'
  | use {v : VarInfos} (h : Selected arch v) (i : Nat) (use : UsePosition) :
    Selected arch (insertRegisterToInterval v i use)

/-! ## Instructions and live sets -/

/-- What liveness analysis uses of an instruction: the variables of `insn_uses` and `insn_defs`. -/
structure LirInsn where
  uses : List Nat
  defs : List Nat
  isCall : Bool
deriving DecidableEq, Repr

structure BasicBlock where
  insns : List LirInsn
  successors : List Nat
deriving DecidableEq, Repr

structure CompilationUnit where
  vars : VarInfos
  blocks : List BasicBlock

/-- The sets of a block. -/
structure LiveSets where
  useSet : Bitset
  defSet : Bitset
  liveInSet : Bitset
  liveOutSet : Bitset
deriving DecidableEq, Repr

def initSets (nrVregs : Nat) : LiveSets :=
  ⟨allocBitset nrVregs, allocBitset nrVregs, allocBitset nrVregs, allocBitset nrVregs⟩

/-- Sets have room for all virtual registers. -/
def hasVreg (set : Bitset) (vreg : Nat) : Bool := testBit (fun _ => false) set vreg

/-- `__analyze_use_def`. -/
def analyzeInsnUseDef (vregs : List Nat) (sets : LiveSets) (insn : LirInsn) : LiveSets :=
  let sets := insn.uses.foldl (fun sets var =>
    if hasVreg sets.defSet (vregs.getD var 0) then sets
    else { sets with useSet := setBit sets.useSet (vregs.getD var 0) }) sets
  insn.defs.foldl (fun sets var => { sets with defSet := setBit sets.defSet (vregs.getD var 0) }) sets

def analyzeUseDef (v : VarInfos) (blocks : List BasicBlock) : List LiveSets :=
  blocks.map fun bb => bb.insns.foldl (analyzeInsnUseDef v.vregs) (initSets v.nrVregs)

/-- The new sets of a block, with the live-in sets of its successors in `sets`. -/
def updateLiveSets (bb : BasicBlock) (this : LiveSets) (sets : List LiveSets) : LiveSets :=
  { this with
    liveInSet := bitsetUnionTo this.useSet (bitsetSub this.defSet this.liveOutSet)
    liveOutSet := bb.successors.foldl (fun out succ =>
      ((sets[succ]?).map fun s => bitsetUnionTo s.liveInSet out).getD out) (bitsetClearAll this.liveOutSet) }

/-- One pass over the blocks, from the last to the first one. -/
def liveSetsPass (blocks : List BasicBlock) (sets : List LiveSets) : List LiveSets :=
  (List.range blocks.length).reverse.foldl (fun sets i =>
    match blocks[i]?, sets[i]? with
    | some bb, some this => sets.set i (updateLiveSets bb this sets)
    | _, _ => sets) sets

/-- The sets when a pass changes nothing. -/
def analyzeLiveSets (blocks : List BasicBlock) : Nat → List LiveSets → Option (List LiveSets)
  | 0, _ => none
  | fuel + 1, sets =>
    let sets' := liveSetsPass blocks sets
    if sets' = sets then some sets' else analyzeLiveSets blocks fuel sets'

/-! ## Live ranges -/

/-- The first loop of `interval_add_range`: extend the first range that overlaps or is adjacent. -/
def extendRange (start stop : Nat) : List LiveRange → Option (List LiveRange)
  | [] => none
  | range :: rest =>
    if stop < range.start then none
    else if range.start ≤ stop ∧ start ≤ range.stop then
      some (⟨min start range.start, max stop range.stop⟩ :: rest)
    else (extendRange start stop rest).map (range :: ·)

/-- The second loop of `interval_add_range`. -/
def insertRange (new : LiveRange) : List LiveRange → List LiveRange
  | [] => [new]
  | range :: rest => if range.start < new.start then range :: insertRange new rest else new :: range :: rest

def intervalAddRange (start stop : Nat) (ranges : List LiveRange) : List LiveRange :=
  (extendRange start stop ranges).getD (insertRange ⟨start, stop⟩ ranges)

/-- A definition at `pos` in a block that ends at `stop`. -/
def defineRange (pos stop : Nat) : List LiveRange → List LiveRange
  | [] => intervalAddRange (pos + 1) stop []
  | range :: rest => { range with start := pos + 1 } :: rest

def updateRanges (f : List LiveRange → List LiveRange) (v : VarInfos) (i : Nat) : VarInfos :=
  { v with store := v.store.put i { v.store.at i with ranges := f (v.store.at i).ranges } }

/-- A call at `pos` overwrites a caller-saved register. -/
def clobberReg (arch : Arch) (pos : Nat) (v : VarInfos) (reg : Nat) : Option VarInfos := do
  let (v, var) ← getFixedVar arch v reg
  return updateRanges (intervalAddRange (pos + 1) (pos + 2)) v var

/-- The ranges of the instruction at `pos`, in the block from `start` to `stop`. -/
def updateInsnRanges (arch : Arch) (start stop pos : Nat) (insn : LirInsn) (v : VarInfos) : Option VarInfos :=
  let v := insn.defs.foldl (updateRanges (defineRange pos stop)) v
  let v := insn.uses.foldl (updateRanges (intervalAddRange start (pos + 1))) v
  if insn.isCall then arch.callerSaveRegs.foldlM (clobberReg arch pos) v else some v

/-- `__update_live_ranges` for the instructions from `pos` on. -/
def updateBlockRanges (arch : Arch) (start stop : Nat) : Nat → List LirInsn → VarInfos → Option VarInfos
  | _, [], v => some v
  | pos, insn :: rest, v => (updateBlockRanges arch start stop (pos + 2) rest v).bind
    (updateInsnRanges arch start stop pos insn)

/-- The end of a block that starts at `start`. -/
def BasicBlock.endInsn (bb : BasicBlock) (start : Nat) : Nat := start + 2 * bb.insns.length

/-- The ranges of variables that are live at the end of a block. -/
def addLiveOut (set : Bitset) (start stop : Nat) (v : VarInfos) : VarInfos :=
  v.varInfos.foldl (fun v var =>
    if hasVreg set (v.vregs.getD var 0) then updateRanges (intervalAddRange start stop) v var else v) v

/-- `update_live_ranges` for the blocks from `start` on. -/
def updateLiveRanges (arch : Arch) : Nat → List (BasicBlock × LiveSets) → VarInfos → Option VarInfos
  | _, [], v => some v
  | start, (bb, sets) :: rest, v =>
    (updateLiveRanges arch (bb.endInsn start) rest v).bind fun v =>
      updateBlockRanges arch start (bb.endInsn start) start bb.insns
        (addLiveOut sets.liveOutSet start (bb.endInsn start) v)

/-- The end of the blocks from `start` on, as `compute_insn_positions` counts. -/
def endInsns (start : Nat) (blocks : List BasicBlock) : Nat := blocks.foldl (fun pos bb => bb.endInsn pos) start

/-- The end of the last block. -/
def lastInsn (blocks : List BasicBlock) : Nat := endInsns 0 blocks

def analyzeLiveness (arch : Arch) (fuel : Nat) (cu : CompilationUnit) : Option VarInfos := do
  let sets ← analyzeLiveSets cu.blocks fuel (analyzeUseDef cu.vars cu.blocks)
  updateLiveRanges arch 0 (cu.blocks.zip sets) cu.vars

/-! ## Ranges in order -/

/-- The ranges of an interval while blocks are visited backwards: they start at `lo` or later, end at `e` or later and at
`bound` or earlier, and those behind the first one start at `m` or later. -/
structure Ranged (lo e m bound : Nat) (ranges : List LiveRange) : Prop where
  pairwise : ranges.Pairwise fun a b => a.stop ≤ b.start
  le : ∀ r ∈ ranges, r.start ≤ r.stop
  lo : ∀ r ∈ ranges, lo ≤ r.start
  stop : ∀ r ∈ ranges, e ≤ r.stop
  tail : ∀ r ∈ ranges.tail, m ≤ r.start
  bound : ∀ r ∈ ranges, r.stop ≤ bound

section Ranges

variable {lo e m bound : Nat} {ranges : List LiveRange}

theorem ranged_nil : Ranged lo e m bound [] := ⟨.nil, nofun, nofun, nofun, nofun, nofun⟩

theorem Ranged.mono (h : Ranged lo e m bound ranges) {lo' e' m' : Nat} (hlo : lo' ≤ lo) (he : e' ≤ e) (hm : m' ≤ m) :
    Ranged lo' e' m' bound ranges :=
  ⟨h.pairwise, h.le, fun r hr => le_trans hlo (h.lo r hr), fun r hr => le_trans he (h.stop r hr),
    fun r hr => le_trans hm (h.tail r hr), h.bound⟩

theorem Ranged.cons {r : LiveRange} (h : Ranged lo e m bound ranges) (hr : r.start ≤ r.stop) (hlo : lo ≤ r.start)
    (he : e ≤ r.stop) (hb : r.stop ≤ bound) (hbehind : ∀ b ∈ ranges, r.stop ≤ b.start)
    (hm : ∀ b ∈ ranges, m ≤ b.start) : Ranged lo e m bound (r :: ranges) :=
  ⟨pairwise_cons.mpr ⟨hbehind, h.pairwise⟩, forall_mem_cons.mpr ⟨hr, h.le⟩,
    forall_mem_cons.mpr ⟨hlo, h.lo⟩, forall_mem_cons.mpr ⟨he, h.stop⟩, hm,
    forall_mem_cons.mpr ⟨hb, h.bound⟩⟩

theorem Ranged.of_cons {r : LiveRange} (h : Ranged lo e m bound (r :: ranges)) : Ranged lo e m bound ranges :=
  ⟨(pairwise_cons.mp h.pairwise).2, fun b hb => h.le b (mem_cons_of_mem r hb),
    fun b hb => h.lo b (mem_cons_of_mem r hb), fun b hb => h.stop b (mem_cons_of_mem r hb),
    fun b hb => h.tail b (mem_of_mem_tail hb), fun b hb => h.bound b (mem_cons_of_mem r hb)⟩

/-- A range that reaches at most to the second range is put in front or extends the first one. -/
theorem intervalAddRange_ranged {start stop : Nat} (h : Ranged lo e m bound ranges) (hlo : lo ≤ start)
    (hse : start ≤ e) (hes : e ≤ stop) (hsm : stop ≤ m) (hms : m ≤ stop + 1) (hb : stop ≤ bound) :
    Ranged lo e m bound (intervalAddRange start stop ranges) := by
  cases ranges with
  | nil =>
    exact ranged_nil.cons (le_trans hse hes) hlo hes hb nofun nofun
  | cons first rest =>
    have hfirst := h.stop first mem_cons_self
    have hflo := h.lo first mem_cons_self
    have hfle := h.le first mem_cons_self
    have hfb := h.bound first mem_cons_self
    have hrest := (pairwise_cons.mp h.pairwise).1
    rw [intervalAddRange, extendRange]
    split
    · rename_i hlt
      rw [Option.getD_none, insertRange, if_neg (by change ¬first.start < start; omega)]
      have hbehind : ∀ b ∈ first :: rest, stop < b.start := by
        intro b hmem
        rcases mem_cons.mp hmem with rfl | hmem
        · exact hlt
        · have := hrest b hmem
          omega
      refine h.cons (le_trans hse hes) hlo hes hb (fun b hmem => le_of_lt (hbehind b hmem)) fun b hmem => ?_
      exact le_trans hms (hbehind b hmem)
    · rename_i hge
      rw [if_pos (by omega), Option.getD_some]
      refine h.of_cons.cons ?_ ?_ ?_ ?_ (fun b hmem => ?_) h.tail
      · change min start first.start ≤ max stop first.stop
        omega
      · change lo ≤ min start first.start
        omega
      · change e ≤ max stop first.stop
        omega
      · change max stop first.stop ≤ bound
        omega
      · have h1 := hrest b hmem
        have h2 := h.tail b hmem
        change max stop first.stop ≤ b.start
        omega

theorem defineRange_ranged {pos stop : Nat} (h : Ranged lo (pos + 2) m bound ranges) (hlo : lo ≤ pos)
    (hs : pos + 2 ≤ stop) (hb : stop ≤ bound) : Ranged lo (pos + 2) m bound (defineRange pos stop ranges) := by
  cases ranges with
  | nil => exact ranged_nil.cons (by change pos + 1 ≤ stop; omega) (by change lo ≤ pos + 1; omega) hs hb (by simp) (by simp)
  | cons first rest =>
    have hfirst := h.stop first mem_cons_self
    refine h.of_cons.cons ?_ ?_ hfirst (h.bound first mem_cons_self) (pairwise_cons.mp h.pairwise).1 h.tail
    · change pos + 1 ≤ first.stop
      omega
    · change lo ≤ pos + 1
      omega

end Ranges

/-! ## Variables in order -/

/-- The variables during the analysis, with the property `R` for the ranges of every interval. -/
structure VarsInv (R : List LiveRange → Prop) (v : VarInfos) : Prop where
  nodup : v.varInfos.Nodup
  mem : ∀ i, i ∈ v.varInfos ↔ i < v.store.length
  ranges : ∀ i < v.store.length, R (v.store.at i).ranges
  expired : ∀ i < v.store.length, (v.store.at i).expired = []
  unfixed : ∀ i < v.store.length, (v.store.at i).fixedReg = false → (v.store.at i).reg = none
  fixed : ∀ i < v.store.length, (v.store.at i).fixedReg = true →
    ∃ r, (v.store.at i).reg = some r ∧ v.fixedVarInfos r = some i

section Vars

variable {arch : Arch} {R R' : List LiveRange → Prop} {v v' : VarInfos}

section

variable (h : VarsInv R v)

include h

theorem VarsInv.mono (hR : ∀ ranges, R ranges → R' ranges) : VarsInv R' v :=
  ⟨h.nodup, h.mem, fun i hi => hR _ (h.ranges i hi), h.expired, h.unfixed, h.fixed⟩

theorem VarsInv.put {i : Nat} {it : LiveInterval} (hr : R (v.store.at i).ranges → R it.ranges)
    (he : it.expired = (v.store.at i).expired) (hf : it.fixedReg = (v.store.at i).fixedReg)
    (hreg : it.reg = (v.store.at i).reg) : VarsInv R { v with store := v.store.put i it } := by
  have hat {P : LiveInterval → Prop} j (hj : j < (v.store.put i it).length) (hit : i < v.store.length → P it)
      (hother : ∀ j < v.store.length, P (v.store.at j)) : P ((v.store.put i it).at j) := by
    rw [length_put] at hj
    by_cases hji : j = i
    · subst hji
      rw [at_put_self _ hj]
      exact hit hj
    · rw [at_put_ne _ hji]
      exact hother j hj
  refine ⟨h.nodup, fun j => (length_put v.store i it).symm ▸ h.mem j, fun j hj => ?_, fun j hj => ?_, fun j hj => ?_,
    fun j hj => ?_⟩
  · exact hat (P := fun it => R it.ranges) j hj (fun hi => hr (h.ranges i hi)) h.ranges
  · exact hat (P := fun it => it.expired = []) j hj (fun hi => he.trans (h.expired i hi)) h.expired
  · refine hat (P := fun it => it.fixedReg = false → it.reg = none) j hj (fun hi => ?_) h.unfixed
    rw [hf, hreg]
    exact h.unfixed i hi
  · rw [length_put] at hj
    by_cases hji : j = i
    · subst hji
      rw [at_put_self _ hj, hf, hreg]
      exact h.fixed j hj
    · rw [at_put_ne _ hji]
      exact h.fixed j hj

section

variable {f : List LiveRange → List LiveRange} (hf : ∀ ranges, R ranges → R (f ranges))

include hf

theorem VarsInv.updateRanges (i : Nat) : VarsInv R (updateRanges f v i) :=
  h.put (hf _) rfl rfl rfl

theorem VarsInv.foldl_updateRanges (l : List Nat) : VarsInv R (l.foldl (Jato.Jit.updateRanges f) v) :=
  List.foldlRecOn l (Jato.Jit.updateRanges f) h fun _ hv i _ => hv.updateRanges hf i

end

theorem VarsInv.doGetVar {vreg : Nat} {it : LiveInterval} {infos : Nat → Option Nat}
    (hr : R it.ranges) (he : it.expired = []) (hu : it.fixedReg = false → it.reg = none)
    (hf : it.fixedReg = true → ∃ r, it.reg = some r ∧ infos r = some v.store.length)
    (hinfos : ∀ r i, v.fixedVarInfos r = some i → infos r = some i) :
    VarsInv R { doGetVar v vreg it with fixedVarInfos := infos } := by
  have hlen : (v.store ++ [it]).length = v.store.length + 1 := by simp
  have hat {P : Nat → LiveInterval → Prop} (hit : P v.store.length it)
      (hold : ∀ j < v.store.length, P j (v.store.at j)) j (hj : j < (v.store ++ [it]).length) :
      P j (Intervals.at (v.store ++ [it]) j) := by
    by_cases hjl : j < v.store.length
    · rw [at_append_left hjl]
      exact hold j hjl
    · have : j = v.store.length := by omega
      subst this
      rw [at_append_new]
      exact hit
  refine ⟨nodup_cons.mpr ⟨fun hm => ?_, h.nodup⟩, fun j => ?_, hat (P := fun _ it => R it.ranges) hr h.ranges,
    hat (P := fun _ it => it.expired = []) he h.expired,
    hat (P := fun _ it => it.fixedReg = false → it.reg = none) hu h.unfixed,
    hat (P := fun j it => it.fixedReg = true → ∃ r, it.reg = some r ∧ infos r = some j) hf fun j hj hfj => ?_⟩
  · exact lt_irrefl _ ((h.mem _).mp hm)
  · change j ∈ v.store.length :: v.varInfos ↔ j < (v.store ++ [it]).length
    rw [mem_cons, h.mem, hlen]
    omega
  · obtain ⟨r, hreg, hinfo⟩ := h.fixed j hj hfj
    exact ⟨r, hreg, hinfos r j hinfo⟩

theorem VarsInv.getVar (hnil : R []) (vmType : VmType) : VarsInv R (getVar v vmType) := by
  have := @VarsInv.doGetVar R v h v.nrVregs (allocInterval v.store.length vmType) v.fixedVarInfos hnil rfl (fun _ => rfl)
    nofun fun _ _ => id
  exact ⟨this.nodup, this.mem, this.ranges, this.expired, this.unfixed, this.fixed⟩

theorem VarsInv.getFixedVar (hnil : R []) {reg i : Nat}
    (hget : getFixedVar arch v reg = some (v', i)) : VarsInv R v' := by
  unfold Jato.Jit.getFixedVar at hget
  rw [guard_bind_eq_some] at hget
  obtain ⟨-, hget⟩ := hget
  split at hget
  · cases hget
    exact h
  · rename_i hnone
    cases hget
    refine h.doGetVar hnil rfl (by simp) (fun _ => ⟨reg, rfl, if_pos rfl⟩) fun r j hj => ?_
    rw [if_neg, hj]
    rintro rfl
    rw [hnone] at hj
    cases hj

end

theorem Selected.varsInv (h : Selected arch v) : VarsInv (· = []) v := by
  induction h with
  | init => exact ⟨.nil, fun i => iff_of_false nofun (Nat.not_lt_zero i), nofun, nofun, nofun, nofun⟩
  | getVar _ vmType ih => exact ih.getVar rfl vmType
  | getFixedVar _ hget ih => exact ih.getFixedVar rfl hget
  | use _ i use ih => exact ih.put id rfl rfl rfl

end Vars

/-! ## The analysis -/

section Analysis

variable {arch : Arch} {start stop pos bound : Nat} {v v' : VarInfos}

theorem clobberReg_inv {reg : Nat} (h : VarsInv (Ranged start (pos + 1) (pos + 2) bound) v) (hs : start ≤ pos)
    (hb : pos + 2 ≤ bound) (hc : clobberReg arch pos v reg = some v') :
    VarsInv (Ranged start (pos + 1) (pos + 2) bound) v' := by
  unfold clobberReg at hc
  obtain ⟨⟨v₁, i⟩, hget, hc⟩ := Option.bind_eq_some_iff.mp hc
  cases hc
  refine (h.getFixedVar ranged_nil hget).updateRanges (fun ranges hr => ?_) i
  exact intervalAddRange_ranged hr (Nat.le_succ_of_le hs) (le_refl _) (Nat.le_succ _) (le_refl _) (Nat.le_succ _) hb

theorem updateInsnRanges_inv {insn : LirInsn} (h : VarsInv (Ranged start (pos + 2) (pos + 2) bound) v) (hs : start ≤ pos)
    (hp : pos + 2 ≤ stop) (hb : stop ≤ bound) (hu : updateInsnRanges arch start stop pos insn v = some v') :
    VarsInv (Ranged start pos pos bound) v' := by
  unfold updateInsnRanges at hu
  have hdefs := h.foldl_updateRanges (fun ranges hr => defineRange_ranged hr hs hp hb) insn.defs
  have huses := (hdefs.mono fun ranges hr => hr.mono (le_refl _) (Nat.le_succ (pos + 1)) (le_refl _)).foldl_updateRanges
    (fun ranges hr => intervalAddRange_ranged hr (le_refl _) (Nat.le_succ_of_le hs) (le_refl _)
      (Nat.le_succ _) (le_refl _) (by omega)) insn.uses
  have hweak {v} (hv : VarsInv (Ranged start (pos + 1) (pos + 2) bound) v) :
      VarsInv (Ranged start pos pos bound) v :=
    hv.mono fun ranges hr => hr.mono (le_refl _) (Nat.le_succ _) (by omega)
  split at hu
  · obtain ⟨hv', -, -⟩ := @foldlM_inv _ _ (clobberReg arch pos) (VarsInv (Ranged start (pos + 1) (pos + 2) bound))
      (fun _ _ => True) (fun _ => trivial) (fun _ _ => trivial) arch.callerSaveRegs
      (fun _ hI hstep => ⟨clobberReg_inv hI hs (by omega) hstep, trivial⟩) _ _ huses hu
    exact hweak hv'
  · cases hu
    exact hweak huses

theorem updateBlockRanges_inv (hb : stop ≤ bound) : ∀ {insns : List LirInsn} {pos : Nat} {v v' : VarInfos},
    VarsInv (Ranged start stop stop bound) v → start ≤ pos → pos + 2 * insns.length = stop →
    updateBlockRanges arch start stop pos insns v = some v' → VarsInv (Ranged start pos pos bound) v'
  | [], pos, v, v', h, _, hpos, hu => by
    cases hu
    cases hpos
    exact h
  | insn :: rest, pos, v, v', h, hs, hpos, hu => by
    rw [length_cons] at hpos
    rw [updateBlockRanges] at hu
    obtain ⟨v₁, hrest, hu⟩ := Option.bind_eq_some_iff.mp hu
    have hv₁ := updateBlockRanges_inv hb h (by omega) (by omega) hrest
    exact updateInsnRanges_inv hv₁ hs (by omega) hb hu

theorem addLiveOut_inv {set : Bitset} (h : VarsInv (Ranged start stop stop bound) v) (hs : start ≤ stop)
    (hb : stop ≤ bound) : VarsInv (Ranged start stop stop bound) (addLiveOut set start stop v) := by
  unfold addLiveOut
  refine List.foldlRecOn v.varInfos _ h fun v hv i _ => ?_
  split
  · exact hv.updateRanges (fun ranges hr => intervalAddRange_ranged hr (le_refl _) hs (le_refl _) (le_refl _)
      (Nat.le_succ _) hb) i
  · exact hv

theorem updateLiveRanges_inv : ∀ {blocks : List (BasicBlock × LiveSets)} {start : Nat} {v v' : VarInfos},
    endInsns start (blocks.map Prod.fst) ≤ bound → VarsInv (· = []) v →
    updateLiveRanges arch start blocks v = some v' → start ≤ bound ∧ VarsInv (Ranged start start start bound) v'
  | [], start, v, v', hb, h, hu => by
    cases hu
    exact ⟨hb, h.mono fun ranges hr => hr ▸ ranged_nil⟩
  | (bb, sets) :: rest, start, v, v', hb, h, hu => by
    rw [updateLiveRanges] at hu
    obtain ⟨v₁, hrest, hu⟩ := Option.bind_eq_some_iff.mp hu
    have hle : start ≤ bb.endInsn start := Nat.le_add_right _ _
    have hb : endInsns (bb.endInsn start) (rest.map Prod.fst) ≤ bound := hb
    obtain ⟨hend, hv₁⟩ := updateLiveRanges_inv hb h hrest
    refine ⟨le_trans hle hend, ?_⟩
    have hv₁ : VarsInv (Ranged start (bb.endInsn start) (bb.endInsn start) bound) v₁ :=
      hv₁.mono fun ranges hr => hr.mono hle (le_refl _) (le_refl _)
    exact updateBlockRanges_inv hend (addLiveOut_inv hv₁ hle hend) (le_refl _) rfl hu

/-- Where the blocks of a compilation unit end does not depend on its sets. -/
theorem endInsns_zip_le (start : Nat) : ∀ (blocks : List BasicBlock) (sets : List LiveSets),
    endInsns start ((blocks.zip sets).map Prod.fst) ≤ endInsns start blocks
  | [], _ => le_refl _
  | bb :: blocks, [] => by
    have hle : ∀ (blocks : List BasicBlock) (start : Nat), start ≤ endInsns start blocks := by
      intro blocks
      induction blocks with
      | nil => exact fun _ => le_refl _
      | cons bb blocks ih => exact fun start => le_trans (Nat.le_add_right _ _) (ih (bb.endInsn start))
    exact hle (bb :: blocks) start
  | bb :: blocks, _ :: sets => endInsns_zip_le (bb.endInsn start) blocks sets

/-- No interval has an empty range. -/
def NoEmptyRange (store : Intervals) : Prop := ∀ it ∈ store, ∀ r ∈ it.ranges, r.start < r.stop

instance (store : Intervals) : Decidable (NoEmptyRange store) :=
  inferInstanceAs (Decidable (∀ it ∈ store, ∀ r ∈ it.ranges, r.start < r.stop))

/-- **Liveness analysis** gives the allocator what it needs, empty ranges apart. -/
theorem analyzeLiveness_scanInput {fuel : Nat} {cu : CompilationUnit} (hcu : Selected arch cu.vars)
    (h : analyzeLiveness arch fuel cu = some v) (hne : NoEmptyRange v.store) :
    ScanInput (lastInsn cu.blocks) v.store v.varInfos := by
  unfold analyzeLiveness at h
  obtain ⟨sets, -, h⟩ := Option.bind_eq_some_iff.mp h
  obtain ⟨-, hv⟩ := updateLiveRanges_inv (endInsns_zip_le 0 cu.blocks sets) hcu.varsInv h
  refine ⟨hv.nodup, hv.mem, fun i hi => .of_pairwise (hv.ranges i hi).pairwise fun r hr => ?_,
    fun i hi x hx => ?_, hv.expired,
    hv.unfixed, fun i hi hf => ?_, fun i hi j hj hij hfi hfj he => ?_⟩
  · refine hne (v.store.at i) ?_ r hr
    rw [Intervals.at, getD_eq_getElem?_getD, getElem?_eq_getElem hi, Option.getD_some]
    exact getElem_mem hi
  · obtain ⟨r, hr, -, hlt⟩ := hx
    exact lt_of_lt_of_le hlt ((hv.ranges i hi).bound r hr)
  · obtain ⟨r, hr, -⟩ := hv.fixed i hi hf
    exact ⟨r, hr⟩
  · obtain ⟨r, hri, hinfo⟩ := hv.fixed i hi hfi
    obtain ⟨r', hrj, hinfo'⟩ := hv.fixed j hj hfj
    have hrr : r = r' := Option.some.inj (hri.symm.trans (he.trans hrj))
    subst hrr
    exact hij (Option.some.inj (hinfo.symm.trans hinfo'))

end Analysis

end Jato.Jit
