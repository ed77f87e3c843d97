import Jato.Jit.ControlFlowSplit

/-!
# Splitting at targets and handlers

The later phases of the control-flow analysis keep one invariant (`FlowInv`): the blocks tile the code, they start at
instructions, and their flags and edges are those of their last instructions, with the exception of `has_athrow`, which a
split leaves at the upper half. Cutting a block at an instruction inside it keeps the invariant (`FlowInv.cut`), and each
phase is a sequence of such cuts or of changes to edges and flags.

The last phase only goes through if each handler is led by a handler (`LedByHandler`): its assertion fails at a handler
inside a block that itself starts at no handler (`splitAtExceptionHandlers_spec`).
-/

namespace Jato.Jit.Flow

open Jato.Lib Jato.Vm List

/-- `q` is a destination of a branch or a switch. -/
def IsDest (code : List UInt8) (q : Nat) : Prop := ∃ p < code.length, InsnStart code p ∧ JumpDest code p q

def IsHandler (table : List ExceptionEntry) (q : Nat) : Prop := ∃ eh ∈ table, eh.handlerPc = q

/-- A block of the unit starts at `q`. -/
def StartsAt (cu : CompilationUnit) (q : Nat) : Prop := ∃ b < cu.nrBb, (cu.block b).start = q

/-- `p` is an athrow, and `s` the last position up to it that is first or follows an instruction that ends a block. -/
def AthrowFrom (code : List UInt8) (s p : Nat) : Prop :=
  InsnStart code p ∧ p < code.length ∧ byteAt code p = opcAthrow ∧ Leads code s ∧ s ≤ p ∧
    ∀ l, Leads code l → l ≤ p → l ≤ s

/-- The invariant of the later phases; `points` are the positions where blocks may have been cut, and the edges to branch
targets are there if `targets` is set. -/
structure FlowInv (code : List UInt8) (targets : Bool) (points : Nat → Prop) (cu : CompilationUnit) : Prop where
  wellFormed : cu.WellFormed code.length
  starts : ∀ b < cu.nrBb, InsnStart code (cu.block b).start
  leads : ∀ q < code.length, Leads code q → StartsAt cu q
  only : ∀ b < cu.nrBb, Leads code (cu.block b).start ∨ points (cu.block b).start
  dests : targets = true → ∀ q < code.length, IsDest code q → StartsAt cu q
  ends : ∀ b < cu.nrBb, ∀ p, LastInsn code (cu.block b).stop p → EndsWith code targets cu b p
  athrow : ∀ b < cu.nrBb, (cu.block b).hasAthrow = true ↔ ∃ p, AthrowFrom code (cu.block b).start p

section Cut

variable {code : List UInt8} {targets : Bool} {points : Nat → Prop} {cu cu' : CompilationUnit} {b o : Nat}

variable {n : Nat} {edge : Bool}

/-- No block starts strictly inside another. -/
theorem CompilationUnit.WellFormed.not_startsAt (h : cu.WellFormed n) (hb : b < cu.nrBb)
    (ho : (cu.block b).start < o ∧ o < (cu.block b).stop) : ¬ StartsAt cu o := by
  rintro ⟨c, hc, rfl⟩
  have hcb := h.unique hb hc ⟨le_of_lt ho.1, ho.2⟩ ⟨le_refl _, (h.bounds hc).1⟩
  subst hcb
  exact lt_irrefl _ ho.1

theorem CompilationUnit.WellFormed.startsAt_stop (h : cu.WellFormed n) (hb : b < cu.nrBb)
    (hlt : (cu.block b).stop < n) : StartsAt cu (cu.block b).stop := by
  obtain ⟨c, hc, heq⟩ := h.tiles.next ((h.mem b).mpr hb) hlt
  exact ⟨c, (h.mem c).mp hc, heq⟩

theorem FlowInv.exists_lastInsn (h : FlowInv code targets points cu) (hcomplete : InsnStart code code.length)
    (hb : b < cu.nrBb) : ∃ p, LastInsn code (cu.block b).stop p := by
  obtain ⟨hlt, hle⟩ := h.wellFormed.bounds hb
  refine Flow.exists_lastInsn ?_ (by omega)
  rcases Nat.lt_or_eq_of_le hle with hlt | heq
  · obtain ⟨c, hc, hs⟩ := h.wellFormed.startsAt_stop hb hlt
    exact hs ▸ h.starts c hc
  · exact heq ▸ hcomplete

theorem StartsAt.splitOff {q : Nat} (h : StartsAt cu q) (hs : SplitOff n cu b o edge cu') : StartsAt cu' q := by
  obtain ⟨c, hc, rfl⟩ := h
  exact ⟨c, by rw [hs.nrBb]; omega, by rw [hs.start, if_neg (Nat.ne_of_lt hc)]⟩

theorem SplitOff.startsAt (hs : SplitOff n cu b o edge cu') : StartsAt cu' o :=
  ⟨cu.nrBb, by rw [hs.nrBb]; omega, by rw [hs.start, if_pos rfl]⟩

section

variable (h : FlowInv code targets points cu) (hb : b < cu.nrBb) (ho : (cu.block b).start < o ∧ o < (cu.block b).stop)
  (hstart : InsnStart code o) (hpoint : points o)

include h hb ho hstart hpoint

/-- **Cutting a block** at an instruction inside it, with an edge from the upper half to the lower one. -/
theorem FlowInv.cut (hs : SplitOff code.length cu b o true cu') : FlowInv code targets points cu' := by
  have hlen := (h.wellFormed.bounds hb).2
  have hnot := h.wellFormed.not_startsAt hb ho
  have hnlead : ¬ Leads code o := fun hl => hnot (h.leads o (by omega) hl)
  have hstop c (hc : c < cu.nrBb) : o ≠ (cu.block c).stop := by
    intro heq
    exact hnot (heq ▸ h.wellFormed.startsAt_stop hc (by omega))
  have htarget p (hp : InsnStart code p) (hlt : p < code.length) (ht : targets = true)
      (hplain : isPlainBranch (byteAt code p) = true) : (o : Int) ≠ p + bcTargetOff code p := by
    intro heq
    simp only [isPlainBranch, Bool.and_eq_true, bne_iff_ne] at hplain
    exact hnot (h.dests ht o (by omega) ⟨p, hlt, hp, heq ▸ .branch hplain.1.1 hplain.1.2 hplain.2⟩)
  have hlt c (hc : c < cu'.nrBb) (hcn : c ≠ cu.nrBb) : c < cu.nrBb := by
    rw [hs.nrBb] at hc
    omega
  refine ⟨hs.wellFormed, fun c hc => ?_, fun q hq hl => (h.leads q hq hl).splitOff hs, fun c hc => ?_,
    fun ht q hq hd => (h.dests ht q hq hd).splitOff hs, fun c hc p hp => ?_, fun c hc => ?_⟩
  · rw [hs.start]
    split
    · exact hstart
    · exact h.starts c (hlt c hc ‹_›)
  · rw [hs.start]
    split
    · exact .inr hpoint
    · exact h.only c (hlt c hc ‹_›)
  · rw [hs.stop] at hp
    by_cases hcn : c = cu.nrBb
    · -- the lower half has the last instruction of the whole
      subst hcn
      rw [if_pos rfl] at hp
      have hplt := hp.lt
      refine (h.ends b hb p hp).transfer ?_ (fun hbr => ?_) ?_ ?_ ?_ hs.nrBb hs.start (hstop b hb)
        (htarget p hp.1 (by omega))
      · rw [hs.hasBranch, if_pos rfl]
      · rw [hs.brTargetOff _ hbr, if_pos rfl]
      · rw [hs.hasReturn, if_pos rfl]
      · rw [hs.successors, if_pos rfl]
      · rw [hs.stop, if_pos rfl]
    · have hc' := hlt c hc hcn
      rw [if_neg hcn] at hp
      by_cases hcb : c = b
      · -- the upper half ends with an instruction that ends no block
        subst hcb
        rw [if_pos rfl] at hp
        have hends : bcEndsBasicBlock (byteAt code p) = false := by
          cases hends : bcEndsBasicBlock (byteAt code p) with
          | false => rfl
          | true => exact absurd (.inr ⟨p, hp, hends⟩) hnlead
        have hfall : hasFallThroughEdge (byteAt code p) = true := by simp [hasFallThroughEdge, hends]
        simp only [bcEndsBasicBlock, Bool.or_eq_false_iff] at hends
        have hplain : isPlainBranch (byteAt code p) = false := by simp [isPlainBranch, hends.1.1]
        refine ⟨?_, fun hpb => ?_, ?_, fun d => ?_⟩
        · rw [hs.hasBranch, if_neg hcn, if_pos rfl, hplain]
        · rw [hplain] at hpb
          cases hpb
        · rw [hs.hasReturn, if_neg hcn, if_pos rfl, hends.2]
        · rw [hs.successors, if_neg hcn, if_pos rfl, if_pos rfl, hs.stop, if_neg hcn, if_pos rfl, hfall, hplain,
            mem_singleton]
          constructor
          · rintro rfl
            exact ⟨by rw [hs.nrBb]; omega, .inl ⟨rfl, by rw [hs.start, if_pos rfl]⟩⟩
          · rintro ⟨hd, ⟨-, hds⟩ | ⟨-, hpb, -⟩⟩
            · exact hs.wellFormed.start_inj hd (by rw [hs.nrBb]; omega) (by rw [hds, hs.start, if_pos rfl])
            · cases hpb
      · rw [if_neg hcb] at hp
        have hplt := hp.lt
        refine (h.ends c hc' p hp).transfer ?_ (fun hbr => ?_) ?_ ?_ ?_ hs.nrBb hs.start (hstop c hc')
          (htarget p hp.1 (by omega))
        · rw [hs.hasBranch, if_neg hcn, if_neg hcb]
        · rw [hs.brTargetOff _ hbr, if_neg hcn]
        · rw [hs.hasReturn, if_neg hcn, if_neg hcb]
        · rw [hs.successors, if_neg hcn, if_neg hcb]
        · rw [hs.stop, if_neg hcn, if_neg hcb]
  · rw [hs.hasAthrow, hs.start]
    split
    · refine iff_of_false (by simp) ?_
      rintro ⟨p, -, -, -, hl, -⟩
      exact hnlead hl
    · exact h.athrow c (hlt c hc ‹_›)

/-- A block that is made to start at a position of the code, as both later phases do it. -/
theorem FlowInv.exists_cut :
    ∃ cu', bbSplit cu b o = some (cu', cu.nrBb) ∧ SplitOff code.length cu b o true (bbAddSuccessor cu' b cu.nrBb) ∧
      FlowInv code targets points (bbAddSuccessor cu' b cu.nrBb) := by
  have hin : (cu.block b).start ≤ o ∧ o ≤ (cu.block b).stop := by omega
  obtain ⟨cu', hsplit⟩ := bbSplit_isSome hin
  have hs := (splitOff_of_split h.wellFormed hb ho (split_of_bbSplit hsplit).2).addSuccessor hb
  exact ⟨cu', hsplit, hs, h.cut hb ho hstart hpoint hs⟩

end

end Cut

/-! ## From the first phase on -/

section Phases

variable {code : List UInt8} {targets : Bool} {points : Nat → Prop} {cu : CompilationUnit}

/-- The blocks after the first loop are those the invariant speaks of, with nothing cut yet. -/
theorem LoopInv.flowInv {s : AfterBranches} (h : LoopInv code code.length s) (hcomplete : InsnStart code code.length)
    (points : Nat → Prop) : FlowInv code false points s.cu := by
  refine ⟨h.wellFormed, fun b hb => (h.only b hb).insnStart, fun q hq hl => h.leads q (le_of_lt hq) hq hl,
    fun b hb => .inl (h.only b hb), fun ht => absurd ht (by decide),
    fun b hb p hp => (h.ends b hb (h.wellFormed.bounds hb).2 p hp).1, fun b hb => ?_⟩
  obtain ⟨hlt, hle⟩ := h.wellFormed.bounds hb
  have hnext (hltn : (s.cu.block b).stop < code.length) : Leads code (s.cu.block b).stop := by
    obtain ⟨c, hc, hs⟩ := h.wellFormed.startsAt_stop hb hltn
    exact hs ▸ h.only c hc
  -- no position inside the block follows the end of another
  have hinside l (hl : Leads code l) (hlstop : l < (s.cu.block b).stop) : l ≤ (s.cu.block b).start := by
    by_contra hgt
    exact h.wellFormed.not_startsAt hb ⟨Nat.lt_of_not_le hgt, hlstop⟩ (h.leads l (by omega) (by omega) hl)
  have hend : InsnStart code (s.cu.block b).stop := by
    rcases Nat.lt_or_eq_of_le hle with hltn | heq
    · exact (hnext hltn).insnStart
    · exact heq ▸ hcomplete
  obtain ⟨p, hp⟩ := exists_lastInsn hend (by omega)
  rw [(h.ends b hb hle p hp).2]
  have hplt := hp.lt
  constructor
  · intro ha
    exact ⟨p, hp.1, by omega, by simpa [bcIsAthrow] using ha, h.only b hb, hp.le_of_lt (h.only b hb).insnStart hlt,
      fun l hl hlp => hinside l hl (by omega)⟩
  · rintro ⟨q, hq, hqn, ha, -, hqs, hqmax⟩
    obtain ⟨len, hi⟩ := hcomplete.complete hq hqn
    have hqlt : q < (s.cu.block b).stop := by
      by_contra hge
      have := hqmax _ (hnext (by omega)) (by omega)
      omega
    have hqlast : LastInsn code (q + len) q := ⟨hq, len, hi, rfl⟩
    have hqle := hend.le_of_lt hq hi hqlt
    have hqend : q + len = (s.cu.block b).stop := by
      by_contra hne
      have := hinside (q + len) (.inr ⟨q, hqlast, by rw [ha]; decide⟩) (by omega)
      have := hi.pos
      omega
    rw [hp.unique (hqend ▸ hqlast), ha]
    decide

variable {o b p : Nat} {bits : Bitset} {cu' : CompilationUnit}

theorem FlowInv.findBb (h : FlowInv code targets points cu) (ho : o < code.length) : ∃ b < cu.nrBb,
    (cu.block b).start ≤ o ∧ o < (cu.block b).stop ∧ findBb cu o = some b := h.wellFormed.findBb ho

/-- `find_bb` returns the block that starts at the position, if there is one. -/
theorem FlowInv.findBb_startsAt (h : FlowInv code targets points cu) (ho : o < code.length)
    (hs : StartsAt cu o) : ∃ b < cu.nrBb, (cu.block b).start = o ∧ Flow.findBb cu o = some b := by
  obtain ⟨b, hb, hle, hlt, hfind⟩ := h.findBb ho
  refine ⟨b, hb, ?_, hfind⟩
  by_contra hne
  exact h.wellFormed.not_startsAt hb ⟨by omega, hlt⟩ hs

/-! ## Branch targets -/

section

variable (h : FlowInv code false (IsDest code) cu)
  (hbits : ∀ o < code.length, testBit (fun _ => false) bits o = true ↔ IsDest code o)
  (hvalid : ∀ o, IsDest code o → InsnStart code o)

include h hbits hvalid

theorem splitAtBranchTarget_spec (ho : o < code.length) :
    ∃ cu', splitAtBranchTarget bits cu o = some cu' ∧ FlowInv code false (IsDest code) cu' ∧
      (∀ q, StartsAt cu q → StartsAt cu' q) ∧ (IsDest code o → StartsAt cu' o) := by
  unfold splitAtBranchTarget
  by_cases hd : IsDest code o
  · rw [if_pos ((hbits o ho).mpr hd)]
    obtain ⟨b, hb, hle, hlt, hfind⟩ := h.findBb ho
    simp only [hfind, Option.bind_eq_bind, Option.bind_some]
    split
    · rename_i heq
      exact ⟨cu, rfl, h, fun _ hq => hq, fun _ => ⟨b, hb, heq⟩⟩
    · rename_i hne
      obtain ⟨cu', hsplit, hs, hinv⟩ := h.exists_cut hb ⟨by omega, hlt⟩ (hvalid o hd) hd
      rw [hsplit]
      exact ⟨_, rfl, hinv, fun _ hq => hq.splitOff hs, fun _ => hs.startsAt⟩
  · rw [if_neg (fun ht => hd ((hbits o ho).mp ht))]
    exact ⟨cu, rfl, h, fun _ hq => hq, fun hd' => absurd hd' hd⟩

/-- **The second loop** makes a block start at each destination. -/
theorem splitAtBranchTargets_spec :
    ∃ cu', splitAtBranchTargets code.length bits cu = some cu' ∧ FlowInv code false (IsDest code) cu' ∧
      ∀ o < code.length, IsDest code o → StartsAt cu' o := by
  have hrun (os : List Nat) (hos : ∀ o ∈ os, o < code.length) cu
      (h : FlowInv code false (IsDest code) cu) : ∃ cu', os.foldlM (splitAtBranchTarget bits) cu = some cu' ∧
        FlowInv code false (IsDest code) cu' ∧ (∀ q, StartsAt cu q → StartsAt cu' q) ∧
        ∀ o ∈ os, IsDest code o → StartsAt cu' o := by
    induction os generalizing cu with
    | nil => exact ⟨cu, rfl, h, fun _ hq => hq, fun _ ho => absurd ho not_mem_nil⟩
    | cons o os ih =>
      obtain ⟨cu₁, hstep, h₁, hkeep₁, hstart₁⟩ := splitAtBranchTarget_spec h hbits hvalid (hos o (by simp))
      obtain ⟨cu₂, hrest, h₂, hkeep₂, hstart₂⟩ := ih (fun q hq => hos q (mem_cons_of_mem _ hq)) cu₁ h₁
      refine ⟨cu₂, by rw [foldlM_cons, hstep]; exact hrest, h₂, fun q hq => hkeep₂ q (hkeep₁ q hq), ?_⟩
      intro q hq hd
      rcases mem_cons.mp hq with rfl | hq'
      · exact hkeep₂ q (hstart₁ hd)
      · exact hstart₂ q hq' hd
  obtain ⟨cu', hfold, hinv, -, hstart⟩ := hrun (List.range code.length) (fun o ho => mem_range.mp ho) cu h
  exact ⟨cu', hfold, hinv, fun o ho => hstart o (mem_range.mpr ho)⟩

end

/-! ## Edges to branch targets -/

/-- The blocks of `bs` still lack the edges to their branch targets. -/
structure EdgesLeft (code : List UInt8) (cu₀ cu : CompilationUnit) (bs : List Nat) : Prop where
  wellFormed : cu.WellFormed code.length
  nrBb : cu.nrBb = cu₀.nrBb
  shape : ∀ c, { cu.block c with successors := [], predecessors := [] } =
    { cu₀.block c with successors := [], predecessors := [] }
  ends : ∀ b < cu.nrBb, ∀ p, LastInsn code (cu.block b).stop p → EndsWith code (decide (b ∉ bs)) cu b p

theorem EndsWith.withTarget {t : Nat} (h : EndsWith code false cu b p) (hnr : cu'.nrBb = cu.nrBb)
    (hshape : ∀ c, { cu'.block c with successors := [], predecessors := [] } =
      { cu.block c with successors := [], predecessors := [] })
    (hsucc : ∀ c, c ∈ (cu'.block b).successors ↔ c ∈ (cu.block b).successors ∨ c = t)
    (ht : ∀ c, c < cu.nrBb ∧ ((cu.block c).start : Int) = p + bcTargetOff code p ↔ c = t)
    (hplain : isPlainBranch (byteAt code p) = true) : EndsWith code true cu' b p := by
  have hb := hshape b
  simp only [BasicBlock.mk.injEq, and_true] at hb
  obtain ⟨-, hstop, hbranch, hreturn, -, htarget, -⟩ := hb
  refine ⟨hbranch.trans h.hasBranch, ?_, hreturn.trans h.hasReturn, fun c => ?_⟩
  · rw [htarget]
    exact h.brTargetOff
  · have hstart := congrArg BasicBlock.start (hshape c)
    rw [hsucc, h.successors, ← ht c, hnr, hstart, hstop]
    simp only [Bool.false_eq_true, false_and, or_false, hplain, true_and]
    rw [and_or_left]

theorem EndsWith.withoutTarget (h : EndsWith code false cu b p)
    (hplain : isPlainBranch (byteAt code p) = false) (targets : Bool) : EndsWith code targets cu b p :=
  ⟨h.hasBranch, h.brTargetOff, h.hasReturn, fun c => by rw [h.successors, hplain]; simp⟩

theorem EdgesLeft.step {cu₀ : CompilationUnit} {bs : List Nat} (h : EdgesLeft code cu₀ cu (b :: bs))
    (hcomplete : ∀ c < cu.nrBb, ∃ p, LastInsn code (cu.block c).stop p)
    (hdests : ∀ q, IsDest code q → q < code.length ∧ StartsAt cu q) (hb : b < cu.nrBb) (hnodup : b ∉ bs) :
    ∃ cu', updateBranchSuccessor cu b = some cu' ∧ EdgesLeft code cu₀ cu' bs := by
  obtain ⟨p, hp⟩ := hcomplete b hb
  have hbends : EndsWith code false cu b p := by simpa using h.ends b hb p hp
  -- the other blocks are as before
  have hothers c (hcb : c ≠ b) : decide (c ∉ b :: bs) = decide (c ∉ bs) := by simp [hcb]
  unfold updateBranchSuccessor
  cases hplain : isPlainBranch (byteAt code p) with
  | false =>
    rw [hbends.hasBranch, hplain, if_neg (by decide)]
    refine ⟨cu, rfl, h.wellFormed, h.nrBb, h.shape, fun c hc q hq => ?_⟩
    by_cases hcb : c = b
    · subst hcb
      rw [hq.unique hp]
      exact hbends.withoutTarget hplain _
    · exact hothers c hcb ▸ h.ends c hc q hq
  | true =>
    rw [hbends.hasBranch, hplain, if_pos rfl]
    have hoff := hbends.brTargetOff hplain
    have hplt := hp.lt
    simp only [isPlainBranch, Bool.and_eq_true, bne_iff_ne] at hplain
    have hdest : IsDest code (cu.block b).brTargetOff :=
      ⟨p, by omega, hp.1, hoff ▸ .branch hplain.1.1 hplain.1.2 hplain.2⟩
    have hplain' : isPlainBranch (byteAt code p) = true := by simp [isPlainBranch, hplain]
    obtain ⟨hlt, t, ht, hts⟩ := hdests _ hdest
    -- the block of the target is the one that starts there
    have hfind : Flow.findBb cu (cu.block b).brTargetOff = some t := by
      obtain ⟨t', ht', hle, hlt', hfind⟩ := h.wellFormed.findBb hlt
      rw [hfind, h.wellFormed.unique ht' ht ⟨hle, hlt'⟩ ⟨le_of_eq hts, hts ▸ (h.wellFormed.bounds ht).1⟩]
    have honly c : c < cu.nrBb ∧ ((cu.block c).start : Int) = p + bcTargetOff code p ↔ c = t := by
      constructor
      · rintro ⟨hc, hcs⟩
        exact h.wellFormed.start_inj hc ht (by omega)
      · rintro rfl
        exact ⟨ht, by omega⟩
    simp only [hfind, Option.bind_eq_bind, Option.bind_some]
    split
    · rename_i hcontains
      have hmem : t ∈ (cu.block b).successors := by simpa [bbSuccessorsContains] using hcontains
      refine ⟨cu, rfl, h.wellFormed, h.nrBb, h.shape, fun c hc q hq => ?_⟩
      by_cases hcb : c = b
      · subst hcb
        rw [hq.unique hp, decide_eq_true hnodup]
        refine hbends.withTarget rfl (fun _ => rfl) (fun d => ?_) honly hplain'
        rw [iff_self_or]
        rintro rfl
        exact hmem
      · exact hothers c hcb ▸ h.ends c hc q hq
    · refine ⟨_, rfl, h.wellFormed.addSuccessor hb ht, h.nrBb, fun c => ?_, fun c hc q hq => ?_⟩
      · rw [bbAddSuccessor_block, h.shape]
      · have hstop d := congrArg BasicBlock.stop (bbAddSuccessor_block cu b t d)
        have hstart d := congrArg BasicBlock.start (bbAddSuccessor_block cu b t d)
        rw [hstop] at hq
        by_cases hcb : c = b
        · subst hcb
          rw [hq.unique hp, decide_eq_true hnodup]
          refine hbends.withTarget rfl (fun d => bbAddSuccessor_block cu c t d) (fun d => ?_) honly hplain'
          rw [bbAddSuccessor_successors, if_pos rfl, mem_append, mem_singleton]
        · refine hothers c hcb ▸ (h.ends c hc q hq).congr rfl hstart ?_
          have hblock := bbAddSuccessor_block cu b t c
          have hsucc := bbAddSuccessor_successors cu b t c
          rw [if_neg hcb] at hsucc
          simp only [BasicBlock.mk.injEq, and_true, true_and] at hblock ⊢
          tauto

/-- **The third loop** adds the edges to the branch targets. -/
theorem updateBranchSuccessors_spec (h : FlowInv code false (IsDest code) cu) (hcomplete : InsnStart code code.length)
    (hdests : ∀ q, IsDest code q → q < code.length ∧ StartsAt cu q) :
    ∃ cu', updateBranchSuccessors cu = some cu' ∧ FlowInv code true (IsDest code) cu' := by
  have hlasts (cu' : CompilationUnit) (hnr : cu'.nrBb = cu.nrBb)
      (hshape : ∀ c, { cu'.block c with successors := [], predecessors := [] } =
        { cu.block c with successors := [], predecessors := [] }) c (hc : c < cu'.nrBb) :
      ∃ p, LastInsn code (cu'.block c).stop p := by
    have hstop := congrArg BasicBlock.stop (hshape c)
    exact hstop ▸ h.exists_lastInsn hcomplete (hnr ▸ hc)
  have hstartsAt cu' (hnr : cu'.nrBb = cu.nrBb)
      (hshape : ∀ c, { cu'.block c with successors := [], predecessors := [] } =
        { cu.block c with successors := [], predecessors := [] }) q (hq : StartsAt cu q) : StartsAt cu' q := by
    obtain ⟨c, hc, hs⟩ := hq
    have hstart := congrArg BasicBlock.start (hshape c)
    exact ⟨c, hnr ▸ hc, hstart.trans hs⟩
  have hrun bs (hbs : ∀ b ∈ bs, b < cu.nrBb) (hnodup : bs.Nodup) cu₁
      (h₁ : EdgesLeft code cu cu₁ bs) : ∃ cu', bs.foldlM updateBranchSuccessor cu₁ = some cu' ∧ EdgesLeft code cu cu' [] := by
    induction bs generalizing cu₁ with
    | nil => exact ⟨cu₁, rfl, h₁⟩
    | cons b bs ih =>
      obtain ⟨hnot, hnodup'⟩ := nodup_cons.mp hnodup
      have hdests₁ q (hq : IsDest code q) : q < code.length ∧ StartsAt cu₁ q :=
        ⟨(hdests q hq).1, hstartsAt cu₁ h₁.nrBb h₁.shape q (hdests q hq).2⟩
      obtain ⟨cu₂, hstep, h₂⟩ := h₁.step (hlasts cu₁ h₁.nrBb h₁.shape) hdests₁
        (h₁.nrBb ▸ hbs b (by simp)) hnot
      obtain ⟨cu₃, hrest, h₃⟩ := ih (fun c hc => hbs c (mem_cons_of_mem _ hc)) hnodup' cu₂ h₂
      exact ⟨cu₃, by rw [foldlM_cons, hstep]; exact hrest, h₃⟩
  have hall : EdgesLeft code cu cu cu.bbList :=
    ⟨h.wellFormed, rfl, fun _ => rfl, fun b hb p hp => by
      rw [decide_eq_false (fun hn => hn ((h.wellFormed.mem b).mpr hb))]
      exact h.ends b hb p hp⟩
  obtain ⟨cu', hfold, h'⟩ := hrun cu.bbList (fun b hb => (h.wellFormed.mem b).mp hb) h.wellFormed.tiles.nodup cu hall
  have hfield c : (cu'.block c).start = (cu.block c).start ∧ (cu'.block c).hasAthrow = (cu.block c).hasAthrow := by
    have hshape := h'.shape c
    simp only [BasicBlock.mk.injEq] at hshape
    exact ⟨hshape.1, hshape.2.2.2.2.1⟩
  have hkeep := hstartsAt cu' h'.nrBb h'.shape
  refine ⟨cu', hfold, h'.wellFormed, fun b hb => ?_, fun q hq hl => hkeep q (h.leads q hq hl), fun b hb => ?_,
    fun _ q _ hd => hkeep q (hdests q hd).2, fun b hb p hp => by simpa using h'.ends b hb p hp, fun b hb => ?_⟩
  · rw [(hfield b).1]
    exact h.starts b (h'.nrBb ▸ hb)
  · rw [(hfield b).1]
    exact h.only b (h'.nrBb ▸ hb)
  · rw [(hfield b).1, (hfield b).2]
    exact h.athrow b (h'.nrBb ▸ hb)

/-! ## Exception handlers -/

/-- The positions where blocks start before handlers are looked at. -/
def OpensBlock (code : List UInt8) (q : Nat) : Prop := Leads code q ∨ IsDest code q

/-- Up to `h`, the last position where a block starts without handlers being looked at is itself a handler. -/
def LedByHandler (method : MethodCode) (h : Nat) : Prop :=
  ∃ l ≤ h, OpensBlock method.code l ∧ IsHandler method.exceptionTable l ∧ ∀ l', OpensBlock method.code l' → l' ≤ h → l' ≤ l

/-- The invariant of the last phase: blocks that start at handlers are marked, and each handler where a block was cut is led
by a handler. -/
structure HandlerInv (method : MethodCode) (cu : CompilationUnit) : Prop where
  flow : FlowInv method.code true
    (fun q => IsDest method.code q ∨ IsHandler method.exceptionTable q ∧ LedByHandler method q) cu
  isEh : ∀ b < cu.nrBb, (cu.block b).isEh = true ↔ IsHandler method.exceptionTable (cu.block b).start

/-- The invariant does not speak of the marks of handlers, and allows more cuts. -/
theorem FlowInv.mark {points' : Nat → Prop} (h : FlowInv code targets points cu)
    (hpoints : ∀ q, points q → points' q) (hnr : cu'.nrBb = cu.nrBb) (hlist : cu'.bbList = cu.bbList)
    (hblock : ∀ c, { cu'.block c with isEh := false } = { cu.block c with isEh := false }) :
    FlowInv code targets points' cu' := by
  simp only [BasicBlock.mk.injEq, true_and] at hblock
  have hstart c := (hblock c).1
  have hkeep q (hq : StartsAt cu q) : StartsAt cu' q := by
    obtain ⟨c, hc, hs⟩ := hq
    exact ⟨c, hnr ▸ hc, (hstart c).trans hs⟩
  refine ⟨h.wellFormed.of_fields hnr hlist fun c => ?_, fun b hb => ?_, fun q hq hl => hkeep q (h.leads q hq hl),
    fun b hb => ?_, fun ht q hq hd => hkeep q (h.dests ht q hq hd), fun b hb p hp => ?_, fun b hb => ?_⟩
  · obtain ⟨hs, he, -, -, -, -, hsucc, hpred⟩ := hblock c
    exact ⟨hs, he, hsucc, hpred⟩
  · rw [hstart]
    exact h.starts b (hnr ▸ hb)
  · rw [hstart]
    exact (h.only b (hnr ▸ hb)).imp_right (hpoints _)
  · rw [(hblock b).2.1] at hp
    refine (h.ends b (hnr ▸ hb) p hp).congr hnr hstart ?_
    simp only [BasicBlock.mk.injEq, and_true, true_and]
    exact ⟨(hblock b).1, (hblock b).2.1, (hblock b).2.2.1, (hblock b).2.2.2.1, (hblock b).2.2.2.2.1,
      (hblock b).2.2.2.2.2.1, (hblock b).2.2.2.2.2.2.1⟩
  · rw [hstart, (hblock b).2.2.2.2.1]
    exact h.athrow b (hnr ▸ hb)

theorem isExceptionHandler_iff (method : MethodCode) (bb : BasicBlock) :
    isExceptionHandler method bb = true ↔ IsHandler method.exceptionTable bb.start := by
  simp [isExceptionHandler, lookupEhEntry, IsHandler]

/-- The marks are made for the blocks of the list, and nothing else is changed. -/
theorem detectExceptionHandlers_spec (method : MethodCode) (cu : CompilationUnit) :
    (detectExceptionHandlers method cu).nrBb = cu.nrBb ∧ (detectExceptionHandlers method cu).bbList = cu.bbList ∧
      ∀ c, (detectExceptionHandlers method cu).block c =
        if c ∈ cu.bbList then { cu.block c with isEh := isExceptionHandler method (cu.block c) } else cu.block c := by
  have hrun (bs : List Nat) (cu : CompilationUnit) :
      let r := bs.foldl (fun cu b => cu.updateBlock b fun bb => { bb with isEh := isExceptionHandler method bb }) cu
      r.nrBb = cu.nrBb ∧ r.bbList = cu.bbList ∧ ∀ c, r.block c =
        if c ∈ bs then { cu.block c with isEh := isExceptionHandler method (cu.block c) } else cu.block c := by
    induction bs generalizing cu with
    | nil => simp
    | cons b bs ih =>
      obtain ⟨hnr, hlist, hblock⟩ := ih (cu.updateBlock b fun bb => { bb with isEh := isExceptionHandler method bb })
      refine ⟨hnr, hlist, fun c => ?_⟩
      rw [foldl_cons, hblock c, updateBlock_block]
      by_cases hc : c = b
      · subst hc
        by_cases hmem : c ∈ bs <;> simp [hmem, isExceptionHandler]
      · simp [hc]
  exact hrun cu.bbList cu

theorem FlowInv.detect {method : MethodCode} (h : FlowInv method.code true (IsDest method.code) cu) :
    HandlerInv method (detectExceptionHandlers method cu) := by
  obtain ⟨hnr, hlist, hblock⟩ := detectExceptionHandlers_spec method cu
  refine ⟨h.mark (fun _ => .inl) hnr hlist fun c => ?_, fun b hb => ?_⟩
  · rw [hblock c]
    split <;> rfl
  · rw [hblock b, if_pos ((h.wellFormed.mem b).mpr (hnr ▸ hb))]
    exact isExceptionHandler_iff method (cu.block b)

section Handlers

variable {method : MethodCode} {b o : Nat}

/-- The block that holds a handler is marked exactly if the handler is led by one. -/
theorem HandlerInv.isEh_iff (h : HandlerInv method cu) (hb : b < cu.nrBb)
    (ho : (cu.block b).start ≤ o ∧ o < (cu.block b).stop) : (cu.block b).isEh = true ↔ LedByHandler method o := by
  have hlen := (h.flow.wellFormed.bounds hb).2
  -- positions up to `o` where a block starts are not behind the start of this block
  have hmax l (hl : OpensBlock method.code l) (hle : l ≤ o) : l ≤ (cu.block b).start := by
    by_contra hgt
    refine h.flow.wellFormed.not_startsAt hb ⟨Nat.lt_of_not_le hgt, by omega⟩ ?_
    rcases hl with hl | hd
    · exact h.flow.leads l (by omega) hl
    · exact h.flow.dests rfl l (by omega) hd
  rw [h.isEh b hb]
  constructor
  · intro heh
    have hopens (hop : OpensBlock method.code (cu.block b).start) : LedByHandler method o :=
      ⟨(cu.block b).start, ho.1, hop, heh, hmax⟩
    rcases h.flow.only b hb with hl | hd | ⟨-, l, hle, hl, hlh, hlmax⟩
    · exact hopens (.inl hl)
    · exact hopens (.inr hd)
    · exact ⟨l, by omega, hl, hlh, fun l' hl' hle' => hlmax l' hl' (hmax l' hl' hle')⟩
  · rintro ⟨l, hle, hl, hlh, hlmax⟩
    have hls := hmax l hl hle
    have hopens (hop : OpensBlock method.code (cu.block b).start) : IsHandler method.exceptionTable (cu.block b).start :=
      Nat.le_antisymm hls (hlmax _ hop ho.1) ▸ hlh
    rcases h.flow.only b hb with hl' | hd | ⟨heh, -⟩
    · exact hopens (.inl hl')
    · exact hopens (.inr hd)
    · exact heh

theorem bbAddSuccessor_mark (cu : CompilationUnit) (b new c : Nat) :
    let cu' := bbAddSuccessor (cu.updateBlock new fun bb => { bb with isEh := true }) b new
    { cu'.block c with isEh := false } = { (bbAddSuccessor cu b new).block c with isEh := false } ∧
      (cu'.block c).isEh = if c = new then true else ((bbAddSuccessor cu b new).block c).isEh := by
  simp only [bbAddSuccessor, updateBlock_block]
  split_ifs <;> exact ⟨rfl, rfl⟩

theorem splitAtExceptionHandler_spec (h : HandlerInv method cu) {eh : ExceptionEntry} (heh : eh ∈ method.exceptionTable)
    (hvalid : ValidDest method.code eh.handlerPc) :
    (LedByHandler method eh.handlerPc → ∃ cu', splitAtExceptionHandler cu eh = some cu' ∧ HandlerInv method cu' ∧
      (∀ q, StartsAt cu q → StartsAt cu' q) ∧ StartsAt cu' eh.handlerPc) ∧
    (¬ LedByHandler method eh.handlerPc → splitAtExceptionHandler cu eh = none) := by
  obtain ⟨-, hlen, hstart⟩ := hvalid
  obtain ⟨b, hb, hle, hlt, hfind⟩ := h.flow.findBb (o := eh.handlerPc) (by omega)
  have hisEh := h.isEh_iff hb ⟨hle, hlt⟩
  unfold splitAtExceptionHandler
  simp only [hfind, Option.bind_eq_bind, Option.bind_some]
  constructor
  · intro hled
    simp only [hisEh.mpr hled, Bool.not_true, Bool.false_eq_true, if_false]
    split
    · rename_i heq
      exact ⟨cu, rfl, h, fun _ hq => hq, b, hb, heq⟩
    · rename_i hne
      obtain ⟨cu', hsplit, hs, hinv⟩ := h.flow.exists_cut hb ⟨by omega, hlt⟩ (by simpa using hstart)
        (.inr ⟨⟨eh, heh, rfl⟩, hled⟩)
      rw [hsplit]
      have hmark := bbAddSuccessor_mark cu' b cu.nrBb
      have hfields := fun c => (hmark c).1
      have hstarts c := congrArg BasicBlock.start (hfields c)
      have hkeep q (hq : StartsAt (bbAddSuccessor cu' b cu.nrBb) q) : StartsAt (bbAddSuccessor
          (cu'.updateBlock cu.nrBb fun bb => { bb with isEh := true }) b cu.nrBb) q := by
        obtain ⟨c, hc, hcs⟩ := hq
        exact ⟨c, hc, (hstarts c).trans hcs⟩
      refine ⟨_, rfl, ⟨hinv.mark (fun _ hq => hq) rfl rfl hfields, fun c hc => ?_⟩,
        fun q hq => hkeep q (hq.splitOff hs), hkeep _ hs.startsAt⟩
      change c < (bbAddSuccessor cu' b cu.nrBb).nrBb at hc
      rw [hs.nrBb] at hc
      rw [(hmark c).2, hstarts, hs.start]
      split
      · exact iff_of_true rfl ⟨eh, heh, rfl⟩
      · rename_i hcn
        rw [hs.isEh, if_neg hcn]
        exact h.isEh c (by omega)
  · intro hled
    have hfalse : (cu.block b).isEh = false := by
      rw [← Bool.not_eq_true, hisEh]
      exact hled
    simp [hfalse]

section

variable (h : HandlerInv method cu) (hvalid : ∀ eh ∈ method.exceptionTable, ValidDest method.code eh.handlerPc)

include h hvalid

/-- **The last loop** goes through exactly if each handler is led by a handler. -/
theorem splitAtExceptionHandlers_spec : ((∀ eh ∈ method.exceptionTable, LedByHandler method eh.handlerPc) →
      ∃ cu', splitAtExceptionHandlers method cu = some cu' ∧ HandlerInv method cu' ∧
        ∀ eh ∈ method.exceptionTable, StartsAt cu' eh.handlerPc) ∧
    ((∃ eh ∈ method.exceptionTable, ¬ LedByHandler method eh.handlerPc) → splitAtExceptionHandlers method cu = none) := by
  have hrun (es : List ExceptionEntry) (hes : ∀ eh ∈ es, eh ∈ method.exceptionTable) cu
      (h : HandlerInv method cu) :
      ((∀ eh ∈ es, LedByHandler method eh.handlerPc) → ∃ cu', es.foldlM splitAtExceptionHandler cu = some cu' ∧
        HandlerInv method cu' ∧ (∀ q, StartsAt cu q → StartsAt cu' q) ∧ ∀ eh ∈ es, StartsAt cu' eh.handlerPc) ∧
      ((∃ eh ∈ es, ¬ LedByHandler method eh.handlerPc) → es.foldlM splitAtExceptionHandler cu = none) := by
    induction es generalizing cu with
    | nil =>
      exact ⟨fun _ => ⟨cu, rfl, h, fun _ hq => hq, fun _ he => absurd he not_mem_nil⟩,
        fun ⟨_, he, _⟩ => absurd he not_mem_nil⟩
    | cons e es ih =>
      obtain ⟨hsome, hnone⟩ := splitAtExceptionHandler_spec h (hes e (by simp)) (hvalid e (hes e (by simp)))
      by_cases hled : LedByHandler method e.handlerPc
      · obtain ⟨cu₁, hstep, h₁, hkeep₁, hstart₁⟩ := hsome hled
        obtain ⟨hsome', hnone'⟩ := ih (fun eh he => hes eh (mem_cons_of_mem _ he)) cu₁ h₁
        rw [foldlM_cons, hstep]
        constructor
        · intro hall
          obtain ⟨cu₂, hrest, h₂, hkeep₂, hstart₂⟩ := hsome' fun eh he => hall eh (mem_cons_of_mem _ he)
          refine ⟨cu₂, hrest, h₂, fun q hq => hkeep₂ q (hkeep₁ q hq), fun eh he => ?_⟩
          rcases mem_cons.mp he with rfl | he'
          · exact hkeep₂ _ hstart₁
          · exact hstart₂ eh he'
        · rintro ⟨eh, he, hnot⟩
          rcases mem_cons.mp he with rfl | he'
          · exact absurd hled hnot
          · exact hnone' ⟨eh, he', hnot⟩
      · rw [foldlM_cons, hnone hled]
        exact ⟨fun hall => absurd (hall e (by simp)) hled, fun _ => rfl⟩
  obtain ⟨hsome, hnone⟩ := hrun method.exceptionTable (fun _ he => he) cu h
  refine ⟨fun hall => ?_, hnone⟩
  obtain ⟨cu', hfold, h', -, hstart⟩ := hsome hall
  exact ⟨cu', hfold, h', hstart⟩

/-- The assertion at the end holds when blocks start at all handlers. -/
theorem HandlerInv.allExceptionHandlersHaveBb
    (hstart : ∀ eh ∈ method.exceptionTable, StartsAt cu eh.handlerPc) : allExceptionHandlersHaveBb method cu = true := by
  refine all_eq_true.mpr fun eh he => ?_
  obtain ⟨-, hlen, -⟩ := hvalid eh he
  obtain ⟨b, hb, hs, hfind⟩ := h.flow.findBb_startsAt (by omega) (hstart eh he)
  rw [hfind]
  simp only [Bool.and_eq_true, beq_iff_eq]
  exact ⟨hs, (h.isEh b hb).mpr ⟨eh, he, hs.symm⟩⟩

end

end Handlers

end Phases

/-- **The analysis** of verified code gives a unit with the invariant and blocks that start at all handlers, if each handler
is led by a handler, and aborts otherwise. -/
theorem analyzeControlFlow_spec (m : VerifiedMethod) :
    ((∀ eh ∈ m.exceptionTable, LedByHandler m.toMethodCode eh.handlerPc) →
      ∃ cu, analyzeControlFlow m.toMethodCode = some cu ∧ HandlerInv m.toMethodCode cu ∧
        ∀ eh ∈ m.exceptionTable, StartsAt cu eh.handlerPc) ∧
    ((∃ eh ∈ m.exceptionTable, ¬ LedByHandler m.toMethodCode eh.handlerPc) →
      analyzeControlFlow m.toMethodCode = none) := by
  have hdest q (hq : IsDest m.code q) : q < m.code.length ∧ InsnStart m.code q := by
    obtain ⟨p, hp, hstart, hd⟩ := hq
    obtain ⟨-, hlt, hs⟩ := m.dests p hp hstart q hd
    exact ⟨by omega, by simpa using hs⟩
  obtain ⟨s, hfirst, hloop⟩ := splitAfterBranches_spec m
  obtain ⟨cu₁, hsecond, h₁, hstart₁⟩ := splitAtBranchTargets_spec (hloop.flowInv m.complete (IsDest m.code)) hloop.targets
    fun o ho => (hdest o ho).2
  obtain ⟨cu₂, hthird, h₂⟩ := updateBranchSuccessors_spec h₁ m.complete
    fun q hq => ⟨(hdest q hq).1, hstart₁ q (hdest q hq).1 hq⟩
  obtain ⟨hsome, hnone⟩ := splitAtExceptionHandlers_spec h₂.detect m.handlers
  unfold analyzeControlFlow
  simp only [hfirst, hsecond, hthird, Option.bind_eq_bind, Option.bind_some]
  constructor
  · intro hall
    obtain ⟨cu, hlast, h, hstart⟩ := hsome hall
    rw [hlast]
    exact ⟨cu, by simp [h.allExceptionHandlersHaveBb m.handlers hstart], h, hstart⟩
  · intro hex
    rw [hnone hex]
    rfl

end Jato.Jit.Flow
