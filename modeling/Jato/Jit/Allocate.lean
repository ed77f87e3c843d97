import Mathlib.Data.Finset.Card
import Jato.Jit.ScanLists

/-!
# Allocating a register

What one iteration of linear scan does for the current interval if a register is free: the register is free for all that
is left of the interval (`tryToAllocateFreeReg_spec`). None is free only if every register that supports the type of the
interval has an active interval.
-/

namespace Jato.Jit

open Jato.Lib List Option

/-! ## Positions of registers -/

variable {positions positions' : List Nat × List Nat} {store : Intervals} {i p : Nat}

section Positions

variable {arch : Arch} {s : ScanState} {c r : Nat}

/-- Positions are only lowered. -/
def Lowered (f f' : List Nat) : Prop := f'.length = f.length ∧ ∀ r, f'.getD r 0 ≤ f.getD r 0

theorem Lowered.refl (f : List Nat) : Lowered f f := ⟨rfl, fun _ => le_refl _⟩

variable {f : List Nat} {reg : Nat}

theorem Lowered.trans {g h : List Nat} (h₁ : Lowered f g) (h₂ : Lowered g h) : Lowered f h :=
  ⟨h₂.1.trans h₁.1, fun r => le_trans (h₂.2 r) (h₁.2 r)⟩

theorem setFreePos_lowered (f : List Nat) (reg pos : Nat) : Lowered f (setFreePos f reg pos) := by
  unfold setFreePos
  split
  · exact .refl f
  · split
    · exact .refl f
    · rename_i hge
      refine ⟨length_set, fun r => ?_⟩
      by_cases hr : reg = r
      · subst hr
        rw [getD_eq_getElem?_getD, getElem?_set_self (by omega)]
        exact not_lt.mp hge
      · refine le_of_eq ?_
        rw [getD_eq_getElem?_getD, getElem?_set_ne hr, ← getD_eq_getElem?_getD]

theorem setFreePos_le (pos : Nat) (h : reg < f.length) : (setFreePos f reg pos).getD reg 0 ≤ pos := by
  unfold setFreePos
  rw [if_neg (not_le.mpr h)]
  split
  · rename_i hlt
    exact le_of_lt hlt
  · rw [getD_eq_getElem?_getD, getElem?_set_self h]
    exact le_refl _

/-- A position is set to 0 only by a call for 0. -/
theorem setFreePos_eq_zero {pos : Nat} (h : (setFreePos f reg pos).getD r 0 = 0) :
    f.getD r 0 = 0 ∨ reg = r ∧ pos = 0 := by
  unfold setFreePos at h
  split at h
  · exact .inl h
  · split at h
    · exact .inl h
    · rename_i hlen _
      by_cases hr : reg = r
      · subst hr
        rw [getD_eq_getElem?_getD, getElem?_set_self (not_le.mp hlen)] at h
        exact .inr ⟨rfl, h⟩
      · rw [getD_eq_getElem?_getD, getElem?_set_ne hr, ← getD_eq_getElem?_getD] at h
        exact .inl h

theorem LiveInterval.regNumber_eq {it : LiveInterval} (h : it.reg = some r) : it.regNumber = r := by
  rw [LiveInterval.regNumber, h]
  rfl

/-- The first common position of an interval with the current one, where the register has to be free. -/
def FreeBefore (store : Intervals) (c i pos : Nat) : Prop :=
  intervalsIntersect (store.at i) (store.at c) = true →
    ∃ start, intervalIntersectionStart (store.at i) (store.at c) = some start ∧ pos ≤ start

/-- A register is not free if an active interval has it, and free up to the intersection with an inactive one. -/
theorem freeUntilPositions_spec (hr : r < arch.nrRegisters)
    (hs : arch.regSupportsType r (s.store.at c).vmType = true) (h : freeUntilPositions arch s c = some f) :
    (∀ i ∈ s.active, (s.store.at i).reg = some r → f.getD r 0 = 0) ∧
      ∀ i ∈ s.inactive, (s.store.at i).reg = some r → FreeBefore s.store c i (f.getD r 0) := by
  unfold freeUntilPositions at h
  obtain ⟨hlow, hactive⟩ := foldl_rel Lowered.refl Lowered.trans
    (fun f it => setFreePos_lowered f (s.store.at it).regNumber 0) s.active (List.replicate arch.nrRegisters longMax)
  obtain ⟨-, hlow', hinactive⟩ := @foldlM_inv _ _ (freePosInactive arch s.store c)
    (fun f => f.length = arch.nrRegisters) Lowered Lowered.refl Lowered.trans s.inactive
    (fun {f i f'} _ hlen hstep => by
      have : Lowered f f' := by
        unfold freePosInactive at hstep
        split at hstep
        · cases hstep
          exact .refl f
        · split at hstep
          · obtain ⟨p, -, hstep⟩ := bind_eq_some_iff.mp hstep
            cases hstep
            exact setFreePos_lowered ..
          · cases hstep
            exact .refl f
      exact ⟨this.1.trans hlen, this⟩) _ _ (by rw [hlow.1, length_replicate]) h
  refine ⟨fun i hi hreg => ?_, fun i hi hreg hint => ?_⟩
  · obtain ⟨f₁, hf₁, hf₂⟩ := hactive i hi
    have hle := setFreePos_le 0 (show r < f₁.length by rw [hf₁.1, length_replicate]; exact hr)
    rw [LiveInterval.regNumber_eq hreg] at hf₂
    exact Nat.le_zero.mp (le_trans ((hf₂.trans hlow').2 r) hle)
  · obtain ⟨f₁, f₂, hlen, hstep, -, hf₂⟩ := hinactive i hi
    unfold freePosInactive at hstep
    rw [LiveInterval.regNumber_eq hreg, hs, if_neg (by simp), if_pos hint] at hstep
    obtain ⟨p, hp, hstep⟩ := bind_eq_some_iff.mp hstep
    cases hstep
    exact ⟨p, hp, le_trans (hf₂.2 r) (setFreePos_le p (hlen ▸ hr))⟩

/-- A register without a free position has an active interval, or an inactive one that intersects the current one at
once. -/
theorem freeUntilPositions_eq_zero (hr : r < arch.nrRegisters) (h : freeUntilPositions arch s c = some f)
    (h0 : f.getD r 0 = 0) : (∃ i ∈ s.active, (s.store.at i).regNumber = r) ∨
      ∃ i ∈ s.inactive, intervalIntersectionStart (s.store.at i) (s.store.at c) = some 0 := by
  unfold freeUntilPositions at h
  have hactive : (s.active.foldl (fun f it => setFreePos f (s.store.at it).regNumber 0)
      (replicate arch.nrRegisters longMax)).getD r 0 = 0 → ∃ i ∈ s.active, (s.store.at i).regNumber = r := by
    refine List.foldlRecOn (motive := fun f : List Nat => f.getD r 0 = 0 → ∃ i ∈ s.active, (s.store.at i).regNumber = r)
      _ _ (fun h => ?_) fun f hf i hi h => ?_
    · rw [getD_eq_getElem?_getD, getElem?_replicate_of_lt hr] at h
      exact absurd h (by decide)
    · exact (setFreePos_eq_zero h).elim hf fun he => ⟨i, hi, he.1⟩
  refine (@foldlM_inv _ _ (freePosInactive arch s.store c) (fun f => f.getD r 0 = 0 → _) (fun _ _ => True)
    (fun _ => trivial) (fun _ _ => trivial) s.inactive (fun {f i f'} hi hf hstep => ⟨fun h => ?_, trivial⟩) _ _
    (fun h => .inl (hactive h)) h).1 h0
  unfold freePosInactive at hstep
  split at hstep
  · cases hstep
    exact hf h
  · split at hstep
    · obtain ⟨p, hp, hstep⟩ := bind_eq_some_iff.mp hstep
      cases hstep
      rcases setFreePos_eq_zero h with h | ⟨-, rfl⟩
      · exact hf h
      · exact .inr ⟨i, hi, hp⟩
    · cases hstep
      exact hf h

theorem pickRegister_spec {type : VmType} (h : pickRegister arch f type = some r) :
    r < arch.nrRegisters ∧ arch.regSupportsType r type = true := by
  have hstep : ∀ best : Nat × Option Nat,
      (∀ i, best.2 = some i → i < arch.nrRegisters ∧ arch.regSupportsType i type = true) →
      ∀ a ∈ List.range arch.nrRegisters, ∀ i, (pickStep arch f type best a).2 = some i →
        i < arch.nrRegisters ∧ arch.regSupportsType i type = true := by
    intro best hbest a ha i hi
    unfold pickStep at hi
    split at hi
    · exact hbest i hi
    · rename_i hs
      split at hi
      · cases hi
        exact ⟨mem_range.mp ha, by simpa using hs⟩
      · exact hbest i hi
  have hinit : ∀ i, ((0, none) : Nat × Option Nat).2 = some i →
      i < arch.nrRegisters ∧ arch.regSupportsType i type = true := fun _ h => nomatch h
  exact List.foldlRecOn _ _ hinit hstep r h

theorem foldl_pickStep {type : VmType} : ∀ (l : List Nat) (best : Nat × Option Nat),
    (∀ j, best.2 = some j → best.1 = f.getD j 0) →
    let b := l.foldl (pickStep arch f type) best
    best.1 ≤ b.1 ∧ (∀ j, b.2 = some j → b.1 = f.getD j 0) ∧
      ∀ i ∈ l, arch.regSupportsType i type = true → f.getD i 0 ≤ b.1
  | [], _, h => ⟨le_refl _, h, nofun⟩
  | a :: l, best, h => by
    have hstep : best.1 ≤ (pickStep arch f type best a).1 ∧
        (∀ j, (pickStep arch f type best a).2 = some j → (pickStep arch f type best a).1 = f.getD j 0) ∧
        (arch.regSupportsType a type = true → f.getD a 0 ≤ (pickStep arch f type best a).1) := by
      unfold pickStep
      split
      · rename_i hs
        exact ⟨le_refl _, h, fun hs' => by simp [hs'] at hs⟩
      · split
        · rename_i hle
          exact ⟨hle, fun j hj => by cases hj; rfl, fun _ => le_refl _⟩
        · rename_i hlt
          exact ⟨le_refl _, h, fun _ => le_of_lt (not_le.mp hlt)⟩
    obtain ⟨hle, hpos, hall⟩ := foldl_pickStep l _ hstep.2.1
    refine ⟨le_trans hstep.1 hle, hpos, fun i hi hs => ?_⟩
    rcases mem_cons.mp hi with rfl | hi
    · exact le_trans (hstep.2.2 hs) hle
    · exact hall i hi hs

/-- The register that is picked has the greatest position. -/
theorem le_pickRegister {type : VmType} (h : pickRegister arch f type = some r) (hi : i < arch.nrRegisters)
    (hs : arch.regSupportsType i type = true) : f.getD i 0 ≤ f.getD r 0 := by
  obtain ⟨-, hpos, hall⟩ := @foldl_pickStep arch f type (List.range arch.nrRegisters) (0, none) nofun
  exact hpos r h ▸ hall i (mem_range.mpr hi) hs

end Positions

/-! ## A free register -/

section Free

variable {arch : Arch} {bound pos c r : Nat} {s s' : ScanState}

/-- A position in common with the current interval is in the ranges of a listed interval. -/
theorem ScanInv.listed_of_common (h : ScanInv arch bound pos (some c) s) {j x : Nat} (hj : j < s.store.length)
    (hne : j ≠ c) (hr : r < arch.nrRegisters) (hreg : (s.store.at j).reg = some r) (hc : Covers (s.store.at c).full x)
    (hx : Covers (s.store.at j).full x) :
    (j ∈ s.active ∨ j ∈ s.inactive) ∧ Covers (s.store.at c).ranges x ∧ Covers (s.store.at j).ranges x := by
  have hcur := h.current c rfl
  have hcr : Covers (s.store.at c).ranges x := by
    rw [LiveInterval.full, hcur.expired] at hc
    exact hc
  have hle : pos ≤ x := hcur.start ▸ hcur.ok.ranges.start_le hcr
  have hjr : Covers (s.store.at j).ranges x := by
    refine (covers_append.mp hx).resolve_left fun he => ?_
    have := h.expired j hj x he
    omega
  refine ⟨?_, hcr, hjr⟩
  rcases h.handled j hj (fun e => hne (Option.some.inj e).symm) r hr hreg with hl | hl | hdead
  · exact .inl hl
  · exact .inr hl
  · have := hdead x hx
    omega

/-- Before the start of the intersection there is no common position. -/
theorem FreeBefore.le {x : Nat} (h : FreeBefore store c i p) (hi : IntervalOk (store.at i))
    (hc : IntervalOk (store.at c)) (hxi : Covers (store.at i).ranges x) (hxc : Covers (store.at c).ranges x) : p ≤ x := by
  cases hint : intervalsIntersect (store.at i) (store.at c) with
  | false => exact absurd hxc (intervalsIntersect_eq_false hi.ranges hc.ranges hint hxi)
  | true =>
    obtain ⟨start, hstart, hle⟩ := h hint
    obtain ⟨-, -, hfirst⟩ := intervalIntersectionStart_spec hi.ranges hc.ranges hstart
    by_contra hlt
    exact hfirst x (by omega) hxi hxc

/-- The current interval is disjoint from the others with the register `r`. -/
def Clear (c r : Nat) (store : Intervals) : Prop :=
  ∀ j < store.length, j ≠ c → (store.at j).reg = some r → ∀ x, Covers (store.at c).full x →
    ¬Covers (store.at j).full x

theorem linked_withReg (hc : c < store.length) (r : Nat) :
    Linked store (withReg store c r) ∧ Linked (withReg store c r) store := by
  have hlen : (withReg store c r).length = store.length := length_put _ _ _
  have hnext j : ((withReg store c r).at j).nextChild = (store.at j).nextChild := by
    rw [withReg, at_put _ hc]
    split
    · rename_i he
      rw [he]
    · rfl
  exact ⟨linked_of_same hlen hnext, linked_of_same hlen.symm fun j => (hnext j).symm⟩

theorem divided_withReg (hc : c < store.length) (hf : (store.at c).fixedReg = false) (r : Nat) :
    Divided store (withReg store c r) ∧ Divided (withReg store c r) store := by
  have hlen : (withReg store c r).length = store.length := length_put _ _ _
  have hpart j : PartOf (store.at j) ((withReg store c r).at j) ∧ PartOf ((withReg store c r).at j) (store.at j) := by
    rw [withReg, at_put _ hc]
    split
    · rename_i he
      subst he
      exact ⟨⟨fun _ => id, rfl, rfl, fun h => nomatch hf.symm.trans h⟩,
        ⟨fun _ => id, rfl, rfl, fun h => nomatch hf.symm.trans h⟩⟩
    · exact ⟨(SameCore.refl _).partOf, (SameCore.refl _).partOf⟩
  exact ⟨.of_same hlen fun j => (hpart j).1, .of_same hlen.symm fun j => (hpart j).2⟩

theorem StoreShrunk.withReg {store store' : Intervals} (h : StoreShrunk store store') (hc : c < store.length)
    (hf : (store.at c).fixedReg = false) (r : Nat) : StoreShrunk (withReg store c r) (withReg store' c r) := by
  have hc' := lt_of_lt_of_le hc h.length_le
  have hdiv := (divided_withReg hc hf r).2.trans (h.divided.trans
    (divided_withReg hc' ((h.old c hc).fixedReg.trans hf) r).1)
  have hlink := (linked_withReg hc r).2.trans (h.linked.trans (linked_withReg hc' r).1)
  unfold Jato.Jit.withReg at hlink hdiv ⊢
  refine ⟨by simpa using h.length_le, fun j hj => ?_, fun j hj hj' => ?_, hlink, hdiv⟩
  · rw [length_put] at hj
    by_cases hjc : j = c
    · subst hjc
      rw [at_put_self _ hc, at_put_self _ hc']
      exact (h.old j hj).setReg _
    · rw [at_put_ne _ hjc, at_put_ne _ hjc]
      exact h.old j hj
  · rw [length_put] at hj hj'
    rw [at_put_ne _ (by omega)]
    exact h.new j hj hj'

/-- The current interval has got the register `r`, and intervals have at most shrunk. -/
structure Allocated (arch : Arch) (bound pos c r : Nat) (s s' : ScanState) : Prop where
  inv : ScanInv arch bound pos (some c) s'
  lt : r < arch.nrRegisters
  shrunk : StoreShrunk (withReg s.store c r) s'.store

theorem Allocated.reg (h : Allocated arch bound pos c r s s') (hc : c < s.store.length) :
    (s'.store.at c).reg = some r := by
  rw [(h.shrunk.old c (by simpa [withReg] using hc)).reg, withReg, at_put_self _ hc]

theorem ScanInv.spillCurrent (h : ScanInv arch bound pos (some c) s) (hb : bound ≤ 2 ^ 31)
    {q : Pqueue Nat} (hs : spillInterval s.store c p s.unhandled = some (store, q)) :
    Spilled s.store s.unhandled c p store q ∧
      ScanInv arch bound pos (some c) { s with store := store, unhandled := q } := by
  have hcur := h.current c rfl
  have hsp := spillInterval_spec hcur.lt hcur.ok hcur.fixedReg hs
  exact ⟨hsp, h.spill hb hcur.lt hcur.queue (hcur.start ▸ le_of_lt hsp.cut.start_lt) hsp⟩

/-- The allocatable registers that support a type. -/
def Arch.registersFor (arch : Arch) (type : VmType) : Finset Nat :=
  (Finset.range arch.nrRegisters).filter fun r => arch.regSupportsType r type = true

theorem mem_registersFor {type : VmType} :
    r ∈ arch.registersFor type ↔ r < arch.nrRegisters ∧ arch.regSupportsType r type = true := by
  simp [Arch.registersFor]

/-- Every register that supports the type has an active interval. -/
structure Exhausted (arch : Arch) (s : ScanState) (type : VmType) : Prop where
  nonempty : (arch.registersFor type).Nonempty
  active : ∀ r ∈ arch.registersFor type, ∃ i ∈ s.active, (s.store.at i).reg = some r

/-- If the register with the greatest position has none, all registers that support the type are active. -/
theorem ScanInv.exhausted {f : List Nat} (h : ScanInv arch bound pos (some c) s)
    (hin : ∀ i ∈ s.inactive, ¬Covers (s.store.at i).full pos) (hf : freeUntilPositions arch s c = some f)
    (hr : pickRegister arch f (s.store.at c).vmType = some r) (hzero : f.getD r 0 = 0) :
    Exhausted arch s (s.store.at c).vmType := by
  have hcur := h.current c rfl
  refine ⟨⟨r, mem_registersFor.mpr (pickRegister_spec hr)⟩, fun i hi => ?_⟩
  obtain ⟨hi, hs⟩ := mem_registersFor.mp hi
  have hle := le_pickRegister hr hi hs
  rw [hzero] at hle
  rcases freeUntilPositions_eq_zero hi hf (Nat.le_zero.mp hle) with ⟨j, hj, hreg⟩ | ⟨j, hj, hx⟩
  · obtain ⟨-, -, r', -, hr'⟩ := h.listed j (.inl hj)
    exact ⟨j, hj, hr'.trans (congrArg some ((LiveInterval.regNumber_eq hr').symm.trans hreg))⟩
  · -- an inactive interval does not cover the start of the current one
    obtain ⟨hxj, hxc, -⟩ := intervalIntersectionStart_spec (h.listed j (.inr hj)).2.1.ranges hcur.ok.ranges hx
    obtain rfl : pos = 0 := hcur.start.symm.trans (Nat.le_zero.mp (hcur.ok.ranges.start_le hxc))
    exact absurd (covers_full_of_ranges hxj) (hin j hj)

/-- **A free register** is free for all that is left of the current interval, and there is one unless all are active. -/
theorem tryToAllocateFreeReg_spec (h : ScanInv arch bound pos (some c) s) (hb : bound ≤ 2 ^ 31)
    (hin : ∀ i ∈ s.inactive, ¬Covers (s.store.at i).full pos) (ht : tryToAllocateFreeReg arch s c = some s') :
    Exhausted arch s (s.store.at c).vmType ∨ ∃ r, Allocated arch bound pos c r s s' ∧ Clear c r s'.store := by
  have hcur := h.current c rfl
  unfold tryToAllocateFreeReg at ht
  obtain ⟨f, hf, ht⟩ := bind_eq_some_iff.mp ht
  obtain ⟨r, hr, ht⟩ := bind_eq_some_iff.mp ht
  obtain ⟨hlt, hsup⟩ := pickRegister_spec hr
  obtain ⟨hactive, hinactive⟩ := freeUntilPositions_spec hlt hsup hf
  simp only at ht
  split at ht
  · rename_i hzero
    cases ht
    exact .inl (h.exhausted hin hf hr hzero)
  · rename_i hpos
    -- the register is free before every common position
    have hfree {j x} (hj : j < s.store.length) (hne : j ≠ c) (hreg : (s.store.at j).reg = some r)
        (hxc : Covers (s.store.at c).full x) (hxj : Covers (s.store.at j).full x) : f.getD r 0 ≤ x := by
      obtain ⟨hl, hcr, hjr⟩ := h.listed_of_common hj hne hlt hreg hxc hxj
      rcases hl with hl | hl
      · exact absurd (hactive j hl hreg) hpos
      · exact (hinactive j hl hreg).le (h.listed j (.inr hl)).2.1 hcur.ok hjr hcr
    split at ht
    · rename_i hend
      cases ht
      refine .inr ⟨r, ⟨h.setReg hlt hsup, hlt, .refl _⟩, fun j hj hne hreg x hxc hxj => ?_⟩
      simp only [withReg, length_put, at_put_self _ hcur.lt, at_put_ne _ hne] at hj hreg hxc hxj
      have hle := hfree hj hne hreg hxc hxj
      have hxr := (h.listed_of_common hj hne hlt hreg hxc hxj).2.1
      have : x < intervalEnd (s.store.at c) := hcur.ok.ranges.lt_end hxr
      omega
    · obtain ⟨⟨store, q⟩, hs, ht⟩ := bind_eq_some_iff.mp ht
      cases ht
      obtain ⟨hsp, hinv⟩ := h.spillCurrent hb hs
      have hc := lt_of_lt_of_le hcur.lt hsp.length_le
      refine .inr ⟨r, ⟨hinv.setReg hlt (hsp.cut.vmType ▸ hsup), hlt, hsp.shrunk.withReg hcur.lt hcur.fixedReg r⟩,
        fun j hj hne hreg x hxc hxj => ?_⟩
      simp only [withReg, length_put, at_put_self _ hc, at_put_ne _ hne] at hj hreg hxc hxj
      have hjo := hsp.shrunk.lt hj hreg
      have hsh := hsp.shrunk.old j hjo
      obtain ⟨hxc, hx⟩ := (hsp.cut.full x).mp hxc
      have := hfree hjo hne (hsh.reg ▸ hreg) hxc (hsh.full x hxj)
      omega

end Free

end Jato.Jit
