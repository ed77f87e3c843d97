import Jato.Jit.Allocate

/-!
# Runs of linear scan

Under low register pressure (`LowPressure`) a register is free for every interval, perhaps for its first part only
(`LowPressure.not_exhausted`). One iteration of the loop of `allocate_registers` then keeps the invariant and keeps
intervals with the same register disjoint (`scanStep_spec`), and so does the loop (`scanLoop_spec`).
-/

namespace Jato.Jit

open Jato.Lib

/-! ## Register pressure -/

instance (ranges : List LiveRange) (x : Nat) : Decidable (Covers ranges x) :=
  inferInstanceAs (Decidable (∃ r ∈ ranges, r.start ≤ x ∧ x < r.stop))

/-- The interval has a register that supports `type`, or can get one. -/
def competes (arch : Arch) (type : VmType) (it : LiveInterval) : Bool :=
  if it.fixedReg then arch.regSupportsType it.regNumber type
  else (List.range arch.nrRegisters).any fun r => arch.regSupportsType r it.vmType && arch.regSupportsType r type

/-- The intervals that are live at `x` and compete for the registers of a type. -/
def competitors (arch : Arch) (store : Intervals) (type : VmType) (x : Nat) : Finset Nat :=
  (Finset.range store.length).filter fun i => Covers (store.at i).ranges x ∧ competes arch type (store.at i) = true

/-- **Low pressure**: where a variable is live, no more intervals compete for the registers of its type than there are
registers. -/
def LowPressure (arch : Arch) (store : Intervals) : Prop :=
  ∀ i < store.length, (store.at i).fixedReg = false → ∀ range ∈ (store.at i).ranges, ∀ x, range.start ≤ x →
    x < range.stop → (competitors arch store (store.at i).vmType x).card ≤ (arch.registersFor (store.at i).vmType).card

instance (arch : Arch) (store : Intervals) : Decidable (LowPressure arch store) := by
  unfold LowPressure
  infer_instance

theorem PartOf.competes {a b : LiveInterval} (h : PartOf a b) (arch : Arch) (type : VmType) :
    competes arch type b = competes arch type a := by
  unfold Jit.competes
  rw [h.fixedReg, h.vmType]
  split
  · rename_i hf
    rw [LiveInterval.regNumber, LiveInterval.regNumber, h.reg (h.fixedReg.trans hf)]
  · rfl

theorem competes_of_unfixed {arch : Arch} {type : VmType} {it : LiveInterval} {r : Nat} (hf : it.fixedReg = false)
    (hr : r ∈ arch.registersFor type) (hs : arch.regSupportsType r it.vmType = true) : competes arch type it = true := by
  obtain ⟨hr, hs'⟩ := mem_registersFor.mp hr
  rw [competes, hf, if_neg (by simp)]
  exact List.any_eq_true.mpr ⟨r, List.mem_range.mpr hr, by simp [hs, hs']⟩

theorem Parts.mem_competitors {arch : Arch} {store store' : Intervals} {origin : Nat → Nat} {type : VmType} {i x : Nat}
    (h : Parts origin store store') (hfull : ∀ i < store.length, (store.at i).full = (store.at i).ranges)
    (hi : i < store'.length) (hx : Covers (store'.at i).full x) (hc : competes arch type (store'.at i) = true) :
    origin i ∈ competitors arch store type x := by
  have hpart := h.part i hi
  refine Finset.mem_filter.mpr ⟨Finset.mem_range.mpr (h.lt i hi), ?_, hpart.competes arch type ▸ hc⟩
  exact hfull _ (h.lt i hi) ▸ hpart.covers x hx

/-- Children are not lost, and they are parts of the intervals that were there. -/
structure Kept (store store' : Intervals) : Prop where
  linked : Linked store store'
  divided : Divided store store'

variable {r : Nat} {store store' : Intervals}

theorem Kept.refl (store : Intervals) : Kept store store := ⟨.refl _, (StoreShrunk.refl _).divided⟩

theorem Kept.trans {a b c : Intervals} (h : Kept a b) (h' : Kept b c) : Kept a c :=
  ⟨h.linked.trans h'.linked, h.divided.trans h'.divided⟩

theorem StoreShrunk.kept (h : StoreShrunk store store') : Kept store store' := ⟨h.linked, h.divided⟩

/-! ## One iteration -/

section Step

variable {arch : Arch} {bound pos c : Nat} {s s' : ScanState}

theorem Prepared.kept {position : Nat} (h : Prepared arch bound position s c s') : Kept s.store s'.store := by
  refine ⟨h.linked, .of_same h.length fun j => ?_⟩
  have ha := h.aged j
  exact ⟨fun _ hx => ha.full ▸ hx, ha.vmType, ha.fixedReg, fun _ => ha.reg⟩

theorem Allocated.kept (h : Allocated arch bound pos c r s s') (hc : c < s.store.length)
    (hf : (s.store.at c).fixedReg = false) : Kept s.store s'.store :=
  Kept.trans ⟨(linked_withReg hc r).1, (divided_withReg hc hf r).1⟩ h.shrunk.kept

theorem ScanInv.competes {c : Option Nat} {i : Nat} {type : VmType} (h : ScanInv arch bound pos c s)
    (hi : i < s.store.length) (hr : r ∈ arch.registersFor type) (hreg : (s.store.at i).reg = some r) :
    competes arch type (s.store.at i) = true := by
  cases hf : (s.store.at i).fixedReg with
  | true => rw [Jit.competes, hf, if_pos rfl, LiveInterval.regNumber_eq hreg, (mem_registersFor.mp hr).2]
  | false => exact competes_of_unfixed hf hr (h.unfixed i hi hf r hreg).2

/-- **Under low pressure** a register is left for the current interval: the active intervals are parts of different
intervals that are live at its start, and the current one is a part of yet another. -/
theorem LowPressure.not_exhausted (hlow : LowPressure arch store)
    (hfull : ∀ i < store.length, (store.at i).full = (store.at i).ranges) (hd : Divided store s.store)
    (hprep : Prepared arch bound pos s c s') : ¬Exhausted arch s' (s'.store.at c).vmType := by
  rintro ⟨⟨r₀, hr₀⟩, hall⟩
  obtain ⟨origin, hp⟩ := hd.trans hprep.kept.divided
  have hcur := hprep.inv.current c rfl
  have hcov : Covers (s'.store.at c).full pos := covers_full_of_ranges (hcur.start ▸ hcur.ok.covers_start)
  choose! owner hact hreg using hall
  have hlt {r} (hr : r ∈ arch.registersFor (s'.store.at c).vmType) := (hprep.inv.listed _ (.inl (hact r hr))).1
  have hx {r} (hr : r ∈ arch.registersFor (s'.store.at c).vmType) := hprep.active _ (hact r hr)
  -- the current interval competes with itself
  have hself : origin c ∈ competitors arch store (s'.store.at c).vmType pos :=
    hp.mem_competitors hfull hcur.lt hcov (competes_of_unfixed hcur.fixedReg hr₀ (mem_registersFor.mp hr₀).2)
  have howner r (hr : r ∈ arch.registersFor (s'.store.at c).vmType) :
      origin (owner r) ∈ (competitors arch store (s'.store.at c).vmType pos).erase (origin c) := by
    refine Finset.mem_erase.mpr ⟨fun he => hcur.active ?_, ?_⟩
    · exact hp.disjoint _ (hlt hr) _ hcur.lt he pos (hx hr) hcov ▸ hact r hr
    · exact hp.mem_competitors hfull (hlt hr) (hx hr) (hprep.inv.competes (hlt hr) hr (hreg r hr))
  have hcard := Finset.card_le_card_of_injOn (fun r => origin (owner r)) howner fun r hr r' hr' he => by
    have howner := hp.disjoint _ (hlt hr) _ (hlt hr') he pos (hx hr) (hx hr')
    exact Option.some.inj ((hreg r hr).symm.trans (howner ▸ hreg r' hr'))
  have hpart := hp.part c hcur.lt
  obtain ⟨range, hrange, hin⟩ := hfull _ (hp.lt c hcur.lt) ▸ hpart.covers pos hcov
  have hle := hlow _ (hp.lt c hcur.lt) (hpart.fixedReg ▸ hcur.fixedReg) range hrange pos hin.1 hin.2
  rw [← hpart.vmType] at hle
  have := Finset.card_erase_lt_of_mem hself
  omega

theorem Allocated.separate (h : Allocated arch bound pos c r s s') (hs : Separate (some c) s.store) :
    Separate (some c) s'.store := by
  refine Separate.shrink (fun i hi j hj hne hci hcj r' => ?_) h.shrunk
  have hat {k} (hk : some c ≠ some k) : (withReg s.store c r).at k = s.store.at k :=
    at_put_ne _ fun e => hk (congrArg some e.symm)
  rw [withReg, length_put] at hi hj
  rw [hat hci, hat hcj]
  exact hs i hi j hj hne hci hcj r'

theorem activate_eq (hreg : (s.store.at c).reg = some r) : activate s c = { s with active := c :: s.active } := by
  rw [activate, hreg]
  exact if_neg (by simp)

section

variable (hb : bound ≤ 2 ^ 31) (hlow : LowPressure arch store)
  (hfull : ∀ i < store.length, (store.at i).full = (store.at i).ranges)

include hb hlow hfull

/-- **One iteration** keeps the invariant and keeps intervals with the same register disjoint. -/
theorem scanStep_spec (h : ScanInv arch bound pos none s) (hk : Kept store s.store) (hsep : Separate none s.store)
    (hs : scanStep arch s = some s') :
    (∃ position, ScanInv arch bound position none s') ∧ Kept store s'.store ∧ Separate none s'.store := by
  unfold scanStep at hs
  obtain ⟨⟨c, s₁⟩, hp, hs⟩ := Option.bind_eq_some_iff.mp hs
  obtain ⟨position, -, hprep⟩ := scanPrepare_spec h hp
  have hcur := hprep.inv.current c rfl
  simp only [allocateReg, guard_bind_eq_some] at hs
  obtain ⟨-, hs⟩ := hs
  obtain ⟨s₂, hf, hs⟩ := Option.bind_eq_some_iff.mp hs
  obtain ⟨s₃, hu, hs⟩ := Option.bind_eq_some_iff.mp hs
  cases hs
  rcases tryToAllocateFreeReg_spec hprep.inv hb hprep.inactive hf with hex | ⟨r, hal, hclear⟩
  · exact absurd hex (hlow.not_exhausted hfull hk.divided hprep)
  · have hreg := hal.reg hcur.lt
    have hu : s₂ = s₃ := by
      rw [allocateUnassigned, hreg, if_neg (by simp)] at hu
      exact Option.some.inj hu
    subst hu
    rw [activate_eq hreg]
    refine ⟨⟨position, hal.inv.activate hal.lt hreg⟩, hk.trans (hprep.kept.trans (hal.kept hcur.lt hcur.fixedReg)), ?_⟩
    exact (hal.separate (hprep.separate hsep)).join hreg hclear

/-- **The loop** does. -/
theorem scanLoop_spec : ∀ {fuel pos : Nat} {s s' : ScanState}, ScanInv arch bound pos none s → Kept store s.store →
    Separate none s.store → scanLoop arch fuel s = some s' →
    (∃ position, ScanInv arch bound position none s') ∧ Kept store s'.store ∧ Separate none s'.store
  | 0, _, _, _, _, _, _, h => nomatch h
  | fuel + 1, pos, s, s', hinv, hk, hsep, h => by
    rw [scanLoop] at h
    split at h
    · cases h
      exact ⟨⟨pos, hinv⟩, hk, hsep⟩
    · obtain ⟨s₁, hs, h⟩ := Option.bind_eq_some_iff.mp h
      obtain ⟨⟨_, hinv₁⟩, hk₁, hsep₁⟩ := scanStep_spec hb hlow hfull hinv hk hsep hs
      exact scanLoop_spec hinv₁ hk₁ hsep₁ h

end

end Step

end Jato.Jit
