import Jato.Jit.ScanRun

/-!
# Register allocation as a whole

From the intervals of the variables to the intervals with their registers. The initial state has the invariant
(`scanInit_inv`), and after the loop every interval has all its ranges again (`restoreAll_spec`). Under low register
pressure intervals with the same register are disjoint then (`allocateRegisters_separate`).
-/

namespace Jato.Jit

open Jato.Lib List

/-- No position is covered by two intervals with the same register. -/
def NoOverlap (store : Intervals) : Prop :=
  ∀ i < store.length, ∀ j < store.length, i ≠ j → ∀ r, (store.at i).reg = some r → (store.at j).reg = some r →
    ∀ x, Covers (store.at i).ranges x → ¬Covers (store.at j).ranges x

/-- The intervals of the variables `vars` before register allocation: only fixed intervals have a register, and each has
its own. -/
structure ScanInput (bound : Nat) (store : Intervals) (vars : List Nat) : Prop where
  nodup : vars.Nodup
  mem : ∀ i, i ∈ vars ↔ i < store.length
  sorted : ∀ i < store.length, Sorted (store.at i).ranges
  bound : ∀ i < store.length, ∀ x, Covers (store.at i).ranges x → x < bound
  expired : ∀ i < store.length, (store.at i).expired = []
  unfixed : ∀ i < store.length, (store.at i).fixedReg = false → (store.at i).reg = none
  fixed : ∀ i < store.length, (store.at i).fixedReg = true → ∃ r, (store.at i).reg = some r
  distinct : ∀ i < store.length, ∀ j < store.length, i ≠ j → (store.at i).fixedReg = true →
    (store.at j).fixedReg = true → (store.at i).reg ≠ (store.at j).reg

/-! ## The initial state -/

section Init

variable {arch : Arch} {bound : Nat} {store : Intervals} {vars : List Nat} {i : Nat}

theorem ScanInput.full (h : ScanInput bound store vars) (hi : i < store.length) :
    (store.at i).full = (store.at i).ranges := by
  rw [LiveInterval.full, h.expired i hi]
  rfl

theorem ScanInput.ok (h : ScanInput bound store vars) (hi : i < store.length)
    (hne : (store.at i).ranges ≠ []) : IntervalOk (store.at i) :=
  ⟨h.full hi ▸ h.sorted i hi, hne⟩

/-- The state after the intervals in `done` have been put on their lists. -/
structure InitInv (arch : Arch) (store : Intervals) (done : List Nat) (s : ScanState) : Prop where
  store_eq : s.store = store
  active : s.active = []
  queue : QueueInv 0 store s.unhandled
  queued : ∀ n ∈ s.unhandled, n.value ∈ done
  inactive : ∀ i ∈ s.inactive, i < store.length ∧ (store.at i).ranges ≠ [] ∧ (store.at i).fixedReg = true ∧
    (store.at i).regNumber < arch.nrRegisters
  fixed : ∀ i ∈ done, (store.at i).ranges ≠ [] → (store.at i).fixedReg = true →
    (store.at i).regNumber < arch.nrRegisters → i ∈ s.inactive

theorem scanInsert_inv (h : ScanInput bound store vars) (hb : bound ≤ 2 ^ 31) {done : List Nat} {s : ScanState}
    (hs : InitInv arch store done s) (hi : i < store.length) (hnew : i ∉ done) :
    InitInv arch store (i :: done) (scanInsert arch s i) := by
  have hqueued : ∀ n ∈ s.unhandled, n.value ∈ i :: done := fun n hn => mem_cons_of_mem i (hs.queued n hn)
  unfold scanInsert
  simp only [hs.store_eq]
  split
  · rename_i hempty
    refine ⟨hs.store_eq, hs.active, hs.queue, hqueued, hs.inactive, fun j hj hne => ?_⟩
    rcases mem_cons.mp hj with rfl | hj
    · exact absurd hempty hne
    · exact hs.fixed j hj hne
  · rename_i hne
    split
    · rename_i hf
      split
      · rename_i hlt
        refine ⟨rfl, hs.active, hs.queue, hqueued, fun j hj => ?_, fun j hj hne' hf' hlt' => ?_⟩
        · rcases mem_cons.mp hj with rfl | hj
          · exact ⟨hi, hne, hf, hlt⟩
          · exact hs.inactive j hj
        · rcases mem_cons.mp hj with rfl | hj
          · exact mem_cons_self
          · exact mem_cons_of_mem i (hs.fixed j hj hne' hf' hlt')
      · rename_i hge
        refine ⟨hs.store_eq, hs.active, hs.queue, hqueued, hs.inactive, fun j hj hne' hf' hlt' => ?_⟩
        rcases mem_cons.mp hj with rfl | hj
        · exact absurd hlt' hge
        · exact hs.fixed j hj hne' hf' hlt'
    · rename_i hf
      have hf : (store.at i).fixedReg = false := by simpa using hf
      have hok := h.ok hi hne
      have hstart : intervalStart (store.at i) < 2 ^ 31 :=
        Nat.lt_of_lt_of_le (h.bound i hi _ hok.covers_start) hb
      refine ⟨rfl, hs.active, ?_, fun n hn => ?_, hs.inactive, fun j hj hne' hf' hlt' => ?_⟩
      · exact hs.queue.insert hi (fun n hn e => hnew (e ▸ hs.queued n hn))
          ⟨hok, h.expired i hi, h.unfixed i hi hf, hf⟩ (Nat.zero_le _) hstart
      · obtain ⟨-, hperm⟩ := @Pqueue.insert_spec _ s.unhandled _ _ i hs.queue.bounded.within hs.queue.ordered
          (Pqueue.near_zero hstart)
        rcases mem_cons.mp (hperm.mem_iff.mp hn) with rfl | hn
        · exact mem_cons_self
        · exact hqueued n hn
      · rcases mem_cons.mp hj with rfl | hj
        · rw [hf] at hf'
          cases hf'
        · exact hs.fixed j hj hne' hf' hlt'

theorem scanInit_loop (h : ScanInput bound store vars) (hb : bound ≤ 2 ^ 31) : ∀ {l done : List Nat} {s : ScanState},
    InitInv arch store done s → l.Nodup → (∀ i ∈ l, i < store.length ∧ i ∉ done) →
    ∃ done', (∀ i ∈ l, i ∈ done') ∧ (∀ i ∈ done, i ∈ done') ∧ InitInv arch store done' (l.foldl (scanInsert arch) s)
  | [], done, _, hs, _, _ => ⟨done, nofun, fun _ => id, hs⟩
  | i :: l, done, s, hs, hnd, hl => by
    obtain ⟨hil, hnd⟩ := nodup_cons.mp hnd
    have hi := hl i mem_cons_self
    obtain ⟨done', hall, hdone, hinv⟩ := scanInit_loop h hb (scanInsert_inv h hb hs hi.1 hi.2) hnd fun j hj => by
      have := hl j (mem_cons_of_mem i hj)
      refine ⟨this.1, fun hmem => ?_⟩
      rcases mem_cons.mp hmem with rfl | hmem
      · exact hil hj
      · exact this.2 hmem
    refine ⟨done', fun j hj => ?_, fun j hj => hdone j (mem_cons_of_mem i hj), hinv⟩
    rcases mem_cons.mp hj with rfl | hj
    · exact hdone j mem_cons_self
    · exact hall j hj

/-- **The initial state** has the invariant, and intervals with the same register are disjoint. -/
theorem scanInit_inv (h : ScanInput bound store vars) (hb : bound ≤ 2 ^ 31) :
    ScanInv arch bound 0 none (scanInit arch store vars) ∧ (scanInit arch store vars).store = store ∧
      Separate none store := by
  have hempty : InitInv arch store [] ⟨store, [], [], []⟩ := by
    refine ⟨rfl, rfl, ⟨?_, ?_, .nil, nofun, nofun, nofun, nofun⟩, nofun, nofun, nofun⟩
    · intro i h2 hle
      rw [length_nil] at hle
      omega
    · exact (by rintro _ ⟨⟩)
  obtain ⟨done, hall, -, hs⟩ := scanInit_loop h hb hempty h.nodup fun i hi => ⟨(h.mem i).mp hi, by simp⟩
  change InitInv arch store done (scanInit arch store vars) at hs
  generalize scanInit arch store vars = s at hs ⊢
  obtain rfl := hs.store_eq
  have hreg {i r} (hi : i < s.store.length) (hr : (s.store.at i).reg = some r) : (s.store.at i).fixedReg = true := by
    cases hf : (s.store.at i).fixedReg with
    | true => rfl
    | false =>
      rw [h.unfixed i hi hf] at hr
      cases hr
  refine ⟨?_, rfl, fun i hi j hj hne _ _ r hri hrj => ?_⟩
  · have hlisted {i} (hl : i ∈ s.active ∨ i ∈ s.inactive) :
        i < s.store.length ∧ (s.store.at i).ranges ≠ [] ∧ (s.store.at i).fixedReg = true ∧
          (s.store.at i).regNumber < arch.nrRegisters := by
      rcases hl with hl | hl
      · rw [hs.active] at hl
        cases hl
      · exact hs.inactive i hl
    refine ⟨?_, ?_, ?_, ?_, hs.queue, by simp, fun i hl => ?_, fun i hi _ r hr hreg' => ?_⟩
    · exact fun i hi => h.full hi ▸ h.sorted i hi
    · exact fun i hi x hx => h.bound i hi x (h.full hi ▸ hx)
    · intro i hi x hx
      rw [h.expired i hi] at hx
      exact absurd hx not_covers_nil
    · intro i hi hf r hr
      rw [h.unfixed i hi hf] at hr
      cases hr
    · obtain ⟨hi, hne, hf, hlt⟩ := hlisted hl
      obtain ⟨r, hr⟩ := h.fixed i hi hf
      exact ⟨hi, h.ok hi hne, r, LiveInterval.regNumber_eq hr ▸ hlt, hr⟩
    · by_cases hne : (s.store.at i).ranges = []
      · refine .inr (.inr fun x hx => ?_)
        rw [h.full hi, hne] at hx
        exact absurd hx not_covers_nil
      · have hlt : (s.store.at i).regNumber < arch.nrRegisters := LiveInterval.regNumber_eq hreg' ▸ hr
        exact .inr (.inl (hs.fixed i (hall i ((h.mem i).mpr hi)) hne (hreg hi hreg') hlt))
  · exact absurd (hri.trans hrj.symm) (h.distinct i hi j hj hne (hreg hi hri) (hreg hj hrj))

end Init

/-! ## Restoring the expired ranges -/

/-- `b` is `a` after its ranges may have been restored. -/
structure Restored (a b : LiveInterval) : Prop where
  full : b.full = a.full
  reg : b.reg = a.reg
  nextChild : b.nextChild = a.nextChild
  expired : a.expired = [] → b.expired = []

theorem Restored.refl (a : LiveInterval) : Restored a a := ⟨rfl, rfl, rfl, id⟩

theorem restored_intervalRestoreExpiredRanges (it : LiveInterval) : Restored it (intervalRestoreExpiredRanges it) := by
  refine ⟨?_, rfl, rfl, fun _ => rfl⟩
  change [].reverse ++ it.expired.foldl (fun ranges range => range :: ranges) it.ranges = it.expired.reverse ++ it.ranges
  rw [foldl_flip_cons_eq_append']
  rfl

/-- Every interval of `store'` is the one of `store`, perhaps restored. -/
structure StoreRestored (store store' : Intervals) : Prop where
  length : store'.length = store.length
  restored : ∀ j, Restored (store.at j) (store'.at j)

theorem StoreRestored.refl (store : Intervals) : StoreRestored store store := ⟨rfl, fun _ => .refl _⟩

theorem StoreRestored.trans {a b c : Intervals} (h : StoreRestored a b) (h' : StoreRestored b c) : StoreRestored a c :=
  ⟨h'.length.trans h.length, fun j =>
    ⟨(h'.restored j).full.trans (h.restored j).full, (h'.restored j).reg.trans (h.restored j).reg,
      (h'.restored j).nextChild.trans (h.restored j).nextChild, (h'.restored j).expired ∘ (h.restored j).expired⟩⟩

variable {store store' : Intervals}

theorem StoreRestored.nextChild (h : StoreRestored store store') : NextChild store' = NextChild store := by
  funext a b
  rw [NextChild, NextChild, (h.restored a).nextChild]

theorem storeRestored_put (store : Intervals) (i : Nat) :
    StoreRestored store (store.put i (intervalRestoreExpiredRanges (store.at i))) ∧
      ((store.put i (intervalRestoreExpiredRanges (store.at i))).at i).expired = [] := by
  by_cases hi : i < store.length
  · refine ⟨⟨length_put _ _ _, fun j => ?_⟩, by rw [at_put_self _ hi]; rfl⟩
    by_cases hji : j = i
    · subst hji
      rw [at_put_self _ hi]
      exact restored_intervalRestoreExpiredRanges _
    · rw [at_put_ne _ hji]
      exact .refl _
  · rw [show store.put i _ = store from set_eq_of_length_le (not_lt.mp hi)]
    refine ⟨.refl _, ?_⟩
    rw [Intervals.at, getD_eq_getElem?_getD, getElem?_eq_none (not_lt.mp hi)]
    rfl

theorem restoreChildren_spec : ∀ {fuel : Nat} {child : Option Nat} {store store' : Intervals},
    restoreChildren fuel child store = some store' → StoreRestored store store' ∧
      ∀ i, child = some i → ∀ j, Relation.ReflTransGen (NextChild store) i j → (store'.at j).expired = []
  | _, none, store, store', h => by
    have h : store = store' := by simpa [restoreChildren] using h
    exact ⟨h ▸ .refl _, by simp⟩
  | 0, some _, _, _, h => nomatch h
  | fuel + 1, some i, store, store', h => by
    rw [restoreChildren] at h
    obtain ⟨hput, hself⟩ := storeRestored_put store i
    obtain ⟨hrest, hwalk⟩ := restoreChildren_spec h
    refine ⟨hput.trans hrest, fun k hk j hj => ?_⟩
    cases hk
    -- the walk is at `i`, or it goes on to the next child
    rcases Relation.ReflTransGen.cases_head hj with rfl | ⟨next, hnext, hj⟩
    · exact (hrest.restored i).expired hself
    · exact hwalk next hnext j (hput.nextChild ▸ hj)

variable {vars : List Nat}

theorem restoreAll_spec (hc : Chained vars store)
    (h : vars.foldlM (fun store i => restoreChildren store.length (some i) store) store = some store') :
    store'.length = store.length ∧ ∀ j < store.length, (store'.at j).ranges = (store.at j).full ∧
      (store'.at j).reg = (store.at j).reg := by
  obtain ⟨-, hall, hiter⟩ := @foldlM_inv _ _ (fun store i => restoreChildren store.length (some i) store)
    (fun _ => True) StoreRestored .refl StoreRestored.trans vars
    (fun _ _ hstep => ⟨trivial, (restoreChildren_spec hstep).1⟩) _ _ trivial h
  refine ⟨hall.length, fun j hj => ⟨?_, (hall.restored j).reg⟩⟩
  obtain ⟨i, hi, hij⟩ := hc j hj
  obtain ⟨b₁, b₂, -, hstep, hb₁, hb₂⟩ := hiter i hi
  have hexp := (restoreChildren_spec hstep).2 i rfl j (hb₁.nextChild ▸ hij)
  have hexp' := (hb₂.restored j).expired hexp
  rw [← (hall.restored j).full, LiveInterval.full, hexp']
  rfl

/-! ## The result -/

/-- **Register allocation** gives no position of a register to two intervals if the pressure is low. -/
theorem allocateRegisters_separate {arch : Arch} {bound fuel : Nat} (hin : ScanInput bound store vars)
    (hb : bound ≤ 2 ^ 31) (hlow : LowPressure arch store) (h : allocateRegisters arch fuel store vars = some store') :
    NoOverlap store' := by
  unfold allocateRegisters at h
  obtain ⟨s, hloop, hrestore⟩ := Option.bind_eq_some_iff.mp h
  obtain ⟨hinv, hst, hsep⟩ := @scanInit_inv arch _ _ _ hin hb
  rw [← hst] at hsep
  obtain ⟨-, hkept, hsep⟩ := scanLoop_spec hb hlow (fun _ => hin.full) hinv (hst.symm ▸ .refl _) hsep hloop
  have hchained : Chained vars store := fun j hj => ⟨j, (hin.mem j).mpr hj, .refl⟩
  obtain ⟨hlen, hfinal⟩ := restoreAll_spec (hkept.linked vars hchained) hrestore
  intro i hi j hj hne r hri hrj x hxi hxj
  rw [hlen] at hi hj
  rw [(hfinal i hi).1] at hxi
  rw [(hfinal j hj).1] at hxj
  exact hsep i hi j hj hne (by simp) (by simp) r ((hfinal i hi).2 ▸ hri) ((hfinal j hj).2 ▸ hrj) x hxi hxj

end Jato.Jit
