import Jato.Jit.Spill

/-!
# The invariant of linear scan

`ScanInv` says what holds of the allocator at position `pos`: the queue holds intervals that start at `pos` or later and
have no register, and every interval with an allocatable register is active or inactive, or lies before `pos`. It holds
in every run. `Separate` says that intervals with the same register are disjoint. While the current interval gets its
register it is left out of both.

A spill keeps the invariant (`ScanInv.spill`), and so do giving the current interval a register (`ScanInv.setReg`) and
making it active (`ScanInv.activate`).
-/

namespace Jato.Jit

open Jato.Lib

/-! ## Intervals that shrink -/

/-- `b` covers no more than `a`, from the same start and in the same register. -/
structure Shrunk (a b : LiveInterval) : Prop where
  sorted : Sorted a.full → Sorted b.full
  ok : IntervalOk a → IntervalOk b
  full : ∀ x, Covers b.full x → Covers a.full x
  start : intervalStart b = intervalStart a
  expired : b.expired = a.expired
  reg : b.reg = a.reg
  fixedReg : b.fixedReg = a.fixedReg
  vmType : b.vmType = a.vmType

theorem Shrunk.refl (a : LiveInterval) : Shrunk a a :=
  ⟨id, id, fun _ => id, rfl, rfl, rfl, rfl, rfl⟩

variable {a b : LiveInterval} {store store' : Intervals}

theorem SameCore.shrunk (h : SameCore b a) : Shrunk a b :=
  ⟨fun hs => h.full ▸ hs, h.ok, fun _ hx => h.full ▸ hx, h.start, h.expired, h.reg, h.fixedReg, h.vmType⟩

variable {pos r j i : Nat} {q q' : Pqueue Nat}

theorem Cut.start_lt (h : Cut pos a b) : intervalStart a < pos :=
  ((h.ranges _).mp (h.start ▸ h.ok.covers_start)).2

theorem Cut.shrunk (h : Cut pos a b) : Shrunk a b :=
  ⟨fun _ => h.ok.sorted, fun _ => h.ok, fun x hx => ((h.full x).mp hx).1, h.start, h.expired, h.reg, h.fixedReg,
    h.vmType⟩

theorem Shrunk.setReg (h : Shrunk a b) (r : Option Nat) : Shrunk { a with reg := r } { b with reg := r } :=
  ⟨h.sorted, fun ha => ⟨(h.ok ⟨ha.sorted, ha.nonempty⟩).sorted, (h.ok ⟨ha.sorted, ha.nonempty⟩).nonempty⟩, h.full,
    h.start, h.expired, rfl, h.fixedReg, h.vmType⟩

/-- Every interval of the first store is in the second one and has at most shrunk; the others have no register. -/
structure StoreShrunk (store store' : Intervals) : Prop where
  length_le : store.length ≤ store'.length
  old : ∀ j < store.length, Shrunk (store.at j) (store'.at j)
  new : ∀ j, store.length ≤ j → j < store'.length → (store'.at j).reg = none
  linked : Linked store store'
  divided : Divided store store'

theorem StoreShrunk.refl (store : Intervals) : StoreShrunk store store :=
  ⟨le_refl _, fun _ _ => .refl _, fun _ h h' => absurd h' (not_lt.mpr h), .refl _,
    .of_same rfl fun _ => (SameCore.refl _).partOf⟩

theorem StoreShrunk.lt (h : StoreShrunk store store') (hj : j < store'.length)
    (hr : (store'.at j).reg = some r) : j < store.length := by
  by_contra hlt
  rw [h.new j (not_lt.mp hlt) hj] at hr
  cases hr

theorem Spilled.shrunk (h : Spilled store q i pos store' q') : StoreShrunk store store' := by
  refine ⟨h.length_le, fun j hj => ?_, fun j hj hj' => (h.fresh j hj hj').reg, h.linked, h.divided⟩
  by_cases hji : j = i
  · exact hji ▸ h.cut.shrunk
  · exact (h.others j hj hji).shrunk

/-! ## The invariant -/

/-- An interval without a register, as the queue holds them. -/
structure Waiting (it : LiveInterval) : Prop where
  ok : IntervalOk it
  expired : it.expired = []
  reg : it.reg = none
  fixedReg : it.fixedReg = false

/-- The queue at position `pos`. -/
structure QueueInv (pos : Nat) (store : Intervals) (unhandled : Pqueue Nat) : Prop where
  ordered : unhandled.Ordered
  bounded : unhandled.Bounded
  nodup : (unhandled.map PqueueNode.value).Nodup
  lt : ∀ n ∈ unhandled, n.value < store.length
  key : ∀ n ∈ unhandled, n.key = intervalStart (store.at n.value)
  le : ∀ n ∈ unhandled, pos ≤ n.key
  waiting : ∀ n ∈ unhandled, Waiting (store.at n.value)

/-- The current interval, taken from the queue at its start. -/
structure Current (pos : Nat) (s : ScanState) (i : Nat) : Prop where
  lt : i < s.store.length
  queue : ∀ n ∈ s.unhandled, n.value ≠ i
  active : i ∉ s.active
  inactive : i ∉ s.inactive
  ok : IntervalOk (s.store.at i)
  expired : (s.store.at i).expired = []
  fixedReg : (s.store.at i).fixedReg = false
  start : intervalStart (s.store.at i) = pos

/-- The invariant at position `pos`, with `c` the current interval while it gets its register. -/
structure ScanInv (arch : Arch) (bound pos : Nat) (c : Option Nat) (s : ScanState) : Prop where
  sorted : ∀ i < s.store.length, Sorted (s.store.at i).full
  bound : ∀ i < s.store.length, ∀ x, Covers (s.store.at i).full x → x < bound
  expired : ∀ i < s.store.length, ∀ x, Covers (s.store.at i).expired.reverse x → x < pos
  unfixed : ∀ i < s.store.length, (s.store.at i).fixedReg = false → ∀ r, (s.store.at i).reg = some r →
    r < arch.nrRegisters ∧ arch.regSupportsType r (s.store.at i).vmType = true
  queue : QueueInv pos s.store s.unhandled
  current : ∀ i, c = some i → Current pos s i
  listed : ∀ i, i ∈ s.active ∨ i ∈ s.inactive → i < s.store.length ∧ IntervalOk (s.store.at i) ∧
    ∃ r < arch.nrRegisters, (s.store.at i).reg = some r
  handled : ∀ i < s.store.length, c ≠ some i → ∀ r < arch.nrRegisters, (s.store.at i).reg = some r →
    i ∈ s.active ∨ i ∈ s.inactive ∨ ∀ x, Covers (s.store.at i).full x → x < pos

/-- Intervals with the same register are disjoint, `c` apart. -/
def Separate (c : Option Nat) (store : Intervals) : Prop :=
  ∀ i < store.length, ∀ j < store.length, i ≠ j → c ≠ some i → c ≠ some j → ∀ r, (store.at i).reg = some r →
    (store.at j).reg = some r → ∀ x, Covers (store.at i).full x → ¬Covers (store.at j).full x

theorem Separate.shrink {c : Option Nat} (h : Separate c store)
    (hs : StoreShrunk store store') : Separate c store' := by
  intro j hj' k hk' hne hcj hck r hrj hrk x hxj hxk
  have hj := hs.lt hj' hrj
  have hk := hs.lt hk' hrk
  exact h j hj k hk hne hcj hck r ((hs.old j hj).reg ▸ hrj) ((hs.old k hk).reg ▸ hrk) x ((hs.old j hj).full x hxj)
    ((hs.old k hk).full x hxk)

section Steps

variable {arch : Arch} {bound pos : Nat} {c : Option Nat} {s : ScanState}

theorem QueueInv.shrink (h : QueueInv pos store q) (hlen : store.length ≤ store'.length)
    (hsame : ∀ n ∈ q, SameCore (store'.at n.value) (store.at n.value)) : QueueInv pos store' q := by
  refine ⟨h.ordered, h.bounded, h.nodup, fun n hn => lt_of_lt_of_le (h.lt n hn) hlen, fun n hn => ?_, h.le,
    fun n hn => ?_⟩
  · rw [(hsame n hn).start]
    exact h.key n hn
  · have hw := h.waiting n hn
    have hc := hsame n hn
    exact ⟨hc.ok hw.ok, hc.expired.trans hw.expired, hc.reg.trans hw.reg, hc.fixedReg.trans hw.fixedReg⟩

theorem QueueInv.insert (h : QueueInv pos store q) (hj : j < store.length) (hnew : ∀ n ∈ q, n.value ≠ j)
    (hw : Waiting (store.at j)) (hle : pos ≤ intervalStart (store.at j)) (hb : intervalStart (store.at j) < 2 ^ 31) :
    QueueInv pos store (q.insert (intervalStart (store.at j)) j) := by
  obtain ⟨hord, hperm⟩ := @Pqueue.insert_spec _ q _ _ j h.bounded.within h.ordered (Pqueue.near_zero hb)
  have hall {P : PqueueNode Nat → Prop} (h₁ : P ⟨intervalStart (store.at j), j⟩) (h₂ : ∀ n ∈ q, P n) :
      ∀ n ∈ q.insert (intervalStart (store.at j)) j, P n := by
    intro n hn
    rcases List.mem_cons.mp (hperm.mem_iff.mp hn) with rfl | hn
    · exact h₁
    · exact h₂ n hn
  refine ⟨hord, hall hb h.bounded, ?_, hall hj h.lt, hall rfl h.key, hall hle h.le, hall hw h.waiting⟩
  rw [(hperm.map PqueueNode.value).nodup_iff, List.map_cons, List.nodup_cons]
  refine ⟨fun hmem => ?_, h.nodup⟩
  obtain ⟨n, hn, he⟩ := List.mem_map.mp hmem
  exact hnew n hn he

/-- **A spill keeps the invariant**, of the current interval or of a listed one, at `pos` or later. -/
theorem ScanInv.spill {p : Nat} {store' : Intervals} (h : ScanInv arch bound pos c s)
    (hbound : bound ≤ 2 ^ 31) (hi : i < s.store.length) (hq : ∀ n ∈ s.unhandled, n.value ≠ i) (hp : pos ≤ p)
    (hs : Spilled s.store s.unhandled i p store' q') :
    ScanInv arch bound pos c { s with store := store', unhandled := q' } := by
  have hold j (hj : j < s.store.length) := hs.shrunk.old j hj
  have hnew j (hj : ¬j < s.store.length) (hj' : j < store'.length) := hs.fresh j (not_lt.mp hj) hj'
  have hnewBound {j x} (hj : ¬j < s.store.length) (hj' : j < store'.length)
      (hx : Covers (store'.at j).full x) : x < bound := by
    have hf := hnew j hj hj'
    exact h.bound i hi x (hf.covers x (hf.full_eq ▸ hx))
  refine ⟨fun j hj' => ?_, fun j hj' x hx => ?_, fun j hj' x hx => ?_, fun j hj' hf r hr => ?_, ?_, fun j hc => ?_,
    fun j hl => ?_, fun j hj' hc r hlt hr => ?_⟩
  · by_cases hj : j < s.store.length
    · exact (hold j hj).sorted (h.sorted j hj)
    · exact (hnew j hj hj').ok.sorted
  · by_cases hj : j < s.store.length
    · exact h.bound j hj x ((hold j hj).full x hx)
    · exact hnewBound hj hj' hx
  · by_cases hj : j < s.store.length
    · exact h.expired j hj x ((hold j hj).expired ▸ hx)
    · rw [(hnew j hj hj').expired] at hx
      exact absurd hx not_covers_nil
  · have hj := hs.shrunk.lt hj' hr
    simp only [(hold j hj).vmType]
    exact h.unfixed j hj ((hold j hj).fixedReg ▸ hf) r ((hold j hj).reg ▸ hr)
  · have hkeep : QueueInv pos store' s.unhandled :=
      h.queue.shrink hs.length_le fun n hn => hs.others n.value (h.queue.lt n hn) (hq n hn)
    rcases hs.queue with he | ⟨j, hj, hj', he⟩
    · exact he ▸ hkeep
    · have hf := hs.fresh j hj hj'
      have hb :=
        hnewBound (not_lt.mpr hj) hj' (covers_full_of_ranges hf.ok.covers_start)
      simp only [he]
      refine hkeep.insert hj' (fun n hn hv => ?_) ⟨hf.ok, hf.expired, hf.reg, hf.fixedReg⟩
        (le_trans hp hf.start) (lt_of_lt_of_le hb hbound)
      have := h.queue.lt n hn
      omega
  · have hcur := h.current j hc
    have hsh := hold j hcur.lt
    refine ⟨lt_of_lt_of_le hcur.lt hs.length_le, fun n hn => ?_, hcur.active, hcur.inactive, hsh.ok hcur.ok,
      hsh.expired.trans hcur.expired, hsh.fixedReg.trans hcur.fixedReg, hsh.start.trans hcur.start⟩
    rcases hs.queue with he | ⟨k, hk, hk', he⟩
    · exact hcur.queue n (he ▸ hn)
    · have hlt := hcur.lt
      simp only [he] at hn
      -- the node that was added has a new interval
      by_cases hn' : n ∈ s.unhandled
      · exact hcur.queue n hn'
      · have hb :=
          hnewBound (not_lt.mpr hk) hk' (covers_full_of_ranges (hs.fresh k hk hk').ok.covers_start)
        have hperm := (@Pqueue.insert_spec _ s.unhandled _ _ k h.queue.bounded.within h.queue.ordered
          (Pqueue.near_zero (lt_of_lt_of_le hb hbound))).2
        rcases List.mem_cons.mp (hperm.mem_iff.mp hn) with rfl | hn
        · change k ≠ j
          omega
        · exact absurd hn hn'
  · obtain ⟨hj, hok, r, hr, hreg'⟩ := h.listed j hl
    exact ⟨lt_of_lt_of_le hj hs.length_le, (hold j hj).ok hok, r, hr, (hold j hj).reg.trans hreg'⟩
  · have hj := hs.shrunk.lt hj' hr
    rcases h.handled j hj hc r hlt ((hold j hj).reg ▸ hr) with ha | hi | hx
    · exact .inl ha
    · exact .inr (.inl hi)
    · exact .inr (.inr fun x hx' => hx x ((hold j hj).full x hx'))

theorem ScanInv.setReg (h : ScanInv arch bound pos (some i) s) (hr : r < arch.nrRegisters)
    (hsup : arch.regSupportsType r (s.store.at i).vmType = true) :
    ScanInv arch bound pos (some i) { s with store := withReg s.store i r } := by
  have hcur := h.current i rfl
  have hlen : (withReg s.store i r).length = s.store.length := length_put _ _ _
  -- the interval changes in nothing but its register
  have hat j : (withReg s.store i r).at j = if j = i then { s.store.at i with reg := some r } else s.store.at j :=
    at_put _ hcur.lt
  have hne {j} (hj : j ≠ i) : (withReg s.store i r).at j = s.store.at j := at_put_ne _ hj
  have hfull j : ((withReg s.store i r).at j).full = (s.store.at j).full := by
    rw [hat]
    split
    · rename_i he
      exact he ▸ rfl
    · rfl
  have hlist {j} (hl : j ∈ s.active ∨ j ∈ s.inactive) : j ≠ i := by
    rintro rfl
    exact hl.elim hcur.active hcur.inactive
  refine ⟨fun j hj => hfull j ▸ h.sorted j (hlen ▸ hj), fun j hj x hx => h.bound j (hlen ▸ hj) x (hfull j ▸ hx),
    fun j hj x hx => ?_, fun j hj hf r' hr' => ?_, ?_, fun j hc => ?_, fun j hl => ?_,
    fun j hj hc r' hlt hr' => ?_⟩
  · refine h.expired j (hlen ▸ hj) x ?_
    simp only [hat] at hx
    split at hx
    · rename_i he
      exact he ▸ hx
    · exact hx
  · simp only [hat] at hf hr' ⊢
    by_cases hji : j = i
    · simp only [hji, if_true] at hr' ⊢
      cases hr'
      exact ⟨hr, hsup⟩
    · rw [if_neg hji] at hf hr' ⊢
      exact h.unfixed j (hlen ▸ hj) hf r' hr'
  · refine h.queue.shrink (le_of_eq hlen.symm) fun n hn => ?_
    rw [hne (hcur.queue n hn)]
    exact .refl _
  · cases hc
    have hself : (withReg s.store i r).at i = { s.store.at i with reg := some r } := at_put_self _ hcur.lt
    refine ⟨hlen ▸ hcur.lt, hcur.queue, hcur.active, hcur.inactive, ?_, ?_, ?_, ?_⟩ <;> simp only [hself]
    · exact ⟨hcur.ok.sorted, hcur.ok.nonempty⟩
    · exact hcur.expired
    · exact hcur.fixedReg
    · exact hcur.start
  · simp only [hne (hlist hl), hlen]
    exact h.listed j hl
  · have hji : j ≠ i := fun e => hc (congrArg some e.symm)
    simp only [hne hji] at hr' ⊢
    exact h.handled j (hlen ▸ hj) hc r' hlt hr'

theorem ScanInv.activate (h : ScanInv arch bound pos (some i) s) (hr : r < arch.nrRegisters)
    (hreg : (s.store.at i).reg = some r) : ScanInv arch bound pos none { s with active := i :: s.active } := by
  have hcur := h.current i rfl
  refine ⟨h.sorted, h.bound, h.expired, h.unfixed, h.queue, nofun, fun j hl => ?_, fun j hj _ r' hlt hr' => ?_⟩
  · rw [List.mem_cons, or_assoc] at hl
    rcases hl with rfl | hl
    · exact ⟨hcur.lt, hcur.ok, r, hr, hreg⟩
    · exact h.listed j hl
  · by_cases hji : j = i
    · exact .inl (hji ▸ List.mem_cons_self)
    · exact (h.handled j hj (fun e => hji (Option.some.inj e).symm) r' hlt hr').imp_left (List.mem_cons_of_mem i)

/-- The current interval is disjoint from the others with its register. -/
theorem Separate.join (h : Separate (some i) store) (hreg : (store.at i).reg = some r)
    (hdisj : ∀ j < store.length, j ≠ i → (store.at j).reg = some r → ∀ x, Covers (store.at i).full x →
      ¬Covers (store.at j).full x) : Separate none store := by
  intro j hj k hk hjk _ _ r' hrj hrk x hxj hxk
  by_cases hji : j = i
  · subst hji
    cases hreg.symm.trans hrj
    exact hdisj k hk (Ne.symm hjk) hrk x hxj hxk
  · by_cases hki : k = i
    · subst hki
      cases hreg.symm.trans hrk
      exact hdisj j hj hjk hrj x hxk hxj
    · exact h j hj k hk hjk (fun e => hji (Option.some.inj e).symm) (fun e => hki (Option.some.inj e).symm) r' hrj hrk x
        hxj hxk

end Steps

end Jato.Jit
