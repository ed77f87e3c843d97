import Jato.Jit.ScanInvariant

/-!
# The active and the inactive list

Before an interval gets its register the two lists are brought to its start: intervals that have ended are removed,
ranges that lie before it expire, and what remains is active if and only if it covers the start. The next interval is
then the current one (`scanPrepare_spec`).
-/

namespace Jato.Jit

open Jato.Lib List

/-! ## Expired ranges -/

/-- `b` is `a` after some ranges before `position` may have expired. -/
structure Aged (position : Nat) (a b : LiveInterval) : Prop where
  full : b.full = a.full
  expired : ∀ x, Covers b.expired.reverse x → Covers a.expired.reverse x ∨ x < position
  nonempty : a.ranges ≠ [] → b.ranges ≠ []
  reg : b.reg = a.reg
  fixedReg : b.fixedReg = a.fixedReg
  vmType : b.vmType = a.vmType

theorem Aged.refl (position : Nat) (a : LiveInterval) : Aged position a a :=
  ⟨rfl, fun _ => .inl, id, rfl, rfl, rfl⟩

variable {position : Nat} {a b : LiveInterval} {pos i : Nat} {store store' : Intervals}

theorem Aged.trans {c : LiveInterval} (h : Aged position a b) (h' : Aged position b c) : Aged position a c := by
  refine ⟨h'.full.trans h.full, fun x hx => ?_, h'.nonempty ∘ h.nonempty, h'.reg.trans h.reg,
    h'.fixedReg.trans h.fixedReg, h'.vmType.trans h.vmType⟩
  rcases h'.expired x hx with hx | hx
  · exact h.expired x hx
  · exact .inr hx

theorem Aged.ok (h : Aged position a b) (ha : IntervalOk a) : IntervalOk b :=
  ⟨h.full ▸ ha.sorted, h.nonempty ha.nonempty⟩

theorem aged_expire {it : LiveInterval} (h : IntervalOk it) : Aged pos it (intervalExpireRangesBefore it pos) := by
  unfold intervalExpireRangesBefore
  split
  · exact .refl pos it
  · obtain ⟨moved, hexp, hranges, hstop, hne⟩ := @expireLoop_spec it.ranges it.expired pos h.ranges.toInOrder
    have hrev : (expireLoop pos it.ranges it.expired).2.reverse = it.expired.reverse ++ moved := by rw [hexp]; simp
    refine ⟨?_, fun x hx => ?_, hne, rfl, rfl, rfl⟩
    · rw [LiveInterval.full, hrev, append_assoc, ← hranges, LiveInterval.full]
    · rw [hrev, covers_append] at hx
      refine hx.imp_right ?_
      rintro ⟨r, hr, hx⟩
      have := hstop r hr
      omega

theorem aged_put_expire (hi : i < store.length) (h : IntervalOk (store.at i)) (j : Nat) :
    Aged pos (store.at j) ((store.put i (intervalExpireRangesBefore (store.at i) pos)).at j) := by
  by_cases hji : j = i
  · subst hji
    rw [at_put_self _ hi]
    exact aged_expire h
  · rw [at_put_ne _ hji]
    exact .refl _ _

theorem linked_put_expire (hi : i < store.length) :
    Linked store (store.put i (intervalExpireRangesBefore (store.at i) pos)) := by
  refine linked_put hi ?_
  unfold intervalExpireRangesBefore
  split <;> rfl

/-! ## The loops over the lists -/

/-- An interval as the loops find it: its expired ranges lie before `position`. -/
structure Listed (position : Nat) (store : Intervals) (i : Nat) : Prop where
  lt : i < store.length
  ok : IntervalOk (store.at i)
  expired : ∀ x, Covers (store.at i).expired.reverse x → x < position

theorem Listed.covers_iff {position x : Nat} (h : Listed position store i) (hx : position ≤ x) :
    Covers (store.at i).full x ↔ Covers (store.at i).ranges x := by
  rw [LiveInterval.full, covers_append]
  refine ⟨fun hc => hc.resolve_left fun he => ?_, .inr⟩
  have := h.expired x he
  omega

theorem Listed.aged {position : Nat} (h : Listed position store i)
    (hlen : store'.length = store.length) (ha : Aged position (store.at i) (store'.at i)) : Listed position store' i :=
  ⟨hlen ▸ h.lt, ha.ok h.ok, fun x hx => (ha.expired x hx).elim (h.expired x) id⟩

/-- The effect of the loop over the list `l`, which keeps the intervals that cover `position` if `stays` is true, and
those that do not if it is false. -/
structure Updated (stays : Bool) (position : Nat) (l other : List Nat) (store store' : Intervals)
    (kept moved : List Nat) : Prop where
  length : store'.length = store.length
  aged : ∀ j, Aged position (store.at j) (store'.at j)
  others : ∀ j, j ∉ l → store'.at j = store.at j
  ofKept : ∀ i ∈ kept, i ∈ l ∧ (Covers (store.at i).full position ↔ stays = true)
  ofMoved : ∀ i ∈ moved, i ∈ other ∨ i ∈ l ∧ (Covers (store.at i).full position ↔ stays = false)
  ofOther : ∀ i ∈ other, i ∈ moved
  ofList : ∀ i ∈ l, i ∈ kept ∨ i ∈ moved ∨ ∀ x, Covers (store.at i).full x → x < position
  linked : Linked store store'

/-- One interval of the list expires its ranges, and the loop goes on. -/
theorem Updated.put {stays : Bool} {position : Nat} {l other other' kept kept' moved : List Nat}
    (hi : Listed position store i)
    (h : Updated stays position l other' (store.put i (intervalExpireRangesBefore (store.at i) position)) store' kept moved)
    (hkept : ∀ j ∈ kept', j ∈ kept ∨ j = i ∧ (Covers (store.at i).full position ↔ stays = true))
    (hother : ∀ j ∈ other', j ∈ other ∨ j = i ∧ (Covers (store.at i).full position ↔ stays = false))
    (hsub : ∀ j ∈ kept, j ∈ kept') (hsub' : ∀ j ∈ other, j ∈ other') (hmem : i ∈ kept' ∨ i ∈ other') :
    Updated stays position (i :: l) other store store' kept' moved := by
  have haged j := @aged_put_expire position i store hi.lt hi.ok j
  refine ⟨h.length.trans (length_put _ _ _), fun j => (haged j).trans (h.aged j), fun j hj => ?_, fun j hj => ?_,
    fun j hj => ?_, fun j hj => h.ofOther j (hsub' j hj), fun j hj => ?_, (linked_put_expire hi.lt).trans h.linked⟩
  · rw [mem_cons, not_or] at hj
    rw [h.others j hj.2, at_put_ne _ hj.1]
  · rcases hkept j hj with hj | ⟨rfl, hc⟩
    · obtain ⟨hl, hc⟩ := h.ofKept j hj
      exact ⟨mem_cons_of_mem i hl, (haged j).full ▸ hc⟩
    · exact ⟨mem_cons_self, hc⟩
  · rcases h.ofMoved j hj with hj | ⟨hl, hc⟩
    · rcases hother j hj with hj | ⟨rfl, hc⟩
      · exact .inl hj
      · exact .inr ⟨mem_cons_self, hc⟩
    · exact .inr ⟨mem_cons_of_mem i hl, (haged j).full ▸ hc⟩
  · rcases mem_cons.mp hj with rfl | hl
    · exact hmem.imp (fun h => h) fun hm => .inl (h.ofOther j hm)
    · rcases h.ofList j hl with hk | hm | hx
      · exact .inl (hsub j hk)
      · exact .inr (.inl hm)
      · exact .inr (.inr ((haged j).full ▸ hx))

theorem updateList_spec {stays : Bool} {position : Nat} : ∀ {l : List Nat} {store : Intervals} {other : List Nat},
    (∀ i ∈ l, Listed position store i) →
    Updated stays position l other store (updateList stays position l store other).1
      (updateList stays position l store other).2.1 (updateList stays position l store other).2.2
  | [], store, other, _ =>
    ⟨rfl, fun _ => .refl _ _, fun _ _ => rfl, nofun, fun _ => .inl, fun _ => id, nofun, .refl _⟩
  | i :: l, store, other, h => by
    have hi := h i mem_cons_self
    rw [updateList]
    split
    · -- the interval has ended
      rename_i hend
      have hrec := @updateList_spec stays position l store other fun j hj => h j (mem_cons_of_mem i hj)
      refine ⟨hrec.length, hrec.aged, fun j hj => hrec.others j fun hl => hj (mem_cons_of_mem i hl),
        fun j hj => (hrec.ofKept j hj).imp_left (mem_cons_of_mem i),
        fun j hj => (hrec.ofMoved j hj).imp_right fun hm => hm.imp_left (mem_cons_of_mem i), hrec.ofOther,
        fun j hj => ?_, hrec.linked⟩
      rcases mem_cons.mp hj with rfl | hl
      · refine .inr (.inr fun x hx => ?_)
        by_contra hle
        have hlt : x < intervalEnd (store.at j) := hi.ok.ranges.lt_end ((hi.covers_iff (not_lt.mp hle)).mp hx)
        omega
      · exact hrec.ofList j hl
    · have haged : Aged position (store.at i) (intervalExpireRangesBefore (store.at i) position) := aged_expire hi.ok
      have hself := at_put_self (intervalExpireRangesBefore (store.at i) position) hi.lt
      have hlisted : ∀ j ∈ i :: l,
          Listed position (store.put i (intervalExpireRangesBefore (store.at i) position)) j :=
        fun j hj => (h j hj).aged (length_put _ _ _) (aged_put_expire hi.lt hi.ok j)
      have hi' := hlisted i mem_cons_self
      have hcov : intervalCovers (intervalExpireRangesBefore (store.at i) position) position = true ↔
          Covers (store.at i).full position := by
        rw [← haged.full, intervalCovers_iff (haged.ok hi.ok).ranges.toInOrder, ← hself, hi'.covers_iff (le_refl _)]
      have hrec other := @updateList_spec stays position l
        (store.put i (intervalExpireRangesBefore (store.at i) position)) other
        fun j hj => hlisted j (mem_cons_of_mem i hj)
      simp only [hself]
      split
      · rename_i hs
        refine .put hi (hrec other) (fun j hj => ?_) (fun _ => .inl) (fun _ => mem_cons_of_mem i) (fun _ => id)
          (.inl mem_cons_self)
        rw [← hcov, hs]
        exact (mem_cons.mp hj).symm.imp_right fun e => ⟨e, Iff.rfl⟩
      · rename_i hs
        refine .put hi (hrec (i :: other)) (fun _ => .inl) (fun j hj => ?_) (fun _ => id)
          (fun _ => mem_cons_of_mem i) (.inr mem_cons_self)
        refine (mem_cons.mp hj).symm.imp_right fun e => ⟨e, ?_⟩
        rw [← hcov]
        revert hs
        cases intervalCovers (intervalExpireRangesBefore (store.at i) position) position <;> cases stays <;> simp

/-- The effect of both loops: an interval of the lists is then on the list it belongs to at `position`. -/
structure Relisted (position : Nat) (s : ScanState) (store : Intervals) (active inactive : List Nat) : Prop where
  length : store.length = s.store.length
  aged : ∀ j, Aged position (s.store.at j) (store.at j)
  others : ∀ j, ¬(j ∈ s.active ∨ j ∈ s.inactive) → store.at j = s.store.at j
  ofActive : ∀ i ∈ active, (i ∈ s.active ∨ i ∈ s.inactive) ∧ Covers (store.at i).full position
  ofInactive : ∀ i ∈ inactive, (i ∈ s.active ∨ i ∈ s.inactive) ∧ ¬Covers (store.at i).full position
  ofLists : ∀ i, i ∈ s.active ∨ i ∈ s.inactive →
    i ∈ active ∨ i ∈ inactive ∨ ∀ x, Covers (store.at i).full x → x < position
  linked : Linked s.store store

theorem relisted_update {s : ScanState} (h : ∀ i, i ∈ s.active ∨ i ∈ s.inactive → Listed position s.store i) :
    let a := updateActive position s.active s.store s.inactive
    let i := updateInactive position a.2.2 a.1 a.2.1
    Relisted position s i.1 i.2.2 i.2.1 := by
  intro a i
  have ha : Updated true position s.active s.inactive s.store a.1 a.2.1 a.2.2 :=
    updateList_spec fun j hj => h j (.inl hj)
  -- an interval that the first loop has moved was on one of the lists
  have hmoved : ∀ j ∈ a.2.2, j ∈ s.active ∨ j ∈ s.inactive := fun j hj =>
    (ha.ofMoved j hj).elim .inr fun hm => .inl hm.1
  have hi : Updated false position a.2.2 a.2.1 a.1 i.1 i.2.1 i.2.2 :=
    updateList_spec fun j hj => (h j (hmoved j hj)).aged ha.length (ha.aged j)
  have haged j : Aged position (s.store.at j) (i.1.at j) := (ha.aged j).trans (hi.aged j)
  refine ⟨hi.length.trans ha.length, haged, fun j hj => ?_, fun j hj => ?_, fun j hj => ?_, fun j hj => ?_,
    ha.linked.trans hi.linked⟩
  · rw [hi.others j fun hm => hj (hmoved j hm), ha.others j fun hm => hj (.inl hm)]
  · rw [(haged j).full]
    rcases hi.ofMoved j hj with hk | ⟨hm, hc⟩
    · obtain ⟨hl, hc⟩ := ha.ofKept j hk
      exact ⟨.inl hl, hc.mpr rfl⟩
    · exact ⟨hmoved j hm, (ha.aged j).full ▸ hc.mpr rfl⟩
  · obtain ⟨hm, hc⟩ := hi.ofKept j hj
    rw [(hi.aged j).full, hc]
    exact ⟨hmoved j hm, by simp⟩
  · have hsecond (hm : j ∈ a.2.2) : j ∈ i.2.2 ∨ j ∈ i.2.1 ∨ ∀ x, Covers (i.1.at j).full x → x < position := by
      rw [(hi.aged j).full, or_left_comm]
      exact hi.ofList j hm
    rcases hj with hj | hj
    · rcases ha.ofList j hj with hk | hm | hx
      · exact .inl (hi.ofOther j hk)
      · exact hsecond hm
      · exact .inr (.inr ((haged j).full ▸ hx))
    · exact hsecond (ha.ofOther j hj)

/-! ## The next interval -/

section Prepare

variable {arch : Arch} {bound pos current : Nat} {s s' : ScanState}

/-- The state in which the current interval gets its register. -/
structure Prepared (arch : Arch) (bound position : Nat) (s : ScanState) (current : Nat) (s' : ScanState) : Prop where
  inv : ScanInv arch bound position (some current) s'
  active : ∀ i ∈ s'.active, Covers (s'.store.at i).full position
  inactive : ∀ i ∈ s'.inactive, ¬Covers (s'.store.at i).full position
  length : s'.store.length = s.store.length
  aged : ∀ j, Aged position (s.store.at j) (s'.store.at j)
  linked : Linked s.store s'.store

theorem QueueInv.removeTop {q q' : Pqueue Nat} (h : QueueInv pos store q) (hq : q.removeTop = some (current, q')) :
    pos ≤ intervalStart (store.at current) ∧ current < store.length ∧ Waiting (store.at current) ∧
      (∀ n ∈ q', n.value ≠ current) ∧ (∀ n ∈ q', n ∈ q) ∧ QueueInv (intervalStart (store.at current)) store q' := by
  obtain ⟨hord, key, hperm, hmin⟩ := Pqueue.removeTop_spec h.bounded.within h.ordered hq
  have htop := hperm.mem_iff.mpr mem_cons_self
  have hsub : ∀ n ∈ q', n ∈ q := fun n hn => hperm.mem_iff.mpr (mem_cons_of_mem _ hn)
  have hkey : key = intervalStart (store.at current) := h.key _ htop
  have hnodup := (hperm.map PqueueNode.value).nodup_iff.mp h.nodup
  rw [map_cons, nodup_cons] at hnodup
  refine ⟨hkey ▸ h.le _ htop, h.lt _ htop, h.waiting _ htop, fun n hn e => ?_, hsub, ?_⟩
  · exact hnodup.1 (mem_map.mpr ⟨n, hn, e⟩)
  · exact ⟨hord, fun n hn => h.bounded n (hsub n hn), hnodup.2, fun n hn => h.lt n (hsub n hn),
      fun n hn => h.key n (hsub n hn), fun n hn => hkey ▸ hmin n (hsub n hn), fun n hn => h.waiting n (hsub n hn)⟩

/-- **Taking the next interval** moves the invariant to the start of this interval. -/
theorem scanPrepare_spec (h : ScanInv arch bound pos none s) (hp : scanPrepare s = some (current, s')) :
    ∃ position, pos ≤ position ∧ Prepared arch bound position s current s' := by
  unfold scanPrepare at hp
  obtain ⟨⟨c, q⟩, hq, hp⟩ := Option.bind_eq_some_iff.mp hp
  cases hp
  obtain ⟨hle, hlt, hw, hne, hsub, hqueue⟩ := h.queue.removeTop hq
  -- intervals of the lists have a register, and those of the queue have none
  have hunlisted {j} (hj : (s.store.at j).reg = none) : ¬(j ∈ s.active ∨ j ∈ s.inactive) := by
    intro hl
    obtain ⟨-, -, r, -, hr⟩ := h.listed j hl
    rw [hj] at hr
    cases hr
  have hlisted : ∀ i, i ∈ s.active ∨ i ∈ s.inactive → Listed (intervalStart (s.store.at current)) s.store i := by
    intro i hi
    obtain ⟨hlt, hok, -⟩ := h.listed i hi
    exact ⟨hlt, hok, fun x hx => lt_of_lt_of_le (h.expired i hlt x hx) hle⟩
  have hrel := relisted_update hlisted
  simp only at hrel
  generalize updateInactive (intervalStart (s.store.at current)) _ _ _ = r at hrel ⊢
  have hcur := hrel.others current (hunlisted hw.reg)
  have hold {i} (hi : i ∈ r.2.2 ∨ i ∈ r.2.1) : i ∈ s.active ∨ i ∈ s.inactive :=
    hi.elim (fun hi => (hrel.ofActive i hi).1) fun hi => (hrel.ofInactive i hi).1
  refine ⟨_, hle, ⟨?_, ?_, ?_, ?_, ?_, fun i hc => ?_, fun i hi => ?_, fun i hi _ r' hr' hreg => ?_⟩,
    fun i hi => (hrel.ofActive i hi).2, fun i hi => (hrel.ofInactive i hi).2, hrel.length, hrel.aged, hrel.linked⟩
  · exact fun i hi => (hrel.aged i).full ▸ h.sorted i (hrel.length ▸ hi)
  · exact fun i hi => (hrel.aged i).full ▸ h.bound i (hrel.length ▸ hi)
  · intro i hi x hx
    rcases (hrel.aged i).expired x hx with hx | hx
    · exact lt_of_lt_of_le (h.expired i (hrel.length ▸ hi) x hx) hle
    · exact hx
  · intro i hi hf r' hr'
    simp only [(hrel.aged i).vmType]
    exact h.unfixed i (hrel.length ▸ hi) ((hrel.aged i).fixedReg ▸ hf) r' ((hrel.aged i).reg ▸ hr')
  · refine hqueue.shrink (le_of_eq hrel.length.symm) fun n hn => ?_
    rw [hrel.others n.value (hunlisted (h.queue.waiting n (hsub n hn)).reg)]
    exact .refl _
  · cases hc
    refine ⟨hrel.length ▸ hlt, hne, fun hi => ?_, fun hi => ?_, hcur ▸ hw.ok, hcur ▸ hw.expired, hcur ▸ hw.fixedReg,
      hcur ▸ rfl⟩
    · exact hunlisted hw.reg (hold (.inl hi))
    · exact hunlisted hw.reg (hold (.inr hi))
  · obtain ⟨hlt', hok, r', hr', hreg⟩ := h.listed i (hold hi)
    exact ⟨hrel.length ▸ hlt', (hrel.aged i).ok hok, r', hr', (hrel.aged i).reg.trans hreg⟩
  · have hdead (hx : ∀ x, Covers (s.store.at i).full x → x < pos) : ∀ x, Covers (r.1.at i).full x →
        x < intervalStart (s.store.at current) := fun x hx' =>
      lt_of_lt_of_le (hx x ((hrel.aged i).full ▸ hx')) hle
    rcases h.handled i (hrel.length ▸ hi) (by simp) r' hr' ((hrel.aged i).reg ▸ hreg) with hl | hl | hx
    · exact hrel.ofLists i (.inl hl)
    · exact hrel.ofLists i (.inr hl)
    · exact .inr (.inr (hdead hx))

/-- Aging changes neither registers nor what is covered. -/
theorem Prepared.separate (h : Prepared arch bound position s current s')
    (hs : Separate none s.store) : Separate (some current) s'.store := by
  intro i hi j hj hne _ _ r hri hrj x
  rw [(h.aged i).full, (h.aged j).full]
  exact hs i (h.length ▸ hi) j (h.length ▸ hj) hne (by simp) (by simp) r ((h.aged i).reg ▸ hri) ((h.aged j).reg ▸ hrj) x

end Prepare

end Jato.Jit
