import Jato.Lib.FoldM
import Jato.Jit.LinearScan

/-!
# What a spill does

`spillInterval` cuts an interval at a position and leaves all others as they are, apart from flags and links that no
decision of the allocator depends on (`spillInterval_spec`). The interval that it puts on the queue is new, has no
register and starts at the position of the cut or later.
-/

namespace Jato.Jit

open Jato.Lib List

/-! ## The store -/

section Store

variable {store : Intervals} {i j : Nat}

@[simp] theorem length_put (store : Intervals) (i : Nat) (it : LiveInterval) : (store.put i it).length = store.length := by
  simp [Intervals.put]

theorem at_put (it : LiveInterval) (hi : i < store.length) :
    (store.put i it).at j = if j = i then it else store.at j := by
  unfold Intervals.put Intervals.at
  rw [getD_eq_getElem?_getD, getElem?_set, getD_eq_getElem?_getD]
  by_cases h : j = i
  · subst h
    simp [hi]
  · rw [if_neg (Ne.symm h), if_neg h]

@[simp] theorem at_put_self (it : LiveInterval) (hi : i < store.length) : (store.put i it).at i = it := by
  rw [at_put it hi, if_pos rfl]

theorem at_put_ne (it : LiveInterval) (h : j ≠ i) : (store.put i it).at j = store.at j := by
  unfold Intervals.put Intervals.at
  rw [getD_eq_getElem?_getD, getElem?_set, if_neg (Ne.symm h), getD_eq_getElem?_getD]

theorem at_append_left {l : Intervals} (h : j < store.length) : Intervals.at (store ++ l) j = store.at j := by
  unfold Intervals.at
  rw [getD_eq_getElem?_getD, getElem?_append_left h, getD_eq_getElem?_getD]

theorem at_append_new (store : Intervals) (it : LiveInterval) : Intervals.at (store ++ [it]) store.length = it := by
  simp [Intervals.at]

end Store

/-! ## Intervals up to flags and links -/

/-- All ranges of an interval, the expired ones first. -/
def LiveInterval.full (it : LiveInterval) : List LiveRange := it.expired.reverse ++ it.ranges

/-- The two intervals agree on their next child and on everything the allocator decides by, apart from their use
positions. -/
structure SameCore (a b : LiveInterval) : Prop where
  ranges : a.ranges = b.ranges
  expired : a.expired = b.expired
  reg : a.reg = b.reg
  fixedReg : a.fixedReg = b.fixedReg
  vmType : a.vmType = b.vmType
  nextChild : a.nextChild = b.nextChild

theorem SameCore.refl (a : LiveInterval) : SameCore a a := ⟨rfl, rfl, rfl, rfl, rfl, rfl⟩

theorem SameCore.trans {a b c : LiveInterval} (h : SameCore a b) (h' : SameCore b c) : SameCore a c :=
  ⟨h.ranges.trans h'.ranges, h.expired.trans h'.expired, h.reg.trans h'.reg, h.fixedReg.trans h'.fixedReg,
    h.vmType.trans h'.vmType, h.nextChild.trans h'.nextChild⟩

variable {it old a b : LiveInterval} {store : Intervals} {pos : Nat}

theorem SameCore.full (h : SameCore a b) : a.full = b.full := by
  rw [LiveInterval.full, LiveInterval.full, h.ranges, h.expired]

theorem SameCore.start (h : SameCore a b) : intervalStart a = intervalStart b := by
  rw [intervalStart, intervalStart, h.ranges]

theorem sameCore_put {i : Nat} (hi : i < store.length)
    (h : SameCore it (store.at i)) (j : Nat) : SameCore ((store.put i it).at j) (store.at j) := by
  rw [at_put it hi]
  split
  · rename_i he
    exact he ▸ h
  · exact .refl _

theorem updateSpillParents_sameCore {it new : Nat} : ∀ {fuel : Nat} {child : Option Nat} {store store' : Intervals},
    updateSpillParents it new fuel child store = some store' →
    store'.length = store.length ∧ ∀ j, SameCore (store'.at j) (store.at j)
  | _, none, _, _, h => by
    cases (show some _ = some _ by simpa [updateSpillParents] using h)
    exact ⟨rfl, fun _ => .refl _⟩
  | 0, some _, _, _, h => by cases h
  | fuel + 1, some child, store, store', h => by
    rw [updateSpillParents] at h
    obtain ⟨hlen, hcore⟩ := updateSpillParents_sameCore h
    split at hlen
    · rename_i hc
      rw [if_pos hc] at hcore
      refine ⟨by rw [hlen, length_put], fun j => (hcore j).trans ?_⟩
      by_cases hlt : child < store.length
      · refine sameCore_put hlt ?_ j
        exact ⟨rfl, rfl, rfl, rfl, rfl, rfl⟩
      · rw [show store.put child _ = store from set_eq_of_length_le (not_lt.mp hlt)]
        exact .refl _
    · rename_i hc
      rw [if_neg hc] at hcore
      exact ⟨hlen, hcore⟩

theorem markSpilled_sameCore {it new nextPos : Nat} (hi : it < store.length)
    (hn : new < store.length) : (markSpilled store it new nextPos).length = store.length ∧
      ∀ j, SameCore ((markSpilled store it new nextPos).at j) (store.at j) := by
  refine ⟨by simp [markSpilled], fun j => ?_⟩
  unfold markSpilled
  apply SameCore.trans (b := (store.put new _).at j)
  · refine sameCore_put (by simpa using hi) ?_ j
    exact ⟨rfl, rfl, rfl, rfl, rfl, rfl⟩
  · refine sameCore_put hn ?_ j
    split <;> split <;> exact ⟨rfl, rfl, rfl, rfl, rfl, rfl⟩

/-! ## Children -/

/-- The interval `b` follows `a` in the list of children. -/
def NextChild (store : Intervals) (a b : Nat) : Prop := (store.at a).nextChild = some b

/-- Every interval is a child of one of the intervals in `vars`. -/
def Chained (vars : List Nat) (store : Intervals) : Prop :=
  ∀ j < store.length, ∃ i ∈ vars, Relation.ReflTransGen (NextChild store) i j

/-- The intervals of `store'` are children of the same intervals as those of `store`. -/
def Linked (store store' : Intervals) : Prop := ∀ vars, Chained vars store → Chained vars store'

theorem Linked.refl (store : Intervals) : Linked store store := fun _ => id

theorem Linked.trans {a b c : Intervals} (h : Linked a b) (h' : Linked b c) : Linked a c :=
  fun vars => h' vars ∘ h vars

theorem linked_of_same {store store' : Intervals} (hlen : store'.length = store.length)
    (h : ∀ j, (store'.at j).nextChild = (store.at j).nextChild) : Linked store store' := by
  have he : NextChild store' = NextChild store := by
    funext a b
    rw [NextChild, NextChild, h a]
  intro vars hc j hj
  rw [he]
  exact hc j (hlen ▸ hj)

theorem linked_put {i : Nat} (hi : i < store.length)
    (h : it.nextChild = (store.at i).nextChild) : Linked store (store.put i it) := by
  refine linked_of_same (length_put _ _ _) fun j => ?_
  rw [at_put it hi]
  split
  · rename_i he
    exact he ▸ h
  · rfl

theorem linked_insert {store store' : Intervals} {i : Nat} (hi : i < store.length)
    (hlen : store'.length = store.length + 1) (hothers : ∀ j < store.length, j ≠ i → store'.at j = store.at j)
    (hold : (store'.at i).nextChild = some store.length)
    (hnew : (store'.at store.length).nextChild = (store.at i).nextChild) : Linked store store' := by
  have hedge {a b} (h : NextChild store a b) : Relation.ReflTransGen (NextChild store') a b := by
    by_cases hai : a = i
    · subst hai
      exact .tail (.single hold) (hnew.trans h)
    · have ha : a < store.length := by
        by_contra hlt
        rw [NextChild, Intervals.at, getD_eq_getElem?_getD, getElem?_eq_none (not_lt.mp hlt)] at h
        cases h
      refine .single ?_
      rw [NextChild, hothers a ha hai]
      exact h
  have hpath {a b} (h : Relation.ReflTransGen (NextChild store) a b) :
      Relation.ReflTransGen (NextChild store') a b := by
    induction h with
    | refl => exact .refl
    | tail _ hab ih => exact ih.trans (hedge hab)
  intro vars hc j hj
  by_cases hjl : j < store.length
  · obtain ⟨v, hv, hvj⟩ := hc j hjl
    exact ⟨v, hv, hpath hvj⟩
  · have : j = store.length := by omega
    subst this
    obtain ⟨v, hv, hvi⟩ := hc i hi
    exact ⟨v, hv, (hpath hvi).tail hold⟩

/-! ## Cuts -/

/-- An interval that is not empty and has its ranges in order. -/
structure IntervalOk (it : LiveInterval) : Prop where
  sorted : Sorted it.full
  nonempty : it.ranges ≠ []

theorem IntervalOk.ranges (h : IntervalOk it) : Sorted it.ranges :=
  h.sorted.sublist (sublist_append_right _ _)

theorem SameCore.ok (h : SameCore a b) (hb : IntervalOk b) : IntervalOk a :=
  ⟨h.full ▸ hb.sorted, h.ranges ▸ hb.nonempty⟩

theorem IntervalOk.covers_start (h : IntervalOk it) : Covers it.ranges (intervalStart it) :=
  h.ranges.covers_start h.nonempty

theorem covers_full_of_ranges {x : Nat} (h : Covers it.ranges x) : Covers it.full x :=
  covers_append.mpr (.inr h)

theorem IntervalOk.expired_lt (h : IntervalOk it) {x : Nat} (hx : Covers it.expired.reverse x) :
    x < intervalStart it := by
  obtain ⟨r, hr, -, hlt⟩ := hx
  obtain ⟨b, hb, hle, -⟩ := h.covers_start
  have := (pairwise_append.mp h.sorted.pairwise).2.2 r hr
  -- the first range starts at the start of the interval
  cases hrs : it.ranges with
  | nil => exact absurd hrs h.nonempty
  | cons first rest =>
    have hfirst := this first (hrs ▸ mem_cons_self)
    have hstart : intervalStart it = first.start := by rw [intervalStart, hrs]; rfl
    omega

/-- `new` is `old` without the positions from `pos` on. -/
structure Cut (pos : Nat) (old new : LiveInterval) : Prop where
  ok : IntervalOk new
  full : ∀ x, Covers new.full x ↔ Covers old.full x ∧ x < pos
  ranges : ∀ x, Covers new.ranges x ↔ Covers old.ranges x ∧ x < pos
  start : intervalStart new = intervalStart old
  expired : new.expired = old.expired
  reg : new.reg = old.reg
  fixedReg : new.fixedReg = old.fixedReg
  vmType : new.vmType = old.vmType

/-- A new interval for positions of `old` from `pos` on. -/
structure Fresh (pos : Nat) (old it : LiveInterval) : Prop where
  ok : IntervalOk it
  covers : ∀ x, Covers it.ranges x → Covers old.full x
  start : pos ≤ intervalStart it
  expired : it.expired = []
  reg : it.reg = none
  fixedReg : it.fixedReg = false
  vmType : it.vmType = old.vmType

theorem SameCore.cut (h : SameCore a b) (hb : Cut pos old b) : Cut pos old a :=
  ⟨h.ok hb.ok, h.full ▸ hb.full, h.ranges ▸ hb.ranges, h.start.trans hb.start, h.expired.trans hb.expired,
    h.reg.trans hb.reg, h.fixedReg.trans hb.fixedReg, h.vmType.trans hb.vmType⟩

theorem SameCore.fresh (h : SameCore a b) (hb : Fresh pos old b) : Fresh pos old a :=
  ⟨h.ok hb.ok, h.ranges ▸ hb.covers, h.start ▸ hb.start, h.expired.trans hb.expired, h.reg.trans hb.reg,
    h.fixedReg.trans hb.fixedReg, h.vmType.trans hb.vmType⟩

/-- What is cut from a new interval is new, and so is what remains of it. -/
theorem Fresh.cut {pos pos' : Nat} (h : Fresh pos old a) (hc : Cut pos' a b) : Fresh pos old b :=
  ⟨hc.ok, fun x hx => h.covers x ((hc.ranges x).mp hx).1, hc.start ▸ h.start, hc.expired.trans h.expired,
    hc.reg.trans h.reg, hc.fixedReg.trans h.fixedReg, hc.vmType.trans h.vmType⟩

theorem Fresh.full_eq {old it : LiveInterval} (h : Fresh pos old it) : it.full = it.ranges := by
  rw [LiveInterval.full, h.expired]
  rfl

theorem Fresh.fresh {pos pos' : Nat} (h : Fresh pos old a) (hb : Fresh pos' a b) (hle : pos ≤ pos') : Fresh pos old b :=
  ⟨hb.ok, fun x hx => h.covers x (h.full_eq ▸ hb.covers x hx), le_trans hle hb.start, hb.expired, hb.reg,
    hb.fixedReg, hb.vmType.trans h.vmType⟩

theorem splitRanges_start {ranges before after : List LiveRange} (hlt : rangesStart ranges < pos)
    (h : splitRanges pos ranges = some (before, after)) : before ≠ [] ∧ rangesStart before = rangesStart ranges := by
  cases ranges with
  | nil => cases h
  | cons r rest =>
    change r.start < pos at hlt
    rw [splitRanges] at h
    split at h
    · rw [if_neg (by omega)] at h
      cases h
      exact ⟨cons_ne_nil _ _, rfl⟩
    · obtain ⟨⟨a, b⟩, -, hp⟩ := Option.map_eq_some_iff.mp h
      cases hp
      exact ⟨cons_ne_nil _ _, rfl⟩

theorem cut_of_splitRanges {old new : LiveInterval} {before after : List LiveRange} (hok : IntervalOk old)
    (hlt : intervalStart old < pos) (h : splitRanges pos old.ranges = some (before, after))
    (hr : new.ranges = before) (he : new.expired = old.expired) (hreg : new.reg = old.reg)
    (hf : new.fixedReg = old.fixedReg) (ht : new.vmType = old.vmType) : Cut pos old new := by
  obtain ⟨hsb, -, hcb, -, -, -⟩ := splitRanges_spec hok.ranges h
  obtain ⟨hne, hstart⟩ := splitRanges_start hlt h
  have hfull : new.full = old.expired.reverse ++ before := by rw [LiveInterval.full, he, hr]
  have hsorted : Sorted new.full := by
    rw [hfull]
    have hold := pairwise_append.mp hok.sorted.pairwise
    refine .of_pairwise (pairwise_append.mpr ⟨hold.1, hsb.pairwise, fun a ha b hb => ?_⟩) fun r hr => ?_
    · obtain ⟨r, hr, hle, -⟩ := ((hcb b.start).mp ⟨b, hb, le_refl _, hsb.nonempty b hb⟩).1
      exact le_trans (hold.2.2 a ha r hr) hle
    · rcases mem_append.mp hr with hr | hr
      · exact hok.sorted.nonempty r (mem_append_left _ hr)
      · exact hsb.nonempty r hr
  refine ⟨⟨hsorted, hr ▸ hne⟩, fun x => ?_, hr ▸ hcb, ?_, he, hreg, hf, ht⟩
  · rw [hfull, covers_append, hcb, LiveInterval.full, covers_append]
    constructor
    · rintro (hx | hx)
      · exact ⟨.inl hx, lt_trans (hok.expired_lt hx) hlt⟩
      · exact ⟨.inr hx.1, hx.2⟩
    · rintro ⟨hx | hx, hlt⟩
      · exact .inl hx
      · exact .inr ⟨hx, hlt⟩
  · rw [intervalStart, hr]
    exact hstart

/-! ## Spills -/

section Spills

variable {store store' : Intervals} {i pos : Nat}

theorem splitIntervalAt_cases (hi : i < store.length) (h : splitIntervalAt store i pos = some store') :
    intervalStart (store.at i) < pos ∧ store'.length = store.length + 1 ∧
      (∀ j < store.length, j ≠ i → store'.at j = store.at j) ∧
      ∃ before after, splitRanges pos (store.at i).ranges = some (before, after) ∧
        store'.at i = { store.at i with
          ranges := before
          usePositions := (store.at i).usePositions.filter fun use => !movesUse pos use
          nextChild := some store.length } ∧
        store'.at store.length = { allocInterval (store.at i).varInfo (store.at i).vmType with
          ranges := after
          usePositions := ((store.at i).usePositions.filter (movesUse pos)).reverse
          reg := if (store.at i).fixedReg then (store.at i).reg else none
          fixedReg := (store.at i).fixedReg
          nextChild := (store.at i).nextChild
          prevChild := some i } := by
  unfold splitIntervalAt at h
  rw [guard_bind_eq_some, guard_bind_eq_some] at h
  obtain ⟨hlt, -, h⟩ := h
  obtain ⟨⟨before, after⟩, hs, h⟩ := Option.bind_eq_some_iff.mp h
  cases h
  have hput {it} : (store.put i it).length = store.length := length_put _ _ _
  have hnew {it it'} : Intervals.at (store.put i it ++ [it']) store.length = it' := by
    have := at_append_new (store.put i it) it'
    rwa [hput] at this
  refine ⟨hlt, by simp [Intervals.put], fun j hj hji => ?_, before, after, hs, ?_, hnew⟩
  · rw [at_append_left (by rw [hput]; exact hj), at_put_ne _ hji]
  · rw [at_append_left (by rw [hput]; exact hi), at_put_self _ hi]

theorem splitIntervalAt_spec (hi : i < store.length) (hok : IntervalOk (store.at i))
    (hf : (store.at i).fixedReg = false) (h : splitIntervalAt store i pos = some store') :
    store'.length = store.length + 1 ∧ (∀ j < store.length, j ≠ i → store'.at j = store.at j) ∧
      Cut pos (store.at i) (store'.at i) ∧ Fresh pos (store.at i) (store'.at store.length) ∧
      Linked store store' := by
  obtain ⟨hlt, hlen, hothers, before, after, hs, hold, hnew⟩ := splitIntervalAt_cases hi h
  obtain ⟨-, hsa, -, hca, hne, hstart⟩ := splitRanges_spec hok.ranges hs
  refine ⟨hlen, hothers, ?_, ?_, ?_⟩
  · rw [hold]
    exact cut_of_splitRanges hok hlt hs rfl rfl rfl rfl rfl
  · rw [hnew]
    refine ⟨⟨hsa, hne⟩, fun x hx => covers_full_of_ranges ((hca x).mp hx).1, le_of_eq hstart.symm, rfl, ?_, hf, rfl⟩
    simp [hf]
  · refine linked_insert hi hlen hothers ?_ ?_
    · rw [hold]
    · rw [hnew]

/-- The children of a variable stand in the order of their starts, and the links in both directions agree. -/
structure ChildChain (store : Intervals) : Prop where
  next : ∀ a < store.length, ∀ b, (store.at a).nextChild = some b →
    b < store.length ∧ (store.at b).prevChild = some a ∧ intervalStart (store.at a) < intervalStart (store.at b)
  prev : ∀ b < store.length, ∀ a, (store.at b).prevChild = some a → a < store.length ∧ (store.at a).nextChild = some b

/-- A split of the interval `i` shares its positions out, gives each use position to the part that covers the positions
at which the operand is read and written, and keeps the chain of children. -/
structure Splits (store : Intervals) (i pos : Nat) (store' : Intervals) : Prop where
  old : ∀ x, Covers (store'.at i).ranges x ↔ Covers (store.at i).ranges x ∧ x < pos
  new : ∀ x, Covers (store'.at store.length).ranges x ↔ Covers (store.at i).ranges x ∧ pos ≤ x
  uses : ((store'.at i).usePositions ++ (store'.at store.length).usePositions).Perm (store.at i).usePositions
  attached : ∀ part, part = i ∨ part = store.length → ∀ use ∈ (store'.at part).usePositions, ∀ p ∈ getLirPositions use,
    Covers (store.at i).ranges p → Covers (store'.at part).ranges p
  chain : ChildChain store'

theorem exists_splitRanges {ranges : List LiveRange} (h : Covers ranges pos) : ∃ r, splitRanges pos ranges = some r := by
  induction ranges with
  | nil => exact absurd h not_covers_nil
  | cons r rest ih =>
    rw [splitRanges]
    split
    · split <;> exact ⟨_, rfl⟩
    · rename_i hin
      obtain ⟨parts, hparts⟩ := ih ((covers_cons.mp h).resolve_left (mt inRange_iff.mpr hin))
      exact ⟨_, congrArg (Option.map _) hparts⟩

/-- A use position that is not both read before `pos` and written at `pos` has all its positions on one side. -/
theorem movesUse_iff {use : UsePosition} {p : Nat} (h : use.input = true → use.output = true → use.lirPos + 1 ≠ pos)
    (hp : p ∈ getLirPositions use) : movesUse pos use = true ↔ pos ≤ p := by
  obtain ⟨lirPos, input, output⟩ := use
  cases input <;> cases output <;> simp_all [getLirPositions, movesUse]
  omega

/-- `prev_child` of the next child is not updated, so only the last child may be split. -/
theorem ChildChain.split (h : ChildChain store) (hi : i < store.length) (hs : Sorted (store.at i).ranges)
    (hnone : (store.at i).nextChild = none) (hsplit : splitIntervalAt store i pos = some store') :
    ChildChain store' := by
  obtain ⟨hpos, hlen, hothers, before, after, hparts, hold, hnew⟩ := splitIntervalAt_cases hi hsplit
  have hstart := (splitRanges_start hpos hparts).2
  obtain ⟨-, -, -, -, -, hafter⟩ := splitRanges_spec hs hparts
  have hsame : ∀ j < store.length, (store'.at j).prevChild = (store.at j).prevChild ∧
      intervalStart (store'.at j) = intervalStart (store.at j) := by
    intro j hj
    by_cases hji : j = i
    · rw [hji, hold]
      exact ⟨rfl, hstart⟩
    · exact hothers j hj hji ▸ ⟨rfl, rfl⟩
  refine ⟨fun a ha b hb => ?_, fun b hb a ha => ?_⟩
  · rcases Nat.lt_succ_iff_lt_or_eq.mp (hlen ▸ ha) with ha | rfl
    · by_cases hai : a = i
      · rw [hai, hold] at hb
        cases hb
        rw [(hsame a ha).2, hai, hnew]
        exact ⟨by omega, rfl, lt_of_lt_of_eq hpos hafter.symm⟩
      · obtain ⟨hb, hback, hlt⟩ := h.next a ha b (hothers a ha hai ▸ hb)
        rw [(hsame a ha).2, (hsame b hb).1, (hsame b hb).2]
        exact ⟨by omega, hback, hlt⟩
    · rw [hnew] at hb
      cases hnone.symm.trans hb
  · rcases Nat.lt_succ_iff_lt_or_eq.mp (hlen ▸ hb) with hb | rfl
    · obtain ⟨hlt, hnext⟩ := h.prev b hb a ((hsame b hb).1 ▸ ha)
      have hai : a ≠ i := fun e => by rw [e, hnone] at hnext; cases hnext
      exact ⟨by omega, hothers a hlt hai ▸ hnext⟩
    · rw [hnew] at ha
      cases ha
      exact ⟨by omega, by rw [hold]⟩

/-- The next child of the interval that is split keeps its `prev_child`, so there was none if the chain is still right. -/
theorem ChildChain.nextChild_eq_none (h' : ChildChain store') (h : ChildChain store) (hi : i < store.length)
    (hsplit : splitIntervalAt store i pos = some store') : (store.at i).nextChild = none := by
  obtain ⟨-, hlen, hothers, _, _, -, -, hnew⟩ := splitIntervalAt_cases hi hsplit
  rw [Option.eq_none_iff_forall_ne_some]
  intro c hc
  obtain ⟨hclt, hback, hstart⟩ := h.next i hi c hc
  have hci : c ≠ i := fun e => absurd hstart (by rw [e]; exact lt_irrefl _)
  have hback' := (h'.next store.length (by omega) c (by rw [hnew]; exact hc)).2.1
  rw [hothers c hclt hci, hback] at hback'
  exact absurd (Option.some.inj hback') (ne_of_lt hi)

/-- An operand that is read before `pos` and written at `pos` stays with the part that ends at `pos`. -/
theorem Splits.not_readWrite {r : LiveRange} {use : UsePosition} (h : Splits store i pos store') (hi : i < store.length)
    (hr : r ∈ (store.at i).ranges) (hlt : r.start < pos) (hgt : pos < r.stop)
    (hsplit : splitIntervalAt store i pos = some store') (hmem : use ∈ (store.at i).usePositions)
    (hin : use.input = true) (hout : use.output = true) : use.lirPos + 1 ≠ pos := by
  obtain ⟨-, -, -, _, _, -, hold, -⟩ := splitIntervalAt_cases hi hsplit
  intro hpos
  have hstays : use ∈ (store'.at i).usePositions := by
    rw [hold]
    refine mem_filter.mpr ⟨hmem, ?_⟩
    simp [movesUse, getLirPositions, hin, hout]
    omega
  have hpositions : pos ∈ getLirPositions use := by simp [getLirPositions, hin, hout, hpos]
  have hcov := h.attached i (.inl rfl) use hstays pos hpositions ⟨r, hr, le_of_lt hlt, hgt⟩
  exact lt_irrefl pos ((h.old pos).mp hcov).2

/-- **Splits.** A split inside a range is right if and only if the interval has no next child and no operand that is
read at the instruction before `pos` and written at `pos`. -/
theorem splits_iff_last {r : LiveRange} (hi : i < store.length) (hchain : ChildChain store)
    (hs : Sorted (store.at i).ranges) (hr : r ∈ (store.at i).ranges) (hlt : r.start < pos) (hgt : pos < r.stop) :
    (∃ store', splitIntervalAt store i pos = some store' ∧ Splits store i pos store') ↔
      (store.at i).nextChild = none ∧
        ∀ use ∈ (store.at i).usePositions, use.input = true → use.output = true → use.lirPos + 1 ≠ pos := by
  have hcov : Covers (store.at i).ranges pos := ⟨r, hr, le_of_lt hlt, hgt⟩
  obtain ⟨store', hsplit⟩ : ∃ store', splitIntervalAt store i pos = some store' := by
    obtain ⟨parts, hparts⟩ := exists_splitRanges hcov
    have hpos : intervalStart (store.at i) < pos := lt_of_le_of_lt (hs.start_le ⟨r, hr, le_refl _, lt_trans hlt hgt⟩) hlt
    simp [splitIntervalAt, guard, hpos, show pos < intervalEnd (store.at i) from hs.lt_end hcov, hparts]
  obtain ⟨-, hlen, hothers, before, after, hparts, hold, hnew⟩ := splitIntervalAt_cases hi hsplit
  obtain ⟨-, -, hcb, hca, -, -⟩ := splitRanges_spec hs hparts
  refine ⟨fun h => ?_, fun ⟨hnone, huse⟩ => ?_⟩
  · obtain ⟨_, h, hsplits⟩ := h
    cases hsplit.symm.trans h
    exact ⟨hsplits.chain.nextChild_eq_none hchain hi hsplit, fun use => hsplits.not_readWrite hi hr hlt hgt hsplit⟩
  refine ⟨store', hsplit, by rw [hold]; exact hcb, by rw [hnew]; exact hca, ?_, ?_, hchain.split hi hs hnone hsplit⟩
  · rw [hold, hnew]
    exact (perm_append_comm.trans ((reverse_perm _).append_right _)).trans (filter_append_perm _ _)
  · rintro part (rfl | rfl) use hmem p hp hc
    · rw [hold] at hmem ⊢
      obtain ⟨hmem, hstays⟩ := mem_filter.mp hmem
      refine (hcb p).mpr ⟨hc, not_le.mp fun hle => ?_⟩
      rw [(movesUse_iff (huse use hmem) hp).mpr hle] at hstays
      cases hstays
    · rw [hnew] at hmem ⊢
      obtain ⟨hmem, hmoves⟩ := mem_filter.mp (mem_reverse.mp hmem)
      exact (hca p).mpr ⟨hc, (movesUse_iff (huse use hmem) hp).mp hmoves⟩

/-- An interval that is alive at the positions below `10`. -/
def tenPositions (uses : List UsePosition) : LiveInterval :=
  { allocInterval 0 .int with ranges := [⟨0, 10⟩], usePositions := uses }

theorem splits_iff_last_tenPositions :
    ∃ store', splitIntervalAt [tenPositions [⟨4, true, false⟩]] 0 5 = some store' ∧
      Splits [tenPositions [⟨4, true, false⟩]] 0 5 store' := by
  refine (@splits_iff_last [tenPositions [⟨4, true, false⟩]] 0 5 ⟨0, 10⟩ (by decide)
    ⟨fun a ha b hb => ?_, fun b hb a ha => ?_⟩ (.of_pairwise (by decide) (by decide)) (by decide) (by decide)
    (by decide)).mpr ⟨rfl, by decide⟩
  · cases Nat.lt_one_iff.mp ha
    cases hb
  · cases Nat.lt_one_iff.mp hb
    cases ha

/-- An operand that is read at `4` and written at `5` stays with the part that ends at `5`. -/
theorem not_splits_readWrite :
    ¬∃ store', splitIntervalAt [tenPositions [⟨4, true, true⟩]] 0 5 = some store' ∧
      Splits [tenPositions [⟨4, true, true⟩]] 0 5 store' := by
  rintro ⟨store', h, hs⟩
  cases h
  obtain ⟨r, hr, -, hlt⟩ := hs.attached 0 (.inl rfl) ⟨4, true, true⟩ (by decide) 5 (by decide)
    ⟨⟨0, 10⟩, by decide, by decide⟩
  rw [mem_singleton.mp hr] at hlt
  exact absurd hlt (by decide)

/-- `b` is a part of `a`, with the same register if that is fixed. -/
structure PartOf (a b : LiveInterval) : Prop where
  covers : ∀ x, Covers b.full x → Covers a.full x
  vmType : b.vmType = a.vmType
  fixedReg : b.fixedReg = a.fixedReg
  reg : b.fixedReg = true → b.reg = a.reg

/-- The intervals of `store'` are parts of those of `store`, each of its `origin`, and parts of one interval are
disjoint. -/
structure Parts (origin : Nat → Nat) (store store' : Intervals) : Prop where
  lt : ∀ j < store'.length, origin j < store.length
  part : ∀ j < store'.length, PartOf (store.at (origin j)) (store'.at j)
  disjoint : ∀ j < store'.length, ∀ k < store'.length, origin j = origin k → ∀ x, Covers (store'.at j).full x →
    Covers (store'.at k).full x → j = k

def Divided (store store' : Intervals) : Prop := ∃ origin, Parts origin store store'

theorem Divided.of_same (hlen : store'.length = store.length) (h : ∀ j, PartOf (store.at j) (store'.at j)) :
    Divided store store' :=
  ⟨id, fun _ hj => hlen ▸ hj, fun j _ => h j, fun _ _ _ _ he _ _ _ => he⟩

theorem Divided.trans {a b c : Intervals} (h : Divided a b) (h' : Divided b c) : Divided a c := by
  obtain ⟨f, hf⟩ := h
  obtain ⟨g, hg⟩ := h'
  refine ⟨f ∘ g, fun j hj => hf.lt _ (hg.lt j hj), fun j hj => ?_, fun j hj k hk he x hxj hxk => ?_⟩
  · have h₁ := hf.part _ (hg.lt j hj)
    have h₂ := hg.part j hj
    exact ⟨fun x hx => h₁.covers x (h₂.covers x hx), h₂.vmType.trans h₁.vmType, h₂.fixedReg.trans h₁.fixedReg,
      fun hfix => (h₂.reg hfix).trans (h₁.reg (h₂.fixedReg ▸ hfix))⟩
  · refine hg.disjoint j hj k hk ?_ x hxj hxk
    exact hf.disjoint _ (hg.lt j hj) _ (hg.lt k hk) he x ((hg.part j hj).covers x hxj) ((hg.part k hk).covers x hxk)

theorem SameCore.partOf (h : SameCore b a) : PartOf a b :=
  ⟨fun _ hx => h.full ▸ hx, h.vmType, h.fixedReg, fun _ => h.reg⟩

/-- A split divides the interval. -/
theorem divided_split (hi : i < store.length) (hf : (store.at i).fixedReg = false)
    (hlen : store'.length = store.length + 1) (hothers : ∀ j < store.length, j ≠ i → store'.at j = store.at j)
    (hcut : Cut pos (store.at i) (store'.at i)) (hnew : Fresh pos (store.at i) (store'.at store.length)) :
    Divided store store' := by
  have hpart j (hj : j < store'.length) :
      PartOf (store.at (if j < store.length then j else i)) (store'.at j) := by
    split
    · by_cases hji : j = i
      · subst hji
        exact ⟨fun x hx => ((hcut.full x).mp hx).1, hcut.vmType, hcut.fixedReg, fun _ => hcut.reg⟩
      · exact SameCore.partOf (hothers j ‹_› hji ▸ .refl _)
    · obtain rfl : j = store.length := by omega
      exact ⟨fun x hx => hnew.covers x (hnew.full_eq ▸ hx), hnew.vmType, hnew.fixedReg.trans hf.symm,
        fun hfix => nomatch hfix.symm.trans hnew.fixedReg⟩
  -- the new interval starts where the old one ends
  have hapart {x} (hx : Covers (store'.at i).full x) : ¬Covers (store'.at store.length).full x := by
    intro hx'
    have h₁ := ((hcut.full x).mp hx).2
    have h₂ := hnew.ok.ranges.start_le (hnew.full_eq ▸ hx')
    exact absurd (le_trans hnew.start h₂) (not_le.mpr h₁)
  refine ⟨fun j => if j < store.length then j else i, fun j _ => ?_, hpart, fun j hj k hk he x hxj hxk => ?_⟩
  · split
    · assumption
    · exact hi
  · split at he <;> split at he
    · exact he
    · obtain rfl : k = store.length := by omega
      exact absurd hxk (hapart (he ▸ hxj))
    · obtain rfl : j = store.length := by omega
      exact absurd hxj (hapart (he ▸ hxk))
    · omega

/-- The effect of a spill of the interval `i` at `pos` on the store and the queue. -/
structure Spilled (store : Intervals) (unhandled : Pqueue Nat) (i pos : Nat) (store' : Intervals)
    (unhandled' : Pqueue Nat) : Prop where
  length_le : store.length ≤ store'.length
  others : ∀ j < store.length, j ≠ i → SameCore (store'.at j) (store.at j)
  cut : Cut pos (store.at i) (store'.at i)
  fresh : ∀ j, store.length ≤ j → j < store'.length → Fresh pos (store.at i) (store'.at j)
  queue : unhandled' = unhandled ∨ ∃ j, store.length ≤ j ∧ j < store'.length ∧
    unhandled' = unhandled.insert (intervalStart (store'.at j)) j
  linked : Linked store store'
  divided : Divided store store'

/-- Trimming a new interval leaves two new intervals, of which the second one is given back. -/
theorem trimInterval_spec {old : LiveInterval} {new new' nextPos n : Nat} (hn : new < store.length) (hle : n ≤ new)
    (hfresh : ∀ j, n ≤ j → j < store.length → Fresh pos old (store.at j))
    (h : trimInterval store new nextPos = some (store', new')) :
    store.length ≤ store'.length ∧ (∀ j < n, store'.at j = store.at j) ∧
      (∀ j, n ≤ j → j < store'.length → Fresh pos old (store'.at j)) ∧ n ≤ new' ∧ new' < store'.length ∧
      Linked store store' ∧ Divided store store' := by
  unfold trimInterval at h
  have hf := hfresh new hle hn
  split at h
  · rename_i hlt
    obtain ⟨store₁, hs, h⟩ := Option.bind_eq_some_iff.mp h
    cases h
    obtain ⟨hlen, hothers, hcut, hnew, hlink⟩ := splitIntervalAt_spec hn hf.ok hf.fixedReg hs
    have hpos := le_trans hf.start (le_of_lt hlt)
    refine ⟨by omega, fun j hj => hothers j (by omega) (by omega), fun j hj hj' => ?_, by omega, by omega,
      hlink, divided_split hn hf.fixedReg hlen hothers hcut hnew⟩
    by_cases hjn : j = new
    · subst hjn
      exact hf.cut hcut
    · by_cases hjl : j < store.length
      · rw [hothers j hjl hjn]
        exact hfresh j hj hjl
      · have : j = store.length := by omega
        subst this
        exact hf.fresh hnew hpos
  · cases h
    exact ⟨le_refl _, fun _ _ => rfl, hfresh, hle, hn, .refl _, .of_same rfl fun _ => (SameCore.refl _).partOf⟩

/-- **A spill** cuts the interval and nothing else. -/
theorem spillInterval_spec {unhandled unhandled' : Pqueue Nat} (hi : i < store.length) (hok : IntervalOk (store.at i))
    (hf : (store.at i).fixedReg = false) (h : spillInterval store i pos unhandled = some (store', unhandled')) :
    Spilled store unhandled i pos store' unhandled' := by
  unfold spillInterval at h
  obtain ⟨store₁, hs, h⟩ := Option.bind_eq_some_iff.mp h
  obtain ⟨hlen, hothers, hcut, hnew, hlink⟩ := splitIntervalAt_spec hi hok hf hs
  have hdiv := divided_split hi hf hlen hothers hcut hnew
  have hfresh : ∀ j, store.length ≤ j → j < store₁.length → Fresh pos (store.at i) (store₁.at j) := by
    intro j hj hj'
    have : j = store.length := by omega
    exact this ▸ hnew
  simp only at h
  split at h
  · cases h
    exact ⟨by omega, fun j hj hji => hothers j hj hji ▸ .refl _, hcut, hfresh, .inl rfl, hlink, hdiv⟩
  · obtain ⟨⟨store₂, new⟩, ht, h⟩ := Option.bind_eq_some_iff.mp h
    obtain ⟨hlen₂, hsame₂, hfresh₂, hnew₂, hlt₂, hlink₂, hdiv₂⟩ := trimInterval_spec (by omega) (by omega) hfresh ht
    obtain ⟨store₃, hu, h⟩ := Option.bind_eq_some_iff.mp h
    simp only at hu h
    obtain ⟨hlen₃, hcore₃⟩ := updateSpillParents_sameCore hu
    obtain ⟨hlen₄, hcore₄⟩ := @markSpilled_sameCore store₃ i new (nextUsePos (store₁.at (store₁.length - 1)) 0)
      (by omega) (by omega)
    cases h
    -- after the trimming only flags and links change
    have hcore j := (hcore₄ j).trans (hcore₃ j)
    refine ⟨by omega, fun j hj hji => ?_, (hcore i).cut (hsame₂ i hi ▸ hcut), fun j hj hj' => ?_,
      .inr ⟨new, hnew₂, by omega, rfl⟩, hlink.trans (hlink₂.trans ?_),
      hdiv.trans (hdiv₂.trans (.of_same (hlen₄.trans hlen₃) fun j => (hcore j).partOf))⟩
    · rw [← hothers j hj hji, ← hsame₂ j hj]
      exact hcore j
    · exact (hcore j).fresh (hfresh₂ j hj (by omega))
    · exact linked_of_same (hlen₄.trans hlen₃) fun j => (hcore j).nextChild

end Spills

end Jato.Jit
