import Mathlib.Data.List.Basic
import Mathlib.Data.List.TakeWhile
import Mathlib.Algebra.Order.Ring.Nat

/-!
# Live intervals

`jit/interval.c` and `include/jit/vars.h`. An interval has a list of live ranges in ascending order, and a list of
expired ranges that lie before them. Intervals live in a store and refer to each other by their index in it. `none` is
a failed assertion or a call of `error`; allocation does not fail.

- `intervals_intersect` and `interval_intersection_start` find the first common position (`firstIntersection_spec`);
- a split shares the positions of an interval out between its two parts (`splitRanges_spec`);
- expiring and restoring ranges does not change what is covered (`expireLoop_spec`).
-/

namespace Jato.Jit

open List

/-! ## Ranges -/

/-- `enum vm_type`. -/
inductive VmType
  | void
  | reference
  | byte
  | short
  | int
  | long
  | char
  | float
  | double
  | boolean
  | returnAddress
deriving DecidableEq, Repr

/-- `struct live_range`; the end is exclusive. -/
structure LiveRange where
  start : Nat
  stop : Nat
deriving DecidableEq, Repr

def inRange (range : LiveRange) (offset : Nat) : Bool := decide (range.start ≤ offset) && decide (offset < range.stop)

def rangesIntersect (range1 range2 : LiveRange) : Bool :=
  decide (range2.start < range1.stop) && decide (range1.start < range2.stop)

def rangeIntersectionStart (range1 range2 : LiveRange) : Nat :=
  if range2.start < range1.start then range1.start else range2.start

/-- `struct use_position`: the position of its instruction and the two bits of its kind. -/
structure UsePosition where
  lirPos : Nat
  input : Bool
  output : Bool
deriving DecidableEq, Repr

def getLirPositions (use : UsePosition) : List Nat :=
  (if use.input then [use.lirPos] else []) ++ (if use.output then [use.lirPos + 1] else [])

/-! ## Intervals -/

/-- `struct live_interval`, with the type of its variable. -/
structure LiveInterval where
  varInfo : Nat
  vmType : VmType
  ranges : List LiveRange
  expired : List LiveRange
  usePositions : List UsePosition
  reg : Option Nat
  fixedReg : Bool
  needSpill : Bool
  needReload : Bool
  nextChild : Option Nat
  prevChild : Option Nat
  spillParent : Option Nat
deriving DecidableEq, Repr

/-- A new interval of a variable. -/
def allocInterval (varInfo : Nat) (vmType : VmType) : LiveInterval :=
  ⟨varInfo, vmType, [], [], [], none, false, false, false, none, none, none⟩

/-- The start of the first range; the callers have one. -/
def rangesStart (ranges : List LiveRange) : Nat := (ranges.head?.map LiveRange.start).getD 0

/-- The end of the last range; the callers have one. -/
def rangesEnd (ranges : List LiveRange) : Nat := (ranges.getLast?.map LiveRange.stop).getD 0

def intervalStart (it : LiveInterval) : Nat := rangesStart it.ranges

def intervalEnd (it : LiveInterval) : Nat := rangesEnd it.ranges

def longMax : Nat := 2 ^ 63 - 1

def nextUsePos (it : LiveInterval) (pos : Nat) : Nat :=
  it.usePositions.foldl (fun least use =>
    (getLirPositions use).foldl (fun least p => if p < pos then least else if p < least then p else least) least) longMax

/-- The loop of `interval_expire_ranges_before`. -/
def expireLoop (pos : Nat) : List LiveRange → List LiveRange → List LiveRange × List LiveRange
  | range :: next :: rest, expired =>
    if inRange range pos then (range :: next :: rest, expired)
    else if pos < next.start then (range :: next :: rest, expired)
    else expireLoop pos (next :: rest) (range :: expired)
  | ranges, expired => (ranges, expired)

def intervalExpireRangesBefore (it : LiveInterval) (pos : Nat) : LiveInterval :=
  if pos < intervalStart it ∨ intervalEnd it ≤ pos then it
  else
    let r := expireLoop pos it.ranges it.expired
    { it with ranges := r.1, expired := r.2 }

def intervalRestoreExpiredRanges (it : LiveInterval) : LiveInterval :=
  { it with ranges := it.expired.foldl (fun ranges range => range :: ranges) it.ranges, expired := [] }

/-- The loop of `interval_range_at`. -/
def rangeAtLoop (pos : Nat) : List LiveRange → Option LiveRange
  | [] => none
  | range :: rest =>
    if range.start ≤ pos then if inRange range pos then some range else rangeAtLoop pos rest else none

def intervalRangeAt (it : LiveInterval) (pos : Nat) : Option LiveRange :=
  if pos < intervalStart it ∨ intervalEnd it ≤ pos then none else rangeAtLoop pos it.ranges

def intervalCovers (it : LiveInterval) (pos : Nat) : Bool := (intervalRangeAt it pos).isSome

/-- The common loop of the two intersection functions: the first two ranges that intersect. -/
def intersectLoop : Nat → List LiveRange → List LiveRange → Option (LiveRange × LiveRange)
  | 0, _, _ => none
  | fuel + 1, r1 :: rest1, r2 :: rest2 =>
    if rangesIntersect r1 r2 then some (r1, r2)
    else if r1.start < r2.start then intersectLoop fuel rest1 (r2 :: rest2)
    else intersectLoop fuel (r1 :: rest1) rest2
  | _ + 1, _, _ => none

/-- The common part of the two intersection functions. The first loop stops before the end of the list, or else the
second would follow a null pointer; the callers make sure of it. -/
def firstIntersection (ranges1 ranges2 : List LiveRange) : Option (LiveRange × LiveRange) :=
  let r1 := ranges1.dropWhile fun r => r.stop ≤ rangesStart ranges2
  let r2 := ranges2.dropWhile fun r => r.stop ≤ rangesStart r1
  intersectLoop (r1.length + r2.length) r1 r2

def intervalsIntersect (it1 it2 : LiveInterval) : Bool :=
  if intervalEnd it2 ≤ intervalStart it1 ∨ intervalEnd it1 ≤ intervalStart it2 then false
  else if it1.ranges = [] ∨ it2.ranges = [] then false
  else (firstIntersection it1.ranges it2.ranges).isSome

def intervalIntersectionStart (it1 it2 : LiveInterval) : Option Nat :=
  (firstIntersection it1.ranges it2.ranges).map fun r => rangeIntersectionStart r.1 r.2

/-! ## Splitting -/

/-- `split_ranges`: the ranges before and from `pos` on. -/
def splitRanges (pos : Nat) : List LiveRange → Option (List LiveRange × List LiveRange)
  | [] => none
  | this :: rest =>
    if inRange this pos then
      if this.start = pos then some ([], this :: rest)
      else some ([⟨this.start, pos⟩], ⟨pos, this.stop⟩ :: rest)
    else (splitRanges pos rest).map fun r => (this :: r.1, r.2)

/-- Whether a split at `pos` moves the use position. -/
def movesUse (pos : Nat) (use : UsePosition) : Bool := decide (pos ≤ (getLirPositions use).headD 0)

abbrev Intervals := List LiveInterval

/-- The interval with index `i`; the callers have one. -/
def Intervals.at (store : Intervals) (i : Nat) : LiveInterval := store.getD i (allocInterval 0 .void)

/-- Store the interval `it` at the index `i`. -/
def Intervals.put (store : Intervals) (i : Nat) (it : LiveInterval) : Intervals := store.set i it

/-- Split the interval `i` at `pos`. The new interval has the last index of the store. -/
def splitIntervalAt (store : Intervals) (i pos : Nat) : Option Intervals := do
  let it := store.at i
  guard (intervalStart it < pos)
  guard (pos < intervalEnd it)
  let (before, after) ← splitRanges pos it.ranges
  let new : LiveInterval :=
    { allocInterval it.varInfo it.vmType with
      ranges := after
      usePositions := (it.usePositions.filter (movesUse pos)).reverse
      reg := if it.fixedReg then it.reg else none
      fixedReg := it.fixedReg
      nextChild := it.nextChild
      prevChild := some i }
  let old : LiveInterval :=
    { it with
      ranges := before
      usePositions := it.usePositions.filter fun use => !movesUse pos use
      nextChild := some store.length }
  return store.put i old ++ [new]

/-! ## Coverage -/

variable {r : LiveRange}

section Coverage

variable {ranges ranges1 ranges2 : List LiveRange} {pos x : Nat}

/-- Some range of the list contains `x`. -/
def Covers (ranges : List LiveRange) (x : Nat) : Prop := ∃ r ∈ ranges, r.start ≤ x ∧ x < r.stop

/-- Ranges that do not overlap and stand in ascending order. Some of them may be empty. -/
structure InOrder (ranges : List LiveRange) : Prop where
  pairwise : ranges.Pairwise fun a b => a.stop ≤ b.start
  le : ∀ r ∈ ranges, r.start ≤ r.stop

/-- Ranges in order of which none is empty. -/
structure Sorted (ranges : List LiveRange) : Prop extends InOrder ranges where
  nonempty : ∀ r ∈ ranges, r.start < r.stop

theorem inOrder_cons : InOrder (r :: ranges) ↔ (∀ b ∈ ranges, r.stop ≤ b.start) ∧ r.start ≤ r.stop ∧ InOrder ranges := by
  constructor
  · rintro ⟨hp, hn⟩
    rw [pairwise_cons] at hp
    rw [forall_mem_cons] at hn
    exact ⟨hp.1, hn.1, hp.2, hn.2⟩
  · rintro ⟨hb, hr, hp, hn⟩
    exact ⟨pairwise_cons.mpr ⟨hb, hp⟩, forall_mem_cons.mpr ⟨hr, hn⟩⟩

theorem Sorted.of_pairwise (hp : ranges.Pairwise fun a b => a.stop ≤ b.start)
    (hn : ∀ r ∈ ranges, r.start < r.stop) : Sorted ranges :=
  ⟨⟨hp, fun r hr => (hn r hr).le⟩, hn⟩

theorem sorted_cons : Sorted (r :: ranges) ↔ (∀ b ∈ ranges, r.stop ≤ b.start) ∧ r.start < r.stop ∧ Sorted ranges := by
  constructor
  · rintro ⟨ho, hn⟩
    obtain ⟨hb, -, hrest⟩ := inOrder_cons.mp ho
    rw [forall_mem_cons] at hn
    exact ⟨hb, hn.1, hrest, hn.2⟩
  · rintro ⟨hb, hr, ho, hn⟩
    exact ⟨inOrder_cons.mpr ⟨hb, hr.le, ho⟩, forall_mem_cons.mpr ⟨hr, hn⟩⟩

theorem InOrder.sublist (h : InOrder ranges2) (hs : ranges1.Sublist ranges2) : InOrder ranges1 :=
  ⟨h.pairwise.sublist hs, fun r hr => h.le r (hs.subset hr)⟩

theorem Sorted.sublist (h : Sorted ranges2) (hs : ranges1.Sublist ranges2) : Sorted ranges1 :=
  ⟨h.toInOrder.sublist hs, fun r hr => h.nonempty r (hs.subset hr)⟩

theorem covers_cons : Covers (r :: ranges) x ↔ (r.start ≤ x ∧ x < r.stop) ∨ Covers ranges x := by
  simp [Covers]

theorem covers_append : Covers (ranges1 ++ ranges2) x ↔ Covers ranges1 x ∨ Covers ranges2 x := by
  simp [Covers, or_and_right, exists_or]

theorem not_covers_nil : ¬Covers [] x := by simp [Covers]

theorem InOrder.start_le (h : InOrder ranges) (hx : Covers ranges x) : rangesStart ranges ≤ x := by
  cases ranges with
  | nil => exact absurd hx not_covers_nil
  | cons r rest =>
    obtain ⟨hb, hr, -⟩ := inOrder_cons.mp h
    change r.start ≤ x
    rcases covers_cons.mp hx with hx | ⟨b, hmem, hx⟩
    · exact hx.1
    · have := hb b hmem
      omega

theorem InOrder.lt_end (h : InOrder ranges) (hx : Covers ranges x) : x < rangesEnd ranges := by
  obtain ⟨r, hr, -, hlt⟩ := hx
  obtain ⟨front, last, rfl⟩ : ∃ front last, ranges = front ++ [last] :=
    eq_nil_or_concat ranges |>.resolve_left (ne_nil_of_mem hr) |>.imp fun _ ⟨l, e⟩ => ⟨l, by simpa using e⟩
  have he : rangesEnd (front ++ [last]) = last.stop := by simp [rangesEnd]
  rw [he]
  rcases mem_append.mp hr with hr | hr
  · have hle := (pairwise_append.mp h.pairwise).2.2 r hr last (by simp)
    have := h.le last (by simp)
    omega
  · rw [mem_singleton] at hr
    exact hr ▸ hlt

theorem Sorted.covers_start (h : Sorted ranges) (hne : ranges ≠ []) : Covers ranges (rangesStart ranges) := by
  cases ranges with
  | nil => exact absurd rfl hne
  | cons r rest => exact ⟨r, mem_cons_self, le_refl _, h.nonempty r mem_cons_self⟩

theorem inRange_iff : inRange r x = true ↔ r.start ≤ x ∧ x < r.stop := by
  simp [inRange]

theorem rangeAtLoop_isSome (h : InOrder ranges) : (rangeAtLoop pos ranges).isSome = true ↔ Covers ranges pos := by
  induction ranges with
  | nil => simp [rangeAtLoop, Covers]
  | cons r rest ih =>
    obtain ⟨hb, hr, hrest⟩ := inOrder_cons.mp h
    rw [rangeAtLoop, covers_cons]
    split
    · rename_i hle
      split
      · rename_i hin
        exact iff_of_true rfl (.inl (inRange_iff.mp hin))
      · rename_i hin
        rw [ih hrest, ← inRange_iff]
        exact ⟨.inr, fun h => h.resolve_left hin⟩
    · rename_i hlt
      refine iff_of_false (by simp) ?_
      rintro (hx | ⟨b, hmem, hx⟩)
      · exact hlt hx.1
      · have := hb b hmem
        omega

theorem intervalCovers_iff {it : LiveInterval} (h : InOrder it.ranges) :
    intervalCovers it pos = true ↔ Covers it.ranges pos := by
  unfold intervalCovers intervalRangeAt
  split
  · rename_i hout
    refine iff_of_false (by simp) fun hx => ?_
    have h1 := h.start_le hx
    have h2 := h.lt_end hx
    unfold intervalStart intervalEnd at hout
    omega
  · exact rangeAtLoop_isSome h

end Coverage

/-! ## Intersections -/

section Intersections

variable {ranges1 ranges2 : List LiveRange} {x : Nat} {it1 it2 : LiveInterval}

theorem rangesIntersect_iff {r1 r2 : LiveRange} : rangesIntersect r1 r2 = true ↔
    r2.start < r1.stop ∧ r1.start < r2.stop := by
  simp [rangesIntersect]

/-- What the two intersection functions find: the first common position, if there is one. -/
def FirstCommon (ranges1 ranges2 : List LiveRange) : Option (LiveRange × LiveRange) → Prop
  | none => ∀ x, Covers ranges1 x → ¬Covers ranges2 x
  | some (r1, r2) => Covers ranges1 (rangeIntersectionStart r1 r2) ∧ Covers ranges2 (rangeIntersectionStart r1 r2) ∧
      ∀ x < rangeIntersectionStart r1 r2, Covers ranges1 x → ¬Covers ranges2 x

theorem FirstCommon.extend {ranges1' ranges2' : List LiveRange} {r : Option (LiveRange × LiveRange)}
    (h : FirstCommon ranges1' ranges2' r) (h1 : ∀ x, Covers ranges1' x → Covers ranges1 x)
    (h2 : ∀ x, Covers ranges2' x → Covers ranges2 x)
    (hcommon : ∀ x, Covers ranges1 x → Covers ranges2 x → Covers ranges1' x ∧ Covers ranges2' x) :
    FirstCommon ranges1 ranges2 r := by
  cases r with
  | none => exact fun x hx1 hx2 => h x (hcommon x hx1 hx2).1 (hcommon x hx1 hx2).2
  | some r =>
    obtain ⟨hc1, hc2, hfirst⟩ := h
    exact ⟨h1 _ hc1, h2 _ hc2, fun x hx hx1 hx2 => hfirst x hx (hcommon x hx1 hx2).1 (hcommon x hx1 hx2).2⟩

/-- A range that ends where the other list begins, or before, has nothing in common with it. -/
theorem covers_of_stop_le (h2 : InOrder ranges2) (hr : r.stop ≤ rangesStart ranges2)
    (hx1 : Covers (r :: ranges1) x) (hx2 : Covers ranges2 x) : Covers ranges1 x := by
  rcases covers_cons.mp hx1 with hx | hx
  · have := h2.start_le hx2
    omega
  · exact hx

theorem intersectLoop_spec : ∀ {fuel : Nat} {ranges1 ranges2 : List LiveRange}, ranges1.length + ranges2.length ≤ fuel →
    Sorted ranges1 → Sorted ranges2 → FirstCommon ranges1 ranges2 (intersectLoop fuel ranges1 ranges2)
  | _, [], _, _, _, _ => by
    have : ∀ fuel ranges2, intersectLoop fuel [] ranges2 = none := by
      intro fuel ranges2
      cases fuel <;> simp [intersectLoop]
    rw [this]
    exact fun x hx => absurd hx not_covers_nil
  | _, _ :: _, [], _, _, _ => by
    have : ∀ fuel r rest, intersectLoop fuel (r :: rest) [] = none := by
      intro fuel r rest
      cases fuel <;> simp [intersectLoop]
    rw [this]
    exact fun x _ => not_covers_nil
  | fuel + 1, r1 :: rest1, r2 :: rest2, hf, h1, h2 => by
    obtain ⟨hb1, hr1, hs1⟩ := sorted_cons.mp h1
    obtain ⟨hb2, hr2, hs2⟩ := sorted_cons.mp h2
    simp only [length_cons] at hf
    rw [intersectLoop]
    split
    · rename_i hint
      rw [rangesIntersect_iff] at hint
      refine ⟨⟨r1, mem_cons_self, ?_⟩, ⟨r2, mem_cons_self, ?_⟩, fun x hx hx1 hx2 => ?_⟩
      · unfold rangeIntersectionStart; split <;> omega
      · unfold rangeIntersectionStart; split <;> omega
      · have hle1 : r1.start ≤ x := h1.start_le hx1
        have hle2 : r2.start ≤ x := h2.start_le hx2
        unfold rangeIntersectionStart at hx
        split at hx <;> omega
    · rename_i hint
      rw [rangesIntersect_iff] at hint
      split
      · rename_i hlt
        have hstop : r1.stop ≤ rangesStart (r2 :: rest2) := by change r1.stop ≤ r2.start; omega
        have hf' : rest1.length + (r2 :: rest2).length ≤ fuel := by rw [length_cons]; omega
        exact (intersectLoop_spec hf' hs1 h2).extend (fun _ hx => covers_cons.mpr (.inr hx)) (fun _ hx => hx)
          fun x hx1 hx2 => ⟨covers_of_stop_le h2.toInOrder hstop hx1 hx2, hx2⟩
      · rename_i hge
        have hstop : r2.stop ≤ rangesStart (r1 :: rest1) := by change r2.stop ≤ r1.start; omega
        have hf' : (r1 :: rest1).length + rest2.length ≤ fuel := by rw [length_cons]; omega
        exact (intersectLoop_spec hf' h1 hs2).extend (fun _ hx => hx) (fun _ hx => covers_cons.mpr (.inr hx))
          fun x hx1 hx2 => ⟨hx1, covers_of_stop_le h1.toInOrder hstop hx2 hx1⟩

/-- Leaving out the ranges that end before the other list begins loses no common position. -/
theorem covers_dropWhile (h2 : InOrder ranges2) (hx1 : Covers ranges1 x) (hx2 : Covers ranges2 x) :
    Covers (ranges1.dropWhile fun r => r.stop ≤ rangesStart ranges2) x := by
  induction ranges1 with
  | nil => exact hx1
  | cons r rest ih =>
    rw [dropWhile_cons]
    split
    · rename_i hr
      exact ih (covers_of_stop_le h2 (by simpa using hr) hx1 hx2)
    · exact hx1

theorem covers_of_dropWhile {q : LiveRange → Bool} (hx : Covers (ranges1.dropWhile q) x) : Covers ranges1 x := by
  obtain ⟨r, hr, hx⟩ := hx
  exact ⟨r, (dropWhile_sublist q).subset hr, hx⟩

theorem firstIntersection_spec (h1 : Sorted ranges1) (h2 : Sorted ranges2) :
    FirstCommon ranges1 ranges2 (firstIntersection ranges1 ranges2) := by
  unfold firstIntersection
  have hs1 := h1.sublist (dropWhile_sublist fun r => decide (r.stop ≤ rangesStart ranges2))
  refine (intersectLoop_spec (le_refl _) hs1 (h2.sublist (dropWhile_sublist _))).extend
    (fun _ => covers_of_dropWhile) (fun _ => covers_of_dropWhile) fun x hx1 hx2 => ?_
  have hx1' := covers_dropWhile h2.toInOrder hx1 hx2
  exact ⟨hx1', covers_dropWhile hs1.toInOrder hx2 hx1'⟩

theorem intervalsIntersect_eq_false (h1 : Sorted it1.ranges) (h2 : Sorted it2.ranges)
    (h : intervalsIntersect it1 it2 = false) (hx1 : Covers it1.ranges x) : ¬Covers it2.ranges x := by
  intro hx2
  have hs1 : intervalStart it1 ≤ x := h1.start_le hx1
  have hs2 : intervalStart it2 ≤ x := h2.start_le hx2
  have he1 : x < intervalEnd it1 := h1.lt_end hx1
  have he2 : x < intervalEnd it2 := h2.lt_end hx2
  have hne1 : it1.ranges ≠ [] := fun e => not_covers_nil (e ▸ hx1)
  have hne2 : it2.ranges ≠ [] := fun e => not_covers_nil (e ▸ hx2)
  unfold intervalsIntersect at h
  rw [if_neg (by omega), if_neg (by simp [hne1, hne2])] at h
  have hspec := firstIntersection_spec h1 h2
  have hnone : firstIntersection it1.ranges it2.ranges = none := by simpa using h
  rw [hnone] at hspec
  exact hspec x hx1 hx2

theorem intervalIntersectionStart_spec {s : Nat} (h1 : Sorted it1.ranges)
    (h2 : Sorted it2.ranges) (h : intervalIntersectionStart it1 it2 = some s) :
    Covers it1.ranges s ∧ Covers it2.ranges s ∧ ∀ x < s, Covers it1.ranges x → ¬Covers it2.ranges x := by
  unfold intervalIntersectionStart at h
  obtain ⟨r, hr, rfl⟩ := Option.map_eq_some_iff.mp h
  have hspec := firstIntersection_spec h1 h2
  rw [hr] at hspec
  exact hspec

theorem dropWhile_ne_nil (hne : ranges1 ≠ []) (h : rangesStart ranges2 < rangesEnd ranges1) :
    (ranges1.dropWhile fun r => r.stop ≤ rangesStart ranges2) ≠ [] := by
  intro hnil
  have hle := dropWhile_eq_nil_iff.mp hnil _ (getLast_mem hne)
  rw [rangesEnd, getLast?_eq_some_getLast hne] at h
  exact absurd h (not_lt.mpr (of_decide_eq_true hle))

end Intersections

/-! ## Splits and expired ranges -/

section Splits

variable {ranges before after expired : List LiveRange} {pos x : Nat}

/-- A split shares the positions out. -/
theorem splitRanges_spec (h : Sorted ranges) (hs : splitRanges pos ranges = some (before, after)) :
    Sorted before ∧ Sorted after ∧ (∀ x, Covers before x ↔ Covers ranges x ∧ x < pos) ∧
      (∀ x, Covers after x ↔ Covers ranges x ∧ pos ≤ x) ∧ after ≠ [] ∧ rangesStart after = pos := by
  induction ranges generalizing before with
  | nil => cases hs
  | cons r rest ih =>
    obtain ⟨hb, hr, hrest⟩ := sorted_cons.mp h
    -- all ranges after `r` lie behind it
    have hbehind {x : Nat} (hx : Covers rest x) : r.stop ≤ x := by
      obtain ⟨b, hmem, hx⟩ := hx
      have := hb b hmem
      omega
    rw [splitRanges] at hs
    split at hs
    · rename_i hin
      rw [inRange_iff] at hin
      obtain ⟨hbefore, hsb, rfl⟩ : (∀ x, Covers before x ↔ r.start ≤ x ∧ x < pos) ∧ Sorted before ∧
          after = ⟨pos, r.stop⟩ :: rest := by
        split at hs
        · rename_i heq
          cases hs
          exact ⟨fun x => iff_of_false not_covers_nil (by omega), .of_pairwise .nil (by simp), by rw [← heq]⟩
        · cases hs
          exact ⟨by simp [Covers], sorted_cons.mpr ⟨by simp, by change r.start < pos; omega,
            .of_pairwise .nil (by simp)⟩, rfl⟩
      refine ⟨hsb, sorted_cons.mpr ⟨hb, hin.2, hrest⟩, fun x => ?_, fun x => ?_, by simp, rfl⟩
      · rw [hbefore, covers_cons]
        constructor
        · exact fun hx => ⟨.inl (by omega), hx.2⟩
        · rintro ⟨hx | hx, hlt⟩
          · exact ⟨hx.1, hlt⟩
          · have := hbehind hx
            omega
      · rw [covers_cons, covers_cons]
        constructor
        · rintro (hx | hx)
          · simp only at hx
            exact ⟨.inl (by omega), hx.1⟩
          · have := hbehind hx
            exact ⟨.inr hx, by omega⟩
        · rintro ⟨hx | hx, hle⟩
          · exact .inl ⟨hle, hx.2⟩
          · exact .inr hx
    · rename_i hin
      rw [inRange_iff] at hin
      obtain ⟨⟨front, tail⟩, hrec, hpair⟩ := Option.map_eq_some_iff.mp hs
      cases hpair
      obtain ⟨h1, h2, h3, h4, h5, h6⟩ := ih hrest hrec
      -- `pos` lies in a later range, so `r` ends before it
      have hpos : r.stop ≤ pos := hbehind ((h4 pos).mp (h6 ▸ h2.covers_start h5)).1
      refine ⟨sorted_cons.mpr ⟨fun b hmem => ?_, hr, h1⟩, h2, fun x => ?_, fun x => ?_, h5, h6⟩
      · exact hbehind ((h3 b.start).mp ⟨b, hmem, le_refl _, h1.nonempty b hmem⟩).1
      · rw [covers_cons, covers_cons, h3]
        constructor
        · rintro (hx | hx)
          · exact ⟨.inl hx, by omega⟩
          · exact ⟨.inr hx.1, hx.2⟩
        · rintro ⟨hx | hx, hlt⟩
          · exact .inl hx
          · exact .inr ⟨hx, hlt⟩
      · rw [covers_cons, h4]
        constructor
        · exact fun hx => ⟨.inr hx.1, hx.2⟩
        · rintro ⟨hx | hx, hle⟩
          · omega
          · exact ⟨hx, hle⟩

/-- The first ranges move to the other list, and those that do end at `pos` or before. -/
theorem expireLoop_spec (h : InOrder ranges) : ∃ moved, (expireLoop pos ranges expired).2 = moved.reverse ++ expired ∧
    ranges = moved ++ (expireLoop pos ranges expired).1 ∧ (∀ r ∈ moved, r.stop ≤ pos) ∧
      (ranges ≠ [] → (expireLoop pos ranges expired).1 ≠ []) := by
  induction ranges generalizing expired with
  | nil => exact ⟨[], rfl, rfl, by simp, id⟩
  | cons r rest ih =>
    cases rest with
    | nil => exact ⟨[], rfl, rfl, by simp, id⟩
    | cons next rest =>
      obtain ⟨hb, hr, hrest⟩ := inOrder_cons.mp h
      rw [expireLoop]
      split
      · exact ⟨[], rfl, rfl, by simp, id⟩
      · split
        · exact ⟨[], rfl, rfl, by simp, id⟩
        · rename_i hnext
          obtain ⟨moved, h1, h2, h3, h4⟩ := @ih (r :: expired) hrest
          have := hb next mem_cons_self
          refine ⟨r :: moved, by rw [h1]; simp, congrArg (r :: ·) h2, ?_, fun _ => h4 (by simp)⟩
          exact forall_mem_cons.mpr ⟨by omega, h3⟩

/-- Expire the ranges before each of the positions in turn. -/
def expireEach (it : LiveInterval) (positions : List Nat) : LiveInterval :=
  positions.foldl intervalExpireRangesBefore it

variable {it : LiveInterval} {positions : List Nat}

theorem expireEach_spec (h : InOrder it.ranges) : ∃ moved, (expireEach it positions).expired = moved.reverse ++ it.expired ∧
    it.ranges = moved ++ (expireEach it positions).ranges ∧ ∀ r ∈ moved, ∃ p ∈ positions, r.stop ≤ p := by
  induction positions generalizing it with
  | nil => exact ⟨[], rfl, rfl, by simp⟩
  | cons p rest ih =>
    obtain ⟨first, h1, h2, h3⟩ : ∃ moved, (intervalExpireRangesBefore it p).expired = moved.reverse ++ it.expired ∧
        it.ranges = moved ++ (intervalExpireRangesBefore it p).ranges ∧ ∀ r ∈ moved, r.stop ≤ p := by
      unfold intervalExpireRangesBefore
      split
      · exact ⟨[], rfl, rfl, by simp⟩
      · obtain ⟨moved, h1, h2, h3, -⟩ := @expireLoop_spec it.ranges it.expired p h
        exact ⟨moved, h1, h2, h3⟩
    obtain ⟨moved, h4, h5, h6⟩ := ih (h.sublist (h2 ▸ sublist_append_right _ _))
    refine ⟨first ++ moved, ?_, ?_, fun r hr => ?_⟩
    · rw [expireEach, foldl_cons, ← expireEach, h4, h1]
      simp
    · rw [expireEach, foldl_cons, ← expireEach, append_assoc, ← h5, ← h2]
    · rcases mem_append.mp hr with hr | hr
      · exact ⟨p, mem_cons_self, h3 r hr⟩
      · exact (h6 r hr).imp fun _ h => ⟨mem_cons_of_mem _ h.1, h.2⟩

/-- **Expired ranges.** Expiring the ranges before ascending positions never changes what is covered from the current
position on, and restoring them gives back the list of ranges. -/
theorem intervalRestoreExpiredRanges_expireEach (h : InOrder it.ranges) (hp : positions.Pairwise (· ≤ ·)) :
    (∀ done p rest, positions = done ++ p :: rest → ∀ x, p ≤ x →
      intervalCovers (expireEach it (done ++ [p])) x = intervalCovers it x) ∧
    (intervalRestoreExpiredRanges (expireEach it positions)).ranges = it.expired.reverse ++ it.ranges := by
  refine ⟨fun done p rest hdone x hx => ?_, ?_⟩
  · obtain ⟨moved, -, h2, h3⟩ := @expireEach_spec it (done ++ [p]) h
    have hs := h.sublist (h2 ▸ sublist_append_right moved _)
    rw [Bool.eq_iff_iff, intervalCovers_iff hs, intervalCovers_iff h, h2, covers_append]
    refine ⟨.inr, fun hc => hc.resolve_left ?_⟩
    rintro ⟨r, hr, -, hlt⟩
    obtain ⟨q, hq, hle⟩ := h3 r hr
    have hqp : q ≤ p := by
      rw [hdone, pairwise_append] at hp
      rcases mem_append.mp hq with hq | hq
      · exact hp.2.2 q hq p mem_cons_self
      · exact le_of_eq (mem_singleton.mp hq)
    omega
  · obtain ⟨moved, h1, h2, -⟩ := @expireEach_spec it positions h
    rw [intervalRestoreExpiredRanges, h1, h2]
    simp

theorem intervalRestoreExpiredRanges_expireEach_int :
    intervalCovers (expireEach { allocInterval 0 .int with ranges := [⟨0, 2⟩, ⟨4, 6⟩] } [4]) 5 = true :=
  ((@intervalRestoreExpiredRanges_expireEach _ [4] ⟨by decide, by decide⟩ (by decide)).1 [] 4 [] rfl 5
    (by decide)).trans (by decide)

end Splits

end Jato.Jit
