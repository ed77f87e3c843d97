import Mathlib.Tactic.Common
import Mathlib.Data.List.Pairwise

/-!
# Bump allocation

Things are placed one behind the other at a counter, which is rounded up to multiples in between. Where the counter has
only `m` values it wraps around. If all sizes and multiples divide `m` and everything is placed at a multiple of its
size, then nothing is placed over anything else exactly when the counter does not wrap (`apart_iff`): a counter that
passes `m` stands at `m` once (`exists_finish_eq`), and goes on from the place of the first thing.
-/

namespace Jato.Lib.Bump

open List

/-- Round the counter up to a multiple, or place something there. -/
inductive Op (ρ : Type)
  | align (a : Nat)
  | place (ref : ρ) (size : Nat)

structure Placement (ρ : Type) where
  ref : ρ
  offset : Nat
  size : Nat

def alignUp (a x : Nat) : Nat := (x + a - 1) / a * a

theorem dvd_alignUp (a x : Nat) : a ∣ alignUp a x := Nat.dvd_mul_left a _

variable {a x y : Nat}

theorem le_alignUp (ha : 0 < a) (x : Nat) : x ≤ alignUp a x := by
  have h := Nat.div_add_mod (x + a - 1) a
  have hlt := Nat.mod_lt (x + a - 1) ha
  rw [Nat.mul_comm] at h
  unfold alignUp
  omega

theorem alignUp_le (ha : 0 < a) (hxy : x ≤ y) (hy : a ∣ y) : alignUp a x ≤ y := by
  obtain ⟨k, rfl⟩ := hy
  have hdiv : (x + a - 1) / a ≤ k := by
    rw [← Nat.lt_succ_iff, Nat.div_lt_iff_lt_mul ha, Nat.succ_mul, Nat.mul_comm k a]
    omega
  rw [alignUp, Nat.mul_comm a k]
  exact Nat.mul_le_mul_right a hdiv

theorem alignUp_add (ha : 0 < a) (x : Nat) (hy : a ∣ y) : alignUp a (x + y) = alignUp a x + y := by
  obtain ⟨k, rfl⟩ := hy
  have heq : x + a * k + a - 1 = x + a - 1 + a * k := by omega
  rw [alignUp, heq, Nat.add_mul_div_left _ _ ha, Nat.add_mul, Nat.mul_comm k a, alignUp]

theorem alignUp_of_dvd (ha : 0 < a) (h : a ∣ x) : alignUp a x = x :=
  Nat.le_antisymm (alignUp_le ha (Nat.le_refl x) h) (le_alignUp ha x)

variable {ρ : Type} {m x : Nat} {ops ops' : List (Op ρ)}

/-! ## Running the counter -/

def Op.next (x : Nat) : Op ρ → Nat
  | .align a => alignUp a x
  | .place _ size => x + size

/-- The counter at the end. -/
def finish (x : Nat) (ops : List (Op ρ)) : Nat := ops.foldl Op.next x

def places : Nat → List (Op ρ) → List (Placement ρ)
  | _, [] => []
  | x, .align a :: ops => places (alignUp a x) ops
  | x, .place ref size :: ops => ⟨ref, x, size⟩ :: places (x + size) ops

/-- Multiples and sizes divide `m`, and every place is a multiple of the size. -/
def Fits (m : Nat) : Nat → List (Op ρ) → Prop
  | _, [] => True
  | x, .align a :: ops => 0 < a ∧ a ∣ m ∧ Fits m (alignUp a x) ops
  | x, .place _ size :: ops => 0 < size ∧ size ∣ x ∧ size ∣ m ∧ Fits m (x + size) ops

theorem finish_append (x : Nat) (ops ops' : List (Op ρ)) : finish x (ops ++ ops') = finish (finish x ops) ops' :=
  foldl_append

theorem places_append (x : Nat) (ops ops' : List (Op ρ)) :
    places x (ops ++ ops') = places x ops ++ places (finish x ops) ops' := by
  induction ops generalizing x with
  | nil => rfl
  | cons op ops ih =>
    cases op with
    | align a => exact ih _
    | place ref size =>
      rw [cons_append, places, ih]
      rfl

theorem fits_append : Fits m x (ops ++ ops') ↔ Fits m x ops ∧ Fits m (finish x ops) ops' := by
  induction ops generalizing x with
  | nil => exact ⟨fun h => ⟨trivial, h⟩, And.right⟩
  | cons op ops ih =>
    cases op with
    | align a =>
      rw [cons_append, Fits, Fits, ih, and_assoc, and_assoc]
      rfl
    | place ref size =>
      rw [cons_append, Fits, Fits, ih, and_assoc, and_assoc, and_assoc]
      rfl

/-- The things that are placed. -/
def refs (ops : List (Op ρ)) : List ρ :=
  ops.filterMap fun
    | .align _ => none
    | .place ref _ => some ref

theorem map_ref_places (x : Nat) (ops : List (Op ρ)) : (places x ops).map Placement.ref = refs ops := by
  induction ops generalizing x with
  | nil => rfl
  | cons op ops ih =>
    cases op with
    | align a => exact ih _
    | place ref size => exact congrArg (ref :: ·) (ih _)

variable {p : Placement ρ} {op : Op ρ}

theorem place_mem (hp : p ∈ places x ops) : Op.place p.ref p.size ∈ ops := by
  induction ops generalizing x with
  | nil => cases hp
  | cons op ops ih =>
    cases op with
    | align a => exact mem_cons_of_mem _ (ih hp)
    | place ref size =>
      rcases mem_cons.mp hp with rfl | hp
      · exact mem_cons_self
      · exact mem_cons_of_mem _ (ih hp)

theorem exists_mem_places {ref : ρ} {size : Nat} (x : Nat) (h : Op.place ref size ∈ ops) :
    ∃ p ∈ places x ops, p.ref = ref ∧ p.size = size := by
  induction ops generalizing x with
  | nil => cases h
  | cons op ops ih =>
    rcases mem_cons.mp h with rfl | hmem
    · exact ⟨_, mem_cons_self, rfl, rfl⟩
    · cases op with
      | align a => exact ih _ hmem
      | place ref' size' =>
        obtain ⟨p, hp, hrest⟩ := ih (x + size') hmem
        exact ⟨p, mem_cons_of_mem _ hp, hrest⟩

theorem Fits.le_finish (h : Fits m x ops) : x ≤ finish x ops := by
  induction ops generalizing x with
  | nil => exact Nat.le_refl x
  | cons op ops ih =>
    cases op with
    | align a => exact Nat.le_trans (le_alignUp h.1 x) (ih h.2.2)
    | place ref size => exact Nat.le_trans (Nat.le_add_right x size) (ih h.2.2.2)

theorem Fits.of_mem (h : Fits m x ops) (hp : p ∈ places x ops) :
    x ≤ p.offset ∧ p.offset + p.size ≤ finish x ops ∧ 0 < p.size ∧ p.size ∣ p.offset ∧ p.size ∣ m := by
  induction ops generalizing x with
  | nil => cases hp
  | cons op ops ih =>
    cases op with
    | align a =>
      obtain ⟨hx, hrest⟩ := ih h.2.2 hp
      exact ⟨Nat.le_trans (le_alignUp h.1 x) hx, hrest⟩
    | place ref size =>
      obtain ⟨hpos, hdvd, hm, h⟩ := h
      rcases mem_cons.mp hp with rfl | hp
      · exact ⟨Nat.le_refl x, h.le_finish, hpos, hdvd, hm⟩
      · obtain ⟨hx, hrest⟩ := ih h hp
        exact ⟨Nat.le_trans (Nat.le_add_right x size) hx, hrest⟩

theorem Fits.pairwise (h : Fits m x ops) : (places x ops).Pairwise fun p q => p.offset + p.size ≤ q.offset := by
  induction ops generalizing x with
  | nil => exact .nil
  | cons op ops ih =>
    cases op with
    | align a => exact ih h.2.2
    | place ref size =>
      exact pairwise_cons.mpr ⟨fun q hq => (Fits.of_mem h.2.2.2 hq).1, ih h.2.2.2⟩

/-! ## Counters that wrap -/

theorem Fits.next_le (h : Fits m x (op :: ops)) (hx : x < m) : op.next x ≤ m := by
  cases op with
  | align a => exact alignUp_le h.1 (Nat.le_of_lt hx) h.2.1
  | place ref size =>
    obtain ⟨-, ⟨i, rfl⟩, ⟨j, rfl⟩, -⟩ := h
    have hij : i < j := Nat.lt_of_mul_lt_mul_left hx
    exact Nat.mul_le_mul_left size hij

theorem Fits.tail (h : Fits m x (op :: ops)) : Fits m (op.next x) ops := by
  cases op with
  | align a => exact h.2.2
  | place ref size => exact h.2.2.2

theorem exists_finish_eq (h : Fits m x ops) (hx : x < m) (hm : m ≤ finish x ops) :
    ∃ front rear, ops = front ++ rear ∧ finish x front = m := by
  induction ops generalizing x with
  | nil => exact absurd hx (Nat.not_lt.mpr hm)
  | cons op ops ih =>
    rcases Nat.lt_or_ge (op.next x) m with hlt | hge
    · obtain ⟨front, rear, rfl, hfront⟩ := ih h.tail hlt hm
      exact ⟨op :: front, rear, rfl, hfront⟩
    · exact ⟨[op], ops, rfl, Nat.le_antisymm (h.next_le hx) hge⟩

/-- The first thing that is placed from a multiple of all multiples on is placed there. -/
theorem places_of_dvd (h : Fits m x ops) (hx : m ∣ x) : places x ops = [] ∧ finish x ops = x ∨
    ∃ p rest, places x ops = p :: rest ∧ p.offset = x := by
  induction ops with
  | nil => exact .inl ⟨rfl, rfl⟩
  | cons op ops ih =>
    cases op with
    | align a =>
      have heq := alignUp_of_dvd h.1 (Nat.dvd_trans h.2.1 hx)
      have hops := h.2.2
      rw [heq] at hops
      rcases ih hops with ⟨hp, hf⟩ | ⟨p, rest, hp, hoff⟩
      · refine .inl ⟨?_, ?_⟩
        · rw [places, heq, hp]
        · rw [finish, foldl_cons, Op.next, heq]
          exact hf
      · refine .inr ⟨p, rest, ?_, hoff⟩
        rw [places, heq, hp]
    | place ref size => exact .inr ⟨_, _, rfl, rfl⟩

/-- What is placed with a counter of `m` values lies before its end, and nothing lies over anything else. -/
structure Apart (m : Nat) (ops : List (Op ρ)) : Prop where
  inside : ∀ p ∈ places 0 ops, p.offset % m + p.size ≤ finish 0 ops % m
  disjoint : (places 0 ops).Pairwise fun p q =>
    p.offset % m + p.size ≤ q.offset % m ∨ q.offset % m + q.size ≤ p.offset % m

theorem Apart.of_ne (h : Apart m ops) {q : Placement ρ} (hp : p ∈ places 0 ops) (hq : q ∈ places 0 ops) (hne : p ≠ q) :
    p.offset % m + p.size ≤ q.offset % m ∨ q.offset % m + q.size ≤ p.offset % m := by
  have hsymm : Std.Symm fun p q : Placement ρ =>
      p.offset % m + p.size ≤ q.offset % m ∨ q.offset % m + q.size ≤ p.offset % m := ⟨fun _ _ => Or.symm⟩
  exact h.disjoint.forall hp hq hne

theorem Fits.apart (h : Fits m 0 ops) (hm : finish 0 ops < m) : Apart m ops := by
  have hmod {p} (hp : p ∈ places 0 ops) : p.offset % m = p.offset := by
    obtain ⟨-, hle, -⟩ := h.of_mem hp
    exact Nat.mod_eq_of_lt (by omega)
  constructor
  · intro p hp
    rw [hmod hp, Nat.mod_eq_of_lt hm]
    exact (h.of_mem hp).2.1
  · refine h.pairwise.imp_of_mem fun hp hq hpq => ?_
    rw [hmod hp, hmod hq]
    exact .inl hpq

/-- **Nothing is placed over anything else** exactly when the counter does not wrap. -/
theorem apart_iff (h : Fits m 0 ops) (hm : 0 < m) : Apart m ops ↔ finish 0 ops < m := by
  refine ⟨fun hapart => ?_, h.apart⟩
  by_contra hge
  obtain ⟨front, rear, rfl, hfront⟩ := exists_finish_eq h hm (Nat.not_lt.mp hge)
  obtain ⟨hf, hr⟩ := fits_append.mp h
  obtain ⟨hinside, hdisjoint⟩ := hapart
  rw [places_append, hfront] at hinside hdisjoint
  rw [finish_append, hfront] at hinside
  rw [hfront] at hr
  -- something has been placed at `0`, or the counter would not have moved
  obtain ⟨p, rest, hp, hp0⟩ : ∃ p rest, places 0 front = p :: rest ∧ p.offset = 0 := by
    rcases places_of_dvd hf (Nat.dvd_zero m) with ⟨-, hzero⟩ | hplaced
    · omega
    · exact hplaced
  have hpmem : p ∈ places 0 front := hp ▸ mem_cons_self
  have hpos := (hf.of_mem hpmem).2.2.1
  rcases places_of_dvd hr (Nat.dvd_refl m) with ⟨-, hend⟩ | ⟨q, rest', hq, hqm⟩
  · have := hinside p (mem_append_left _ hpmem)
    rw [hend, Nat.mod_self] at this
    omega
  · have hqmem : q ∈ places m rear := hq ▸ mem_cons_self
    have := (pairwise_append.mp hdisjoint).2.2 p hpmem q hqmem
    rw [hp0, hqm, Nat.zero_mod, Nat.mod_self] at this
    have hpos' := (hr.of_mem hqmem).2.2.1
    omega

end Jato.Lib.Bump
