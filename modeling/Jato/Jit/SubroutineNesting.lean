import Mathlib.Data.List.Basic

/-!
# Nested subroutines

`verify_correct_nesting` of `jit/subroutine.c`. Each byte of the code has a counter. The subroutines are visited in the
order in which they were discovered, and each must find the counters of its bytes equal before it increments them.

The counters do not tell which subroutine counted. A subroutine discovered before one that contains it makes the check
fail, and two neighbours hide a third that crosses both: `verifyCorrectNesting_exact` says for which lists the check
decides as it should. The counters are a function of the position, and every range lies inside the code.
-/

namespace Jato.Jit

/-- The bytes `startPc ≤ pc < endPc` of a subroutine. -/
structure SubroutineRange where
  startPc : Nat
  endPc : Nat
deriving DecidableEq, Repr

/-- The loop over `n` bytes from `i` on: they have the color of the first one, and are counted. -/
def coverRange (color : Nat) : Nat → Nat → (Nat → Nat) → Option (Nat → Nat)
  | _, 0, coverage => some coverage
  | i, n + 1, coverage =>
    if coverage i ≠ color then none
    else coverRange color (i + 1) n (Function.update coverage i (coverage i + 1))

/-- One turn of the loop over the subroutines. -/
def coverSubroutine (coverage : Nat → Nat) (this : SubroutineRange) : Option (Nat → Nat) :=
  coverRange (coverage this.startPc) this.startPc (this.endPc - this.startPc) coverage

def verifyCorrectNesting (subroutines : List SubroutineRange) : Bool :=
  (subroutines.foldlM coverSubroutine fun _ => 0).isSome

/-! ## Ranges as sets of positions -/

namespace SubroutineRange

def Mem (r : SubroutineRange) (i : Nat) : Prop := r.startPc ≤ i ∧ i < r.endPc

instance (r : SubroutineRange) (i : Nat) : Decidable (r.Mem i) := inferInstanceAs (Decidable (_ ∧ _))

def Within (r r' : SubroutineRange) : Prop := ∀ i, r.Mem i → r'.Mem i

/-- `r` has bytes of `r'`, but not all of them. -/
def Cuts (r r' : SubroutineRange) : Prop := (∃ i, r.Mem i ∧ r'.Mem i) ∧ ¬ r'.Within r

/-- The ranges are disjoint, or one contains the other. -/
def Nested (r r' : SubroutineRange) : Prop := (∀ i, r.Mem i → ¬ r'.Mem i) ∨ r.Within r' ∨ r'.Within r

/-- The number of ranges with the position `i`. -/
def depth (rs : List SubroutineRange) (i : Nat) : Nat := rs.countP fun r => r.Mem i

/-- All positions of `r` are in equally many of the ranges. -/
def Evenly (rs : List SubroutineRange) (r : SubroutineRange) : Prop :=
  ∀ i, r.Mem i → depth rs i = depth rs r.startPc

open Classical in
/-- Those of the ranges that cut `r`. -/
noncomputable def cutting (rs : List SubroutineRange) (r : SubroutineRange) : List SubroutineRange :=
  rs.filter fun r' => r'.Cuts r

end SubroutineRange

open SubroutineRange

/-! ## The counters -/

theorem coverRange_iff {color n i : Nat} {coverage coverage' : Nat → Nat} :
    coverRange color i n coverage = some coverage' ↔ (∀ j, i ≤ j ∧ j < i + n → coverage j = color) ∧
      coverage' = fun j => coverage j + if i ≤ j ∧ j < i + n then 1 else 0 := by
  induction n generalizing i coverage with
  | zero =>
    have hno : ∀ j, ¬ (i ≤ j ∧ j < i) := fun j => by omega
    simp [coverRange, hno, eq_comm]
  | succ n ih =>
    rw [coverRange]
    split
    · next hne => exact iff_of_false (by simp) fun h => hne (h.1 i (by omega))
    · next heq =>
      have heq := not_not.1 heq
      have hcount : ∀ j, (Function.update coverage i (coverage i + 1) j + if i + 1 ≤ j ∧ j < i + 1 + n then 1 else 0) =
          coverage j + if i ≤ j ∧ j < i + (n + 1) then 1 else 0 := by
        intro j
        by_cases hj : j = i
        · simp [hj, show ¬ i + 1 ≤ i by omega]
        · have hiff : (i + 1 ≤ j ∧ j < i + 1 + n) ↔ i ≤ j ∧ j < i + (n + 1) := by omega
          simp only [Function.update_of_ne hj, hiff]
      rw [ih, funext hcount]
      refine and_congr_left fun _ => ⟨fun h j hj => ?_, fun h j hj => ?_⟩
      · by_cases hji : j = i
        · rw [hji, heq]
        · simpa only [Function.update_of_ne hji] using h j (by omega)
      · rw [Function.update_of_ne (by omega), h j (by omega)]

variable {r : SubroutineRange}

/-- With the counters of the ranges `seen` before, a range must be covered evenly, and is counted too. -/
theorem coverSubroutine_iff {seen : List SubroutineRange} {coverage : Nat → Nat} :
    coverSubroutine (depth seen) r = some coverage ↔ Evenly seen r ∧ coverage = depth (seen ++ [r]) := by
  have hmem : ∀ j, (r.startPc ≤ j ∧ j < r.startPc + (r.endPc - r.startPc)) ↔ r.Mem j := by
    intro j
    unfold Mem
    omega
  have hdepth : depth (seen ++ [r]) = fun j => depth seen j + if r.Mem j then 1 else 0 := by
    funext j
    simp [depth]
  simp [coverSubroutine, coverRange_iff, hmem, hdepth, Evenly]

theorem foldlM_coverSubroutine_iff (rs seen : List SubroutineRange) :
    (rs.foldlM coverSubroutine (depth seen)).isSome = true ↔
      ∀ before r after, rs = before ++ r :: after → Evenly (seen ++ before) r := by
  induction rs generalizing seen with
  | nil => simp
  | cons this rest ih =>
    have hstep : ((this :: rest).foldlM coverSubroutine (depth seen)).isSome = true ↔
        Evenly seen this ∧ (rest.foldlM coverSubroutine (depth (seen ++ [this]))).isSome = true := by
      simp only [List.foldlM_cons, Option.bind_eq_bind, Option.isSome_bind, Option.any_eq_true, coverSubroutine_iff]
      exact ⟨fun ⟨_, ⟨heven, rfl⟩, hrest⟩ => ⟨heven, hrest⟩, fun ⟨heven, hrest⟩ => ⟨_, ⟨heven, rfl⟩, hrest⟩⟩
    rw [hstep, ih]
    constructor
    · rintro ⟨heven, hrest⟩ before r after heq
      cases before with
      | nil =>
        obtain ⟨rfl, rfl⟩ := List.cons.inj heq
        simpa using heven
      | cons b before =>
        obtain ⟨rfl, rfl⟩ := List.cons.inj heq
        simpa using hrest before r after rfl
    · intro h
      refine ⟨by simpa using h [] this rest rfl, fun before r after heq => ?_⟩
      simpa using h (this :: before) r after (by rw [heq, List.cons_append])

theorem mem_iff_of_not_cuts {r' : SubroutineRange} (h : ¬ r'.Cuts r) {i j : Nat} (hi : r.Mem i) (hj : r.Mem j) :
    r'.Mem i ↔ r'.Mem j := by
  rw [Cuts, not_and_not_right] at h
  exact ⟨fun hi' => h ⟨i, hi', hi⟩ j hj, fun hj' => h ⟨j, hj', hj⟩ i hi⟩

theorem depth_cutting {i j : Nat} (hi : r.Mem i) (hj : r.Mem j) (rs : List SubroutineRange) :
    depth rs i + depth (cutting rs r) j = depth rs j + depth (cutting rs r) i := by
  induction rs with
  | nil => rfl
  | cons r' rs ih =>
    unfold depth cutting at ih ⊢
    by_cases hcuts : r'.Cuts r
    · simp only [List.filter_cons, hcuts, decide_true, if_true, List.countP_cons]
      omega
    · simp only [List.filter_cons, hcuts, decide_false, List.countP_cons, mem_iff_of_not_cuts hcuts hi hj,
        Bool.false_eq_true, if_false]
      omega

theorem evenly_cutting (rs : List SubroutineRange) (r : SubroutineRange) : Evenly (cutting rs r) r ↔ Evenly rs r := by
  refine forall₂_congr fun i hi => ?_
  have hsum := depth_cutting hi ⟨Nat.le_refl _, Nat.lt_of_le_of_lt hi.1 hi.2⟩ rs
  omega

/-- **When the check decides rightly.** It succeeds exactly on nested ranges if and only if the list is nested and the
ranges inside a range that were discovered before it cover it evenly, or it is not nested and some range is cut
unevenly by those discovered before it. -/
theorem verifyCorrectNesting_exact (rs : List SubroutineRange) : (verifyCorrectNesting rs = true ↔ rs.Pairwise Nested) ↔
      (rs.Pairwise Nested → ∀ before r after, rs = before ++ r :: after → Evenly (cutting before r) r) ∧
      (¬ rs.Pairwise Nested → ∃ before r after, rs = before ++ r :: after ∧ ¬ Evenly (cutting before r) r) := by
  have hrun : verifyCorrectNesting rs = true ↔ ∀ before r after, rs = before ++ r :: after → Evenly before r :=
    foldlM_coverSubroutine_iff rs []
  simp only [hrun, evenly_cutting]
  by_cases hnested : rs.Pairwise Nested
  · simp [hnested]
  · simp [hnested]

/-- A subroutine that is discovered before the one around it is rejected. -/
theorem verifyCorrectNesting_inner_first :
    verifyCorrectNesting [⟨2, 5⟩, ⟨0, 10⟩] = false ∧ [(⟨2, 5⟩ : SubroutineRange), ⟨0, 10⟩].Pairwise Nested :=
  ⟨by decide, List.pairwise_pair.2 (.inr (.inl fun _ hi => ⟨Nat.zero_le _, Nat.lt_of_lt_of_le hi.2 (by decide)⟩))⟩

end Jato.Jit
