import Mathlib.Tactic.Common

/-!
# Searching a sorted array

What is assumed of `bsearch`. The comparison function is called with the key and an element. The C standard promises
something only for arrays in which the elements below the key come first, then those that match, then those above it
(`SignSorted`): there a match is found if there is one. That a result matches in other arrays too is not promised by the
standard; it is assumed here, as it holds for every implementation that returns an element only after it has compared
equal (`sound`). Nothing is assumed about finding a match in other arrays.

`binarySearch` is the usual loop (`halving`), and `cautious` a function that does what is assumed and no more.
-/

namespace Jato.Lib

/-- The elements below the key (positive comparisons) come first, then those that match, then those above it. -/
def SignSorted {α : Type} (cmp : α → Int) (l : List α) : Prop := l.Pairwise fun a b => (cmp b).sign ≤ (cmp a).sign

instance {α : Type} (cmp : α → Int) (l : List α) : Decidable (SignSorted cmp l) :=
  inferInstanceAs (Decidable (l.Pairwise _))

/-- A function that does what is assumed of `bsearch`; it returns an index, or `none` for a null pointer. -/
structure Bsearch where
  find : {α : Type} → (α → Int) → List α → Option Nat
  sound : ∀ {α : Type} {cmp : α → Int} {l : List α} {i : Nat}, find cmp l = some i → ∃ a, l[i]? = some a ∧ cmp a = 0
  complete : ∀ {α : Type} {cmp : α → Int} {l : List α}, SignSorted cmp l → (∃ a ∈ l, cmp a = 0) → find cmp l ≠ none

/-- The loop between the bounds `lo` and `hi`. -/
def bsearchLoop {α : Type} (cmp : α → Int) (l : List α) : Nat → Nat → Nat → Option Nat
  | 0, _, _ => none
  | fuel + 1, lo, hi =>
    if lo < hi then
      match l[(lo + hi) / 2]? with
      | none => none
      | some a =>
        if cmp a < 0 then bsearchLoop cmp l fuel lo ((lo + hi) / 2)
        else if 0 < cmp a then bsearchLoop cmp l fuel ((lo + hi) / 2 + 1) hi
        else some ((lo + hi) / 2)
    else none

/-- Halves the array until an element matches. -/
def binarySearch {α : Type} (cmp : α → Int) (l : List α) : Option Nat := bsearchLoop cmp l (l.length + 1) 0 l.length

section

variable {α : Type} {cmp : α → Int} {l : List α}

theorem bsearchLoop_sound {fuel lo hi i : Nat} (h : bsearchLoop cmp l fuel lo hi = some i) :
    ∃ a, l[i]? = some a ∧ cmp a = 0 := by
  fun_induction bsearchLoop cmp l fuel lo hi with
  | case1 => cases h
  | case2 => cases h
  | case3 _ _ _ _ _ _ _ ih => exact ih h
  | case4 _ _ _ _ _ _ _ _ ih => exact ih h
  | case5 fuel lo hi _ a ha hneg hpos =>
    obtain rfl := Option.some.inj h
    exact ⟨a, ha, by omega⟩
  | case6 => cases h

/-- Two elements of a sorted array compare in the order of their places. -/
theorem SignSorted.sign_le (h : SignSorted cmp l) {i j : Nat} {a b : α} (ha : l[i]? = some a) (hb : l[j]? = some b)
    (hij : i < j) : (cmp b).sign ≤ (cmp a).sign := by
  obtain ⟨hi, rfl⟩ := List.getElem?_eq_some_iff.mp ha
  obtain ⟨hj, rfl⟩ := List.getElem?_eq_some_iff.mp hb
  exact List.pairwise_iff_getElem.mp h i j hi hj hij

theorem bsearchLoop_complete (h : SignSorted cmp l) {fuel lo hi i : Nat} {a : α} (hfuel : hi - lo < fuel)
    (hhi : hi ≤ l.length) (ha : l[i]? = some a) (hmatch : cmp a = 0) (hlo : lo ≤ i) (hi' : i < hi) :
    bsearchLoop cmp l fuel lo hi ≠ none := by
  induction fuel generalizing lo hi with
  | zero => omega
  | succ fuel ih =>
    have hmid : (lo + hi) / 2 < l.length := by omega
    rw [bsearchLoop, if_pos (by omega), List.getElem?_eq_getElem hmid]
    have hget := List.getElem?_eq_getElem hmid
    simp only
    split
    · -- the middle is above the key, so the match is to its left
      rename_i hneg
      refine ih (by omega) (by omega) hlo ?_
      by_contra hge
      rcases Nat.lt_or_eq_of_le (Nat.le_of_not_lt hge) with hlt | heq
      · have hle := h.sign_le hget ha hlt
        rw [hmatch, Int.sign_eq_neg_one_of_neg hneg] at hle
        exact absurd hle (by decide)
      · rw [← heq, hget, Option.some_inj] at ha
        rw [ha, hmatch] at hneg
        exact absurd hneg (Int.lt_irrefl 0)
    · split
      · rename_i hpos
        refine ih (by omega) hhi ?_ hi'
        by_contra hlt
        rcases Nat.lt_or_eq_of_le (Nat.le_of_lt_succ (Nat.lt_of_not_le hlt)) with hlt' | heq
        · have hle := h.sign_le ha hget hlt'
          rw [hmatch, Int.sign_eq_one_of_pos hpos] at hle
          exact absurd hle (by decide)
        · rw [heq, hget, Option.some_inj] at ha
          rw [ha, hmatch] at hpos
          exact absurd hpos (Int.lt_irrefl 0)
      · exact Option.some_ne_none _

/-- **The usual binary search** does what is assumed. -/
def halving : Bsearch where
  find := binarySearch
  sound := bsearchLoop_sound
  complete := by
    rintro α cmp l h ⟨a, ha, hmatch⟩
    obtain ⟨i, hi, hget⟩ := List.getElem_of_mem ha
    exact bsearchLoop_complete h (by omega) (Nat.le_refl _) (List.getElem?_eq_some_iff.mpr ⟨hi, hget⟩) hmatch
      (Nat.zero_le _) hi

/-- Finds the first match in the arrays for which the promise is made, and nothing in others. -/
def cautious : Bsearch where
  find cmp l := if SignSorted cmp l then l.findIdx? (cmp · = 0) else none
  sound := by
    intro α cmp l i h
    split at h
    · obtain ⟨hi, hp, -⟩ := List.findIdx?_eq_some_iff_getElem.mp h
      exact ⟨l[i], List.getElem?_eq_getElem hi, by simpa using hp⟩
    · cases h
  complete := by
    rintro α cmp l h ⟨a, ha, hmatch⟩
    rw [if_pos h, ne_eq, List.findIdx?_eq_none_iff]
    exact fun hall => absurd (hall a ha) (by simp [hmatch])

theorem cautious_of_not_signSorted (h : ¬ SignSorted cmp l) : cautious.find cmp l = none := if_neg h

end

end Jato.Lib
