import Mathlib.Data.Finset.Card

/-!
# Counters of threads

A counter for every place, and where every thread is: `Tally` says that each counter is the number of threads at its
place. The lemmas follow a thread that comes to a place, leaves one, or stays.
-/

namespace Jato.Lib

open Function

variable {T R : Type}

/-- Each counter `n r` is the number of threads `t` with `place t = some r`. -/
def Tally (place : T → Option R) (n : R → Nat) : Prop :=
  ∀ r, ∃ ts : Finset T, (∀ t, t ∈ ts ↔ place t = some r) ∧ n r = ts.card

namespace Tally

variable {place : T → Option R} {n : R → Nat} {t : T} {r : R}

theorem zero : Tally (fun _ : T => (none : Option R)) fun _ => 0 := by
  intro r
  exact ⟨∅, by simp, rfl⟩

theorem pos (h : Tally place n) (ht : place t = some r) : 0 < n r := by
  obtain ⟨ts, hts, hn⟩ := h r
  rw [hn]
  exact Finset.card_pos.mpr ⟨t, (hts t).mpr ht⟩

variable [DecidableEq T]

theorem stay (h : Tally place n) {p : Option R} (hp : p = place t) : Tally (update place t p) n := by
  rw [hp, update_eq_self]
  exact h

theorem mem_update {ts : Finset T} (hts : ∀ u, u ∈ ts ↔ place u = some r) {p : Option R} (ht : place t ≠ some r)
    (hp : p ≠ some r) (u : T) : u ∈ ts ↔ update place t p u = some r := by
  rw [hts]
  by_cases hu : u = t
  · rw [hu, update_self]
    exact iff_of_false ht hp
  · rw [update_of_ne hu]

variable [DecidableEq R]

theorem enter (h : Tally place n) (ht : place t = none) : Tally (update place t (some r)) (update n r (n r + 1)) := by
  intro r'
  obtain ⟨ts, hts, hn⟩ := h r'
  by_cases hr : r' = r
  · subst hr
    have hnot : t ∉ ts := fun hmem => by
      rw [hts, ht] at hmem
      cases hmem
    refine ⟨insert t ts, fun u => ?_, ?_⟩
    · rw [Finset.mem_insert, hts]
      by_cases hu : u = t
      · simp [hu]
      · simp [hu]
    · rw [update_self, Finset.card_insert_of_notMem hnot, hn]
  · refine ⟨ts, mem_update hts (by simp [ht]) (by simp [Ne.symm hr]), ?_⟩
    rw [update_of_ne hr, hn]

theorem leave (h : Tally place n) (ht : place t = some r) : Tally (update place t none) (update n r (n r - 1)) := by
  intro r'
  obtain ⟨ts, hts, hn⟩ := h r'
  by_cases hr : r' = r
  · subst hr
    refine ⟨ts.erase t, fun u => ?_, ?_⟩
    · rw [Finset.mem_erase, hts]
      by_cases hu : u = t
      · simp [hu]
      · simp [hu]
    · rw [update_self, Finset.card_erase_of_mem ((hts t).mpr ht), hn]
  · refine ⟨ts, mem_update hts (by simp [ht, Ne.symm hr]) (by simp), ?_⟩
    rw [update_of_ne hr, hn]

omit [DecidableEq T] in
theorem reset (h : Tally place n) (hr : ∀ t, place t ≠ some r) : Tally place (update n r 0) := by
  intro r'
  by_cases heq : r' = r
  · subst heq
    exact ⟨∅, fun t => by simp [hr t], by simp⟩
  · obtain ⟨ts, hts, hn⟩ := h r'
    exact ⟨ts, hts, by rw [update_of_ne heq, hn]⟩

end Tally

end Jato.Lib
