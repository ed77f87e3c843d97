import Mathlib.Tactic.Common

/-!
# Tilings of an interval of numbers

A list of pieces, each with a start and an end, tiles `[a, n)` if the first piece starts at `a`, each next one starts
where the one before it ends, the last one ends at `n` and none is empty. Looking up a position finds the piece that
holds it (`Tiles.find`), and a piece can be cut in two by putting the second half right behind it (`Tiles.split`).
-/

namespace Jato.Lib

open List

variable {ι : Type*}

/-- The pieces of the list, in order, tile `[a, n)`. -/
def Tiles (start stop : ι → Nat) : Nat → Nat → List ι → Prop
  | a, n, [] => a = n
  | a, n, b :: bs => start b = a ∧ a < stop b ∧ Tiles start stop (stop b) n bs

/-- `new` right behind the first `orig`. -/
def insertAfter [DecidableEq ι] (orig new : ι) : List ι → List ι
  | [] => []
  | b :: bs => if b = orig then b :: new :: bs else b :: insertAfter orig new bs

variable {b orig new : ι}

theorem mem_insertAfter [DecidableEq ι] {l : List ι} (h : orig ∈ l) : b ∈ insertAfter orig new l ↔ b = new ∨ b ∈ l := by
  induction l with
  | nil => cases h
  | cons x xs ih =>
    simp only [insertAfter]
    split
    · simp only [mem_cons]
      tauto
    · rename_i hx
      rcases mem_cons.mp h with rfl | hmem
      · exact absurd rfl hx
      · rw [mem_cons, ih hmem, mem_cons]
        tauto

section

variable {start stop : ι → Nat} {a n : Nat} {l : List ι}

theorem Tiles.le (h : Tiles start stop a n l) : a ≤ n := by
  induction l generalizing a with
  | nil => exact Nat.le_of_eq h
  | cons b bs ih =>
    obtain ⟨-, hlt, hrest⟩ := h
    exact Nat.le_trans (Nat.le_of_lt hlt) (ih hrest)

theorem Tiles.bounds (h : Tiles start stop a n l) (hb : b ∈ l) : a ≤ start b ∧ start b < stop b ∧ stop b ≤ n := by
  induction l generalizing a with
  | nil => cases hb
  | cons x xs ih =>
    obtain ⟨hs, hlt, hrest⟩ := h
    rcases mem_cons.mp hb with rfl | hmem
    · exact ⟨Nat.le_of_eq hs.symm, hs ▸ hlt, hrest.le⟩
    · have := ih hrest hmem
      omega

variable {c : ι} {o : Nat} {start' stop' : ι → Nat}

section

variable (h : Tiles start stop a n l)

include h

/-- Of two pieces one ends before the other starts. -/
theorem Tiles.apart (hb : b ∈ l) (hc : c ∈ l) : b = c ∨ stop b ≤ start c ∨ stop c ≤ start b := by
  induction l generalizing a with
  | nil => cases hb
  | cons x xs ih =>
    obtain ⟨hs, hlt, hrest⟩ := h
    rcases mem_cons.mp hb with rfl | hb' <;> rcases mem_cons.mp hc with rfl | hc'
    · exact .inl rfl
    · exact .inr (.inl (hrest.bounds hc').1)
    · exact .inr (.inr (hrest.bounds hb').1)
    · exact ih hrest hb' hc'

theorem Tiles.unique (hb : b ∈ l) (hc : c ∈ l)
    (hob : start b ≤ o ∧ o < stop b) (hoc : start c ≤ o ∧ o < stop c) : b = c := by
  rcases h.apart hb hc with heq | hle | hle
  · exact heq
  · omega
  · omega

theorem Tiles.start_inj (hb : b ∈ l) (hc : c ∈ l) (heq : start b = start c) : b = c := by
  have := h.bounds hb
  have := h.bounds hc
  exact h.unique hb hc ⟨Nat.le_refl _, by omega⟩ ⟨by omega, by omega⟩

theorem Tiles.nodup : l.Nodup := by
  induction l generalizing a with
  | nil => exact nodup_nil
  | cons x xs ih =>
    obtain ⟨hs, hlt, hrest⟩ := h
    refine nodup_cons.mpr ⟨fun hx => ?_, ih hrest⟩
    have := hrest.bounds hx
    omega

/-- Behind a piece that does not end the interval another one starts. -/
theorem Tiles.next (hb : b ∈ l) (hlt : stop b < n) : ∃ c ∈ l, start c = stop b := by
  induction l generalizing a with
  | nil => cases hb
  | cons x xs ih =>
    obtain ⟨-, -, hrest⟩ := h
    rcases mem_cons.mp hb with rfl | hmem
    · cases xs with
      | nil => exact absurd hlt (Nat.not_lt.mpr (Nat.le_of_eq hrest.symm))
      | cons y ys => exact ⟨y, by simp, hrest.1⟩
    · obtain ⟨c, hc, heq⟩ := ih hrest hmem
      exact ⟨c, mem_cons_of_mem _ hc, heq⟩

theorem Tiles.find (ha : a ≤ o) (hn : o < n) :
    ∃ b ∈ l, start b ≤ o ∧ o < stop b ∧ (l.find? fun c => start c ≤ o && o < stop c) = some b := by
  induction l generalizing a with
  | nil =>
    have : a = n := h
    omega
  | cons x xs ih =>
    obtain ⟨hs, hlt, hrest⟩ := h
    by_cases ho : o < stop x
    · exact ⟨x, by simp, by omega, ho, by simp [show start x ≤ o by omega, ho]⟩
    · obtain ⟨b, hb, hle, hlt', hfind⟩ := ih hrest (by omega)
      exact ⟨b, mem_cons_of_mem _ hb, hle, hlt', by simp [ho, hfind]⟩

theorem Tiles.congr (heq : ∀ b ∈ l, start' b = start b ∧ stop' b = stop b) : Tiles start' stop' a n l := by
  induction l generalizing a with
  | nil => exact h
  | cons b bs ih =>
    obtain ⟨hs, hlt, hrest⟩ := h
    obtain ⟨hsb, heb⟩ := heq b (by simp)
    refine ⟨hsb.trans hs, heb ▸ hlt, heb ▸ ih hrest fun c hc => heq c (mem_cons_of_mem _ hc)⟩

theorem Tiles.split [DecidableEq ι] (horig : orig ∈ l) (hnew : new ∉ l) (ho : start orig < o ∧ o < stop orig)
    (hkeep : ∀ b ∈ l, start' b = start b ∧ (b ≠ orig → stop' b = stop b)) (hcut : stop' orig = o)
    (hsn : start' new = o) (hen : stop' new = stop orig) : Tiles start' stop' a n (insertAfter orig new l) := by
  induction l generalizing a with
  | nil => cases horig
  | cons x xs ih =>
    have hapart (b : ι) (hb : b ∈ xs) : x ≠ b := by
      rintro rfl
      have := h.2.2.bounds hb
      have := h.2.1
      omega
    obtain ⟨hs, hlt, hrest⟩ := h
    simp only [insertAfter]
    split
    · rename_i hx
      subst hx
      refine ⟨(hkeep x (by simp)).1.trans hs, by omega, ?_⟩
      refine ⟨hsn.trans hcut.symm, by omega, ?_⟩
      rw [hen]
      refine hrest.congr fun b hb => ?_
      obtain ⟨hsb, heb⟩ := hkeep b (mem_cons_of_mem _ hb)
      exact ⟨hsb, heb (hapart b hb).symm⟩
    · rename_i hx
      obtain ⟨hsx, hex⟩ := hkeep x (by simp)
      rcases mem_cons.mp horig with rfl | hmem
      · exact absurd rfl hx
      · refine ⟨hsx.trans hs, hex hx ▸ hlt, hex hx ▸ ?_⟩
        exact ih hrest hmem (fun hn => hnew (mem_cons_of_mem _ hn))
          fun b hb => hkeep b (mem_cons_of_mem _ hb)

end

end

end Jato.Lib
