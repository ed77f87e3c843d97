import Mathlib.Tactic.Common

/-!
# Loops that can fail

Rules for a loop over a list that may stop without a result: an invariant kept by every iteration holds at the end, a
reflexive and transitive relation kept by every iteration relates the two ends, and every element has had its iteration
in between (`foldlM_inv`).
-/

namespace Jato.Lib

open List

variable {α β : Type}

theorem guard_bind_eq_some {p : Prop} [Decidable p] {f : Unit → Option β} {b : β} :
    ((guard p : Option Unit) >>= f) = some b ↔ p ∧ f () = some b := by
  by_cases h : p <;> simp [guard, h]

/-- The iteration for `a`, between the start `b` and the end `b'` of a loop. -/
def Iterated (step : β → α → Option β) (I : β → Prop) (R : β → β → Prop) (b b' : β) (a : α) : Prop :=
  ∃ b₁ b₂, I b₁ ∧ step b₁ a = some b₂ ∧ R b b₁ ∧ R b₂ b'

theorem foldlM_inv {step : β → α → Option β} {I : β → Prop} {R : β → β → Prop} (hrefl : ∀ b, R b b)
    (htrans : ∀ {a b c}, R a b → R b c → R a c) {l : List α}
    (hstep : ∀ {b a b'}, a ∈ l → I b → step b a = some b' → I b' ∧ R b b') {b b' : β} (hb : I b)
    (h : l.foldlM step b = some b') : I b' ∧ R b b' ∧ ∀ a ∈ l, Iterated step I R b b' a := by
  induction l generalizing b with
  | nil =>
    cases h
    exact ⟨hb, hrefl _, nofun⟩
  | cons a l ih =>
    rw [foldlM_cons] at h
    obtain ⟨b₁, h₁, hrest⟩ := Option.bind_eq_some_iff.mp h
    obtain ⟨hI, hR⟩ := hstep mem_cons_self hb h₁
    obtain ⟨hI', hR', hall⟩ := ih (fun hm => hstep (mem_cons_of_mem a hm)) hI hrest
    refine ⟨hI', htrans hR hR', fun c hc => ?_⟩
    rcases mem_cons.mp hc with rfl | hc
    · exact ⟨b, b₁, hb, h₁, hrefl b, hR'⟩
    · obtain ⟨c₁, c₂, hc₁, hs, hR₁, hR₂⟩ := hall c hc
      exact ⟨c₁, c₂, hc₁, hs, htrans hR hR₁, hR₂⟩

/-- A loop whose iterations have a result and keep an invariant has a result. -/
theorem foldlM_exists {step : β → α → Option β} {I : β → Prop} {l : List α}
    (hstep : ∀ b, ∀ a ∈ l, I b → ∃ b', step b a = some b' ∧ I b') {b : β} (hb : I b) :
    ∃ b', l.foldlM step b = some b' ∧ I b' := by
  induction l generalizing b with
  | nil => exact ⟨b, rfl, hb⟩
  | cons a l ih =>
    obtain ⟨b₁, h₁, hb₁⟩ := hstep b a mem_cons_self hb
    obtain ⟨b', h', hb'⟩ := ih (fun b c hc => hstep b c (mem_cons_of_mem a hc)) hb₁
    refine ⟨b', ?_, hb'⟩
    rw [foldlM_cons, h₁]
    exact h'

/-- The same for a loop that cannot fail and a relation that every iteration keeps. -/
theorem foldl_rel {step : β → α → β} {R : β → β → Prop} (hrefl : ∀ b, R b b)
    (htrans : ∀ {a b c}, R a b → R b c → R a c) (hstep : ∀ b a, R b (step b a)) (l : List α) (b : β) :
    R b (l.foldl step b) ∧ ∀ a ∈ l, ∃ b₁, R b b₁ ∧ R (step b₁ a) (l.foldl step b) := by
  induction l generalizing b with
  | nil => exact ⟨hrefl b, nofun⟩
  | cons a l ih =>
    obtain ⟨hR, hall⟩ := ih (step b a)
    refine ⟨htrans (hstep b a) hR, fun c hc => ?_⟩
    rcases mem_cons.mp hc with rfl | hc
    · exact ⟨b, hrefl b, hR⟩
    · obtain ⟨b₁, hb₁, hs⟩ := hall c hc
      exact ⟨b₁, htrans (hstep b a) hb₁, hs⟩

theorem mapM_exists {f : α → Option β} {l : List α} (h : ∀ a ∈ l, ∃ b, f a = some b) :
    ∃ l', l.mapM f = some l' ∧ l.map f = l'.map some := by
  induction l with
  | nil => exact ⟨[], rfl, rfl⟩
  | cons a l ih =>
    obtain ⟨b, hb⟩ := h a mem_cons_self
    obtain ⟨l', hl', hmap⟩ := ih fun a ha => h a (mem_cons_of_mem _ ha)
    refine ⟨b :: l', ?_, ?_⟩
    · rw [mapM_cons, hb, hl']
      rfl
    · rw [map_cons, map_cons, hb, hmap]

end Jato.Lib
