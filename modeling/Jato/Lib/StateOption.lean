import Mathlib.Tactic.Common

/-!
# Programs with a state that can fail

Rules of pre- and postconditions for `StateT σ Option`: `Runs c s Q` says that `c` returns from the state `s`, and that
its result and its last state satisfy `Q`. A loop `runWhile` runs as long as a test on the state holds; two loops whose
states stay related end in related states (`runWhile_sim`), and a loop that makes progress needs no more iterations than
there is progress to make (`runWhile_fuel`).
-/

namespace Jato.Lib

variable {σ τ α β : Type}

/-! ## Postconditions -/

/-- The program `c` returns from `s`, with a result and a state that satisfy `Q`. -/
def Runs (c : StateT σ Option α) (s : σ) (Q : α → σ → Prop) : Prop :=
  ∃ a s', c s = some (a, s') ∧ Q a s'

namespace Runs

variable {s : σ} {Q Q' : α → σ → Prop} {c : StateT σ Option α} {a : α} {f : β → StateT σ Option α}

theorem of_eq {s' : σ} (h : c s = some (a, s')) (hQ : Q a s') : Runs c s Q :=
  ⟨a, s', h, hQ⟩

theorem pure (h : Q a s) : Runs (Pure.pure a) s Q := ⟨a, s, rfl, h⟩

theorem mono (h : Runs c s Q) (hQ : ∀ a s', Q a s' → Q' a s') : Runs c s Q' := by
  obtain ⟨a, s', hc, ha⟩ := h
  exact ⟨a, s', hc, hQ a s' ha⟩

theorem bind {c : StateT σ Option β} (h : Runs c s fun b s' => Runs (f b) s' Q) : Runs (c >>= f) s Q := by
  obtain ⟨b, s₁, hc, a, s₂, hf, hQ⟩ := h
  refine ⟨a, s₂, ?_, hQ⟩
  show (c s).bind (fun p => f p.1 p.2) = some (a, s₂)
  rw [hc]
  exact hf

/-- The rule for a step that is followed by others: what holds after the step is what the rest starts from. -/
theorem seq {c : StateT σ Option β} {P : β → σ → Prop} (h : Runs c s P)
    (hf : ∀ b s', P b s' → Runs (f b) s' Q) : Runs (c >>= f) s Q :=
  bind (h.mono hf)

end Runs

/-! ## Loops -/

/-- Iterate `f` as long as `p` holds, at most the given number of times. -/
def runWhile (p : σ → Bool) (f : σ → Option σ) : Nat → σ → Option σ
  | 0, s => if p s then none else some s
  | n + 1, s => if p s then (f s).bind (runWhile p f n) else some s

variable {p : σ → Bool} {f : σ → Option σ} {q : τ → Bool} {g : τ → Option τ}

/-- **Simulation of loops**: a loop whose iterations the other one can follow is followed to its end. -/
theorem runWhile_sim {R : σ → τ → Prop} (hp : ∀ {s t}, R s t → p s = q t)
    (hstep : ∀ {s t s'}, R s t → f s = some s' → ∃ t', g t = some t' ∧ R s' t') :
    ∀ (n : Nat) {s s' : σ} {t : τ}, R s t → runWhile p f n s = some s' → ∃ t', runWhile q g n t = some t' ∧ R s' t'
  | 0, s, s', t, hR, h => by
    unfold runWhile at h ⊢
    rw [← hp hR]
    split at h
    · cases h
    · cases h
      rename_i hps
      exact ⟨t, if_neg hps, hR⟩
  | n + 1, s, s', t, hR, h => by
    unfold runWhile at h ⊢
    rw [← hp hR]
    split at h
    · rename_i hps
      obtain ⟨s₁, hs₁, hrest⟩ := Option.bind_eq_some_iff.mp h
      obtain ⟨t₁, ht₁, hR₁⟩ := hstep hR hs₁
      obtain ⟨t', ht', hR'⟩ := runWhile_sim hp hstep n hR₁ hrest
      exact ⟨t', by rw [if_pos hps, ht₁]; exact ht', hR'⟩
    · cases h
      rename_i hps
      exact ⟨t, if_neg hps, hR⟩

/-- A loop whose iterations lower the measure `m` ends within `m s` iterations if it ends at all. -/
theorem runWhile_fuel {m : σ → Nat} (hm : ∀ {s s'}, p s = true → f s = some s' → m s' < m s) :
    ∀ (n : Nat) {k : Nat} {s s' : σ}, m s ≤ k → runWhile p f n s = some s' → runWhile p f k s = some s'
  | 0, k, s, s', _, h => by
    unfold runWhile at h
    split at h
    · cases h
    · rename_i hps
      cases k <;> simp only [runWhile, if_neg hps, h]
  | n + 1, k, s, s', hk, h => by
    unfold runWhile at h
    split at h
    · rename_i hps
      obtain ⟨s₁, hs₁, hrest⟩ := Option.bind_eq_some_iff.mp h
      have hlt := hm hps hs₁
      obtain ⟨k, rfl⟩ : ∃ k', k = k' + 1 := ⟨k - 1, by omega⟩
      simp only [runWhile, if_pos hps, hs₁, Option.bind_some]
      exact runWhile_fuel hm n (by omega) hrest
    · rename_i hps
      cases k <;> simp only [runWhile, if_neg hps, h]

end Jato.Lib
