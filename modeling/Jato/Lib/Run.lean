import Mathlib.Init

/-!
# Runs of a step function

A step fails, goes on with a new state, or ends with an outcome. `Leads step s o` says that the steps from `s` end with
`o`; there is at most one such outcome (`Leads.unique`).
-/

namespace Jato.Lib

variable {σ ο : Type}

def run (step : σ → Option (σ ⊕ ο)) : Nat → σ → Option ο
  | 0, _ => none
  | n + 1, s =>
    match step s with
    | some (.inl s') => run step n s'
    | some (.inr o) => some o
    | none => none

def Leads (step : σ → Option (σ ⊕ ο)) (s : σ) (o : ο) : Prop := ∃ n, run step n s = some o

variable {step : σ → Option (σ ⊕ ο)} {s s' : σ} {o o' : ο}

theorem Leads.done (h : step s = some (.inr o)) : Leads step s o := by
  refine ⟨1, ?_⟩
  rw [run, h]

theorem Leads.next (h : step s = some (.inl s')) (hs' : Leads step s' o) : Leads step s o := by
  obtain ⟨n, hn⟩ := hs'
  refine ⟨n + 1, ?_⟩
  rw [run, h]
  exact hn

theorem run_add {n : Nat} (k : Nat) (h : run step n s = some o) : run step (n + k) s = some o := by
  induction n generalizing s with
  | zero => cases h
  | succ n ih =>
    rw [Nat.succ_add]
    rw [run] at h ⊢
    split at h
    · exact ih h
    · exact h
    · cases h

theorem Leads.unique (h : Leads step s o) (h' : Leads step s o') : o = o' := by
  obtain ⟨n, hn⟩ := h
  obtain ⟨k, hk⟩ := h'
  have hleft := run_add k hn
  rw [Nat.add_comm, run_add n hk] at hleft
  exact (Option.some.inj hleft).symm

end Jato.Lib
