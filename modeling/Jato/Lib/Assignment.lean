import Mathlib.Data.List.Induction
import Mathlib.Data.List.Nodup

/-!
# Sequences of assignments

A list of assignments to variables is executed one after the other (`runAssigns`). It acts as one simultaneous assignment
when no source reads a variable that an earlier assignment has changed, an assignment of a variable to itself changing
nothing (`Simultaneous`, `runAssigns_simultaneous`). The operators of the sources are uninterpreted, and in the free
interpretation, where a term is its own value, the condition is also necessary (`simultaneous_of_free`).
-/

namespace Jato.Lib

open List Function

variable {Op Var Var' V : Type}

/-! ## Terms -/

/-- Applicative terms: an operator with two operands is `app (app (const op) a) b`. -/
inductive Term (Op Var : Type)
  | var (x : Var)
  | const (op : Op)
  | app (f arg : Term Op Var)
deriving DecidableEq

/-- What the operators mean. -/
structure Interpretation (Op V : Type) where
  const : Op → V
  app : V → V → V

variable {t : Term Op Var} {a : Var × Term Op Var}

namespace Term

def eval (I : Interpretation Op V) (σ : Var → V) : Term Op Var → V
  | var x => σ x
  | const op => I.const op
  | app f arg => I.app (f.eval I σ) (arg.eval I σ)

def vars : Term Op Var → List Var
  | var x => [x]
  | const _ => []
  | app f arg => f.vars ++ arg.vars

def map (g : Var → Var') : Term Op Var → Term Op Var'
  | var x => var (g x)
  | const op => const op
  | app f arg => app (f.map g) (arg.map g)

theorem eval_congr {I : Interpretation Op V} {σ τ : Var → V} (h : ∀ x ∈ t.vars, σ x = τ x) :
    t.eval I σ = t.eval I τ := by
  induction t with
  | var x => exact h x (mem_singleton.mpr rfl)
  | const op => rfl
  | app f arg ihf iharg =>
    rw [eval, eval, ihf fun x hx => h x (mem_append_left _ hx), iharg fun x hx => h x (mem_append_right _ hx)]

theorem vars_map {g : Var → Var'} : (t.map g).vars = t.vars.map g := by
  induction t with
  | var x => rfl
  | const op => rfl
  | app f arg ihf iharg => rw [map, vars, vars, ihf, iharg, map_append]

/-- The interpretation in which every operator builds a term. -/
def free : Interpretation Op (Term Op Var) := ⟨const, app⟩

theorem eval_free_eq_self {σ : Var → Term Op Var} : t.eval free σ = t ↔ ∀ x ∈ t.vars, σ x = var x := by
  induction t with
  | var x => simp [eval, vars]
  | const op => simp [eval, vars, free]
  | app f arg ihf iharg =>
    simp only [eval, vars, mem_append, or_imp, forall_and, ← ihf, ← iharg]
    exact ⟨fun h => Term.app.inj h, fun h => congrArg₂ app h.1 h.2⟩

theorem eval_free_var (t : Term Op Var) : t.eval free var = t := eval_free_eq_self.mpr fun _ _ => rfl

end Term

/-! ## Assignments -/

section Assigns

variable [DecidableEq Var] {I : Interpretation Op V} {σ : Var → V} {l l' : List (Var × Term Op Var)} {x : Var}
  {t : Term Op Var}

def runAssigns (I : Interpretation Op V) : List (Var × Term Op Var) → (Var → V) → Var → V
  | [], σ => σ
  | (x, e) :: l, σ => runAssigns I l (update σ x (e.eval I σ))

/-- The variable is assigned to itself. -/
def Idle (a : Var × Term Op Var) : Prop := a.2 = .var a.1

/-- No source reads what an earlier assignment has changed. -/
def Simultaneous (l : List (Var × Term Op Var)) : Prop := l.Pairwise fun a b => Idle a ∨ a.1 ∉ b.2.vars

theorem runAssigns_append : runAssigns I (l ++ l') σ = runAssigns I l' (runAssigns I l σ) := by
  induction l generalizing σ with
  | nil => rfl
  | cons a l ih => exact ih

theorem runAssigns_of_notMem (hx : x ∉ l.map Prod.fst) : runAssigns I l σ x = σ x := by
  induction l generalizing σ with
  | nil => rfl
  | cons a l ih =>
    rw [map_cons, mem_cons, not_or] at hx
    exact (ih hx.2).trans (update_of_ne hx.1 ..)

theorem update_of_idle (h : Idle a) : update σ a.1 (a.2.eval I σ) = σ := by
  rw [h]
  exact update_eq_self ..

section

variable (hnodup : (l.map Prod.fst).Nodup)

include hnodup

/-- **One simultaneous assignment**: every variable gets the value that its source has before all of them. -/
theorem runAssigns_simultaneous (h : Simultaneous l) (ha : a ∈ l) : runAssigns I l σ a.1 = a.2.eval I σ := by
  induction l generalizing σ with
  | nil => cases ha
  | cons b l ih =>
    obtain ⟨hb, hnodup⟩ := nodup_cons.mp hnodup
    obtain ⟨hreads, h⟩ := pairwise_cons.mp h
    rcases mem_cons.mp ha with rfl | ha
    · exact (runAssigns_of_notMem hb).trans (update_self ..)
    · refine (ih hnodup h ha).trans ?_
      rcases hreads a ha with hidle | hnot
      · rw [update_of_idle hidle]
      · exact Term.eval_congr fun y hy => update_of_ne (ne_of_mem_of_not_mem hy hnot) ..

theorem eval_runAssigns (h : Simultaneous l)
    (ht : ∀ a ∈ l, Idle a ∨ a.1 ∉ t.vars) : t.eval I (runAssigns I l σ) = t.eval I σ := by
  refine Term.eval_congr fun y hy => ?_
  by_cases hmem : y ∈ l.map Prod.fst
  · obtain ⟨a, ha, rfl⟩ := mem_map.mp hmem
    have hidle := (ht a ha).resolve_right (not_not.mpr hy)
    rw [runAssigns_simultaneous hnodup h ha, hidle]
    rfl
  · exact runAssigns_of_notMem hmem

/-- **Necessity**: where the free interpretation gives every variable its source, the assignments are simultaneous. -/
theorem simultaneous_of_free (h : ∀ a ∈ l, runAssigns Term.free l .var a.1 = a.2) : Simultaneous l := by
  induction l using List.reverseRecOn with
  | nil => exact .nil
  | append_singleton l b ih =>
    rw [map_append, nodup_append] at hnodup
    obtain ⟨hl, -, hdisj⟩ := hnodup
    -- the last assignment is to another variable than those before it
    have hprev a (ha : a ∈ l) : runAssigns Term.free l .var a.1 = a.2 := by
      have hne : a.1 ≠ b.1 := hdisj _ (mem_map_of_mem ha) _ (mem_singleton.mpr rfl)
      rw [← h a (mem_append_left _ ha), runAssigns_append, runAssigns, runAssigns, update_of_ne hne]
    have hlast : b.2.eval Term.free (runAssigns Term.free l .var) = b.2 := by
      have hb := h b (mem_append_right _ (mem_singleton.mpr rfl))
      rwa [runAssigns_append, runAssigns, runAssigns, update_self] at hb
    refine pairwise_append.mpr ⟨ih hl hprev, pairwise_singleton .., fun a ha c hc => ?_⟩
    rw [mem_singleton.mp hc]
    by_cases hread : a.1 ∈ b.2.vars
    · exact Or.inl ((hprev a ha).symm.trans (Term.eval_free_eq_self.mp hlast a.1 hread))
    · exact Or.inr hread

theorem idle_or_notMem_of_free (h : Simultaneous l)
    (ht : t.eval Term.free (runAssigns Term.free l .var) = t) (ha : a ∈ l) : Idle a ∨ a.1 ∉ t.vars := by
  by_cases hread : a.1 ∈ t.vars
  · have hval := runAssigns_simultaneous (I := Term.free) (σ := .var) hnodup h ha
    rw [Term.eval_free_eq_self.mp ht a.1 hread, Term.eval_free_var] at hval
    exact Or.inl hval.symm
  · exact Or.inr hread

end

end Assigns

end Jato.Lib
