import Mathlib.Data.List.Basic

/-!
# Layout of emitted bytes

A list of items is emitted into a buffer, one item behind the other, and each may depend on the offset at which it comes
to lie. `getElem?_layout` says where an item lies, and `flatMap_split` what stands before and behind its bytes.
-/

namespace Jato.Lib

open List

variable {α β γ : Type} {emit : Nat → α → β} {bytes : β → List γ} {off k : Nat}

/-- The emitted items, with the first one at the offset `off`. -/
def layout (emit : Nat → α → β) (bytes : β → List γ) : Nat → List α → List β
  | _, [] => []
  | off, a :: l => emit off a :: layout emit bytes (off + (bytes (emit off a)).length) l

theorem layout_append (l l' : List α) : layout emit bytes off (l ++ l') =
    layout emit bytes off l ++ layout emit bytes (off + ((layout emit bytes off l).flatMap bytes).length) l' := by
  induction l generalizing off with
  | nil => rfl
  | cons a l ih =>
    rw [cons_append, layout, layout, ih, cons_append, flatMap_cons, length_append, Nat.add_assoc]

theorem mem_layout {l : List α} {b : β} (h : b ∈ layout emit bytes off l) : ∃ off', ∃ a ∈ l, b = emit off' a := by
  induction l generalizing off with
  | nil => exact absurd h not_mem_nil
  | cons a l ih =>
    rcases mem_cons.mp h with rfl | h
    · exact ⟨off, a, mem_cons_self, rfl⟩
    · obtain ⟨off', a', ha', rfl⟩ := ih h
      exact ⟨off', a', mem_cons_of_mem _ ha', rfl⟩

theorem getElem?_layout {l : List α} {a : α} (h : l[k]? = some a) : (layout emit bytes off l)[k]? =
    some (emit (off + (((layout emit bytes off l).take k).flatMap bytes).length) a) := by
  induction l generalizing off k with
  | nil => cases h
  | cons a' l ih =>
    cases k with
    | zero =>
      cases h
      rfl
    | succ k =>
      rw [layout, getElem?_cons_succ, ih h, take_succ_cons, flatMap_cons, length_append,
        Nat.add_assoc]

theorem flatMap_split {l : List β} {b : β} (h : l[k]? = some b) :
    l.flatMap bytes = (l.take k).flatMap bytes ++ (bytes b ++ (l.drop (k + 1)).flatMap bytes) := by
  obtain ⟨hlt, rfl⟩ := List.getElem?_eq_some_iff.mp h
  rw [← List.flatMap_cons, ← List.drop_eq_getElem_cons hlt, ← List.flatMap_append, List.take_append_drop]

end Jato.Lib
