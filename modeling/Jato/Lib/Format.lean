import Mathlib.Data.List.Infix

/-!
# Readers of formats

A reader takes a value from the front of a sequence and may fail. The sequence is seen through a `Cursor`: a state with
the elements that are left, and how to go forward in it. `Reads κ p G` says that `p` accepts exactly the fronts that `G`
allows, with the value that `G` gives them, and goes forward by their length. The rules for sequencing (`Reads.bind`),
repetition (`Reads.repeated`) and the end of the sequence follow the format's own structure.
-/

namespace Jato.Lib

open List

variable {σ β ε α γ : Type}

/-- A position in a sequence. -/
structure Cursor (σ β : Type) where
  Valid : σ → Prop
  rest : σ → List β
  advance : σ → Nat → σ
  advance_zero : ∀ s, Valid s → advance s 0 = s
  advance_add : ∀ s m n, Valid s → m + n ≤ (rest s).length → advance s (m + n) = advance (advance s m) n
  rest_advance : ∀ s n, Valid s → n ≤ (rest s).length → rest (advance s n) = (rest s).drop n
  valid_advance : ∀ s n, Valid s → n ≤ (rest s).length → Valid (advance s n)

/-- `G a b` says that the elements `b` are a form of the value `a`. -/
abbrev Format (α β : Type) := α → List β → Prop

/-- **Exact readers**: `p` returns `a` on the fronts that are a form of `a`, and on nothing else. -/
def Reads (κ : Cursor σ β) (p : StateT σ (Except ε) α) (G : Format α β) : Prop :=
  ∀ s, κ.Valid s → ∀ a s', p s = .ok (a, s') ↔ ∃ b, G a b ∧ b <+: κ.rest s ∧ s' = κ.advance s b.length

/-! ## Formats -/

namespace Format

/-- The value `a`, with no elements. -/
def unit (a : α) : Format α β := fun c b => c = a ∧ b = []

/-- A form of `G` followed by one of the format that its value selects. -/
def seq (G : Format α β) (H : α → Format γ β) : Format γ β :=
  fun c b => ∃ a b₁ b₂, G a b₁ ∧ H a c b₂ ∧ b = b₁ ++ b₂

/-- `n` forms of `G` one after the other. -/
def rep (G : Format α β) : Nat → Format (List α) β
  | 0 => unit []
  | n + 1 => seq G fun a => seq (rep G n) fun l => unit (a :: l)

/-- The form is computed from the value, which has to satisfy `ok`. -/
def computed (ok : α → Prop) (enc : α → List β) : Format α β := fun a b => ok a ∧ b = enc a

end Format

/-! ## Readers -/

/-- Read `n` values. -/
def repeatM {m : Type → Type} [Monad m] (p : m α) : Nat → m (List α)
  | 0 => pure []
  | n + 1 => do
    let a ← p
    let l ← repeatM p n
    return a :: l

variable {c : γ} {f : α → StateT σ (Except ε) γ}

theorem except_bind_eq_ok {x : Except ε α} {f : α → Except ε γ} : (x >>= f) = .ok c ↔ ∃ a, x = .ok a ∧ f a = .ok c := by
  cases x with
  | error e | ok a => simp [bind, Except.bind]

theorem stateT_bind_eq_ok {p : StateT σ (Except ε) α} {s s' : σ} :
    (p >>= f) s = .ok (c, s') ↔ ∃ a s₁, p s = .ok (a, s₁) ∧ f a s₁ = .ok (c, s') :=
  except_bind_eq_ok.trans Prod.exists

namespace Reads

variable {κ : Cursor σ β} {p : StateT σ (Except ε) α} {G G' : Format α β}

theorem congr (h : Reads κ p G) (hiff : ∀ a b, G a b ↔ G' a b) : Reads κ p G' := by
  intro s hs a s'
  rw [h s hs]
  exact exists_congr fun b => and_congr_left fun _ => hiff a b

theorem pure (a : α) : Reads κ (pure a : StateT σ (Except ε) α) (.unit a) := by
  intro s hs c s'
  constructor
  · rintro ⟨⟩
    exact ⟨[], ⟨rfl, rfl⟩, nil_prefix, (κ.advance_zero s hs).symm⟩
  · rintro ⟨b, ⟨rfl, rfl⟩, -, rfl⟩
    rw [length_nil, κ.advance_zero s hs]
    rfl

theorem throw (e : ε) : Reads κ (throw e : StateT σ (Except ε) α) fun _ _ => False := by
  intro s hs c s'
  constructor
  · rintro ⟨⟩
  · rintro ⟨_, h, -⟩
    exact h.elim

theorem bind {H : α → Format γ β} (h : Reads κ p G) (hf : ∀ a, Reads κ (f a) (H a)) : Reads κ (p >>= f) (G.seq H) := by
  intro s hs c s'
  rw [stateT_bind_eq_ok]
  constructor
  · rintro ⟨a, s₁, hp, hfa⟩
    obtain ⟨b₁, hG, hb₁, rfl⟩ := (h s hs a s₁).mp hp
    have hlen := hb₁.length_le
    obtain ⟨b₂, hH, hb₂, rfl⟩ := (hf a _ (κ.valid_advance s _ hs hlen) c s').mp hfa
    rw [κ.rest_advance s _ hs hlen] at hb₂
    obtain ⟨r, hr⟩ := hb₁
    rw [← hr, drop_left] at hb₂
    have hpre : b₁ ++ b₂ <+: κ.rest s := hr ▸ (prefix_append_right_inj b₁).mpr hb₂
    refine ⟨b₁ ++ b₂, ⟨a, b₁, b₂, hG, hH, rfl⟩, hpre, ?_⟩
    rw [length_append, κ.advance_add s _ _ hs (by simpa using hpre.length_le)]
  · rintro ⟨b, ⟨a, b₁, b₂, hG, hH, rfl⟩, hpre, rfl⟩
    have hb₁ := (prefix_append b₁ b₂).trans hpre
    have hlen := hb₁.length_le
    refine ⟨a, κ.advance s b₁.length, (h s hs a _).mpr ⟨b₁, hG, hb₁, rfl⟩, ?_⟩
    refine (hf a _ (κ.valid_advance s _ hs hlen) c _).mpr ⟨b₂, hH, ?_, ?_⟩
    · rw [κ.rest_advance s _ hs hlen]
      obtain ⟨r, hr⟩ := hpre
      rw [← hr, append_assoc, drop_left]
      exact prefix_append b₂ r
    · rw [length_append, κ.advance_add s _ _ hs (by simpa using hpre.length_le)]

theorem repeated (h : Reads κ p G) (n : Nat) : Reads κ (repeatM p n) (G.rep n) := by
  induction n with
  | zero => exact pure []
  | succ n ih => exact h.bind fun a => ih.bind fun l => pure (a :: l)

end Reads

theorem rep_computed {ok : α → Prop} {enc : α → List β} {n : Nat} {l : List α} {b : List β} :
    (Format.computed ok enc).rep n l b ↔ l.length = n ∧ (∀ a ∈ l, ok a) ∧ b = l.flatMap enc := by
  induction n generalizing l b with
  | zero =>
    constructor
    · rintro ⟨rfl, rfl⟩
      exact ⟨rfl, nofun, rfl⟩
    · rintro ⟨hl, -, rfl⟩
      obtain rfl := length_eq_zero_iff.mp hl
      exact ⟨rfl, rfl⟩
  | succ n ih =>
    constructor
    · rintro ⟨a, b₁, b₂, ⟨ha, rfl⟩, ⟨l', b₃, b₄, hl', ⟨rfl, rfl⟩, rfl⟩, rfl⟩
      obtain ⟨hn, hall, rfl⟩ := ih.mp hl'
      exact ⟨by rw [length_cons, hn], forall_mem_cons.mpr ⟨ha, hall⟩,
        by rw [flatMap_cons, append_nil]⟩
    · rintro ⟨hl, hall, rfl⟩
      obtain ⟨a, l, rfl⟩ := exists_cons_of_length_eq_add_one hl
      obtain ⟨ha, hall⟩ := forall_mem_cons.mp hall
      refine ⟨a, enc a, l.flatMap enc, ⟨ha, rfl⟩, ⟨l, l.flatMap enc, [], ?_, ⟨rfl, rfl⟩, ?_⟩, ?_⟩
      · exact ih.mpr ⟨Nat.succ.inj hl, hall, rfl⟩
      · rw [append_nil]
      · rw [flatMap_cons]

end Jato.Lib
