import Mathlib.Data.Finset.Card

/-!
# Walks that never turn back

`walk` visits the neighbours of a node one after the other, and from each of them all of its neighbours but the one it
came from. Nothing marks the nodes that have been visited. On a finite graph it comes to an end exactly when it meets no
arc that it comes back to (`not_recurs_of_walk`, `walk_isSome_of_not_recurs`). On a symmetric graph this is the case when
the part of the graph that is connected with the node has no cycle (`Recurs.cycle`, `not_linked_cycle`), and then the
walk has visited that part (`mem_walk`).
-/

namespace Jato.Lib.Graph

open Relation

variable {ν : Type} (nbr : ν → List ν)

/-- One step of the walk, from the arc by which a node was entered. -/
def Step (a b : ν × ν) : Prop := b.1 = a.2 ∧ b.2 ∈ nbr a.2 ∧ b.2 ≠ a.1

/-- `n` steps. -/
def Steps : Nat → ν × ν → ν × ν → Prop
  | 0, a, b => a = b
  | n + 1, a, b => ∃ c, Step nbr a c ∧ Steps n c b

/-- Connected in the graph. -/
def Linked (v w : ν) : Prop := ReflTransGen (fun v w => w ∈ nbr v) v w

/-- A closed walk of `k` nodes that never turns back. -/
structure Cycle (c : Nat → ν) (k : Nat) : Prop where
  pos : 0 < k
  period : ∀ i, c (i + k) = c i
  adj : ∀ i, c (i + 1) ∈ nbr (c i)
  turn : ∀ i, c (i + 2) ≠ c i

/-- From the arc the walk gets to an arc that it comes back to. -/
def Recurs (a : ν × ν) : Prop := ∃ b, ReflTransGen (Step nbr) a b ∧ TransGen (Step nbr) b b

/-- The nodes visited from `v`, entered from `p`. -/
def walk [DecidableEq ν] : Nat → ν → ν → Option (List ν)
  | 0, _, _ => none
  | fuel + 1, p, v =>
    (nbr v).foldlM (fun visited u => if u = p then some visited else (walk fuel v u).map (visited ++ ·)) [v]

variable {nbr} {n k : Nat} {c : Nat → ν} {U : Finset (ν × ν)} {visited : List ν}

/-! ## Steps -/

variable {a b : ν × ν} {m : Nat} {p v : ν}

theorem Steps.append {c : ν × ν} (h : Steps nbr m a b) (h' : Steps nbr n b c) : Steps nbr (m + n) a c := by
  induction m generalizing a with
  | zero =>
    cases h
    rwa [Nat.zero_add]
  | succ m ih =>
    obtain ⟨d, hstep, h⟩ := h
    rw [Nat.succ_add]
    exact ⟨d, hstep, ih h⟩

theorem exists_steps (h : ReflTransGen (Step nbr) a b) : ∃ n, Steps nbr n a b := by
  induction h with
  | refl => exact ⟨0, rfl⟩
  | tail _ hstep ih =>
    obtain ⟨n, hn⟩ := ih
    exact ⟨n + 1, hn.append ⟨_, hstep, rfl⟩⟩

theorem Steps.shorten (h : Steps nbr (m + n) a b) : ∃ c, Steps nbr m a c := by
  induction m generalizing a with
  | zero => exact ⟨a, rfl⟩
  | succ m ih =>
    rw [Nat.succ_add] at h
    obtain ⟨d, hstep, h⟩ := h
    obtain ⟨c, hc⟩ := ih h
    exact ⟨c, d, hstep, hc⟩

theorem Steps.arcs (h : Steps nbr n a b) :
    ∃ g : Nat → ν × ν, g 0 = a ∧ g n = b ∧ ∀ i < n, Step nbr (g i) (g (i + 1)) := by
  induction n generalizing a with
  | zero => exact ⟨fun _ => a, rfl, h, nofun⟩
  | succ n ih =>
    obtain ⟨c, hstep, h⟩ := h
    obtain ⟨g, rfl, hb, hg⟩ := ih h
    refine ⟨fun i => i.casesOn a g, rfl, hb, ?_⟩
    rintro (_ | i) hi
    · exact hstep
    · exact hg i (by omega)

theorem steps_of_nodes {f : Nat → ν} (hadj : ∀ i, f (i + 1) ∈ nbr (f i)) (hturn : ∀ i, f (i + 2) ≠ f i)
    (hp : f 1 ≠ p) (n : Nat) : ∃ b, Steps nbr n (p, f 0) b := by
  induction n generalizing f p with
  | zero => exact ⟨_, rfl⟩
  | succ n ih =>
    obtain ⟨b, hb⟩ := ih (f := fun i => f (i + 1)) (fun i => hadj (i + 1)) (fun i => hturn (i + 1)) (hturn 0)
    exact ⟨b, (f 0, f 1), ⟨rfl, hadj 0, hp⟩, hb⟩

/-! ## What is visited -/

section Visit

variable [DecidableEq ν] {g : ν → Option (List ν)} {p v w : ν} {l visited visited' : List ν}

theorem foldlM_visit_isSome :
    (l.foldlM (fun visited u => if u = p then some visited else (g u).map (visited ++ ·)) visited).isSome = true ↔
      ∀ u ∈ l, u ≠ p → (g u).isSome = true := by
  induction l generalizing visited with
  | nil => simp
  | cons u l ih =>
    rw [List.foldlM_cons]
    by_cases hu : u = p
    · simp [hu, ih]
    · cases hg : g u <;> simp [hu, hg, ih]

theorem mem_foldlM_visit
    (h : l.foldlM (fun visited u => if u = p then some visited else (g u).map (visited ++ ·)) visited = some visited') :
    w ∈ visited' ↔ w ∈ visited ∨ ∃ u ∈ l, u ≠ p ∧ ∃ m, g u = some m ∧ w ∈ m := by
  induction l generalizing visited with
  | nil =>
    cases h
    simp
  | cons u l ih =>
    rw [List.foldlM_cons] at h
    obtain ⟨visited₁, h₁, h⟩ := Option.bind_eq_some_iff.mp h
    rw [ih h]
    by_cases hu : u = p
    · rw [if_pos hu] at h₁
      cases h₁
      simp [hu]
    · rw [if_neg hu] at h₁
      obtain ⟨m, hm, rfl⟩ := Option.map_eq_some_iff.mp h₁
      simp [hu, hm, or_assoc]

/-- The walk has no end when it can go on for as many steps as there is fuel. -/
theorem walk_isSome : (walk nbr n p v).isSome = true ↔ ∀ b, ¬ Steps nbr n (p, v) b := by
  induction n generalizing p v with
  | zero => simp [walk, Steps]
  | succ n ih =>
    rw [walk, foldlM_visit_isSome]
    constructor
    · rintro h b ⟨⟨_, u⟩, ⟨rfl, hadj, hne⟩, hsteps⟩
      exact ih.mp (h u hadj hne) b hsteps
    · intro h u hadj hne
      exact ih.mpr fun b hsteps => h b ⟨(v, u), ⟨rfl, hadj, hne⟩, hsteps⟩

theorem mem_walk_iff (h : walk nbr n p v = some visited) :
    w ∈ visited ↔ ∃ q, ReflTransGen (Step nbr) (p, v) (q, w) := by
  induction n generalizing p v visited with
  | zero => cases h
  | succ n ih =>
    rw [mem_foldlM_visit h, List.mem_singleton]
    constructor
    · rintro (rfl | ⟨u, hadj, hne, m, hm, hw⟩)
      · exact ⟨p, .refl⟩
      · obtain ⟨q, hq⟩ := (ih hm).mp hw
        exact ⟨q, .head ⟨rfl, hadj, hne⟩ hq⟩
    · rintro ⟨q, hq⟩
      rcases ReflTransGen.cases_head hq with heq | ⟨⟨v', u⟩, ⟨hv', hadj, hne⟩, hrest⟩
      · exact .inl (Prod.mk.inj heq).2.symm
      · rw [show v' = v from hv'] at hrest
        have hsome := (foldlM_visit_isSome (l := nbr v)).mp (Option.isSome_iff_exists.mpr ⟨_, h⟩) u hadj hne
        obtain ⟨m, hm⟩ := Option.isSome_iff_exists.mp hsome
        exact .inr ⟨u, hadj, hne, m, hm, (ih hm).mpr ⟨q, hrest⟩⟩

end Visit

/-! ## Long walks -/

section Long

theorem steps_of_recurs (hb : TransGen (Step nbr) b b) (hab : TransGen (Step nbr) a b) (n : Nat) :
    ∃ c, Steps nbr n a c := by
  induction n generalizing a with
  | zero => exact ⟨a, rfl⟩
  | succ n ih =>
    obtain ⟨d, hstep, hdb⟩ := TransGen.head'_iff.mp hab
    obtain ⟨c, hc⟩ := ih (TransGen.trans_right hdb hb)
    exact ⟨c, d, hstep, hc⟩

theorem not_recurs_of_walk [DecidableEq ν] (h : (walk nbr n p v).isSome = true) : ¬ Recurs nbr (p, v) := by
  rintro ⟨b, hab, hb⟩
  obtain ⟨c, hc⟩ := steps_of_recurs hb (TransGen.trans_right hab hb) n
  exact walk_isSome.mp h c hc

/-- A walk that comes back to no arc is not longer than there are arcs. -/
theorem Steps.lt_card [DecidableEq ν] (hsteps : Steps nbr n a b)
    (hU : ∀ c, ReflTransGen (Step nbr) a c → c ∈ U) (h : ¬ Recurs nbr a) : n < U.card := by
  induction n generalizing a U with
  | zero => exact Finset.card_pos.mpr ⟨a, hU a .refl⟩
  | succ n ih =>
    obtain ⟨d, hstep, hsteps⟩ := hsteps
    -- the arc `a` is not met again
    have hlt := ih (U := U.erase a) hsteps (fun c hc => Finset.mem_erase.mpr ⟨?_, hU c (hc.head hstep)⟩)
      fun ⟨c, hdc, hc⟩ => h ⟨c, hdc.head hstep, hc⟩
    · rw [Finset.card_erase_of_mem (hU a .refl)] at hlt
      omega
    · rintro rfl
      exact h ⟨c, .refl, .head' hstep hc⟩

/-- **In a finite graph the walk ends** if it meets no arc that it comes back to. `U` holds the arcs that it can meet. -/
theorem walk_isSome_of_not_recurs [DecidableEq ν]
    (hU : ∀ c, ReflTransGen (Step nbr) (p, v) c → c ∈ U) (h : ¬ Recurs nbr (p, v)) :
    (walk nbr U.card p v).isSome = true :=
  walk_isSome.mpr fun _ hsteps => lt_irrefl _ (hsteps.lt_card hU h)

end Long

/-! ## Symmetric graphs -/

section Symmetric

variable {w : ν}

/-- Where nothing is left behind at the start, every connected node is entered. -/
theorem exists_entered (hp : p ∉ nbr v) (h : Linked nbr v w) : ∃ q, ReflTransGen (Step nbr) (p, v) (q, w) := by
  induction h with
  | refl => exact ⟨p, .refl⟩
  | @tail w u _ hadj ih =>
    obtain ⟨q, hq⟩ := ih
    by_cases hback : u = q
    · -- going back leads to the node before
      subst hback
      rcases ReflTransGen.cases_tail hq with heq | ⟨⟨r, _⟩, hprev, hstep⟩
      · cases heq
        exact absurd hadj hp
      · obtain ⟨rfl, -, -⟩ := hstep
        exact ⟨r, hprev⟩
    · exact ⟨w, hq.tail ⟨rfl, hadj, hback⟩⟩

theorem linked_of_entered (h : ReflTransGen (Step nbr) a b) : Linked nbr a.2 b.2 := by
  induction h with
  | refl => exact .refl
  | tail _ hstep ih => exact ih.tail hstep.2.1

/-- The nodes between an arc and its return are a cycle. -/
theorem Recurs.cycle (h : Recurs nbr (p, v)) : ∃ c k, Cycle nbr c k ∧ Linked nbr v (c 0) := by
  obtain ⟨b, hab, hb⟩ := h
  obtain ⟨d, hstep, hdb⟩ := TransGen.head'_iff.mp hb
  obtain ⟨n, hn⟩ := exists_steps hdb
  obtain ⟨g, hg0, hgk, hg⟩ := Steps.arcs (n := n + 1) ⟨d, hstep, hn⟩
  have hnext i : Step nbr (g (i % (n + 1))) (g ((i + 1) % (n + 1))) := by
    have hlt : i % (n + 1) < n + 1 := Nat.mod_lt i (Nat.succ_pos n)
    rw [← Nat.mod_add_mod]
    rcases Nat.lt_or_ge (i % (n + 1) + 1) (n + 1) with h | h
    · rw [Nat.mod_eq_of_lt h]
      exact hg _ hlt
    · have hlast := hg _ hlt
      rw [show i % (n + 1) + 1 = n + 1 by omega, hgk] at hlast
      rwa [show i % (n + 1) + 1 = n + 1 by omega, Nat.mod_self, hg0]
  refine ⟨fun i => (g (i % (n + 1))).2, n + 1, ⟨Nat.succ_pos n, fun i => by rw [Nat.add_mod_right],
    fun i => (hnext i).2.1, fun i heq => (hnext (i + 1)).2.2 (heq.trans (hnext i).1.symm)⟩, ?_⟩
  change Linked nbr v (g 0).2
  rw [hg0]
  exact linked_of_entered hab

theorem Cycle.two_le (h : Cycle nbr c k) : 2 ≤ k := by
  have hpos := h.pos
  by_contra hlt
  obtain rfl : k = 1 := by omega
  exact h.turn 0 ((h.period 1).trans (h.period 0))

theorem Cycle.period_mul (h : Cycle nbr c k) (i m : Nat) : c (i + k * m) = c i := by
  induction m with
  | zero => rfl
  | succ m ih => rw [Nat.mul_succ, ← Nat.add_assoc, h.period, ih]

variable (hsymm : ∀ {v w}, w ∈ nbr v → v ∈ nbr w)
include hsymm

theorem Linked.symm (h : Linked nbr v w) : Linked nbr w v := by
  induction h with
  | refl => exact .refl
  | tail _ hadj ih => exact ih.head (hsymm hadj)

theorem Cycle.reverse (h : Cycle nbr c k) : Cycle nbr (fun i => c ((k - 1) * i)) k := by
  have hk := h.two_le
  refine ⟨h.pos, fun i => ?_, fun i => ?_, fun i => ?_⟩
  · rw [Nat.mul_add, Nat.mul_comm (k - 1) k, h.period_mul]
  · have hadj := h.adj ((k - 1) * i + (k - 1))
    rw [show (k - 1) * i + (k - 1) + 1 = (k - 1) * i + k by omega, h.period] at hadj
    exact hsymm hadj
  · have hturn := h.turn ((k - 1) * i + (k - 2))
    rw [show (k - 1) * i + (k - 2) + 2 = (k - 1) * i + k by omega, h.period] at hturn
    rw [show (k - 1) * (i + 2) = (k - 1) * i + (k - 2) + k by rw [Nat.mul_add]; omega, h.period]
    exact hturn.symm

/-- **Cycles**: a walk that can reach a cycle never ends. -/
theorem steps_of_cycle (h : Cycle nbr c k) (hp : p ∉ nbr v) (hv : Linked nbr v (c 0))
    (n : Nat) : ∃ b, Steps nbr n (p, v) b := by
  obtain ⟨q, hq⟩ := exists_entered hp hv
  obtain ⟨m, hm⟩ := exists_steps hq
  have hround : ∃ b, Steps nbr n (q, c 0) b := by
    by_cases hfwd : c 1 = q
    · -- the cycle was entered from its next node: go round the other way
      have hrev := h.reverse hsymm
      refine steps_of_nodes hrev.adj hrev.turn (fun hback => ?_) n
      have hturn := h.turn (k - 1)
      rw [show k - 1 + 2 = 1 + k by have := h.pos; omega, h.period, hfwd] at hturn
      rw [Nat.mul_one] at hback
      exact hturn hback.symm
    · exact steps_of_nodes h.adj h.turn hfwd n
  obtain ⟨b, hb⟩ := hround
  have hlong := hm.append hb
  rw [Nat.add_comm] at hlong
  exact hlong.shorten

/-- **The walk ends** only where no cycle is connected with its start. -/
theorem not_linked_cycle [DecidableEq ν] (h : walk nbr n p v = some visited)
    (hp : p ∉ nbr v) (hc : Cycle nbr c k) : ¬ Linked nbr v (c 0) := by
  intro hv
  obtain ⟨b, hb⟩ := steps_of_cycle hsymm hc hp hv n
  exact walk_isSome.mp (Option.isSome_iff_exists.mpr ⟨_, h⟩) b hb

omit hsymm in
theorem mem_walk [DecidableEq ν] (hp : p ∉ nbr v)
    (h : walk nbr n p v = some visited) : w ∈ visited ↔ Linked nbr v w := by
  rw [mem_walk_iff h]
  exact ⟨fun ⟨_, hq⟩ => linked_of_entered hq, exists_entered hp⟩

end Symmetric

end Jato.Lib.Graph
