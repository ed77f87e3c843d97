import Mathlib.Data.List.Basic
import Mathlib.Algebra.Order.Ring.Nat
import Mathlib.Data.Nat.Find

/-!
# Priority queue

`lib/pqueue.c`: a binary heap with the smallest key on top. The node `data[i]` of the source, for `i` from `1` to
`size - 1`, is the element `i - 1` of the list. Keys are compared by the sign of their difference as a C `int`, so the
results ask for keys that differ by less than `2 ^ 31`.

- `insert` keeps the heap order and adds the node (`insert_spec`);
- `removeTop` keeps the heap order, takes one node away and returns the value of a smallest key (`removeTop_spec`);
- so does every run in which the index of a new node fits an `unsigned int` (`runs_of_fits`).
-/

namespace Jato.Lib

open List

structure PqueueNode (α : Type) where
  key : Nat
  value : α

abbrev Pqueue (α : Type) := List (PqueueNode α)

namespace Pqueue

variable {α : Type} {data : Pqueue α} {i : Nat} {n : PqueueNode α}

/-- `(int) (b - a)`. -/
def compare (a b : Nat) : Int := ((b : Int) - a).bmod (2 ^ 32)

/-- The node `data[i]`. -/
def node (data : Pqueue α) (i : Nat) : Option (PqueueNode α) := data[i - 1]?

/-- `data[i] = n`. -/
def write (data : Pqueue α) (i : Nat) (n : PqueueNode α) : Pqueue α := data.set (i - 1) n

/-- The loop of `pqueue_insert`: move the ancestors of the hole `i` down until `n` fits, and write it. -/
def siftUp (n : PqueueNode α) : Nat → Pqueue α → Nat → Pqueue α
  | 0, data, i => data.write i n
  | fuel + 1, data, i =>
    match data.node (i / 2) with
    | none => data.write i n
    | some p =>
      if 1 < i ∧ compare p.key n.key < 0 then siftUp n fuel (data.write i p) (i / 2) else data.write i n

def insert (data : Pqueue α) (key : Nat) (value : α) : Pqueue α :=
  siftUp ⟨key, value⟩ (data.length + 1) (data ++ [⟨key, value⟩]) (data.length + 1)

/-- The smaller child of `i`, the left one if they are equal. -/
def child (data : Pqueue α) (i : Nat) : Nat :=
  match data.node (2 * i), data.node (2 * i + 1) with
  | some l, some r => if compare l.key r.key < 0 then 2 * i + 1 else 2 * i
  | _, _ => 2 * i

/-- The loop of `pqueue_remove_top`: move the smaller children of the hole `i` up until `tmp` fits, and write it. -/
def siftDown (tmp : PqueueNode α) : Nat → Pqueue α → Nat → Pqueue α
  | 0, data, i => data.write i tmp
  | fuel + 1, data, i =>
    match data.node (data.child i) with
    | none => data.write i tmp
    | some c => if compare c.key tmp.key < 0 then data.write i tmp else siftDown tmp fuel (data.write i c) (data.child i)

/-- The value on top and the queue without it. The last node is still in its slot while the loop runs. -/
def removeTop (data : Pqueue α) : Option (α × Pqueue α) :=
  match data.node 1, data.node data.length with
  | some top, some tmp => some (top.value, (siftDown tmp data.length data 1).dropLast)
  | _, _ => none

/-! ## Keys -/

/-- The key of `data[i]`. -/
def keyAt (data : Pqueue α) (i : Nat) : Nat := ((data.node i).map PqueueNode.key).getD 0

/-- The key is one of those from `lo` on that `compare` can tell apart. -/
def Near (lo key : Nat) : Prop := lo ≤ key ∧ key < lo + 2 ^ 31

variable {lo : Nat}

theorem compare_neg {a b : Nat} (ha : Near lo a) (hb : Near lo b) : compare a b < 0 ↔ b < a := by
  obtain ⟨ha, ha'⟩ := ha
  obtain ⟨hb, hb'⟩ := hb
  simp only [compare, Int.bmod]
  omega

@[simp] theorem length_write (data : Pqueue α) (i : Nat) (n : PqueueNode α) : (data.write i n).length = data.length := by
  simp [write]

theorem node_write {i k : Nat} (n : PqueueNode α) (hi : 0 < i) (hi' : i ≤ data.length)
    (hk : 0 < k) : (data.write i n).node k = if k = i then some n else data.node k := by
  unfold write node
  rw [getElem?_set]
  by_cases h : k = i
  · subst h
    rw [if_pos rfl, if_pos rfl, if_pos (by omega)]
  · rw [if_neg h, if_neg (by omega)]

theorem keyAt_write {i k : Nat} (n : PqueueNode α) (hi : 0 < i) (hi' : i ≤ data.length)
    (hk : 0 < k) : (data.write i n).keyAt k = if k = i then n.key else data.keyAt k := by
  rw [keyAt, node_write n hi hi' hk]
  split
  · rfl
  · rfl

theorem node_some (hi : 0 < i) (hi' : i ≤ data.length) : ∃ n, data.node i = some n ∧ n ∈ data := by
  have h : i - 1 < data.length := by omega
  exact ⟨data[i - 1], getElem?_eq_getElem h, getElem_mem h⟩

theorem keyAt_of_node (h : data.node i = some n) : data.keyAt i = n.key := by
  rw [keyAt, h]
  rfl

/-- Moving the node `j` into the hole `i` and the new node to `j` exchanges the two. -/
theorem write_write_perm {i j : Nat} {n m : PqueueNode α} (hi : 0 < i) (hi' : i ≤ data.length)
    (hj : 0 < j) (hij : j ≠ i) (hm : data.node j = some m) : ((data.write i m).write j n).Perm (data.write i n) := by
  have hj' := (List.getElem?_eq_some_iff.mp hm).1
  have hmj : (data.set (i - 1) n)[j - 1]? = some m := by
    rw [List.getElem?_set_ne (by omega)]
    exact hm
  have hp := @List.set_set_perm _ (data.set (i - 1) n) (i - 1) (j - 1) (by simp; omega) (by simpa using hj')
  rw [(List.getElem?_eq_some_iff.mp hmj).2, List.getElem_set_self, List.set_set] at hp
  exact hp

/-! ## Heap order -/

/-- No key is smaller than the one of its parent. -/
def Ordered (data : Pqueue α) : Prop := ∀ i, 2 ≤ i → i ≤ data.length → data.keyAt (i / 2) ≤ data.keyAt i

/-- The top of an ordered queue has a smallest key. -/
theorem Ordered.top_le (h : data.Ordered) (i : Nat) (hi : 0 < i) (hi' : i ≤ data.length) :
    data.keyAt 1 ≤ data.keyAt i := by
  induction i using Nat.strongRecOn with
  | ind i ih =>
    by_cases h1 : i = 1
    · exact le_of_eq (by rw [h1])
    · exact le_trans (ih (i / 2) (by omega) (by omega) (by omega)) (h i (by omega) hi')

/-- The order with `n` in the hole `i`, except between the hole and its parent. -/
structure UpReady (n : PqueueNode α) (data : Pqueue α) (i : Nat) : Prop where
  pos : 0 < i
  le : i ≤ data.length
  off : ∀ k, 2 ≤ k → k ≤ data.length → k ≠ i → (data.write i n).keyAt (k / 2) ≤ (data.write i n).keyAt k
  across : ∀ k, 2 ≤ k → k ≤ data.length → k / 2 = i → 2 ≤ i → data.keyAt (i / 2) ≤ data.keyAt k

theorem UpReady.finish (h : UpReady n data i)
    (hstop : 2 ≤ i → data.keyAt (i / 2) ≤ n.key) : (data.write i n).Ordered := by
  intro k hk hk'
  rw [length_write] at hk'
  by_cases hki : k = i
  · subst hki
    rw [keyAt_write n h.pos h.le (by omega), keyAt_write n h.pos h.le h.pos, if_neg (by omega), if_pos rfl]
    exact hstop hk
  · exact h.off k hk hk' hki

theorem UpReady.move {n p : PqueueNode α} (h : UpReady n data i) (hi : 2 ≤ i)
    (hp : data.node (i / 2) = some p) (hlt : n.key < p.key) : UpReady n (data.write i p) (i / 2) := by
  have hkey := keyAt_of_node hp
  have hle := h.le
  have hget {k} (hk : 0 < k) := @keyAt_write α data i k p h.pos h.le hk
  have hget' {k} (hk : 0 < k) :=
    @keyAt_write α (data.write i p) (i / 2) k n (by omega) (by rw [length_write]; omega) hk
  have hold {k} (hk : 0 < k) := @keyAt_write α data i k n h.pos h.le hk
  refine ⟨by omega, by rw [length_write]; omega, fun k hk hk' hne => ?_, fun k hk hk' hki hi2 => ?_⟩
  · rw [length_write] at hk'
    rw [hget' (by omega), hget' (by omega), hget (by omega), hget (by omega), if_neg hne]
    by_cases hki : k = i
    · subst hki
      rw [if_pos rfl, if_pos rfl]
      exact le_of_lt hlt
    · rw [if_neg hki]
      have hoff := h.off k hk hk' hki
      rw [hold (by omega), hold (by omega), if_neg hki] at hoff
      by_cases hk2 : k / 2 = i / 2
      · rw [if_pos hk2]
        rw [hk2, if_neg (by omega), hkey] at hoff
        omega
      · rw [if_neg hk2]
        by_cases hk3 : k / 2 = i
        · rw [if_pos hk3, ← hkey]
          exact h.across k hk hk' hk3 hi
        · rw [if_neg hk3]
          rw [if_neg hk3] at hoff
          exact hoff
  · rw [length_write] at hk'
    rw [hget (by omega), hget (by omega), if_neg (by omega)]
    have hup : data.keyAt (i / 2 / 2) ≤ data.keyAt (i / 2) := by
      have := h.off (i / 2) hi2 (by omega) (by omega)
      rwa [hold (by omega), hold (by omega), if_neg (by omega), if_neg (by omega)] at this
    split
    · rw [← hkey]
      exact hup
    · rename_i hne
      have hoff := h.off k hk hk' hne
      rw [hold (by omega), hold (by omega), if_neg (by omega), if_neg hne, hki] at hoff
      exact le_trans hup hoff

/-- Every key is small enough for `compare`. -/
def Bounded (data : Pqueue α) : Prop := ∀ n ∈ data, n.key < 2 ^ 31

/-- The keys from `lo` on that `compare` can tell apart. -/
def Within (lo : Nat) (data : Pqueue α) : Prop := ∀ n ∈ data, Near lo n.key

theorem near_zero {key : Nat} (h : key < 2 ^ 31) : Near 0 key := ⟨Nat.zero_le _, by omega⟩

theorem Bounded.within (h : data.Bounded) : data.Within 0 := fun n hn => near_zero (h n hn)

theorem within_write (h : data.Within lo) (hn : Near lo n.key) (i : Nat) : (data.write i n).Within lo := by
  intro m hm
  rcases mem_or_eq_of_mem_set hm with hm | hm
  · exact h m hm
  · exact hm ▸ hn

theorem within_of_perm {data' : Pqueue α} (h : data.Within lo) (hn : Near lo n.key) (hp : data'.Perm (n :: data)) :
    data'.Within lo := by
  intro m hm
  rcases mem_cons.mp (hp.mem_iff.mp hm) with rfl | hm
  · exact hn
  · exact h m hm

theorem Within.node (h : data.Within lo) (hn : data.node i = some n) : Near lo n.key :=
  h n (mem_of_getElem? hn)

/-- The loop of `pqueue_insert` ends with an ordered queue that has `n` in the place of the hole. -/
theorem siftUp_spec (hn : Near lo n.key) : ∀ {fuel : Nat} {data : Pqueue α} {i : Nat}, i ≤ fuel →
    data.Within lo → UpReady n data i → (siftUp n fuel data i).Ordered ∧ (siftUp n fuel data i).Perm (data.write i n)
  | 0, _, _, hf, _, h => absurd h.pos (by omega)
  | fuel + 1, data, i, hf, hb, h => by
    rw [siftUp]
    by_cases hi : 2 ≤ i
    · obtain ⟨p, hp, -⟩ := @node_some α data (i / 2) (by omega) (by have := h.le; omega)
      simp only [hp]
      split
      · rename_i hc
        have hlt := (compare_neg (hb.node hp) hn).mp hc.2
        have hf' : i / 2 ≤ fuel := by omega
        obtain ⟨hord, hperm⟩ := siftUp_spec hn hf' (within_write hb (hb.node hp) i) (h.move hi hp hlt)
        exact ⟨hord, hperm.trans (write_write_perm h.pos h.le (by omega) (by omega) hp)⟩
      · rename_i hc
        refine ⟨h.finish fun _ => ?_, .refl _⟩
        rw [keyAt_of_node hp]
        exact not_lt.mp fun hlt => hc ⟨hi, (compare_neg (hb.node hp) hn).mpr hlt⟩
    · have hstop : (data.write i n).Ordered := h.finish fun h2 => absurd h2 hi
      split
      · exact ⟨hstop, .refl _⟩
      · rw [if_neg (by omega)]
        exact ⟨hstop, .refl _⟩

theorem keyAt_append {data l : Pqueue α} {k : Nat} (hk : 0 < k) (hk' : k ≤ data.length) :
    keyAt (data ++ l) k = data.keyAt k := by
  unfold keyAt node
  rw [getElem?_append_left (by omega)]

theorem insert_spec {key : Nat} {value : α} (hb : data.Within lo) (ho : data.Ordered)
    (hk : Near lo key) : (data.insert key value).Ordered ∧ (data.insert key value).Perm (⟨key, value⟩ :: data) := by
  have hlen : (data ++ [(⟨key, value⟩ : PqueueNode α)]).length = data.length + 1 := by simp
  have hb' : Within lo (data ++ [(⟨key, value⟩ : PqueueNode α)]) := within_of_perm hb hk (perm_append_singleton _ _)
  have hw : write (data ++ [(⟨key, value⟩ : PqueueNode α)]) (data.length + 1) ⟨key, value⟩ = data ++ [⟨key, value⟩] := by
    simp [write]
  have hready : UpReady (⟨key, value⟩ : PqueueNode α) (data ++ [⟨key, value⟩]) (data.length + 1) := by
    refine ⟨by omega, by omega, fun k hk hk' hne => ?_, fun k hk hk' h2 => by omega⟩
    rw [hw, keyAt_append (by omega) (by omega), keyAt_append (by omega) (by omega)]
    exact ho k hk (by omega)
  obtain ⟨hord, hperm⟩ := siftUp_spec hk (le_refl _) hb' hready
  rw [hw] at hperm
  exact ⟨hord, hperm.trans perm_append_comm⟩

/-! ## Removing -/

/-- The order with `n` in the hole `i`, except between the hole and its children. -/
structure DownReady (n : PqueueNode α) (data : Pqueue α) (i : Nat) : Prop where
  pos : 0 < i
  le : i ≤ data.length
  off : ∀ k, 2 ≤ k → k ≤ data.length → k / 2 ≠ i → (data.write i n).keyAt (k / 2) ≤ (data.write i n).keyAt k
  across : ∀ k, 2 ≤ k → k ≤ data.length → k / 2 = i → 2 ≤ i → data.keyAt (i / 2) ≤ data.keyAt k

theorem DownReady.finish (h : DownReady n data i)
    (hstop : ∀ k, 2 ≤ k → k ≤ data.length → k / 2 = i → n.key ≤ data.keyAt k) : (data.write i n).Ordered := by
  intro k hk hk'
  rw [length_write] at hk'
  by_cases hki : k / 2 = i
  · rw [keyAt_write n h.pos h.le (by omega), keyAt_write n h.pos h.le (by omega), if_pos hki, if_neg (by omega)]
    exact hstop k hk hk' hki
  · exact h.off k hk hk' hki

/-- `child` is a child, and none is smaller. -/
theorem child_spec (hb : data.Within lo) (hi : 0 < i) (h2 : 2 * i ≤ data.length) :
    data.child i ≤ data.length ∧ data.child i / 2 = i ∧
      ∀ k, 2 ≤ k → k ≤ data.length → k / 2 = i → data.keyAt (data.child i) ≤ data.keyAt k := by
  obtain ⟨l, hl, -⟩ := @node_some α data (2 * i) (by omega) h2
  have hkl := keyAt_of_node hl
  unfold child
  simp only [hl]
  cases hr : data.node (2 * i + 1) with
  | none =>
    have hlen := List.getElem?_eq_none_iff.mp hr
    simp only
    refine ⟨h2, by omega, fun k hk hk' hki => ?_⟩
    have : k = 2 * i := by omega
    exact le_of_eq (by rw [this])
  | some r =>
    have hkr := keyAt_of_node hr
    have hlen := (List.getElem?_eq_some_iff.mp hr).1
    have hcmp := compare_neg (hb.node hl) (hb.node hr)
    simp only
    split
    · rename_i hc
      rw [hcmp] at hc
      refine ⟨hlen, by omega, fun k hk hk' hki => ?_⟩
      have : k = 2 * i ∨ k = 2 * i + 1 := by omega
      rcases this with rfl | rfl <;> omega
    · rename_i hc
      rw [hcmp] at hc
      refine ⟨h2, by omega, fun k hk hk' hki => ?_⟩
      have : k = 2 * i ∨ k = 2 * i + 1 := by omega
      rcases this with rfl | rfl <;> omega

theorem DownReady.move {n c : PqueueNode α} (h : DownReady n data i) (hb : data.Within lo)
    (h2 : 2 * i ≤ data.length) (hc : data.node (data.child i) = some c) (hle : c.key ≤ n.key) :
    DownReady n (data.write i c) (data.child i) := by
  obtain ⟨hclen, hcpar, hmin⟩ := child_spec hb h.pos h2
  have hkey := keyAt_of_node hc
  have hpos := h.pos
  generalize data.child i = j at hc hclen hcpar hmin hkey ⊢
  have hget {k} (hk : 0 < k) := @keyAt_write α data i k c h.pos h.le hk
  have hget' {k} (hk : 0 < k) :=
    @keyAt_write α (data.write i c) j k n (by omega) (by rw [length_write]; exact hclen) hk
  have hold {k} (hk : 0 < k) := @keyAt_write α data i k n h.pos h.le hk
  refine ⟨by omega, by rw [length_write]; exact hclen, fun k hk hk' hne => ?_, fun k hk hk' hki hi2 => ?_⟩
  · rw [length_write] at hk'
    rw [hget' (by omega), hget' (by omega), hget (by omega), hget (by omega), if_neg hne]
    by_cases hki : k / 2 = i
    · -- a child of the old hole, which now holds the smaller of them
      rw [if_pos hki, if_neg (show k ≠ i by omega)]
      split
      · exact hle
      · rw [← hkey]
        exact hmin k hk hk' hki
    · have hoff := h.off k hk hk' hki
      rw [hold (by omega), hold (by omega), if_neg hki] at hoff
      rw [if_neg hki, if_neg (show k ≠ j by omega)]
      split
      · rename_i hk'
        subst hk'
        rw [← hkey]
        exact h.across j (by omega) hclen hcpar hk
      · rename_i hk'
        rwa [if_neg hk'] at hoff
  · rw [length_write] at hk'
    rw [hcpar, hget (by omega), hget (by omega), if_pos rfl, if_neg (by omega), ← hkey]
    have hoff := h.off k hk hk' (by omega)
    rwa [hold (by omega), hold (by omega), if_neg (by omega), if_neg (by omega), hki] at hoff

theorem getLast_write (hlast : data.node data.length = some n)
    (hi : 0 < i) (hi' : i ≤ data.length) : (data.write i n).getLast? = some n := by
  rw [getLast?_eq_getElem?, length_write]
  have := @node_write α data i data.length n hi hi' (by omega)
  rw [node, hlast, ite_self] at this
  exact this

theorem ordered_of_append {data l : Pqueue α} (h : Ordered (data ++ l)) : data.Ordered := by
  intro i hi hi'
  have := h i hi (by rw [length_append]; omega)
  rwa [keyAt_append (by omega) (by omega), keyAt_append (by omega) hi'] at this

/-- With the last node also in the place of the top, the top is what is missing. -/
theorem write_one_perm {top : PqueueNode α} (tmp : PqueueNode α) (htop : data.node 1 = some top) :
    (tmp :: data).Perm (top :: data.write 1 tmp) := by
  cases data with
  | nil => cases htop
  | cons a rest =>
    cases Option.some.inj htop
    exact List.Perm.swap top tmp rest

/-- The loop of `pqueue_remove_top` ends with an ordered queue that has `tmp` in the place of the hole, and does not
change the last node if that is `tmp`. -/
theorem siftDown_spec {tmp : PqueueNode α} (ht : Near lo tmp.key) : ∀ {fuel : Nat} {data : Pqueue α} {i : Nat},
    data.length ≤ fuel + i → data.Within lo → DownReady tmp data i →
    (siftDown tmp fuel data i).Ordered ∧ (siftDown tmp fuel data i).Perm (data.write i tmp) ∧
      (data.node data.length = some tmp → (siftDown tmp fuel data i).getLast? = some tmp)
  | 0, data, i, hf, hb, h => by
    refine ⟨h.finish fun k hk hk' hki => by have := h.pos; omega, .refl _, fun hlast => ?_⟩
    rw [siftDown, getLast_write hlast h.pos h.le]
  | fuel + 1, data, i, hf, hb, h => by
    have hpos := h.pos
    rw [siftDown]
    by_cases h2 : 2 * i ≤ data.length
    · obtain ⟨hclen, hcpar, hmin⟩ := child_spec hb h.pos h2
      obtain ⟨c, hc, -⟩ := @node_some α data (data.child i) (by omega) hclen
      have hkey := keyAt_of_node hc
      simp only [hc]
      split
      · rename_i hlt
        rw [compare_neg (hb.node hc) ht] at hlt
        refine ⟨h.finish fun k hk hk' hki => ?_, .refl _, fun hlast => getLast_write hlast h.pos h.le⟩
        have := hmin k hk hk' hki
        omega
      · rename_i hge
        rw [compare_neg (hb.node hc) ht] at hge
        have hf' : (data.write i c).length ≤ fuel + data.child i := by rw [length_write]; omega
        obtain ⟨hord, hperm, hlast⟩ := siftDown_spec ht hf' (within_write hb (hb.node hc) i)
          (h.move hb h2 hc (not_lt.mp hge))
        refine ⟨hord, hperm.trans (write_write_perm h.pos h.le (by omega) (by omega) hc), fun hl => hlast ?_⟩
        rw [length_write, node_write c h.pos h.le (by omega), if_neg (by omega)]
        exact hl
    · have hnone : data.node (data.child i) = none := by
        have hl : data.node (2 * i) = none := getElem?_eq_none_iff.mpr (by omega)
        unfold child
        simp only [hl]
      simp only [hnone]
      exact ⟨h.finish fun k hk hk' hki => by omega, .refl _, fun hlast => getLast_write hlast h.pos h.le⟩

/-- **Removing.** The value returned has a smallest key, and the queue loses just its node. -/
theorem removeTop_spec {data data' : Pqueue α} {value : α} (hb : data.Within lo) (ho : data.Ordered)
    (h : data.removeTop = some (value, data')) :
    data'.Ordered ∧ ∃ key, data.Perm (⟨key, value⟩ :: data') ∧ ∀ n ∈ data, key ≤ n.key := by
  unfold removeTop at h
  cases htop : data.node 1 with
  | none => simp [htop] at h
  | some top =>
    cases htmp : data.node data.length with
    | none => simp [htop, htmp] at h
    | some tmp =>
      simp only [htop, htmp, Option.some.injEq, Prod.mk.injEq] at h
      obtain ⟨hv, hd⟩ := h
      have hlen := (List.getElem?_eq_some_iff.mp htop).1
      have hready : DownReady tmp data 1 := by
        refine ⟨by omega, hlen, fun k hk hk' hne => ?_, fun k _ _ _ h2 => by omega⟩
        rw [keyAt_write tmp (by omega) hlen (by omega), keyAt_write tmp (by omega) hlen (by omega), if_neg hne,
          if_neg (by omega)]
        exact ho k hk hk'
      obtain ⟨hord, hperm, hlast⟩ := siftDown_spec (hb.node htmp) (Nat.le_add_right _ _) hb hready
      replace hlast := hlast htmp
      generalize siftDown tmp data.length data 1 = sifted at hord hperm hlast hd
      subst hd
      have hsplit := (List.dropLast_append_getLast? tmp hlast).symm
      refine ⟨ordered_of_append (hsplit ▸ hord), top.key, ?_, fun n hn => ?_⟩
      · rw [← hv]
        -- both sides lose the last node: on the left it stands in the place of the top
        have htail := write_one_perm tmp htop
        have := (hperm.symm.cons top).trans ((List.Perm.of_eq (congrArg (top :: ·) hsplit)).trans
          (@List.perm_append_comm _ (top :: sifted.dropLast) [tmp]))
        exact (List.perm_cons tmp).mp (htail.trans this)
      · obtain ⟨i, hi, hin⟩ := List.getElem_of_mem hn
        have := ho.top_le (i + 1) (by omega) hi
        rw [keyAt_of_node htop, keyAt_of_node (show data.node (i + 1) = some n from
          List.getElem?_eq_some_iff.mpr ⟨hi, hin⟩)] at this
        exact this

/-! ## Runs -/

inductive PqueueOp (α : Type)
  | insert (key : Nat) (value : α)
  | removeTop

/-- `pqueue_insert` with its index, an `unsigned int`. If the index is not the one of the new slot, the slot keeps what
`realloc` left in it, `fresh`; the slot `data[0]` is not part of the queue. -/
def insertSlot (fresh : PqueueNode α) (data : Pqueue α) (key : Nat) (value : α) : Pqueue α :=
  let i := (data.length + 1) % 2 ^ 32
  if i = data.length + 1 then data.insert key value
  else if i = 0 then data ++ [fresh]
  else siftUp ⟨key, value⟩ i (data ++ [fresh]) i

/-- In every state of the run the queue holds the nodes inserted and not yet removed, `held`, and each removal returns
the value of one with a smallest key. -/
def Runs (fresh : PqueueNode α) : List (PqueueOp α) → Pqueue α → List (PqueueNode α) → Prop
  | [], data, held => data.Perm held
  | .insert key value :: ops, data, held =>
    data.Perm held ∧ Runs fresh ops (insertSlot fresh data key value) (⟨key, value⟩ :: held)
  | .removeTop :: ops, data, held =>
    data.Perm held ∧ match data.removeTop with
      | none => held = [] ∧ Runs fresh ops data held
      | some (value, data') => ∃ n rest, held.Perm (n :: rest) ∧ n.value = value ∧ (∀ m ∈ held, n.key ≤ m.key) ∧
        Runs fresh ops data' rest

/-- The queue never holds more than `2 ^ 32 - 1` nodes, if it starts with `size`. -/
def Fits : List (PqueueOp α) → Nat → Prop
  | [], _ => True
  | .insert _ _ :: ops, size => size + 1 < 2 ^ 32 ∧ Fits ops (size + 1)
  | .removeTop :: ops, size => Fits ops (size - 1)

theorem eq_nil_of_removeTop (h : data.removeTop = none) : data = [] := by
  by_contra hne
  have hlen := length_pos_iff.mpr hne
  obtain ⟨top, htop, -⟩ := @node_some α data 1 (by omega) hlen
  obtain ⟨tmp, htmp, -⟩ := @node_some α data data.length hlen (le_refl _)
  simp [removeTop, htop, htmp] at h

theorem runs_of_within {fresh : PqueueNode α} : ∀ {ops : List (PqueueOp α)} {data : Pqueue α} {held : List (PqueueNode α)},
    data.Perm held → data.Ordered → data.Within lo → (∀ key value, .insert key value ∈ ops → Near lo key) →
    Fits ops data.length → Runs fresh ops data held
  | [], _, _, hp, _, _, _, _ => hp
  | .insert key value :: ops, data, held, hp, ho, hw, hk, hf => by
    obtain ⟨hlt, hf⟩ := hf
    have hkey := hk key value mem_cons_self
    obtain ⟨hord, hperm⟩ := @insert_spec _ data _ key value hw ho hkey
    refine ⟨hp, ?_⟩
    rw [insertSlot, Nat.mod_eq_of_lt hlt, if_pos rfl]
    exact runs_of_within (hperm.trans (hp.cons _)) hord (within_of_perm hw hkey hperm)
      (fun k v h => hk k v (mem_cons_of_mem _ h)) (hperm.length_eq ▸ hf)
  | .removeTop :: ops, data, held, hp, ho, hw, hk, hf => by
    have hk' : ∀ key value, .insert key value ∈ ops → Near lo key := fun k v h => hk k v (mem_cons_of_mem _ h)
    refine ⟨hp, ?_⟩
    cases hr : data.removeTop with
    | none =>
      cases eq_nil_of_removeTop hr
      exact ⟨hp.nil_eq.symm, runs_of_within hp ho hw hk' hf⟩
    | some r =>
      obtain ⟨value, data'⟩ := r
      obtain ⟨hord, key, hperm, hmin⟩ := removeTop_spec hw ho hr
      refine ⟨⟨key, value⟩, data', hp.symm.trans hperm, rfl, fun m hm => hmin m (hp.mem_iff.mpr hm),
        runs_of_within (.refl _) hord (fun n hn => hw n (hperm.mem_iff.mpr (mem_cons_of_mem _ hn))) hk' ?_⟩
      rw [Fits, hperm.length_eq] at hf
      exact hf

/-- **Runs.** With keys whose differences fit an `int`, every run of the queue that never holds more than `2 ^ 32 - 1`
nodes is right. -/
theorem runs_of_fits {fresh : PqueueNode α} {ops : List (PqueueOp α)} (hfits : Fits ops 0)
    (hkeys : ∀ (a b : Nat) v w, .insert a v ∈ ops → .insert b w ∈ ops → (b : Int) - a < 2 ^ 31) : Runs fresh ops [] [] := by
  obtain ⟨lo, hnear⟩ : ∃ lo, ∀ key value, .insert key value ∈ ops → Near lo key := by
    classical
    by_cases h : ∃ key value, .insert key value ∈ ops
    · -- the smallest key
      obtain ⟨v, hv⟩ := Nat.find_spec h
      refine ⟨Nat.find h, fun b w hb => ⟨Nat.find_min' h ⟨w, hb⟩, ?_⟩⟩
      have := hkeys _ _ _ _ hv hb
      omega
    · exact ⟨0, fun b w hb => absurd ⟨b, w, hb⟩ h⟩
  exact runs_of_within (.refl _) (fun i hi hi' => absurd hi' (by simp; omega)) (by simp [Within]) hnear hfits

theorem runs_of_fits_two : Runs ⟨9, 9⟩ [.insert 5 0, .insert 3 1, .removeTop] [] [] :=
  runs_of_fits (by simp [Fits]) (by simp; omega)

/-- The node after the first `2 ^ 32 - 1` is lost, and what stood in its slot is in the queue. -/
theorem not_runs_of_full {fresh : PqueueNode Unit} (hfresh : fresh.key ≠ 0) : ∀ {n : Nat} {data : Pqueue Unit}
    {held : List (PqueueNode Unit)}, data.length + n + 1 = 2 ^ 32 → data.Ordered → data.Within 0 →
    ¬Runs fresh (replicate (n + 1) (.insert 0 ())) data held
  | 0, data, held, hlen, _, _, ⟨hp, hrun⟩ => by
    have hfull : insertSlot fresh data 0 () = data ++ [fresh] := by
      rw [insertSlot, show data.length + 1 = 2 ^ 32 from hlen]
      rfl
    change Perm (insertSlot fresh data 0 ()) _ at hrun
    rw [hfull] at hrun
    have hlast := (perm_append_left_iff data).mp
      (hrun.trans ((hp.symm.cons _).trans (perm_append_singleton _ _).symm))
    exact hfresh (by rw [singleton_perm_singleton.mp hlast])
  | n + 1, data, held, hlen, ho, hw, ⟨hp, hrun⟩ => by
    have hzero : Near 0 0 := near_zero (by decide)
    obtain ⟨hord, hperm⟩ := @insert_spec _ data _ 0 () hw ho hzero
    rw [insertSlot, Nat.mod_eq_of_lt (by omega), if_pos rfl] at hrun
    refine not_runs_of_full hfresh ?_ hord (within_of_perm hw hzero hperm) hrun
    rw [hperm.length_eq, length_cons]
    omega

/-- The last of `2 ^ 32` nodes is lost. -/
theorem not_runs_twoPow : ¬Runs ⟨1, ()⟩ (replicate (2 ^ 32) (.insert 0 ())) [] [] := by
  have hn : 2 ^ 32 = 4294967295 + 1 := by decide
  rw [hn]
  exact not_runs_of_full (by simp) (by simp) (fun i hi hi' => absurd hi' (by simp; omega)) (by simp [Within])

end Pqueue

end Jato.Lib
