import Mathlib.Algebra.Order.Ring.Nat
import Mathlib.Data.Finset.Card

/-!
# Hash maps with chained buckets

A table of buckets, each a list of nodes. A new node goes to the head of its bucket, and the table grows before an insertion
that would fill three quarters of it. `HashMap` carries that every node is in the bucket of its key and that no key has two
nodes, and `get_put` and `get_remove` say that the map is a finite function, whatever the hash is.
-/

namespace Jato.Lib

open List

variable {K V : Type}

/-! ## Tables -/

variable {b : List (K × V)} {f : List (K × V) → List (K × V)} {n : Nat}

namespace Table

variable (hash : K → Nat)

/-- A node is put at the head of its bucket. -/
def addNode (t : List (List (K × V))) (p : K × V) : List (List (K × V)) := t.modify (hash p.1 % t.length) (p :: ·)

/-- The nodes move, in order, to a table of twice the size and one more, which is an `unsigned int`. -/
def expand (t : List (List (K × V))) : List (List (K × V)) :=
  t.flatten.foldl (addNode hash) (List.replicate ((2 * t.length + 1) % 2 ^ 32) [])

def bucket (t : List (List (K × V))) (k : K) : List (K × V) := t.getD (hash k % t.length) []

structure Wf (t : List (List (K × V))) : Prop where
  pos : 0 < t.length
  place : ∀ i b, t[i]? = some b → ∀ p ∈ b, hash p.1 % t.length = i
  nodup : (t.flatten.map Prod.fst).Nodup

variable {hash} {t : List (List (K × V))} {p : K × V} {k : K} {v : V}

theorem bucket_eq (ht : 0 < t.length) : bucket hash t k = t.get ⟨hash k % t.length, Nat.mod_lt _ ht⟩ := by
  rw [bucket, getD_eq_getElem?_getD, getElem?_eq_getElem (Nat.mod_lt _ ht), Option.getD_some, get_eq_getElem]

theorem mem_bucket (ht : Wf hash t) : (k, v) ∈ bucket hash t k ↔ (k, v) ∈ t.flatten := by
  have hlt : hash k % t.length < t.length := Nat.mod_lt _ ht.pos
  rw [bucket_eq ht.pos, mem_flatten]
  constructor
  · exact fun hmem => ⟨_, getElem_mem hlt, hmem⟩
  · rintro ⟨b, hb, hmem⟩
    obtain ⟨i, hi, rfl⟩ := mem_iff_getElem.mp hb
    have hplace := ht.place i _ (getElem?_eq_getElem hi) _ hmem
    subst hplace
    exact hmem

theorem key_of_find [DecidableEq K] (hfind : (b.find? fun p => p.1 = k) = some p) : p.1 = k :=
  of_decide_eq_true (find?_some (p := fun p : K × V => decide (p.1 = k)) hfind)

theorem nodup_bucket (ht : Wf hash t) (k : K) : ((bucket hash t k).map Prod.fst).Nodup := by
  have hlt : hash k % t.length < t.length := Nat.mod_lt _ ht.pos
  rw [bucket_eq ht.pos]
  exact ht.nodup.sublist ((sublist_flatten_of_mem (getElem_mem hlt)).map Prod.fst)

theorem eq_of_mem {v' : V} (ht : Wf hash t) (hmem : (k, v) ∈ t.flatten) (hmem' : (k, v') ∈ t.flatten) : v = v' :=
  congrArg Prod.snd (inj_on_of_nodup_map ht.nodup hmem hmem' rfl)

theorem flatten_modify_perm {i : Nat} (hi : i < t.length) (f : List (K × V) → List (K × V)) :
    ∃ l, t.flatten.Perm (t[i] ++ l) ∧ (t.modify i f).flatten.Perm (f t[i] ++ l) := by
  refine ⟨(t.take i).flatten ++ (t.drop (i + 1)).flatten, ?_, ?_⟩
  · have heq : t = t.take i ++ t[i] :: t.drop (i + 1) := by rw [getElem_cons_drop, take_append_drop]
    nth_rewrite 1 [heq]
    rw [flatten_append, flatten_cons]
    exact perm_append_comm_assoc _ _ _
  · rw [modify_eq_take_cons_drop hi, flatten_append, flatten_cons]
    exact perm_append_comm_assoc _ _ _

theorem place_modify (ht : Wf hash t) {i : Nat} (hf : ∀ b, t[i]? = some b → ∀ p ∈ f b, hash p.1 % t.length = i) :
    ∀ j b, (t.modify i f)[j]? = some b → ∀ p ∈ b, hash p.1 % (t.modify i f).length = j := by
  intro j b hb p hp
  rw [getElem?_modify] at hb
  rw [length_modify]
  obtain ⟨b', hb', rfl⟩ := Option.map_eq_some_iff.mp hb
  split_ifs at hp with hij
  · subst hij
    exact hf b' hb' p hp
  · exact ht.place j b' hb' p hp

/-! ## New nodes -/

theorem flatten_addNode (ht : 0 < t.length) : (addNode hash t p).flatten.Perm (p :: t.flatten) := by
  obtain ⟨l, hl, hl'⟩ := flatten_modify_perm (Nat.mod_lt (hash p.1) ht) (p :: ·)
  exact hl'.trans (hl.symm.cons p)

theorem length_addNode : (addNode hash t p).length = t.length := length_modify ..

theorem wf_addNode (ht : Wf hash t) (hp : p.1 ∉ t.flatten.map Prod.fst) : Wf hash (addNode hash t p) where
  pos := by
    rw [length_addNode]
    exact ht.pos
  place := by
    refine place_modify ht fun b hb q hq => ?_
    rcases mem_cons.mp hq with rfl | hq
    · rfl
    · exact ht.place _ b hb q hq
  nodup := by
    rw [((flatten_addNode ht.pos).map Prod.fst).nodup_iff, map_cons, nodup_cons]
    exact ⟨hp, ht.nodup⟩

theorem wf_foldl_addNode (l : List (K × V)) (ht : Wf hash t) (hl : ((l ++ t.flatten).map Prod.fst).Nodup) :
    Wf hash (l.foldl (addNode hash) t) ∧ (l.foldl (addNode hash) t).flatten.Perm (l ++ t.flatten) := by
  induction l generalizing t with
  | nil => exact ⟨ht, .rfl⟩
  | cons p l ih =>
    rw [cons_append, map_cons, nodup_cons, map_append, mem_append, not_or] at hl
    have hperm : (l ++ (addNode hash t p).flatten).Perm (p :: (l ++ t.flatten)) :=
      ((flatten_addNode ht.pos).append_left l).trans perm_middle
    have hnodup : ((l ++ (addNode hash t p).flatten).map Prod.fst).Nodup := by
      rw [(hperm.map Prod.fst).nodup_iff, map_cons, nodup_cons, map_append, mem_append, not_or]
      exact hl
    obtain ⟨hwf, hperm'⟩ := ih (wf_addNode ht hl.1.2) hnodup
    exact ⟨hwf, hperm'.trans hperm⟩

theorem flatten_replicate (n : Nat) : (List.replicate n ([] : List (K × V))).flatten = [] := by
  rw [flatten_eq_nil_iff]
  exact fun b hb => eq_of_mem_replicate hb

theorem wf_replicate (hn : 0 < n) : Wf hash (List.replicate n ([] : List (K × V))) where
  pos := by rwa [length_replicate]
  place i b hb p hp := by
    rw [eq_of_mem_replicate (mem_of_getElem? hb)] at hp
    cases hp
  nodup := by
    rw [flatten_replicate]
    exact nodup_nil

theorem wf_expand (ht : Wf hash t) : Wf hash (expand hash t) ∧ (expand hash t).flatten.Perm t.flatten := by
  have hflat := flatten_replicate (K := K) (V := V) ((2 * t.length + 1) % 2 ^ 32)
  -- the size is odd, so it never wraps to zero
  have hwf : Wf hash (List.replicate ((2 * t.length + 1) % 2 ^ 32) ([] : List (K × V))) := wf_replicate (by omega)
  have hfold := wf_foldl_addNode t.flatten hwf (by rw [hflat, append_nil]; exact ht.nodup)
  rwa [hflat, append_nil] at hfold

end Table

/-! ## Maps -/

structure HashMap (hash : K → Nat) (V : Type) where
  table : List (List (K × V))
  wf : Table.Wf hash table

namespace HashMap

variable {hash : K → Nat}

def empty (n : Nat) (hn : 0 < n) : HashMap hash V := ⟨List.replicate n [], Table.wf_replicate hn⟩

variable [DecidableEq K] (m : HashMap hash V) (k : K) (v : V)

def get : Option V := ((Table.bucket hash m.table k).find? fun p => p.1 = k).map Prod.snd

variable {m k v} in
theorem get_eq_some_iff : m.get k = some v ↔ (k, v) ∈ m.table.flatten := by
  rw [get, Option.map_eq_some_iff]
  constructor
  · rintro ⟨⟨k', v'⟩, hfind, rfl⟩
    obtain rfl : k' = k := Table.key_of_find hfind
    exact (Table.mem_bucket m.wf).mp (mem_of_find?_eq_some hfind)
  · intro hmem
    have hbucket := (Table.mem_bucket m.wf).mpr hmem
    cases hfind : (Table.bucket hash m.table k).find? fun p => p.1 = k with
    | none => exact absurd (decide_eq_true rfl) (find?_eq_none.mp hfind _ hbucket)
    | some p =>
      obtain ⟨k', v'⟩ := p
      obtain rfl : k' = k := Table.key_of_find hfind
      have hmem' := (Table.mem_bucket m.wf).mp (mem_of_find?_eq_some hfind)
      exact ⟨_, rfl, (Table.eq_of_mem m.wf hmem hmem').symm⟩

theorem get_empty (hn : 0 < n) : (empty n hn : HashMap hash V).get k = none := by
  cases hget : (empty n hn : HashMap hash V).get k with
  | none => rfl
  | some v =>
    rw [get_eq_some_iff, empty, Table.flatten_replicate] at hget
    cases hget

theorem get_modify {m' : HashMap hash V} (hm' : m'.table = m.table.modify (hash k % m.table.length) f)
    (hf : ∀ b, ∀ k', k' ≠ k → ((f b).find? fun p => p.1 = k') = b.find? fun p => p.1 = k') (k' : K) :
    m'.get k' = if k' = k then ((f (Table.bucket hash m.table k)).find? fun p => p.1 = k).map Prod.snd else m.get k' := by
  have hlt' : hash k' % m.table.length < m.table.length := Nat.mod_lt _ m.wf.pos
  have hbucket : Table.bucket hash m'.table k' = if hash k % m.table.length = hash k' % m.table.length then
      f (Table.bucket hash m.table k') else Table.bucket hash m.table k' := by
    rw [Table.bucket, Table.bucket, hm', length_modify, getD_eq_getElem?_getD, getElem?_modify,
      getD_eq_getElem?_getD, getElem?_eq_getElem hlt']
    rfl
  rw [get, hbucket]
  by_cases hk : k' = k
  · rw [if_pos hk, hk, if_pos rfl]
  · rw [if_neg hk, get]
    split_ifs
    · rw [hf _ k' hk]
    · rfl

/-! ## Removal -/

theorem find?_eraseP (b : List (K × V)) {k' : K} (hk : k' ≠ k) :
    ((b.eraseP fun p => p.1 = k).find? fun p => p.1 = k') = b.find? fun p => p.1 = k' := by
  induction b with
  | nil => rfl
  | cons p b ih =>
    by_cases hp : p.1 = k
    · have hne : ¬ p.1 = k' := fun h => hk (h.symm.trans hp)
      rw [eraseP_cons_of_pos (by rwa [decide_eq_true_eq]), find?_cons_of_neg (by rwa [decide_eq_true_eq])]
    · rw [eraseP_cons_of_neg (by rwa [decide_eq_true_eq]), find?_cons, find?_cons, ih]

theorem not_mem_eraseP (hb : (b.map Prod.fst).Nodup) : ∀ p ∈ b.eraseP fun p => p.1 = k, p.1 ≠ k := by
  induction b with
  | nil => exact fun p hp => absurd hp not_mem_nil
  | cons q b ih =>
    obtain ⟨hq, hb⟩ := nodup_cons.mp hb
    intro p hp
    by_cases hqk : q.1 = k
    · rw [eraseP_cons_of_pos (by rwa [decide_eq_true_eq])] at hp
      rintro rfl
      exact hq (hqk ▸ mem_map_of_mem hp)
    · rw [eraseP_cons_of_neg (by rwa [decide_eq_true_eq])] at hp
      rcases mem_cons.mp hp with rfl | hp
      · exact hqk
      · exact ih hb p hp

def remove : HashMap hash V where
  table := m.table.modify (hash k % m.table.length) (List.eraseP fun p => p.1 = k)
  wf := by
    have hlt : hash k % m.table.length < m.table.length := Nat.mod_lt _ m.wf.pos
    constructor
    · rw [length_modify]
      exact m.wf.pos
    · exact Table.place_modify m.wf fun b hb p hp => m.wf.place _ b hb p (mem_of_mem_eraseP hp)
    · obtain ⟨l, hl, hl'⟩ := Table.flatten_modify_perm hlt (List.eraseP fun p => p.1 = k)
      rw [(hl'.map Prod.fst).nodup_iff]
      have hnodup := (hl.map Prod.fst).nodup_iff.mp m.wf.nodup
      exact hnodup.sublist ((eraseP_sublist.append_right l).map Prod.fst)

theorem get_remove (k' : K) : (m.remove k).get k' = if k' = k then none else m.get k' := by
  rw [get_modify m k rfl (fun b k' hk => find?_eraseP k b hk)]
  congr 1
  rw [Option.map_eq_none_iff, find?_eq_none]
  intro p hp hpk
  exact not_mem_eraseP k (Table.nodup_bucket m.wf k) p hp (of_decide_eq_true hpk)

/-! ## Insertion -/

/-- The node of the key takes the new value. -/
def setNode (p : K × V) : K × V := if p.1 = k then (p.1, v) else p

theorem fst_setNode (p : K × V) : (setNode k v p).1 = p.1 := by
  unfold setNode
  split_ifs <;> rfl

theorem find?_map_setNode (b : List (K × V)) (k' : K) :
    ((b.map (setNode k v)).find? fun p => p.1 = k') = (b.find? fun p => p.1 = k').map (setNode k v) := by
  rw [find?_map]
  congr 2
  funext p
  rw [Function.comp_apply, fst_setNode]

/-- The table with room for another node. -/
def grow : HashMap hash V :=
  if 3 * m.table.length / 4 ≤ m.table.flatten.length + 1 then ⟨Table.expand hash m.table, (Table.wf_expand m.wf).1⟩ else m

theorem get_grow (k' : K) : m.grow.get k' = m.get k' := by
  refine Option.ext fun v => ?_
  rw [get_eq_some_iff, get_eq_some_iff, grow]
  split_ifs
  · exact (Table.wf_expand m.wf).2.mem_iff
  · rfl

def replace : HashMap hash V where
  table := m.table.modify (hash k % m.table.length) (List.map (setNode k v))
  wf := by
    have hlt : hash k % m.table.length < m.table.length := Nat.mod_lt _ m.wf.pos
    constructor
    · rw [length_modify]
      exact m.wf.pos
    · refine Table.place_modify m.wf fun b hb p hp => ?_
      obtain ⟨q, hq, rfl⟩ := mem_map.mp hp
      rw [fst_setNode]
      exact m.wf.place _ b hb q hq
    · obtain ⟨l, hl, hl'⟩ := Table.flatten_modify_perm hlt (List.map (setNode k v))
      rw [(hl'.map Prod.fst).nodup_iff, map_append, map_map]
      have hfst : Prod.fst ∘ setNode k v = (Prod.fst : K × V → K) := funext fun p => fst_setNode k v p
      rw [hfst, ← map_append]
      exact (hl.map Prod.fst).nodup_iff.mp m.wf.nodup

variable {m k} in
theorem not_mem_of_get (hget : m.get k = none) : k ∉ m.table.flatten.map Prod.fst := by
  intro hmem
  obtain ⟨⟨k', v⟩, hmem', rfl⟩ := mem_map.mp hmem
  cases hget.symm.trans (get_eq_some_iff.mpr hmem')

def put : HashMap hash V :=
  match hget : m.get k with
  | some _ => m.replace k v
  | none => ⟨Table.addNode hash m.grow.table (k, v),
      Table.wf_addNode m.grow.wf (not_mem_of_get ((get_grow m k).trans hget))⟩

theorem get_put (k' : K) : (m.put k v).get k' = if k' = k then some v else m.get k' := by
  unfold put
  split
  · rename_i v' hget
    rw [get_modify m k rfl fun b k' hk => ?_, find?_map_setNode, Option.map_map]
    · congr 1
      obtain ⟨p, hfind, rfl⟩ := Option.map_eq_some_iff.mp hget
      rw [hfind, Option.map_some, Function.comp_apply, setNode, if_pos (Table.key_of_find hfind)]
    · rw [find?_map_setNode]
      cases hfind : b.find? fun p => p.1 = k' with
      | none => rfl
      | some p =>
        have hne : p.1 ≠ k := Table.key_of_find hfind ▸ hk
        rw [Option.map_some, setNode, if_neg hne]
  · rw [get_modify m.grow k rfl fun b k' hk => ?_, get_grow]
    · rw [find?_cons_of_pos (by rw [decide_eq_true_eq])]
      rfl
    · rw [find?_cons_of_neg (by rw [decide_eq_true_eq]; exact Ne.symm hk)]

/-! ## The counter -/

variable {m k} in
theorem length_put : (m.put k v).table.flatten.length =
    if (m.get k).isSome then m.table.flatten.length else m.table.flatten.length + 1 := by
  unfold put
  split
  · rename_i hget
    obtain ⟨l, hl, hl'⟩ := Table.flatten_modify_perm (Nat.mod_lt (hash k) m.wf.pos) (List.map (setNode k v))
    rw [hget, replace, hl'.length_eq, hl.length_eq, length_append, length_append, length_map]
    rfl
  · rename_i hget
    have hgrow : m.grow.table.flatten.Perm m.table.flatten := by
      unfold grow
      split_ifs
      · exact (Table.wf_expand m.wf).2
      · exact .rfl
    rw [if_neg (by simp [hget]), (Table.flatten_addNode m.grow.wf.pos).length_eq, length_cons, hgrow.length_eq]

variable {m k} in
theorem length_remove : (m.remove k).table.flatten.length =
    if (m.get k).isSome then m.table.flatten.length - 1 else m.table.flatten.length := by
  obtain ⟨l, hl, hl'⟩ := Table.flatten_modify_perm (Nat.mod_lt (hash k) m.wf.pos) (List.eraseP fun p => p.1 = k)
  have hbucket : Table.bucket hash m.table k = _ := Table.bucket_eq m.wf.pos
  rw [get_eq_getElem] at hbucket
  rw [remove, hl'.length_eq, hl.length_eq, length_append, length_append, ← hbucket, get, Option.isSome_map]
  cases hfind : (Table.bucket hash m.table k).find? fun p => p.1 = k with
  | none =>
    rw [eraseP_of_forall_not (find?_eq_none.mp hfind)]
    rfl
  | some p =>
    have hmem := mem_of_find?_eq_some hfind
    have hpos := length_pos_of_mem hmem
    rw [length_eraseP_of_mem hmem (find?_some hfind), Option.isSome_some, if_pos rfl]
    omega

end HashMap

/-- `struct hash_map`: the table with the counter that the test for growing reads. -/
structure CountedMap (hash : K → Nat) (V : Type) where
  map : HashMap hash V
  size : Nat
  size_eq : size = map.table.flatten.length

inductive MapOp (K V : Type)
  | put (k : K) (v : V)
  | get (k : K)
  | remove (k : K)

namespace CountedMap

variable {hash : K → Nat}

def alloc (n : Nat) (hn : 0 < n) : CountedMap hash V where
  map := .empty n hn
  size := 0
  size_eq := by rw [HashMap.empty, Table.flatten_replicate, length_nil]

def step [DecidableEq K] (c : CountedMap hash V) : MapOp K V → CountedMap hash V
  | .put k v => ⟨c.map.put k v, if (c.map.get k).isSome then c.size else c.size + 1, by
      rw [HashMap.length_put, c.size_eq]⟩
  | .get _ => c
  | .remove k => ⟨c.map.remove k, if (c.map.get k).isSome then c.size - 1 else c.size, by
      rw [HashMap.length_remove, c.size_eq]⟩

theorem size_eq_card [DecidableEq K] (c : CountedMap hash V) :
    ∃ keys : Finset K, (∀ k, k ∈ keys ↔ (c.map.get k).isSome) ∧ c.size = keys.card := by
  refine ⟨(c.map.table.flatten.map Prod.fst).toFinset, fun k => ?_, ?_⟩
  · rw [List.mem_toFinset, List.mem_map, Option.isSome_iff_exists]
    constructor
    · rintro ⟨⟨k', v⟩, hmem, rfl⟩
      exact ⟨v, HashMap.get_eq_some_iff.mpr hmem⟩
    · rintro ⟨v, hget⟩
      exact ⟨(k, v), HashMap.get_eq_some_iff.mp hget, rfl⟩
  · rw [toFinset_card_of_nodup c.map.wf.nodup, length_map, c.size_eq]

end CountedMap

section Keys

variable [Setoid K] [∀ a b : K, Decidable (a ≈ b)]

/-- A finite map, as a function on keys that are taken up to the equality of the keys. -/
def mapStep (f : K → Option V) : MapOp K V → K → Option V
  | .put k v => fun k' => if k' ≈ k then some v else f k'
  | .get _ => f
  | .remove k => fun k' => if k' ≈ k then none else f k'

def finiteMap (ops : List (MapOp K V)) : K → Option V := ops.foldl mapStep fun _ => none

/-- An operation with the class of its key. -/
def MapOp.mk : MapOp K V → MapOp (Quotient ‹Setoid K›) V
  | .put k v => .put ⟦k⟧ v
  | .get k => .get ⟦k⟧
  | .remove k => .remove ⟦k⟧

/-- The calls one after the other, on a new map with `n` buckets. -/
def runCalls (hash : Quotient ‹Setoid K› → Nat) {n : Nat} (hn : 0 < n) (ops : List (MapOp K V)) : CountedMap hash V :=
  (ops.map MapOp.mk).foldl CountedMap.step (.alloc n hn)

theorem get_runCalls {hash : Quotient ‹Setoid K› → Nat} (hn : 0 < n) (ops : List (MapOp K V)) (k : K) :
    (runCalls hash hn ops).map.get ⟦k⟧ = finiteMap ops k := by
  induction ops using List.reverseRecOn generalizing k with
  | nil => exact HashMap.get_empty ⟦k⟧ hn
  | append_singleton ops op ih =>
    rw [runCalls, finiteMap, List.map_append, foldl_append, foldl_append, ← runCalls, ← finiteMap]
    cases op with
    | put k' v => simp only [List.map, foldl, MapOp.mk, CountedMap.step, HashMap.get_put, mapStep, Quotient.eq, ih]
    | get => exact ih k
    | remove k' => simp only [List.map, foldl, MapOp.mk, CountedMap.step, HashMap.get_remove, mapStep, Quotient.eq, ih]

/-- **A hash map is a finite map** after every sequence of calls, and its size is the number of its keys. -/
theorem hashMap_refines (hash : K → Nat) (hhash : ∀ a b : K, a ≈ b → hash a = hash b) {n : Nat} (hn : 0 < n)
    (ops : List (MapOp K V)) : (∀ k, (runCalls (Quotient.lift hash hhash) hn ops).map.get ⟦k⟧ = finiteMap ops k) ∧
      ∃ keys : Finset (Quotient ‹Setoid K›), (∀ k, ⟦k⟧ ∈ keys ↔ (finiteMap ops k).isSome) ∧
        (runCalls (Quotient.lift hash hhash) hn ops).size = keys.card := by
  have hget (k : K) : (runCalls (Quotient.lift hash hhash) hn ops).map.get ⟦k⟧ = finiteMap ops k := get_runCalls hn ops k
  obtain ⟨keys, hkeys, hsize⟩ := (runCalls (Quotient.lift hash hhash) hn ops).size_eq_card
  refine ⟨hget, keys, fun k => ?_, hsize⟩
  rw [hkeys, hget]

end Keys

theorem hashMap_refines_nat :
    letI : Setoid Nat := ⟨Eq, eq_equivalence⟩
    letI (a b : Nat) : Decidable (a ≈ b) := Nat.decEq a b
    (runCalls (Quotient.lift id fun _ _ h => h) Nat.one_pos [.put 1 5, .put 3 7, .remove 3]).map.get ⟦1⟧ = some 5 := by
  let : Setoid Nat := ⟨Eq, eq_equivalence⟩
  let _ (a b : Nat) : Decidable (a ≈ b) := Nat.decEq a b
  exact (hashMap_refines id (fun _ _ h => h) Nat.one_pos [.put 1 5, .put 3 7, .remove 3]).1 1

end Jato.Lib
