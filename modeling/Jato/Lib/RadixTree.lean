import Mathlib.Algebra.Order.Ring.Nat

/-!
# The radix tree

`lib/radix-tree.c`: a map from keys of `keyBits` bits to values, in levels of `bitsPerLevel` bits each, with the number
of used slots kept in every node. `radixTree_refines` says that the tree is the map its calls describe, and that
`lookupPrev` finds the value of the greatest key that is not larger, as long as no key is inserted twice and no key is
removed that is absent while its last-level node is there: both calls leave a node with a wrong count.
-/

namespace Jato.Lib

/-! ## The tree -/

/-- The parameters of a tree; the fields are what `alloc_radix_tree` asserts (and that it does not divide by zero). -/
structure RadixShape where
  bitsPerLevel : Nat
  keyBits : Nat
  bits_pos : 0 < bitsPerLevel
  bits_lt : bitsPerLevel < keyBits
  keyBits_le : keyBits ≤ 64

/-- `struct radix_tree_node`; the parent is the node that the recursions below come from. -/
structure RadixNode (α : Type) where
  count : Int
  slots : Nat → Option α

/-- What a slot of a node with `h` levels below it holds: a value, or a node. -/
@[reducible] def RadixSlot (ν : Type) : Nat → Type
  | 0 => ν
  | h + 1 => RadixNode (RadixSlot ν h)

variable {α ν : Type}

/-- A node as `alloc_radix_tree_node` makes it. -/
def emptyNode : RadixNode α := ⟨0, fun _ => none⟩

/-- The node with slot `i` written and a new count. -/
def RadixNode.setSlot (node : RadixNode α) (i : Nat) (s : Option α) (count : Int) : RadixNode α :=
  ⟨count, fun j => if j = i then s else node.slots j⟩

/-- What `free_slot` does to a node before it looks at the count. -/
def RadixNode.freeSlot (node : RadixNode α) (i : Nat) : RadixNode α := node.setSlot i none (node.count - 1)

/-- The slot with the greatest index below `n` that is in use. -/
def lastSlot (slots : Nat → Option α) : Nat → Option α
  | 0 => none
  | n + 1 => match slots n with
    | some c => some c
    | none => lastSlot slots n

section Operations

variable (b : Nat)

/-- The index of `key` in a node with `h` levels below it: there `level_count - level - 1` is `h`. -/
def getIndex (key h : Nat) : Nat := (key >>> (h * b)) &&& (2 ^ b - 1)

def slotCount : Nat := 2 ^ b

def lookupSlot : (h : Nat) → RadixSlot ν h → Nat → Option ν
  | 0, v, _ => some v
  | h + 1, node, key => (node.slots (getIndex b key h)).bind fun child => lookupSlot h child key

/-- `radix_tree_last`. -/
def lastValue : (h : Nat) → RadixSlot ν h → Option ν
  | 0, v => some v
  | h + 1, node => (lastSlot node.slots (slotCount b)).bind (lastValue h)

/-- The body of the loop of `radix_tree_previous`: the last value of the nearest slot in use below `index`. No result
means that the search goes on in the parent. -/
def searchBelow {h : Nat} (node : RadixNode (RadixSlot ν h)) (index : Nat) : Option (Option ν) :=
  (lastSlot node.slots index).map (lastValue b h)

/-- `__radix_tree_lookup` with `try_previous`. Where the path of the key ends, the search goes back up it; a node that
it comes back to is passed over when its count is one. -/
def previousSlot : (h : Nat) → RadixSlot ν h → Nat → Option (Option ν)
  | 0, v, _ => some (some v)
  | h + 1, node, key =>
    let index := getIndex b key h
    match node.slots index with
    | none => searchBelow b node index
    | some child => match previousSlot h child key with
      | some found => some found
      | none => if node.count = 1 then none else searchBelow b node index

def insertNode (key : Nat) (value : ν) : (h : Nat) → RadixNode (RadixSlot ν h) → RadixNode (RadixSlot ν h)
  | 0, node => node.setSlot (getIndex b key 0) (some value) (node.count + 1)
  | h + 1, node =>
    let index := getIndex b key (h + 1)
    match node.slots index with
    | none => node.setSlot index (some (insertNode key value h emptyNode)) (node.count + 1)
    | some child => node.setSlot index (some (insertNode key value h child)) node.count

/-- `radix_tree_remove` below the root; no result means that no mapping exists. -/
def removeNode (key : Nat) : (h : Nat) → RadixNode (RadixSlot ν h) → Option (RadixNode (RadixSlot ν h))
  | 0, node => some (node.freeSlot (getIndex b key 0))
  | h + 1, node =>
    let index := getIndex b key (h + 1)
    match node.slots index with
    | none => none
    | some child => (removeNode key h child).map fun child =>
      if child.count = 0 then node.freeSlot index else node.setSlot index (some child) node.count

end Operations

section Tree

variable (shape : RadixShape)

def RadixShape.levelCount : Nat := (shape.keyBits + shape.bitsPerLevel - 1) / shape.bitsPerLevel

/-- The levels below the root. -/
def RadixShape.levels : Nat := shape.levelCount - 1

abbrev RadixShape.Key : Type := Fin (2 ^ shape.keyBits)

/-- `struct radix_tree`: its root. -/
abbrev RadixTree (ν : Type) : Type := RadixSlot ν (shape.levels + 1)

variable {shape}

def allocRadixTree : RadixTree shape ν := emptyNode

def radixTreeInsert (tree : RadixTree shape ν) (key : shape.Key) (value : ν) : RadixTree shape ν :=
  insertNode shape.bitsPerLevel key value shape.levels tree

def radixTreeRemove (tree : RadixTree shape ν) (key : shape.Key) : RadixTree shape ν :=
  (removeNode shape.bitsPerLevel key shape.levels tree).getD tree

def radixTreeLookup (tree : RadixTree shape ν) (key : shape.Key) : Option ν :=
  lookupSlot shape.bitsPerLevel (shape.levels + 1) tree key

def radixTreeLookupPrev (tree : RadixTree shape ν) (key : shape.Key) : Option ν :=
  (previousSlot shape.bitsPerLevel (shape.levels + 1) tree key).join

/-- A call that changes the tree. -/
inductive RadixOp (shape : RadixShape) (ν : Type)
  | insert (key : shape.Key) (value : ν)
  | remove (key : shape.Key)

def RadixOp.apply (tree : RadixTree shape ν) : RadixOp shape ν → RadixTree shape ν
  | insert key value => radixTreeInsert tree key value
  | remove key => radixTreeRemove tree key

def runRadixOps (ops : List (RadixOp shape ν)) : RadixTree shape ν := ops.foldl RadixOp.apply allocRadixTree

end Tree

/-! ## Blocks of keys -/

section Blocks

variable {b h k k' : Nat}

theorem getIndex_eq : getIndex b k h = k / 2 ^ (h * b) % 2 ^ b := by
  rw [getIndex, Nat.and_two_pow_sub_one_eq_mod, Nat.shiftRight_eq_div_pow]

theorem getIndex_lt : getIndex b k h < slotCount b := by
  rw [getIndex_eq]
  exact Nat.mod_lt _ (Nat.two_pow_pos b)

/-- `k` and `k'` go through the same slot above the lowest `h` levels. -/
def SameBlock (b h k k' : Nat) : Prop := k / 2 ^ (h * b) = k' / 2 ^ (h * b)

theorem block_eq : k / 2 ^ (h * b) = k / 2 ^ ((h + 1) * b) * 2 ^ b + getIndex b k h := by
  rw [getIndex_eq, Nat.succ_mul, Nat.pow_add, ← Nat.div_div_eq_div_mul]
  exact (Nat.div_add_mod' _ _).symm

theorem sameBlock_iff : SameBlock b h k k' ↔ SameBlock b (h + 1) k k' ∧ getIndex b k h = getIndex b k' h := by
  constructor
  · intro heq
    refine ⟨?_, by rw [getIndex_eq, getIndex_eq, show k / 2 ^ (h * b) = _ from heq]⟩
    rw [SameBlock, Nat.succ_mul, Nat.pow_add, ← Nat.div_div_eq_div_mul, ← Nat.div_div_eq_div_mul,
      show k / 2 ^ (h * b) = _ from heq]
  · rintro ⟨hb, hidx⟩
    rw [SameBlock, block_eq, hidx, show k / 2 ^ ((h + 1) * b) = _ from hb, ← block_eq]

theorem lt_of_getIndex_lt (hb : SameBlock b (h + 1) k k') (hlt : getIndex b k h < getIndex b k' h) : k < k' := by
  have hdiv : k / 2 ^ (h * b) < k' / 2 ^ (h * b) := by
    rw [block_eq, block_eq (k := k'), show k / 2 ^ ((h + 1) * b) = _ from hb]
    exact Nat.add_lt_add_left hlt _
  exact Nat.lt_of_not_le fun hle => not_lt.mpr (Nat.div_le_div_right hle) hdiv

theorem sameBlock_zero : SameBlock b 0 k k' ↔ k = k' := by simp [SameBlock]

/-- A key that lies in the block `q` and goes through slot `i` there. -/
theorem block_of_index {q i : Nat} (hi : i < slotCount b) (hk : k / 2 ^ (h * b) = q * 2 ^ b + i) :
    k / 2 ^ ((h + 1) * b) = q ∧ getIndex b k h = i := by
  have hi' : i < 2 ^ b := hi
  have hpos := Nat.two_pow_pos b
  constructor
  · rw [Nat.succ_mul, Nat.pow_add, ← Nat.div_div_eq_div_mul, hk, mul_comm, Nat.mul_add_div hpos,
      Nat.div_eq_of_lt hi', add_zero]
  · rw [getIndex_eq, hk, mul_comm, Nat.mul_add_mod, Nat.mod_eq_of_lt hi']

end Blocks

/-! ## Counts -/

section Counts

variable {slots slots' : Nat → Option α} {i n : Nat}

/-- The number of slots below `n` that are in use. -/
def filled (slots : Nat → Option α) : Nat → Nat
  | 0 => 0
  | n + 1 => filled slots n + if (slots n).isSome then 1 else 0

theorem filled_congr (h : ∀ j < n, (slots j).isSome = (slots' j).isSome) : filled slots n = filled slots' n := by
  induction n with
  | zero => rfl
  | succ n ih => rw [filled, filled, ih fun j hj => h j (Nat.lt_succ_of_lt hj), h n (Nat.lt_succ_self n)]

theorem filled_succ (hi : i < n) (hnone : slots i = none) (hsome : (slots' i).isSome)
    (hrest : ∀ j, j ≠ i → (slots j).isSome = (slots' j).isSome) : filled slots' n = filled slots n + 1 := by
  induction n with
  | zero => exact absurd hi (Nat.not_lt_zero i)
  | succ n ih =>
    by_cases hin : i = n
    · subst hin
      rw [filled, filled, filled_congr fun j hj => (hrest j (Nat.ne_of_lt hj)).symm, hnone, if_pos hsome]
      rfl
    · have hlt := Nat.lt_of_le_of_ne (Nat.le_of_lt_succ hi) hin
      rw [filled, filled, ih hlt, hrest n fun h => hin h.symm, Nat.add_right_comm]

theorem filled_eq_zero_iff : filled slots n = 0 ↔ ∀ j < n, slots j = none := by
  induction n with
  | zero => simp [filled]
  | succ n ih =>
    rw [filled, Nat.add_eq_zero_iff, ih]
    constructor
    · rintro ⟨hlt, hn⟩ j hj
      rcases Nat.lt_succ_iff_lt_or_eq.mp hj with hj | rfl
      · exact hlt j hj
      · simpa using hn
    · intro h
      exact ⟨fun j hj => h j (Nat.lt_succ_of_lt hj), by simp [h n (Nat.lt_succ_self n)]⟩

/-- A node that counts one slot has no other than the one that is known. -/
theorem eq_none_of_filled_one (hi : i < n) (hsome : (slots i).isSome) (h : filled slots n = 1) {j : Nat} (hj : j < n)
    (hji : j ≠ i) : slots j = none := by
  have hsucc : filled slots n = filled (fun m => if m = i then none else slots m) n + 1 :=
    filled_succ hi (by simp) hsome fun m hm => by simp [hm]
  have hzero := filled_eq_zero_iff.mp (Nat.succ.inj (hsucc.symm.trans h)) j hj
  simpa [hji] using hzero

theorem lastSlot_eq_none : lastSlot slots n = none ↔ ∀ j < n, slots j = none := by
  induction n with
  | zero => simp [lastSlot]
  | succ n ih =>
    cases hn : slots n with
    | none =>
      rw [lastSlot, hn]
      refine ih.trans ⟨fun h j hj => ?_, fun h j hj => h j (Nat.lt_succ_of_lt hj)⟩
      rcases Nat.lt_succ_iff_lt_or_eq.mp hj with hj | rfl
      · exact h j hj
      · exact hn
    | some c =>
      rw [lastSlot, hn]
      refine ⟨by simp, fun h => ?_⟩
      rw [h n (Nat.lt_succ_self n)] at hn
      cases hn

theorem lastSlot_eq_some {c : α} (h : lastSlot slots n = some c) :
    ∃ i < n, slots i = some c ∧ ∀ j, i < j → j < n → slots j = none := by
  induction n with
  | zero => cases h
  | succ n ih =>
    cases hn : slots n with
    | none =>
      rw [lastSlot, hn] at h
      obtain ⟨i, hi, hc, hrest⟩ := ih h
      refine ⟨i, Nat.lt_succ_of_lt hi, hc, fun j hij hj => ?_⟩
      rcases Nat.lt_succ_iff_lt_or_eq.mp hj with hj | rfl
      · exact hrest j hij hj
      · exact hn
    | some d =>
      rw [lastSlot, hn] at h
      cases h
      exact ⟨n, Nat.lt_succ_self n, hn, fun j hnj hj => absurd hj (not_lt.mpr hnj)⟩

end Counts

/-! ## Well-counted trees -/

section Trees

variable {b h : Nat} {node : RadixNode (RadixSlot ν h)} {i : Nat} {child : RadixSlot ν h} {s : Option (RadixSlot ν h)}

/-- A slot in use holds a value or a node with slots in use. -/
def Occupied (b : Nat) : (h : Nat) → RadixSlot ν h → Prop
  | 0, _ => True
  | _ + 1, node => ∃ i < slotCount b, (node.slots i).isSome

/-- Every node counts its slots in use, and every node below is occupied. -/
def WellCounted (b : Nat) : (h : Nat) → RadixSlot ν h → Prop
  | 0, _ => True
  | h + 1, node => node.count = filled node.slots (slotCount b) ∧
    ∀ i < slotCount b, ∀ child, node.slots i = some child → WellCounted b h child ∧ Occupied b h child

theorem wellCounted_emptyNode : WellCounted (ν := ν) b (h + 1) emptyNode :=
  ⟨congrArg Int.ofNat (filled_eq_zero_iff.mpr fun _ _ => rfl).symm, nofun⟩

theorem lookupSlot_succ (node : RadixNode (RadixSlot ν h)) (k : Nat) :
    lookupSlot b (h + 1) node k = (node.slots (getIndex b k h)).bind fun child => lookupSlot b h child k := rfl

section

variable (hw : WellCounted b (h + 1) node)

include hw

theorem WellCounted.occupied (hc : node.count ≠ 0) : Occupied b (h + 1) node := by
  refine Classical.byContradiction fun hno => hc ?_
  rw [hw.1, filled_eq_zero_iff.mpr fun j hj => ?_]
  · rfl
  · exact Option.not_isSome_iff_eq_none.mp fun hs => hno ⟨j, hj, hs⟩

theorem WellCounted.lookupSlot_eq_none (hc : node.count = 0) (k : Nat) : lookupSlot b (h + 1) node k = none := by
  have hz := Int.ofNat.inj (hw.1.symm.trans hc)
  rw [lookupSlot_succ, filled_eq_zero_iff.mp hz _ getIndex_lt]
  rfl

end

@[simp] theorem setSlot_slots (s : Option (RadixSlot ν h)) (count : Int) (j : Nat) :
    (node.setSlot i s count).slots j = if j = i then s else node.slots j := rfl

section

variable (hw : WellCounted b (h + 1) node)

include hw

/-- Writing one slot keeps the tree well-counted when the new count is right. -/
theorem WellCounted.setSlot {count : Int} (hs : ∀ child, s = some child → WellCounted b h child ∧ Occupied b h child)
    (hcount : count = filled (node.setSlot i s count).slots (slotCount b)) :
    WellCounted b (h + 1) (node.setSlot i s count) := by
  refine ⟨hcount, fun j hj c hjc => ?_⟩
  by_cases hji : j = i
  · exact hs c (by simpa [hji] using hjc)
  · exact hw.2 j hj c (by simpa [hji] using hjc)

theorem WellCounted.exchange (hi : (node.slots i).isSome) (hc : WellCounted b h child ∧ Occupied b h child) :
    WellCounted b (h + 1) (node.setSlot i (some child) node.count) := by
  refine hw.setSlot (fun c hcc => Option.some.inj hcc ▸ hc) (hw.1.trans (congrArg Int.ofNat ?_))
  refine filled_congr fun j _ => ?_
  by_cases hji : j = i
  · simp [hji, hi]
  · simp [hji]

theorem WellCounted.fillSlot (hlt : i < slotCount b) (hi : node.slots i = none)
    (hc : WellCounted b h child ∧ Occupied b h child) :
    WellCounted b (h + 1) (node.setSlot i (some child) (node.count + 1)) := by
  refine hw.setSlot (fun c hcc => Option.some.inj hcc ▸ hc) ?_
  have hsucc : filled (node.setSlot i (some child) (node.count + 1)).slots (slotCount b) =
      filled node.slots (slotCount b) + 1 :=
    filled_succ hlt hi (by simp) fun j hj => by simp [hj]
  rw [hsucc, hw.1]
  rfl

theorem WellCounted.freeSlot (hlt : i < slotCount b) (hi : (node.slots i).isSome) :
    WellCounted b (h + 1) (node.freeSlot i) := by
  refine hw.setSlot nofun ?_
  have hsucc : filled node.slots (slotCount b) = filled (node.setSlot i none (node.count - 1)).slots (slotCount b) + 1 :=
    filled_succ hlt (by simp) hi fun j hj => by simp [hj]
  have hcount := hw.1
  omega

end

/-! ## Inserting and removing -/

theorem lookupSlot_of_ne {count : Int} (hne : getIndex b k' h ≠ getIndex b k h) :
    lookupSlot b (h + 1) (node.setSlot (getIndex b k h) s count) k' = lookupSlot b (h + 1) node k' := by
  rw [lookupSlot_succ, lookupSlot_succ, setSlot_slots, if_neg hne]

theorem lookupSlot_of_eq {count : Int} (heq : getIndex b k' h = getIndex b k h) :
    lookupSlot b (h + 1) (node.setSlot (getIndex b k h) s count) k' = s.bind fun child => lookupSlot b h child k' := by
  rw [lookupSlot_succ, setSlot_slots, if_pos heq]

theorem ne_of_getIndex_ne (h' : getIndex b k' h ≠ getIndex b k h) : k' ≠ k := fun hk => h' (hk ▸ rfl)

/-- An insertion changes the value of its key only. -/
theorem lookupSlot_insertNode {v : ν} : ∀ {h : Nat} {node : RadixNode (RadixSlot ν h)}, SameBlock b (h + 1) k k' →
    lookupSlot b (h + 1) (insertNode b k v h node) k' = if k' = k then some v else lookupSlot b (h + 1) node k'
  | 0, node, hb => by
    by_cases heq : getIndex b k' 0 = getIndex b k 0
    · have hk := sameBlock_zero.mp (sameBlock_iff.mpr ⟨hb, heq.symm⟩)
      rw [insertNode, lookupSlot_of_eq heq, if_pos hk.symm]
      rfl
    · rw [insertNode, lookupSlot_of_ne heq, if_neg (ne_of_getIndex_ne heq)]
  | h + 1, node, hb => by
    by_cases heq : getIndex b k' (h + 1) = getIndex b k (h + 1)
    · have hb' := sameBlock_iff.mpr ⟨hb, heq.symm⟩
      rw [lookupSlot_succ node, heq]
      cases hs : node.slots (getIndex b k (h + 1)) with
      | none | some child =>
        simp only [insertNode, hs]
        rw [lookupSlot_of_eq heq]
        exact lookupSlot_insertNode hb'
    · rw [if_neg (ne_of_getIndex_ne heq)]
      cases hs : node.slots (getIndex b k (h + 1)) with
      | none | some child =>
        simp only [insertNode, hs]
        exact lookupSlot_of_ne heq

theorem occupied_setSlot_some (hlt : i < slotCount b) (count : Int) :
    Occupied b (h + 1) (node.setSlot i (some child) count) := ⟨i, hlt, by simp⟩

/-- Inserting an absent key keeps the counts. -/
theorem wellCounted_insertNode {v : ν} : ∀ {h : Nat} {node : RadixNode (RadixSlot ν h)},
    WellCounted b (h + 1) node → lookupSlot b (h + 1) node k = none →
    WellCounted b (h + 1) (insertNode b k v h node) ∧ Occupied b (h + 1) (insertNode b k v h node)
  | 0, node, hw, hk => by
    have hs : node.slots (getIndex b k 0) = none := by
      rw [lookupSlot_succ] at hk
      cases hs : node.slots (getIndex b k 0) with
      | none => rfl
      | some v => rw [hs] at hk; cases hk
    exact ⟨hw.fillSlot getIndex_lt hs ⟨trivial, trivial⟩, occupied_setSlot_some getIndex_lt _⟩
  | h + 1, node, hw, hk => by
    cases hs : node.slots (getIndex b k (h + 1)) with
    | none =>
      simp only [insertNode, hs]
      exact ⟨hw.fillSlot getIndex_lt hs (wellCounted_insertNode wellCounted_emptyNode rfl),
        occupied_setSlot_some getIndex_lt _⟩
    | some child =>
      simp only [insertNode, hs]
      rw [lookupSlot_succ, hs] at hk
      exact ⟨hw.exchange (by rw [hs]; rfl) (wellCounted_insertNode (hw.2 _ getIndex_lt child hs).1 hk),
        occupied_setSlot_some getIndex_lt _⟩

/-- Removing a present key changes its value only, and keeps the counts. -/
theorem removeNode_present {k : Nat} : ∀ {h : Nat} {node : RadixNode (RadixSlot ν h)},
    WellCounted b (h + 1) node → (lookupSlot b (h + 1) node k).isSome →
    ∃ node', removeNode b k h node = some node' ∧ WellCounted b (h + 1) node' ∧ ∀ k', SameBlock b (h + 1) k k' →
      lookupSlot b (h + 1) node' k' = if k' = k then none else lookupSlot b (h + 1) node k'
  | 0, node, hw, hk => by
    have hs : (node.slots (getIndex b k 0)).isSome := by
      rw [lookupSlot_succ] at hk
      exact Option.isSome_of_isSome_bind hk
    refine ⟨_, rfl, hw.freeSlot getIndex_lt hs, fun k' hb => ?_⟩
    by_cases heq : getIndex b k' 0 = getIndex b k 0
    · have hkk := sameBlock_zero.mp (sameBlock_iff.mpr ⟨hb, heq.symm⟩)
      rw [RadixNode.freeSlot, lookupSlot_of_eq heq, if_pos hkk.symm]
      rfl
    · rw [RadixNode.freeSlot, lookupSlot_of_ne heq, if_neg (ne_of_getIndex_ne heq)]
  | h + 1, node, hw, hk => by
    cases hs : node.slots (getIndex b k (h + 1)) with
    | none =>
      rw [lookupSlot_succ, hs] at hk
      cases hk
    | some child =>
      rw [lookupSlot_succ, hs] at hk
      obtain ⟨child', hrem, hw', hl'⟩ := removeNode_present (hw.2 _ getIndex_lt child hs).1 hk
      have hsome : (node.slots (getIndex b k (h + 1))).isSome := by rw [hs]; rfl
      simp only [removeNode, hs, hrem, Option.map_some, Option.some.injEq, exists_eq_left']
      by_cases hc : child'.count = 0
      · rw [if_pos hc]
        refine ⟨hw.freeSlot getIndex_lt hsome, fun k' hb => ?_⟩
        by_cases heq : getIndex b k' (h + 1) = getIndex b k (h + 1)
        · -- the freed child held no other key
          rw [RadixNode.freeSlot, lookupSlot_of_eq heq, lookupSlot_succ node, heq, hs]
          exact (hw'.lookupSlot_eq_none hc k').symm.trans (hl' k' (sameBlock_iff.mpr ⟨hb, heq.symm⟩))
        · rw [RadixNode.freeSlot, lookupSlot_of_ne heq, if_neg (ne_of_getIndex_ne heq)]
      · rw [if_neg hc]
        refine ⟨hw.exchange hsome ⟨hw', hw'.occupied hc⟩, fun k' hb => ?_⟩
        by_cases heq : getIndex b k' (h + 1) = getIndex b k (h + 1)
        · rw [lookupSlot_of_eq heq, lookupSlot_succ node, heq, hs]
          exact hl' k' (sameBlock_iff.mpr ⟨hb, heq.symm⟩)
        · rw [lookupSlot_of_ne heq, if_neg (ne_of_getIndex_ne heq)]

/-! ## The last value and the previous value -/

/-- The last value of an occupied tree is the value of its greatest key, in every block that the tree may stand in. -/
theorem lastValue_spec : ∀ {h : Nat} {t : RadixSlot ν h}, WellCounted b h t → Occupied b h t → ∀ q,
    ∃ v k, lastValue b h t = some v ∧ k / 2 ^ (h * b) = q ∧ lookupSlot b h t k = some v ∧
      ∀ k', k' / 2 ^ (h * b) = q → k < k' → lookupSlot b h t k' = none
  | 0, v, _, _, q => ⟨v, q, rfl, by simp, rfl, fun k' hk' hlt => absurd hk' (by simp; omega)⟩
  | h + 1, node, hw, ⟨i, hi, hsome⟩, q => by
    cases hlast : lastSlot node.slots (slotCount b) with
    | none =>
      rw [lastSlot_eq_none.mp hlast i hi] at hsome
      cases hsome
    | some child =>
      obtain ⟨j, hj, hs, hrest⟩ := lastSlot_eq_some hlast
      obtain ⟨hwc, hoc⟩ := hw.2 j hj child hs
      obtain ⟨v, k, hv, hk, hl, hmax⟩ := lastValue_spec hwc hoc (q * 2 ^ b + j)
      obtain ⟨hkq, hkj⟩ := block_of_index hj hk
      refine ⟨v, k, by rw [lastValue, hlast]; exact hv, hkq, by rw [lookupSlot_succ, hkj, hs]; exact hl, ?_⟩
      intro k' hk' hlt
      have hb := hkq.trans hk'.symm
      rw [lookupSlot_succ]
      rcases Nat.lt_trichotomy (getIndex b k' h) j with hlt' | heq | hgt
      · have := lt_of_getIndex_lt hb.symm (hkj ▸ hlt')
        omega
      · rw [heq, hs]
        exact hmax k' (by rw [block_eq, hk', heq]) hlt
      · rw [hrest _ hgt getIndex_lt]
        rfl

/-- `r` is the value of the greatest key in use that is not larger than `k`, among the keys that satisfy `p`. -/
def IsPrevious (m : Nat → Option ν) (p : Nat → Prop) (k : Nat) : Option ν → Prop
  | none => ∀ k', p k' → k' ≤ k → m k' = none
  | some v => ∃ k', p k' ∧ k' ≤ k ∧ m k' = some v ∧ ∀ k'', p k'' → k' < k'' → k'' ≤ k → m k'' = none

/-- The search to the left in one node, when nothing that is not larger stands in the slot of the key itself. -/
theorem searchBelow_spec (hw : WellCounted b (h + 1) node)
    (hnone : ∀ k', SameBlock b h k k' → k' ≤ k → lookupSlot b (h + 1) node k' = none) :
    (∀ r, searchBelow b node (getIndex b k h) = some r → r.isSome) ∧
      IsPrevious (lookupSlot b (h + 1) node) (SameBlock b (h + 1) k) k (searchBelow b node (getIndex b k h)).join := by
  have hle : ∀ {k'}, SameBlock b (h + 1) k k' → k' ≤ k → getIndex b k' h ≠ getIndex b k h →
      getIndex b k' h < getIndex b k h := by
    intro k' hb hk' hne
    refine Nat.lt_of_le_of_ne (Nat.le_of_not_lt fun hgt => ?_) hne
    exact not_lt.mpr hk' (lt_of_getIndex_lt hb hgt)
  cases hlast : lastSlot node.slots (getIndex b k h) with
  | none =>
    rw [searchBelow, hlast]
    refine ⟨by simp, fun k' hb hk' => ?_⟩
    by_cases heq : getIndex b k' h = getIndex b k h
    · exact hnone k' (sameBlock_iff.mpr ⟨hb, heq.symm⟩) hk'
    · rw [lookupSlot_succ, lastSlot_eq_none.mp hlast _ (hle hb hk' heq)]
      rfl
  | some child =>
    obtain ⟨j, hj, hs, hrest⟩ := lastSlot_eq_some hlast
    have hjb := lt_trans hj getIndex_lt
    obtain ⟨hwc, hoc⟩ := hw.2 j hjb child hs
    obtain ⟨v, k', hv, hk', hl, hmax⟩ := lastValue_spec hwc hoc (k / 2 ^ ((h + 1) * b) * 2 ^ b + j)
    obtain ⟨hkq, hkj⟩ := block_of_index hjb hk'
    have hb : SameBlock b (h + 1) k' k := hkq
    rw [searchBelow, hlast, Option.map_some, hv]
    refine ⟨fun r hr => Option.some.inj hr ▸ rfl, k', hb.symm, ?_, by rw [lookupSlot_succ, hkj, hs]; exact hl, ?_⟩
    · exact le_of_lt (lt_of_getIndex_lt hb (hkj ▸ hj))
    · intro k'' hb'' hlt hle''
      by_cases heq : getIndex b k'' h = getIndex b k h
      · exact hnone k'' (sameBlock_iff.mpr ⟨hb'', heq.symm⟩) hle''
      · rw [lookupSlot_succ]
        rcases Nat.lt_trichotomy (getIndex b k'' h) j with hlt' | heq' | hgt
        · have := lt_of_getIndex_lt (hb''.symm.trans hb.symm) (hkj ▸ hlt')
          omega
        · rw [heq', hs]
          exact hmax k'' (by rw [block_eq, ← show k / 2 ^ ((h + 1) * b) = _ from hb'', heq']) hlt
        · rw [hrest _ hgt (hle hb'' hle'' heq)]
          rfl

theorem lookupSlot_of_sameBlock (hb : SameBlock b h k k') (hs : node.slots (getIndex b k h) = some child) :
    lookupSlot b (h + 1) node k' = lookupSlot b h child k' := by
  rw [lookupSlot_succ, ← (sameBlock_iff.mp hb).2, hs]
  rfl

/-- The search finds the greatest key that is not larger, in the block of the key. -/
theorem previousSlot_spec {k : Nat} : ∀ {h : Nat} {t : RadixSlot ν h}, WellCounted b h t →
    (∀ r, previousSlot b h t k = some r → r.isSome) ∧
      IsPrevious (lookupSlot b h t) (SameBlock b h k) k (previousSlot b h t k).join
  | 0, v, _ => by
    refine ⟨fun r hr => Option.some.inj hr ▸ rfl, k, rfl, le_refl k, rfl, fun k' hk' hlt => ?_⟩
    exact absurd (sameBlock_zero.mp hk') (Nat.ne_of_lt hlt)
  | h + 1, node, hw => by
    cases hs : node.slots (getIndex b k h) with
    | none =>
      simp only [previousSlot, hs]
      refine searchBelow_spec hw fun k' hb _ => ?_
      rw [lookupSlot_succ, ← (sameBlock_iff.mp hb).2, hs]
      rfl
    | some child =>
      obtain ⟨hsome, hprev⟩ := previousSlot_spec (k := k) (hw.2 _ getIndex_lt child hs).1
      simp only [previousSlot, hs]
      cases hp : previousSlot b h child k with
      | some r =>
        obtain ⟨v, rfl⟩ := Option.isSome_iff_exists.mp (hsome r hp)
        rw [hp] at hprev
        obtain ⟨k', hb, hle, hl, hmax⟩ := hprev
        refine ⟨fun r hr => Option.some.inj hr ▸ rfl, k', (sameBlock_iff.mp hb).1, hle, ?_, ?_⟩
        · rw [lookupSlot_of_sameBlock hb hs]
          exact hl
        · intro k'' hb'' hlt hle''
          by_cases heq : getIndex b k'' h = getIndex b k h
          · have hbb := sameBlock_iff.mpr ⟨hb'', heq.symm⟩
            rw [lookupSlot_of_sameBlock hbb hs]
            exact hmax k'' hbb hlt hle''
          · -- a key between the two goes through the same slot
            have hidx := (sameBlock_iff.mp hb).2
            rcases Nat.lt_or_gt_of_ne heq with hlt' | hgt
            · have := lt_of_getIndex_lt (hb''.symm.trans (sameBlock_iff.mp hb).1) (hidx ▸ hlt')
              omega
            · have := lt_of_getIndex_lt hb'' hgt
              omega
      | none =>
        rw [hp] at hprev
        have hnone : ∀ k', SameBlock b h k k' → k' ≤ k → lookupSlot b (h + 1) node k' = none := by
          intro k' hb hle
          rw [lookupSlot_of_sameBlock hb hs]
          exact hprev k' hb hle
        by_cases hc : node.count = 1
        · simp only [hc, if_true]
          refine ⟨by simp, fun k' hb hle => ?_⟩
          by_cases heq : getIndex b k' h = getIndex b k h
          · exact hnone k' (sameBlock_iff.mpr ⟨hb, heq.symm⟩) hle
          · have hone := Int.ofNat.inj (hw.1.symm.trans hc)
            rw [lookupSlot_succ, eq_none_of_filled_one getIndex_lt (by rw [hs]; rfl) hone getIndex_lt heq]
            rfl
        · simp only [hc, if_false]
          exact searchBelow_spec hw hnone

theorem sameBlock_succ_of_one (hb : SameBlock b 1 k k') (h : Nat) : SameBlock b (h + 1) k k' := by
  induction h with
  | zero => exact hb
  | succ h ih => exact (sameBlock_iff.mp ih).1

/-- When no key stands in the last-level node of `k`, that node is not there. -/
theorem removeNode_eq_none {k : Nat} : ∀ {h : Nat} {node : RadixNode (RadixSlot ν h)}, WellCounted b (h + 1) node →
    (h = 0 → Occupied b (h + 1) node) → (∀ k', SameBlock b 1 k k' → lookupSlot b (h + 1) node k' = none) →
    removeNode b k h node = none
  | 0, node, hw, ho, hnone => by
    obtain ⟨v, k', -, hk', hl, -⟩ := lastValue_spec hw (ho rfl) (k / 2 ^ ((0 + 1) * b))
    rw [hnone k' hk'.symm] at hl
    cases hl
  | h + 1, node, hw, _, hnone => by
    cases hs : node.slots (getIndex b k (h + 1)) with
    | none => simp only [removeNode, hs]
    | some child =>
      obtain ⟨hwc, hoc⟩ := hw.2 _ getIndex_lt child hs
      simp only [removeNode, hs]
      rw [removeNode_eq_none hwc fun _ => hoc, Option.map_none]
      intro k' hb
      rw [← lookupSlot_of_sameBlock (sameBlock_succ_of_one hb h) hs]
      exact hnone k' hb

end Trees

/-! ## Runs -/

section Runs

variable {shape : RadixShape} {m : shape.Key → Option ν} {tree : RadixTree shape ν}

/-- The map after the call. -/
def RadixOp.describe (m : shape.Key → Option ν) : RadixOp shape ν → shape.Key → Option ν
  | insert key value => fun k => if k = key then some value else m k
  | remove key => fun k => if k = key then none else m k

/-- The map that the calls describe. -/
def describeRadixOps (ops : List (RadixOp shape ν)) : shape.Key → Option ν := ops.foldl RadixOp.describe fun _ => none

/-- `r` is the value of the greatest key in use that is not larger than `key`. -/
def IsPreviousValue (m : shape.Key → Option ν) (key : shape.Key) : Option ν → Prop
  | none => ∀ k ≤ key, m k = none
  | some v => ∃ k ≤ key, m k = some v ∧ ∀ k', k < k' → k' ≤ key → m k' = none

/-- The key of an insertion is not in use; the key of a removal is in use, or no key that differs from it in the
lowest level only is. -/
def RadixOp.Counted (m : shape.Key → Option ν) : RadixOp shape ν → Prop
  | insert key _ => m key = none
  | remove key => (m key).isSome ∨
    ∀ k : shape.Key, k.1 / 2 ^ shape.bitsPerLevel = key.1 / 2 ^ shape.bitsPerLevel → m k = none

/-- Every call of a run satisfies `RadixOp.Counted` when it is made. -/
def CountedRun : (shape.Key → Option ν) → List (RadixOp shape ν) → Prop
  | _, [] => True
  | m, op :: ops => op.Counted m ∧ CountedRun (op.describe m) ops

/-- The tree holds the map, with right counts. -/
structure Represents (tree : RadixTree shape ν) (m : shape.Key → Option ν) : Prop where
  counted : WellCounted shape.bitsPerLevel (shape.levels + 1) tree
  lookup : ∀ key, radixTreeLookup tree key = m key

variable (shape) in
theorem keyBits_le_levels : shape.keyBits ≤ (shape.levels + 1) * shape.bitsPerLevel := by
  have hb := shape.bits_pos
  have hlt := shape.bits_lt
  have hdiv := Nat.div_add_mod (shape.keyBits + shape.bitsPerLevel - 1) shape.bitsPerLevel
  have hmod := Nat.mod_lt (shape.keyBits + shape.bitsPerLevel - 1) hb
  have hpos : 0 < shape.levelCount := Nat.div_pos (by omega) hb
  have hcount : shape.levels + 1 = shape.levelCount := Nat.sub_add_cancel hpos
  rw [hcount, RadixShape.levelCount, mul_comm]
  omega

variable (shape) in
/-- The root is never a last-level node. -/
theorem levels_ne_zero : shape.levels ≠ 0 := by
  have hle := keyBits_le_levels shape
  have hlt := shape.bits_lt
  intro h
  rw [h] at hle
  omega

theorem sameBlock_keys (k k' : shape.Key) : SameBlock shape.bitsPerLevel (shape.levels + 1) k.1 k'.1 := by
  have hle : 2 ^ shape.keyBits ≤ 2 ^ ((shape.levels + 1) * shape.bitsPerLevel) :=
    Nat.pow_le_pow_right (by decide) (keyBits_le_levels shape)
  rw [SameBlock, Nat.div_eq_of_lt (lt_of_lt_of_le k.2 hle), Nat.div_eq_of_lt (lt_of_lt_of_le k'.2 hle)]

theorem represents_alloc : Represents (allocRadixTree : RadixTree shape ν) fun _ => none :=
  ⟨wellCounted_emptyNode, fun _ => rfl⟩

variable {key : shape.Key}

theorem Represents.insert {v : ν} (h : Represents tree m) (hkey : m key = none) :
    Represents (radixTreeInsert tree key v) ((RadixOp.insert key v).describe m) := by
  refine ⟨(wellCounted_insertNode h.counted ((h.lookup key).trans hkey)).1, fun k => ?_⟩
  refine (lookupSlot_insertNode (sameBlock_keys key k)).trans ?_
  simp only [RadixOp.describe, Fin.ext_iff]
  congr 1
  exact h.lookup k

theorem Represents.remove_present (h : Represents tree m) (hkey : (m key).isSome) :
    Represents (radixTreeRemove tree key) ((RadixOp.remove key).describe m) := by
  obtain ⟨tree', hrem, hw, hl⟩ := removeNode_present h.counted (k := key.1) (by rw [← h.lookup key] at hkey; exact hkey)
  have heq : radixTreeRemove tree key = tree' := by rw [radixTreeRemove, hrem]; rfl
  rw [heq]
  refine ⟨hw, fun k => (hl k.1 (sameBlock_keys key k)).trans ?_⟩
  simp only [RadixOp.describe, Fin.ext_iff]
  congr 1
  exact h.lookup k

theorem lt_of_sameBlock_one (hb : SameBlock shape.bitsPerLevel 1 key.1 k) : k < 2 ^ shape.keyBits := by
  have hsplit : 2 ^ shape.keyBits = 2 ^ (shape.keyBits - shape.bitsPerLevel) * 2 ^ shape.bitsPerLevel := by
    rw [← Nat.pow_add, Nat.sub_add_cancel (le_of_lt shape.bits_lt)]
  have hkey : key.1 / 2 ^ shape.bitsPerLevel < 2 ^ (shape.keyBits - shape.bitsPerLevel) := by
    rw [Nat.div_lt_iff_lt_mul (Nat.two_pow_pos _), ← hsplit]
    exact key.2
  rw [SameBlock, Nat.one_mul] at hb
  rw [hb, Nat.div_lt_iff_lt_mul (Nat.two_pow_pos _), ← hsplit] at hkey
  exact hkey

section

variable (h : Represents tree m)

include h

theorem Represents.remove_absent
    (hkey : ∀ k : shape.Key, k.1 / 2 ^ shape.bitsPerLevel = key.1 / 2 ^ shape.bitsPerLevel → m k = none) :
    Represents (radixTreeRemove tree key) ((RadixOp.remove key).describe m) := by
  have hnone : ∀ k, SameBlock shape.bitsPerLevel 1 key.1 k →
      lookupSlot shape.bitsPerLevel (shape.levels + 1) tree k = none := by
    intro k hb
    refine (h.lookup ⟨k, lt_of_sameBlock_one hb⟩).trans (hkey _ ?_)
    rw [SameBlock, Nat.one_mul] at hb
    exact hb.symm
  have hrem : radixTreeRemove tree key = tree := by
    rw [radixTreeRemove, removeNode_eq_none h.counted (fun h0 => absurd h0 (levels_ne_zero shape)) hnone]
    rfl
  rw [hrem]
  refine ⟨h.counted, fun k => (h.lookup k).trans ?_⟩
  by_cases hk : k = key
  · simp [RadixOp.describe, hk, hkey key rfl]
  · simp [RadixOp.describe, hk]

theorem Represents.step {op : RadixOp shape ν} (hop : op.Counted m) : Represents (op.apply tree) (op.describe m) := by
  cases op with
  | insert key v => exact h.insert hop
  | remove key => exact hop.elim h.remove_present h.remove_absent

theorem Represents.run {ops : List (RadixOp shape ν)} (hops : CountedRun m ops) :
    Represents (ops.foldl RadixOp.apply tree) (ops.foldl RadixOp.describe m) := by
  induction ops generalizing tree m with
  | nil => exact h
  | cons op ops ih => exact ih (h.step hops.1) hops.2

theorem Represents.lookupPrev (key : shape.Key) : IsPreviousValue m key (radixTreeLookupPrev tree key) := by
  have hprev := (previousSlot_spec (k := key.1) h.counted).2
  rw [radixTreeLookupPrev]
  cases hr : (previousSlot shape.bitsPerLevel (shape.levels + 1) tree key).join with
  | none =>
    rw [hr] at hprev
    intro k hk
    rw [← h.lookup k]
    exact hprev k.1 (sameBlock_keys key k) hk
  | some v =>
    rw [hr] at hprev
    obtain ⟨k, -, hle, hl, hmax⟩ := hprev
    refine ⟨⟨k, lt_of_le_of_lt hle key.2⟩, hle, (h.lookup _).symm.trans hl, fun k' hlt hle' => ?_⟩
    rw [← h.lookup k']
    exact hmax k'.1 (sameBlock_keys key k') hlt hle'

end

/-- **The tree is the map that its calls describe**, with its lookups, after every run in which no key is inserted
while it is in use and no key is removed while it is not and its last-level node is there. -/
theorem radixTree_refines (ops : List (RadixOp shape ν)) (hops : CountedRun (fun _ => none) ops) (key : shape.Key) :
    radixTreeLookup (runRadixOps ops) key = describeRadixOps ops key ∧
      IsPreviousValue (describeRadixOps ops) key (radixTreeLookupPrev (runRadixOps ops) key) :=
  have h := represents_alloc.run hops
  ⟨h.lookup key, h.lookupPrev key⟩

end Runs

/-! ## The compiled method map -/

section CuMap

/-- The tree of `jit/cu-mapping.c`. -/
def cuMapShape : RadixShape := ⟨6, 64, by decide, by decide, by decide⟩

/-- Two keys of one last-level node and one of another, of which one is removed again. -/
def cuMapRun : List (RadixOp cuMapShape Nat) := [.insert 128 1, .insert 3 2, .insert 5 3, .remove 128]

theorem radixTree_refines_cuMapRun : CountedRun (fun _ => none) cuMapRun ∧
    radixTreeLookup (runRadixOps cuMapRun) 5 = describeRadixOps cuMapRun 5 ∧
      IsPreviousValue (describeRadixOps cuMapRun) 5 (radixTreeLookupPrev (runRadixOps cuMapRun) 5) :=
  have h : CountedRun (fun _ => none) cuMapRun := ⟨rfl, rfl, rfl, .inl rfl, trivial⟩
  ⟨h, radixTree_refines cuMapRun h 5⟩

/-- Removing an absent key frees the node of a key that is in use. -/
def removeAbsentRun : List (RadixOp cuMapShape Nat) := [.insert 5 1, .remove 6]

/-- After a key is inserted twice, its removal leaves an empty node, and a search for a smaller key ends there. -/
def insertTwiceRun : List (RadixOp cuMapShape Nat) := [.insert 5 1, .insert 200 2, .insert 200 3, .remove 200]

theorem radixTree_loses_keys :
    (radixTreeLookup (runRadixOps removeAbsentRun) 5 = none ∧ describeRadixOps removeAbsentRun 5 = some 1) ∧
      radixTreeLookupPrev (runRadixOps insertTwiceRun) 300 = none ∧
        ¬ IsPreviousValue (describeRadixOps insertTwiceRun) 300 none :=
  ⟨⟨rfl, rfl⟩, rfl, fun h => absurd (h 5 (by decide)) (by decide)⟩

end CuMap

end Jato.Lib
