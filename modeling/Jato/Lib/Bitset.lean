import Mathlib.Tactic.Common

/-!
# Bit sets

`lib/bitset.c` on words of `BITS_PER_LONG = 64` bits. A set is as long as its words: `testBit` of a bit past the last
word reads the memory behind the set, whatever stands there (`behind`), since the C code does not check the index.
-/

namespace Jato.Lib

structure Bitset where
  nrBits : Nat
  bits : List (BitVec 64)
deriving DecidableEq, Repr

/-- An empty set with room for `nrBits` bits, rounded up to whole words. -/
def allocBitset (nrBits : Nat) : Bitset := ⟨nrBits, List.replicate ((nrBits + 63) / 64) 0⟩

def bitMask (bit : Nat) : BitVec 64 := 1#64 <<< (bit % 64)

def setBit (s : Bitset) (bit : Nat) : Bitset := { s with bits := s.bits.modify (bit / 64) (· ||| bitMask bit) }

def testBit (behind : Nat → Bool) (s : Bitset) (bit : Nat) : Bool :=
  match s.bits[bit / 64]? with
  | some word => word &&& bitMask bit != 0
  | none => behind bit

/-- The union of two sets of the same size, in `dest`. -/
def bitsetUnionTo (src dest : Bitset) : Bitset := { dest with bits := List.zipWith (· ||| ·) dest.bits src.bits }

/-- The members of `dest` that are not in `src`, which has the same size. -/
def bitsetSub (src dest : Bitset) : Bitset := { dest with bits := List.zipWith (· &&& ~~~·) dest.bits src.bits }

def bitsetClearAll (s : Bitset) : Bitset := { s with bits := s.bits.map fun _ => 0 }

/-- The number of bits that have a word. -/
def Bitset.capacity (s : Bitset) : Nat := 64 * s.bits.length

/-! ## Bits of words -/

theorem getLsbD_bitMask (bit : Nat) {i : Nat} (hi : i < 64) : (bitMask bit).getLsbD i = decide (i = bit % 64) := by
  simp only [bitMask, BitVec.getLsbD_shiftLeft, BitVec.getLsbD_one]
  rw [Bool.eq_iff_iff]
  simp only [Bool.and_eq_true, decide_eq_true_eq, Bool.not_eq_true', decide_eq_false_iff_not]
  omega

theorem and_bitMask (w : BitVec 64) (bit : Nat) : (w &&& bitMask bit != 0) = w.getLsbD (bit % 64) := by
  have hlt : bit % 64 < 64 := Nat.mod_lt _ (by decide)
  rw [Bool.eq_iff_iff, bne_iff_ne, ne_eq]
  constructor
  · intro h
    by_contra hb
    apply h
    apply BitVec.eq_of_getLsbD_eq
    intro i hi
    rw [BitVec.getLsbD_and, getLsbD_bitMask bit hi]
    by_cases hib : i = bit % 64
    · subst hib; simpa using hb
    · simp [hib]
  · intro hb h
    have hbit := congrArg (fun v => v.getLsbD (bit % 64)) h
    simp only [BitVec.getLsbD_and, getLsbD_bitMask bit hlt, hb] at hbit
    simp at hbit

/-! ## Setting and testing -/

variable {behind : Nat → Bool} {s : Bitset}

@[simp] theorem setBit_capacity (s : Bitset) (bit : Nat) : (setBit s bit).capacity = s.capacity := by
  simp [setBit, Bitset.capacity]

theorem lt_capacity_alloc {n bit : Nat} (h : bit < n) : bit < (allocBitset n).capacity := by
  simp only [allocBitset, Bitset.capacity, List.length_replicate]
  omega

theorem testBit_alloc {n bit : Nat} (h : bit < (allocBitset n).capacity) :
    testBit behind (allocBitset n) bit = false := by
  simp only [allocBitset, Bitset.capacity, List.length_replicate] at h
  have hw : bit / 64 < (n + 63) / 64 := by omega
  simp [testBit, allocBitset, hw]

/-- After `setBit`, exactly one more bit tests true. -/
theorem testBit_setBit {bit b : Nat} (hb : bit < s.capacity) :
    testBit behind (setBit s b) bit = (testBit behind s bit || decide (bit = b)) := by
  have hlt : bit / 64 < s.bits.length := by simp only [Bitset.capacity] at hb; omega
  simp only [testBit, setBit, List.getElem?_modify, List.getElem?_eq_getElem hlt]
  by_cases hw : b / 64 = bit / 64
  · simp only [hw, if_true, Option.map_eq_map, Option.map_some, and_bitMask, BitVec.getLsbD_or,
      getLsbD_bitMask b (Nat.mod_lt bit (by decide))]
    congr 1
    rw [decide_eq_decide]
    omega
  · have hne : bit ≠ b := fun e => hw (by rw [e])
    simp [hw, hne]

end Jato.Lib
