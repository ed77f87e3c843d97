import Jato.Jit.Interval

/-!
# Copies between arrays

`java_lang_VMSystem_arraycopy` of `runtime/java_lang_VMSystem.c` on a 64-bit machine. The elements of an array are bytes
behind its header, `vmtype_get_size` of them for each element. The positions, the length and the byte offsets are
`int`s, with sums and products modulo `2 ^ 32`: the index test accepts some ranges that end beyond `2 ^ 31`, and the
offsets of elements from `2 ^ 28` on are wrong. `arraycopy_correct_iff` says for which calls the copy is right whatever
the arrays hold.
-/

namespace Jato.Runtime

open Jato.Jit (VmType)

/-- `vmtype_get_size`: all but longs and doubles take an `unsigned long`. -/
def vmtypeGetSize (t : VmType) : Nat :=
  if t = .double ∨ t = .long then 8 else 8

abbrev Ref := Nat

/-- A class, with the storage type of its array element class if that is not `NULL`. -/
structure VmClass where
  isArrayClass : Bool
  elementType : Option VmType

structure VmObject where
  class_ : Option VmClass
  arrayLength : Int32

/-- The bytes behind the headers of the objects. -/
abbrev Memory := Ref → Nat → UInt8

/-- How many bytes the elements of an object take. -/
def VmObject.elemsSize (o : VmObject) : Nat :=
  match o.class_ with
  | some ⟨true, some t⟩ => o.arrayLength.toNatClampNeg * vmtypeGetSize t
  | _ => 0

inductive ExceptionClass
  | nullPointerException
  | arrayStoreException
  | arrayIndexOutOfBoundsException
deriving DecidableEq

/-- A call signals an exception, returns, or accesses bytes that are not those of its arrays. -/
inductive Outcome
  | exception (e : ExceptionClass)
  | returned (mem : Memory)
  | fault

/-- `memmove` of `n` bytes from the offset `s` in the elements of `src` to the offset `d` in those of `dest`. -/
def memmove (objects : Ref → VmObject) (mem : Memory) (dest : Ref) (d : Int) (src : Ref) (s : Int) (n : Nat) : Outcome :=
  if n = 0 then .returned mem
  else if 0 ≤ d ∧ d + n ≤ (objects dest).elemsSize ∧ 0 ≤ s ∧ s + n ≤ (objects src).elemsSize then
    .returned fun r b => if r = dest ∧ d ≤ b ∧ b < d + n then mem src (s + (b - d)).toNat else mem r b
  else .fault

/-- A conversion to `size_t`. -/
def toSizeT (x : Int32) : Nat := (x.toInt % 2 ^ 64).toNat

def arraycopy (objects : Ref → VmObject) (mem : Memory) (src : Option Ref) (srcStart : Int32) (dest : Option Ref)
    (destStart len : Int32) : Outcome :=
  match src, dest with
  | some src, some dest =>
    match (objects src).class_, (objects dest).class_ with
    | some srcClass, some destClass =>
      if !srcClass.isArrayClass || !destClass.isArrayClass then .exception .arrayStoreException
      else
        match srcClass.elementType, destClass.elementType with
        | some elemType, some destElemType =>
          if elemType ≠ destElemType then .exception .arrayStoreException
          else if len < 0 ∨ srcStart < 0 ∨ srcStart + len > (objects src).arrayLength ∨
              destStart < 0 ∨ destStart + len > (objects dest).arrayLength then
            .exception .arrayIndexOutOfBoundsException
          else
            let elemSize := Int32.ofNat (vmtypeGetSize elemType)
            memmove objects mem dest (destStart * elemSize).toInt src (srcStart * elemSize).toInt (toSizeT (len * elemSize))
        | _, _ => .exception .nullPointerException
    | _, _ => .exception .nullPointerException
  | _, _ => .exception .nullPointerException

/-! ## What a copy is for -/

section

variable {objects : Ref → VmObject} {src dest : Ref} {t t' : VmType} (srcStart destStart len : Int32)

/-- An array with elements of a type. -/
structure VmObject.IsArray (o : VmObject) (t : VmType) : Prop where
  class_eq : o.class_ = some ⟨true, some t⟩
  length_nonneg : 0 ≤ o.arrayLength.toInt

/-- The two ranges lie in their arrays. -/
structure InRange (srcLength destLength : Int32) : Prop where
  nonneg : 0 ≤ len.toInt
  src : 0 ≤ srcStart.toInt ∧ srcStart.toInt + len.toInt ≤ srcLength.toInt
  dest : 0 ≤ destStart.toInt ∧ destStart.toInt + len.toInt ≤ destLength.toInt

/-- The range of elements of `size` bytes copied through a temporary; all other elements are the same. -/
def copyRange (mem : Memory) (size : Nat) (src dest : Ref) : Memory := fun r b =>
  let i : Int := (b / size : Nat)
  if r = dest ∧ destStart.toInt ≤ i ∧ i < destStart.toInt + len.toInt then
    mem src ((srcStart.toInt + (i - destStart.toInt)).toNat * size + b % size)
  else mem r b

/-- An index exception says that a range is not in its array, and ranges in arrays of the same type are copied. -/
structure Correct (objects : Ref → VmObject) (mem : Memory) (src dest : Ref) (t t' : VmType) : Prop where
  index : arraycopy objects mem (some src) srcStart (some dest) destStart len =
      .exception .arrayIndexOutOfBoundsException ↔
    ¬ InRange srcStart destStart len (objects src).arrayLength (objects dest).arrayLength
  copies : InRange srcStart destStart len (objects src).arrayLength (objects dest).arrayLength → t = t' →
    arraycopy objects mem (some src) srcStart (some dest) destStart len =
      .returned (copyRange srcStart destStart len mem (vmtypeGetSize t) src dest)

/-- What the index test rejects. -/
def Rejected (srcLength destLength : Int32) : Prop :=
  len.toInt < 0 ∨ srcStart.toInt < 0 ∨ destStart.toInt < 0 ∨
    srcLength.toInt < srcStart.toInt + len.toInt ∧ srcStart.toInt + len.toInt < 2 ^ 31 ∨
    destLength.toInt < destStart.toInt + len.toInt ∧ destStart.toInt + len.toInt < 2 ^ 31

/-! ## The tests -/

@[simp] theorem vmtypeGetSize_eq (t : VmType) : vmtypeGetSize t = 8 := by
  unfold vmtypeGetSize
  split_ifs <;> rfl

theorem VmObject.IsArray.elemsSize_eq {o : VmObject} (h : o.IsArray t) : (o.elemsSize : Int) = o.arrayLength.toInt * 8 := by
  have hlen := h.length_nonneg
  rw [VmObject.elemsSize, h.class_eq]
  simp only [vmtypeGetSize_eq, Int32.toNatClampNeg]
  omega

theorem add_gt_iff {a b l : Int32} (ha : 0 ≤ a.toInt) (hb : 0 ≤ b.toInt) (hl : 0 ≤ l.toInt) :
    a + b > l ↔ l.toInt < a.toInt + b.toInt ∧ a.toInt + b.toInt < 2 ^ 31 := by
  have ha' := a.toInt_lt
  have hb' := b.toInt_lt
  rw [gt_iff_lt, Int32.lt_iff_toInt_lt, Int32.toInt_add]
  simp only [Int.bmod]
  split_ifs <;> omega

variable {destLength srcLength : Int32} {mem : Memory} {d s : Int} {n : Nat}

theorem rejected_iff (hsrc : 0 ≤ srcLength.toInt) (hdest : 0 ≤ destLength.toInt) :
    (len < 0 ∨ srcStart < 0 ∨ srcStart + len > srcLength ∨ destStart < 0 ∨ destStart + len > destLength) ↔
      Rejected srcStart destStart len srcLength destLength := by
  have hneg (x : Int32) : x < 0 ↔ x.toInt < 0 := Int32.lt_iff_toInt_lt
  simp only [Rejected, hneg]
  by_cases hlen : len.toInt < 0
  · simp [hlen]
  by_cases hs : srcStart.toInt < 0
  · simp [hs]
  by_cases hd : destStart.toInt < 0
  · simp [hd]
  rw [add_gt_iff (by omega) (by omega) hsrc, add_gt_iff (by omega) (by omega) hdest]
  simp [hlen, hs, hd]

theorem InRange.not_rejected (h : InRange srcStart destStart len srcLength destLength) :
    ¬ Rejected srcStart destStart len srcLength destLength := by
  obtain ⟨hlen, hsrc, hdest⟩ := h
  unfold Rejected
  omega

/-- A byte offset as the code computes it. -/
theorem toInt_mul_ofNat_eight (x : Int32) : (x * Int32.ofNat 8).toInt = (x.toInt * 8).bmod (2 ^ 32) := by
  rw [Int32.toInt_mul]
  rfl

theorem arraycopy_eq (hsrc : (objects src).IsArray t) (hdest : (objects dest).IsArray t') (mem : Memory) :
    arraycopy objects mem (some src) srcStart (some dest) destStart len = if t ≠ t' then .exception .arrayStoreException
      else if len < 0 ∨ srcStart < 0 ∨ srcStart + len > (objects src).arrayLength ∨
          destStart < 0 ∨ destStart + len > (objects dest).arrayLength then .exception .arrayIndexOutOfBoundsException
      else memmove objects mem dest ((destStart.toInt * 8).bmod (2 ^ 32)) src ((srcStart.toInt * 8).bmod (2 ^ 32))
        (toSizeT (len * Int32.ofNat 8)) := by
  simp only [arraycopy, hsrc.class_eq, hdest.class_eq, vmtypeGetSize_eq, toInt_mul_ofNat_eight]
  rfl

theorem memmove_ne_exception {e : ExceptionClass} : memmove objects mem dest d src s n ≠ .exception e := by
  unfold memmove
  split_ifs <;> simp

/-! ## The moved bytes -/

/-- The offsets agree modulo `2 ^ 29` elements, and the upper half of them is negative. -/
theorem mul_eight_bmod (x : Int) :
    (x * 8).bmod (2 ^ 32) = if x % 2 ^ 29 < 2 ^ 28 then x % 2 ^ 29 * 8 else (x % 2 ^ 29 - 2 ^ 29) * 8 := by
  simp only [Int.bmod]
  split_ifs <;> omega

theorem toSizeT_mul_eight (x : Int32) : (toSizeT (x * Int32.ofNat 8) : Int) =
    if x.toInt % 2 ^ 29 < 2 ^ 28 then x.toInt % 2 ^ 29 * 8 else 2 ^ 64 + (x.toInt % 2 ^ 29 - 2 ^ 29) * 8 := by
  rw [toSizeT, toInt_mul_ofNat_eight, mul_eight_bmod]
  split_ifs <;> omega

theorem memmove_eq_returned {mem' : Memory}
    (h : memmove objects mem dest d src s n = .returned mem') : n = 0 ∧ mem' = mem ∨
      n ≠ 0 ∧ (0 ≤ d ∧ d + n ≤ (objects dest).elemsSize ∧ 0 ≤ s ∧ s + n ≤ (objects src).elemsSize) ∧
        mem' = fun r (b : Nat) => if r = dest ∧ d ≤ b ∧ b < d + n then mem src (s + (b - d)).toNat else mem r b := by
  unfold memmove at h
  split_ifs at h with hzero hbounds
  · exact .inl ⟨hzero, (Outcome.returned.inj h).symm⟩
  · exact .inr ⟨hzero, hbounds, (Outcome.returned.inj h).symm⟩

theorem copyRange_self (mem : Memory) (r : Ref) : copyRange srcStart srcStart len mem 8 r r = mem := by
  funext r' b
  simp only [copyRange]
  split_ifs with h
  · obtain ⟨rfl, hle, -⟩ := h
    congr 1
    omega
  · rfl

theorem copyRange_zero (mem : Memory) (hlen : len.toInt = 0) : copyRange srcStart destStart len mem 8 src dest = mem := by
  funext r b
  exact if_neg (by omega)

/-- The positions and lengths whose byte offsets are right, or do not matter: nothing is moved, or a range is moved to
itself. -/
def OffsetsOk (src dest : Ref) : Prop :=
  len.toInt = 0 ∨ srcStart.toInt < 2 ^ 28 ∧ destStart.toInt < 2 ^ 28 ∧ len.toInt < 2 ^ 28 ∨
    src = dest ∧ srcStart = destStart ∧
      (len.toInt % 2 ^ 29 = 0 ∨ len.toInt % 2 ^ 29 < 2 ^ 28 ∧ srcStart.toInt % 2 ^ 29 < 2 ^ 28)

variable {srcStart destStart len}

theorem memmove_eq_copyRange (hsrc : (objects src).IsArray t) (hdest : (objects dest).IsArray t') (mem : Memory)
    (hin : InRange srcStart destStart len (objects src).arrayLength (objects dest).arrayLength)
    (hok : OffsetsOk srcStart destStart len src dest) :
    memmove objects mem dest ((destStart.toInt * 8).bmod (2 ^ 32)) src ((srcStart.toInt * 8).bmod (2 ^ 32))
      (toSizeT (len * Int32.ofNat 8)) = .returned (copyRange srcStart destStart len mem 8 src dest) := by
  have hn := toSizeT_mul_eight len
  have hs := hsrc.elemsSize_eq
  have hd := hdest.elemsSize_eq
  obtain ⟨hlen, hsrc, hdest⟩ := hin
  rw [mul_eight_bmod, mul_eight_bmod]
  generalize toSizeT (len * Int32.ofNat 8) = n at *
  rcases hok with hzero | ⟨hs', hd', hlen'⟩ | ⟨rfl, rfl, hself⟩
  · rw [copyRange_zero _ _ _ _ hzero]
    exact if_pos (by omega)
  · have hmods : srcStart.toInt % 2 ^ 29 = srcStart.toInt := Int.emod_eq_of_lt hsrc.1 (by omega)
    have hmodd : destStart.toInt % 2 ^ 29 = destStart.toInt := Int.emod_eq_of_lt hdest.1 (by omega)
    have hmodn : len.toInt % 2 ^ 29 = len.toInt := Int.emod_eq_of_lt hlen (by omega)
    rw [hmodn, if_pos hlen'] at hn
    rw [hmods, hmodd, if_pos hs', if_pos hd', memmove]
    split_ifs with hzero hbounds
    · rw [copyRange_zero _ _ _ _ (by omega)]
    · congr 1
      funext r b
      have hiff : (r = dest ∧ destStart.toInt * 8 ≤ b ∧ (b : Int) < destStart.toInt * 8 + n) ↔
          r = dest ∧ destStart.toInt ≤ (b / 8 : Nat) ∧ (b / 8 : Nat) < destStart.toInt + len.toInt :=
        and_congr_right fun _ => by omega
      simp only [copyRange, hiff]
      split_ifs
      · congr 1
        omega
      · rfl
    · omega
  · rw [copyRange_self, memmove]
    split_ifs with hzero hbounds hbounds
    · rfl
    · congr 1
      funext r b
      split_ifs with hr
      · rw [hr.1]
        congr 1
        omega
      · rfl
    · omega
    · omega
    · omega

/-- A memory with one marked element. -/
def marked (r : Ref) (i : Int) : Memory := fun r' b => if r' = r ∧ (b / 8 : Nat) = i then 1 else 0

theorem memmove_marked (hsrc : (objects src).IsArray t) (hdest : (objects dest).IsArray t') {k : Int} (hk : 0 ≤ k)
    (hlt : k < len.toInt) (hin : InRange srcStart destStart len (objects src).arrayLength (objects dest).arrayLength)
    (h : memmove objects (marked src (srcStart.toInt + k)) dest ((destStart.toInt * 8).bmod (2 ^ 32)) src
      ((srcStart.toInt * 8).bmod (2 ^ 32)) (toSizeT (len * Int32.ofNat 8)) =
        .returned (copyRange srcStart destStart len (marked src (srcStart.toInt + k)) 8 src dest)) :
    (src = dest ∧ srcStart = destStart ∧
      (len.toInt % 2 ^ 29 = 0 ∨ len.toInt % 2 ^ 29 < 2 ^ 28 ∧ srcStart.toInt % 2 ^ 29 < 2 ^ 28)) ∨
    (srcStart.toInt % 2 ^ 29 < 2 ^ 28 ∧ destStart.toInt % 2 ^ 29 < 2 ^ 28 ∧ len.toInt % 2 ^ 29 < 2 ^ 28 ∧
      destStart.toInt + k < destStart.toInt % 2 ^ 29 + len.toInt % 2 ^ 29 ∧
      srcStart.toInt % 2 ^ 29 - destStart.toInt % 2 ^ 29 = srcStart.toInt - destStart.toInt) := by
  have hn := toSizeT_mul_eight len
  have hs := hsrc.elemsSize_eq
  have hd := hdest.elemsSize_eq
  have hl := (objects src).arrayLength.toInt_lt
  obtain ⟨hlen, hsrc, hdest⟩ := hin
  rw [mul_eight_bmod, mul_eight_bmod] at h
  -- the first byte of the element that gets the mark
  have hbyte : (((destStart.toInt + k) * 8).toNat / 8 : Nat) = destStart.toInt + k := by omega
  have hcopied : copyRange srcStart destStart len (marked src (srcStart.toInt + k)) 8 src dest dest
      ((destStart.toInt + k) * 8).toNat = 1 := by
    simp only [copyRange, hbyte]
    rw [if_pos ⟨trivial, by omega, by omega⟩, marked, if_pos ⟨rfl, by omega⟩]
  have hmark {r} {b} (hb : marked src (srcStart.toInt + k) r b = 1) :
      r = src ∧ (b / 8 : Nat) = srcStart.toInt + k := by
    by_contra hne
    rw [marked, if_neg hne] at hb
    cases hb
  have hself (hb : marked src (srcStart.toInt + k) dest ((destStart.toInt + k) * 8).toNat = 1) :
      src = dest ∧ srcStart = destStart := by
    obtain ⟨hr, hi⟩ := hmark hb
    exact ⟨hr.symm, Int32.toInt_inj.mp (by omega)⟩
  rcases memmove_eq_returned h with ⟨hzero, hmem⟩ | ⟨hne, ⟨hd₀, hd₁, hs₀, hs₁⟩, hmem⟩
  · rw [hmem] at hcopied
    obtain ⟨hr, hi⟩ := hself hcopied
    exact .inl ⟨hr, hi, .inl (by split_ifs at hn <;> omega)⟩
  · have hlen' : len.toInt % 2 ^ 29 < 2 ^ 28 := by
      by_contra hge
      rw [if_neg hge] at hn
      omega
    have hss : srcStart.toInt % 2 ^ 29 < 2 ^ 28 := by
      by_contra hge
      rw [if_neg hge] at hs₀
      omega
    have hds : destStart.toInt % 2 ^ 29 < 2 ^ 28 := by
      by_contra hge
      rw [if_neg hge] at hd₀
      omega
    rw [hmem, if_pos hss, if_pos hds] at hcopied
    rw [if_pos hlen'] at hn
    simp only at hcopied
    split_ifs at hcopied with hin
    · obtain ⟨-, hi⟩ := hmark hcopied
      exact .inr ⟨hss, hds, hlen', by omega, by omega⟩
    · obtain ⟨hr, hi⟩ := hself hcopied
      exact .inl ⟨hr, hi, .inr ⟨hlen', hss⟩⟩

theorem offsetsOk_of_memmove (hsrc : (objects src).IsArray t) (hdest : (objects dest).IsArray t')
    (hin : InRange srcStart destStart len (objects src).arrayLength (objects dest).arrayLength)
    (h : ∀ mem, memmove objects mem dest ((destStart.toInt * 8).bmod (2 ^ 32)) src
      ((srcStart.toInt * 8).bmod (2 ^ 32)) (toSizeT (len * Int32.ofNat 8)) =
        .returned (copyRange srcStart destStart len mem 8 src dest)) : OffsetsOk srcStart destStart len src dest := by
  have hlen := hin.nonneg
  have hd := hin.dest.1
  by_cases hzero : len.toInt = 0
  · exact .inl hzero
  -- the first and the last element of the range
  rcases memmove_marked hsrc hdest (Int.le_refl 0) (by omega) hin (h _) with hself | ⟨hss, hds, hlen', hfirst, hdiff⟩
  · exact .inr (.inr hself)
  rcases memmove_marked hsrc hdest (k := len.toInt - 1) (by omega) (by omega) hin (h _) with
    hself | ⟨-, -, -, hlast, -⟩
  · exact .inr (.inr hself)
  · exact .inr (.inl (by omega))

/-! ## Correct copies -/

/-- **`arraycopy`** is right for all contents of the two arrays exactly if no sum in the index test wraps to an accepted
one, no byte offset that matters wraps, and arrays of different types come with ranges that lie in them. -/
theorem arraycopy_correct_iff (hsrc : (objects src).IsArray t) (hdest : (objects dest).IsArray t') :
    (∀ mem, Correct srcStart destStart len objects mem src dest t t') ↔
      (InRange srcStart destStart len (objects src).arrayLength (objects dest).arrayLength → t = t' →
        OffsetsOk srcStart destStart len src dest) ∧
      (¬ InRange srcStart destStart len (objects src).arrayLength (objects dest).arrayLength →
        t = t' ∧ Rejected srcStart destStart len (objects src).arrayLength (objects dest).arrayLength) := by
  have htest := rejected_iff srcStart destStart len hsrc.length_nonneg hdest.length_nonneg
  have heq := arraycopy_eq srcStart destStart len hsrc hdest
  constructor
  · intro h
    constructor
    · rintro hin rfl
      refine offsetsOk_of_memmove hsrc hdest hin fun mem => ?_
      have hcopy := (h mem).copies hin rfl
      rw [heq, if_neg (not_not.mpr rfl), if_neg (mt htest.mp hin.not_rejected), vmtypeGetSize_eq] at hcopy
      exact hcopy
    · intro hout
      have hindex := (h fun _ _ => 0).index.mpr hout
      rw [heq] at hindex
      split_ifs at hindex with htypes hrejected
      · cases hindex
      · exact ⟨not_not.mp htypes, htest.mp hrejected⟩
      · exact absurd hindex memmove_ne_exception
  · rintro ⟨hoffsets, hrejected⟩ mem
    refine ⟨⟨fun hindex hin => ?_, fun hout => ?_⟩, ?_⟩
    · rw [heq, if_neg (mt htest.mp hin.not_rejected)] at hindex
      split_ifs at hindex
      · cases hindex
      · exact memmove_ne_exception hindex
    · obtain ⟨rfl, htrue⟩ := hrejected hout
      rw [heq, if_neg (not_not.mpr rfl), if_pos (htest.mpr htrue)]
    · rintro hin rfl
      rw [heq, if_neg (not_not.mpr rfl), if_neg (mt htest.mp hin.not_rejected), vmtypeGetSize_eq]
      exact memmove_eq_copyRange hsrc hdest mem hin (hoffsets hin rfl)

end

/-- Arrays of four references. -/
def fourReferences : Ref → VmObject := fun _ => ⟨some ⟨true, some .reference⟩, 4⟩

theorem fourReferences_isArray (r : Ref) : (fourReferences r).IsArray .reference :=
  ⟨rfl, show (0 : Int) ≤ (4 : Int32).toInt by decide⟩

theorem arraycopy_correct_overlapping : Correct 0 1 3 fourReferences (fun _ _ => 0) 0 0 .reference .reference := by
  refine (arraycopy_correct_iff (fourReferences_isArray 0) (fourReferences_isArray 0)).mpr ⟨?_, ?_⟩ _
  · intro _ _
    exact .inr (.inl (by decide))
  · intro h
    exact absurd ⟨by decide, by decide, by decide⟩ h

/-- The end of the source range wraps, and the call reads in front of the elements. -/
theorem not_arraycopy_correct_wrapped :
    ¬ Correct 0x7fffffff 0 1 fourReferences (fun _ _ => 0) 0 1 .reference .reference := by
  intro h
  have hout : ¬ InRange 0x7fffffff 0 1 (fourReferences 0).arrayLength (fourReferences 1).arrayLength :=
    fun hin => absurd hin.src.2 (by decide)
  have hfault : arraycopy fourReferences (fun _ _ => 0) (some 0) 0x7fffffff (some 1) 0 1 = .fault := by rfl
  exact absurd (hfault.symm.trans (h.index.mpr hout)) (by simp)

end Jato.Runtime
