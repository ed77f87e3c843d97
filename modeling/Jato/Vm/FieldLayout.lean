import Jato.Jit.Interval
import Jato.Lib.Bump
import Mathlib.Data.BitVec

/-!
# Offsets of fields

The part of `vm_class_link` of `vm/class.c` that gives the fields of a class their offsets, for a chain of superclasses
that are linked one after the other. A class goes on where the object and the static area of its superclass end, with
its fields in the order of their types. Sizes and offsets are `unsigned int`s.

The structures of fields come from `vm_alloc`, which returns zeroed memory with the Boehm collector, the default one. So
a field with the descriptor `V`, which `parse_field_type` accepts and whose bucket is never laid out, has the offset zero
and no bytes. (With `-Xnewgc`, where the memory is not cleared, its offset is whatever was there; that is left out.) The
sizes are not checked: `layoutCorrect_iff` says that the layout is right exactly if they stay below `2 ^ 32`.
-/

namespace Jato.Vm.FieldLayout

open List

open Jato.Jit (VmType)
open Jato.Lib.Bump

/-! ## The code -/

/-- `sizeof(void *)`. -/
inductive WordSize
  | four
  | eight
deriving DecidableEq, Repr

def WordSize.bytes : WordSize → Nat
  | .four => 4
  | .eight => 8

structure VmField where
  isStatic : Bool
  vmType : VmType
deriving DecidableEq, Repr

/-- A field, by the number of superclasses of its class and its index in the class. -/
abbrev FieldRef := Nat × Nat

/-- The `offset`s of the fields. -/
abbrev Offsets := FieldRef → UInt32

/-- `ALIGN`. -/
def align (x a : UInt32) : UInt32 := (x + a - 1) &&& ~~~(a - 1)

def bucketOrderFields (bucket : List FieldRef) (size : UInt32) (s : Offsets × UInt32) : Offsets × UInt32 :=
  bucket.foldl (fun s ref => (Function.update s.1 ref s.2, s.2 + size)) s

def bucketsOrderFields (w : WordSize) (buckets : VmType → List FieldRef) (s : Offsets × UInt32) : Offsets × UInt32 :=
  let s := (s.1, align s.2 (.ofNat w.bytes))
  let s := bucketOrderFields (buckets .reference) (.ofNat w.bytes) s
  let s := (s.1, align s.2 8)
  let s := bucketOrderFields (buckets .double) 8 s
  let s := bucketOrderFields (buckets .long) 8 s
  let s := bucketOrderFields (buckets .float) 4 s
  let s := bucketOrderFields (buckets .int) 4 s
  let s := bucketOrderFields (buckets .short) 4 s
  let s := bucketOrderFields (buckets .char) 4 s
  let s := bucketOrderFields (buckets .byte) 4 s
  bucketOrderFields (buckets .boolean) 4 s

/-- The static or the other fields of one type, for a class with `c` superclasses. -/
def fieldBucket (fields : List VmField) (c : Nat) (isStatic : Bool) (t : VmType) : List FieldRef :=
  (fields.zipIdx.filter fun p => p.1.isStatic = isStatic ∧ p.1.vmType = t).map fun p => (c, p.2)

/-- The offsets of all fields so far, and the sizes of the class linked last. -/
structure Linked where
  offsets : Offsets
  staticSize : UInt32
  objectSize : UInt32

/-- Link a class with `c` superclasses. -/
def linkFields (w : WordSize) (c : Nat) (fields : List VmField) (super : Linked) : Linked :=
  let s := bucketsOrderFields w (fieldBucket fields c true) (super.offsets, super.staticSize)
  let o := bucketsOrderFields w (fieldBucket fields c false) (s.1, super.objectSize)
  ⟨o.1, s.2, o.2⟩

/-- Link a class with the fields at the head of the chain, after its superclasses. Memory is zero before that. -/
def linkChain (w : WordSize) : List (List VmField) → Linked
  | [] => ⟨fun _ => 0, 0, 0⟩
  | fields :: supers => linkFields w supers.length fields (linkChain w supers)

/-! ## What the layout is for -/

/-- The bytes that a field takes. -/
def fieldSize (w : WordSize) : VmType → Nat
  | .reference => w.bytes
  | .double | .long => 8
  | .void | .returnAddress => 0
  | _ => 4

def fieldAt (chain : List (List VmField)) (ref : FieldRef) : Option VmField := do
  let fields ← chain.reverse[ref.1]?
  fields[ref.2]?

/-- The area of a field. -/
def Linked.areaSize (s : Linked) (isStatic : Bool) : Nat := (if isStatic then s.staticSize else s.objectSize).toNat

structure LayoutCorrect (w : WordSize) (fields : List VmField) (supers : List (List VmField)) : Prop where
  /-- The offset of a field is a multiple of its size, and the field lies in its area. -/
  inside : ∀ ref f, fieldAt (fields :: supers) ref = some f →
    fieldSize w f.vmType ∣ ((linkChain w (fields :: supers)).offsets ref).toNat ∧
      ((linkChain w (fields :: supers)).offsets ref).toNat + fieldSize w f.vmType ≤
        (linkChain w (fields :: supers)).areaSize f.isStatic
  /-- Two fields of one area have no byte in common. -/
  disjoint : ∀ ref f ref' f', fieldAt (fields :: supers) ref = some f → fieldAt (fields :: supers) ref' = some f' →
    f.isStatic = f'.isStatic → ref ≠ ref' →
    ((linkChain w (fields :: supers)).offsets ref).toNat + fieldSize w f.vmType ≤
        ((linkChain w (fields :: supers)).offsets ref').toNat ∨
      ((linkChain w (fields :: supers)).offsets ref').toNat + fieldSize w f'.vmType ≤
        ((linkChain w (fields :: supers)).offsets ref).toNat
  /-- The fields of superclasses stay where they are. -/
  kept : ∀ ref : FieldRef, ref.1 < supers.length →
    (linkChain w (fields :: supers)).offsets ref = (linkChain w supers).offsets ref

/-! ## The layout without bounds -/

/-- The types in the order of their buckets, with the sizes the code gives them. -/
def bucketSizes : List (VmType × Nat) :=
  [(.double, 8), (.long, 8), (.float, 4), (.int, 4), (.short, 4), (.char, 4), (.byte, 4), (.boolean, 4)]

def bucketOps (bucket : List FieldRef) (size : Nat) : List (Op FieldRef) := bucket.map fun ref => .place ref size

def bucketsOps (w : WordSize) (buckets : VmType → List FieldRef) : List (Op FieldRef) :=
  .align w.bytes :: bucketOps (buckets .reference) w.bytes ++
    .align 8 :: bucketSizes.flatMap fun p => bucketOps (buckets p.1) p.2

/-- How the static or the other fields of a chain are laid out. -/
def chainOps (w : WordSize) (isStatic : Bool) : List (List VmField) → List (Op FieldRef)
  | [] => []
  | fields :: supers => chainOps w isStatic supers ++ bucketsOps w (fieldBucket fields supers.length isStatic)

/-- The size of an area if it is not bounded. -/
def neededSize (w : WordSize) (isStatic : Bool) (chain : List (List VmField)) : Nat := finish 0 (chainOps w isStatic chain)

/-! ## The code follows the unbounded layout -/

theorem and_clear_low {n : Nat} (hn : n < 2 ^ 32) {k : Nat} (hk : k ≤ 32) :
    n &&& (2 ^ 32 - (2 ^ k - 1 + 1)) = n / 2 ^ k * 2 ^ k := by
  have hlt : 2 ^ k - 1 < 2 ^ 32 :=
    Nat.lt_of_lt_of_le (Nat.sub_one_lt (Nat.two_pow_pos k).ne') (Nat.pow_le_pow_right (by decide) hk)
  apply Nat.eq_of_testBit_eq
  intro i
  rw [Nat.testBit_and, Nat.testBit_two_pow_sub_succ hlt, Nat.testBit_mul_two_pow, Nat.testBit_two_pow_sub_one,
    Nat.testBit_div_two_pow]
  by_cases hi : k ≤ i
  · rw [Nat.sub_add_cancel hi]
    by_cases h32 : i < 32
    · simp [hi, h32]
    · have hbit : n.testBit i = false :=
        Nat.testBit_lt_two_pow (Nat.lt_of_lt_of_le hn (Nat.pow_le_pow_right (by decide) (Nat.not_lt.mp h32)))
      simp [hbit]
  · have hik := Nat.not_le.mp hi
    simp [hi, hik]

variable {a size : Nat} {t : VmType}

theorem align_toNat (x : UInt32) (ha : a = 4 ∨ a = 8) : (align x (.ofNat a)).toNat = alignUp a x.toNat % 2 ^ 32 := by
  rcases ha with rfl | rfl
  · have hmask : (align x (.ofNat 4)).toNat = (x.toNat + 3) % 2 ^ 32 &&& (2 ^ 32 - (2 ^ 2 - 1 + 1)) := by
      simp [align, UInt32.toNat_sub, UInt32.toNat_add]
      congr 1
      omega
    rw [hmask, and_clear_low (Nat.mod_lt _ (by decide)) (by decide), alignUp]
    omega
  · have hmask : (align x (.ofNat 8)).toNat = (x.toNat + 7) % 2 ^ 32 &&& (2 ^ 32 - (2 ^ 3 - 1 + 1)) := by
      simp [align, UInt32.toNat_sub, UInt32.toNat_add]
      congr 1
      omega
    rw [hmask, and_clear_low (Nat.mod_lt _ (by decide)) (by decide), alignUp]
    omega

/-- One operation of the layout on the offsets and the size. -/
def applyOp (s : Offsets × UInt32) : Op FieldRef → Offsets × UInt32
  | .align a => (s.1, align s.2 (.ofNat a))
  | .place ref size => (Function.update s.1 ref s.2, s.2 + .ofNat size)

variable (s : Offsets × UInt32) (bucket : List FieldRef) (buckets : VmType → List FieldRef)

theorem applyOp_place_self (ref : FieldRef) (size : Nat) :
    (applyOp s (.place ref size)).1 ref = s.2 :=
  Function.update_self ..

variable {ref : FieldRef}

theorem applyOp_place_of_ne {r : FieldRef} (size : Nat) (h : r ≠ ref) :
    (applyOp s (.place ref size)).1 r = s.1 r :=
  Function.update_of_ne h ..

theorem bucketOrderFields_eq (size : Nat) :
    bucketOrderFields bucket (.ofNat size) s = (bucketOps bucket size).foldl applyOp s := by
  rw [bucketOps, foldl_map]
  rfl

theorem bucketsOrderFields_eq (w : WordSize) :
    bucketsOrderFields w buckets s = (bucketsOps w buckets).foldl applyOp s := by
  have h8 : (8 : UInt32) = .ofNat 8 := rfl
  have h4 : (4 : UInt32) = .ofNat 4 := rfl
  simp only [bucketsOrderFields, h8, h4, bucketOrderFields_eq, bucketsOps, bucketSizes, cons_append, foldl_cons,
    foldl_append, flatMap_cons, flatMap_nil, foldl_nil, applyOp]

variable {w : WordSize} {x c : Nat} {ops : List (Op FieldRef)} {fields : List VmField} {buckets : VmType → List FieldRef}
  {f : VmField} {s : Offsets × UInt32} {isStatic : Bool}

/-- The size is the unbounded one modulo `2 ^ 32`. -/
theorem applyOp_size {op : Op FieldRef} (h : ∀ a, op = .align a → a = 4 ∨ a = 8)
    (hs : s.2.toNat = x % 2 ^ 32) : (applyOp s op).2.toNat = op.next x % 2 ^ 32 := by
  cases op with
  | align a =>
    have ha := h a rfl
    have hpos : 0 < a := by omega
    have hdvd : a ∣ 2 ^ 32 * (x / 2 ^ 32) := by
      refine Nat.dvd_trans ?_ (Nat.dvd_mul_right _ _)
      rcases ha with rfl | rfl <;> decide
    have hx := alignUp_add hpos (x % 2 ^ 32) hdvd
    rw [Nat.mod_add_div] at hx
    rw [applyOp, align_toNat _ ha, hs, Op.next, hx, Nat.add_mul_mod_self_left]
  | place ref size =>
    rw [applyOp, UInt32.toNat_add, hs, UInt32.toNat_ofNat', Op.next, Nat.add_mod_mod, Nat.mod_add_mod]

/-- Everything is placed where the unbounded layout places it, modulo `2 ^ 32`, and nothing else changes. -/
theorem foldl_applyOp (h : ∀ a, Op.align a ∈ ops → a = 4 ∨ a = 8) (hnodup : (refs ops).Nodup)
    (hs : s.2.toNat = x % 2 ^ 32) : (ops.foldl applyOp s).2.toNat = finish x ops % 2 ^ 32 ∧
      (∀ p ∈ places x ops, (ops.foldl applyOp s).1 p.ref = .ofNat p.offset) ∧
      ∀ ref ∉ refs ops, (ops.foldl applyOp s).1 ref = s.1 ref := by
  induction ops generalizing x s with
  | nil => exact ⟨hs, nofun, fun _ _ => rfl⟩
  | cons op ops ih =>
    have hop := applyOp_size (fun a ha => h a (ha ▸ mem_cons_self)) hs
    have hrest a (ha : Op.align a ∈ ops) := h a (mem_cons_of_mem op ha)
    cases op with
    | align a => exact ih hrest hnodup hop
    | place ref size =>
      obtain ⟨hnot, hnodup⟩ := nodup_cons.mp hnodup
      obtain ⟨hsize, hplaced, hother⟩ := ih hrest hnodup hop
      have hx : s.2 = .ofNat x := UInt32.toNat_inj.mp (hs.trans (UInt32.toNat_ofNat' ..).symm)
      refine ⟨hsize, fun p hp => ?_, fun r hr => ?_⟩
      · rcases mem_cons.mp hp with rfl | hp
        · rw [foldl_cons, hother ref hnot, applyOp_place_self, hx]
        · exact hplaced p hp
      · obtain ⟨hne, hr⟩ := not_or.mp (mt mem_cons.mpr hr)
        rw [foldl_cons, hother r hr, applyOp_place_of_ne s size hne]

/-! ## The fields of a chain -/

/-- The types that are laid out, with their sizes. -/
def typeSizes (w : WordSize) : List (VmType × Nat) := (.reference, w.bytes) :: bucketSizes

theorem mem_typeSizes : (t, size) ∈ typeSizes w ↔ (t ≠ .void ∧ t ≠ .returnAddress) ∧ size = fieldSize w t := by
  cases t <;> simp [typeSizes, bucketSizes, fieldSize]

theorem mem_bucketsOps : Op.place ref size ∈ bucketsOps w buckets ↔ ∃ t, (t, size) ∈ typeSizes w ∧ ref ∈ buckets t := by
  simp only [bucketsOps, bucketOps, typeSizes, mem_append, mem_cons, mem_map, mem_flatMap,
    reduceCtorEq, false_or, Op.place.injEq]
  constructor
  · rintro (⟨r, hr, rfl, rfl⟩ | ⟨⟨t, n⟩, ht, r, hr, rfl, rfl⟩)
    · exact ⟨.reference, .inl rfl, hr⟩
    · exact ⟨t, .inr ht, hr⟩
  · rintro ⟨t, ht | ht, hr⟩
    · cases ht
      exact .inl ⟨ref, hr, rfl, rfl⟩
    · exact .inr ⟨(t, size), ht, ref, hr, rfl, rfl⟩

theorem refs_bucketOps (size : Nat) : refs (bucketOps bucket size) = bucket := by
  rw [refs, bucketOps, filterMap_map]
  exact filterMap_some

theorem refs_bucketsOps :
    refs (bucketsOps w buckets) = (typeSizes w).flatMap fun p => buckets p.1 := by
  have happend (l l' : List (Op FieldRef)) : refs (l ++ l') = refs l ++ refs l' := filterMap_append
  have halign a (l : List (Op FieldRef)) : refs (.align a :: l) = refs l := rfl
  simp only [bucketsOps, bucketSizes, typeSizes, cons_append, flatMap_cons, flatMap_nil, halign, happend,
    refs_bucketOps]
  rfl

theorem mem_fieldBucket : ref ∈ fieldBucket fields c isStatic t ↔
      ref.1 = c ∧ ∃ f, fields[ref.2]? = some f ∧ f.isStatic = isStatic ∧ f.vmType = t := by
  simp only [fieldBucket, mem_map, mem_filter, decide_eq_true_eq, Prod.exists, mem_zipIdx_iff_getElem?]
  constructor
  · rintro ⟨f, i, ⟨hf, hs, ht⟩, rfl⟩
    exact ⟨rfl, f, hf, hs, ht⟩
  · rintro ⟨rfl, f, hf, hs, ht⟩
    exact ⟨f, ref.2, ⟨hf, hs, ht⟩, rfl⟩

theorem nodup_fieldBucket (fields : List VmField) (c : Nat) (isStatic : Bool) (t : VmType) :
    (fieldBucket fields c isStatic t).Nodup := by
  have hnodup : (fields.zipIdx.map Prod.snd).Nodup := by
    rw [zipIdx_map_snd]
    exact nodup_range'
  have hsub : ((fields.zipIdx.filter fun p => p.1.isStatic = isStatic ∧ p.1.vmType = t).map Prod.snd).Nodup :=
    hnodup.sublist (filter_sublist.map _)
  have hmap := hsub.map (f := fun i => (c, i)) fun i j hij => (Prod.mk.inj hij).2
  rwa [map_map] at hmap

theorem nodup_refs_bucketsOps (fields : List VmField) (c : Nat) (isStatic : Bool) :
    (refs (bucketsOps w (fieldBucket fields c isStatic))).Nodup := by
  rw [refs_bucketsOps, nodup_flatMap]
  refine ⟨fun p _ => nodup_fieldBucket fields c isStatic p.1, ?_⟩
  have htypes : (typeSizes w).Pairwise fun p q => p.1 ≠ q.1 := by
    cases w <;> decide
  refine htypes.imp fun {p q} hpq => ?_
  intro ref hp hq
  obtain ⟨-, f, hf, -, ht⟩ := mem_fieldBucket.mp hp
  obtain ⟨-, f', hf', -, ht'⟩ := mem_fieldBucket.mp hq
  cases Option.some.inj (hf.symm.trans hf')
  exact hpq (ht.symm.trans ht')

theorem mem_refs_bucketsOps (h : ref ∈ refs (bucketsOps w (fieldBucket fields c isStatic))) :
    ref.1 = c ∧ ∃ f, fields[ref.2]? = some f ∧ f.isStatic = isStatic := by
  rw [refs_bucketsOps] at h
  obtain ⟨p, -, hp⟩ := mem_flatMap.mp h
  obtain ⟨hc, f, hf, hs, -⟩ := mem_fieldBucket.mp hp
  exact ⟨hc, f, hf, hs⟩

theorem fieldAt_cons {supers : List (List VmField)} :
    fieldAt (fields :: supers) ref = if ref.1 = supers.length then fields[ref.2]? else fieldAt supers ref := by
  unfold fieldAt
  rw [reverse_cons]
  split_ifs with h
  · simp [h]
  · rcases Nat.lt_or_gt_of_ne h with hlt | hgt
    · rw [getElem?_append_left (by simpa using hlt)]
    · rw [getElem?_eq_none (by simpa using Nat.succ_le_of_lt hgt), getElem?_eq_none (by simpa using hgt.le)]

theorem fieldAt_lt {chain : List (List VmField)} (h : fieldAt chain ref = some f) : ref.1 < chain.length := by
  obtain ⟨fields, hfields, -⟩ := Option.bind_eq_some_iff.mp h
  simpa using (List.getElem?_eq_some_iff.mp hfields).1

variable {isStatic : Bool} {chain : List (List VmField)}

theorem mem_chainOps : Op.place ref size ∈ chainOps w isStatic chain ↔
    ∃ f, fieldAt chain ref = some f ∧ f.isStatic = isStatic ∧ (f.vmType, size) ∈ typeSizes w := by
  induction chain with
  | nil => simp [chainOps, fieldAt]
  | cons fields supers ih =>
    rw [chainOps, mem_append, ih, mem_bucketsOps]
    constructor
    · rintro (⟨f, hf, hrest⟩ | ⟨t, ht, href⟩)
      · refine ⟨f, ?_, hrest⟩
        rw [fieldAt_cons, if_neg (fieldAt_lt hf).ne, hf]
      · obtain ⟨hc, f, hf, hs, rfl⟩ := mem_fieldBucket.mp href
        refine ⟨f, ?_, hs, ht⟩
        rw [fieldAt_cons, if_pos hc, hf]
    · rintro ⟨f, hf, hs, ht⟩
      rw [fieldAt_cons] at hf
      split_ifs at hf with hc
      · exact .inr ⟨f.vmType, ht, mem_fieldBucket.mpr ⟨hc, f, hf, hs, rfl⟩⟩
      · exact .inl ⟨f, hf, hs, ht⟩

theorem mem_refs_chainOps (h : ref ∈ refs (chainOps w isStatic chain)) :
    ∃ f, fieldAt chain ref = some f ∧ f.isStatic = isStatic ∧ f.vmType ≠ .void ∧ f.vmType ≠ .returnAddress := by
  rw [← map_ref_places 0] at h
  obtain ⟨p, hp, rfl⟩ := mem_map.mp h
  obtain ⟨f, hf, hs, ht⟩ := mem_chainOps.mp (place_mem hp)
  exact ⟨f, hf, hs, (mem_typeSizes.mp ht).1⟩

theorem refs_chainOps_cons (fields : List VmField) (supers : List (List VmField)) :
    refs (chainOps w isStatic (fields :: supers)) = refs (chainOps w isStatic supers) ++
      refs (bucketsOps w (fieldBucket fields supers.length isStatic)) :=
  filterMap_append

theorem nodup_refs_chainOps : (refs (chainOps w isStatic chain)).Nodup := by
  induction chain with
  | nil => exact .nil
  | cons fields supers ih =>
    rw [refs_chainOps_cons, nodup_append]
    refine ⟨ih, nodup_refs_bucketsOps fields supers.length isStatic, fun ref href ref' href' heq => ?_⟩
    subst heq
    obtain ⟨f, hf, -⟩ := mem_refs_chainOps href
    exact (fieldAt_lt hf).ne (mem_refs_bucketsOps href').1

theorem align_mem_bucketsOps (h : Op.align a ∈ bucketsOps w buckets) : a = 4 ∨ a = 8 := by
  simp only [bucketsOps, bucketOps, mem_append, mem_cons, mem_map, mem_flatMap, reduceCtorEq,
    and_false, exists_false, or_false, Op.align.injEq] at h
  rcases h with rfl | rfl
  · cases w
    · exact .inl rfl
    · exact .inr rfl
  · exact .inr rfl

/-! ## Places are multiples of the sizes -/

theorem fits_bucketOps {bucket : List FieldRef} {size : Nat} (hpos : 0 < size) (hdvd : size ∣ 2 ^ 32) (hx : size ∣ x) :
    Fits (2 ^ 32) x (bucketOps bucket size) ∧ ∀ d, d ∣ size → d ∣ x → d ∣ finish x (bucketOps bucket size) := by
  induction bucket generalizing x with
  | nil => exact ⟨trivial, fun _ _ h => h⟩
  | cons ref bucket ih =>
    obtain ⟨hfits, hfinish⟩ := ih (Nat.dvd_add hx (Nat.dvd_refl size))
    exact ⟨⟨hpos, hx, hdvd, hfits⟩, fun d hd hdx => hfinish d hd (Nat.dvd_add hdx hd)⟩

/-- Buckets of sizes that do not grow, from a multiple of the first size on. -/
theorem fits_flatMap {l : List (VmType × Nat)}
    (hsorted : l.Pairwise fun p q => q.2 ∣ p.2) (hl : ∀ p ∈ l, 0 < p.2 ∧ p.2 ∣ 2 ^ 32 ∧ p.2 ∣ x) :
    Fits (2 ^ 32) x (l.flatMap fun p => bucketOps (buckets p.1) p.2) := by
  induction l generalizing x with
  | nil => exact trivial
  | cons p l ih =>
    obtain ⟨hp, hsorted⟩ := pairwise_cons.mp hsorted
    obtain ⟨hpos, hdvd, hx⟩ := hl p mem_cons_self
    obtain ⟨hfits, hfinish⟩ := @fits_bucketOps x (buckets p.1) p.2 hpos hdvd hx
    rw [flatMap_cons, fits_append]
    refine ⟨hfits, ih hsorted fun q hq => ?_⟩
    obtain ⟨hqpos, hqdvd, hqx⟩ := hl q (mem_cons_of_mem p hq)
    exact ⟨hqpos, hqdvd, hfinish q.2 (hp q hq) hqx⟩

theorem fits_bucketsOps (buckets : VmType → List FieldRef) : Fits (2 ^ 32) x (bucketsOps w buckets) := by
  have hw : 0 < w.bytes ∧ w.bytes ∣ 2 ^ 32 := by cases w <;> decide
  rw [bucketsOps, cons_append]
  refine ⟨hw.1, hw.2, fits_append.mpr ⟨(fits_bucketOps hw.1 hw.2 (dvd_alignUp _ _)).1, by decide, by decide, ?_⟩⟩
  refine fits_flatMap (by decide) fun p hp => ?_
  have hsize : ∀ p ∈ bucketSizes, 0 < p.2 ∧ p.2 ∣ 2 ^ 32 ∧ p.2 ∣ 8 := by decide
  obtain ⟨hpos, hdvd, h8⟩ := hsize p hp
  exact ⟨hpos, hdvd, Nat.dvd_trans h8 (dvd_alignUp 8 _)⟩

theorem fits_chainOps : Fits (2 ^ 32) 0 (chainOps w isStatic chain) := by
  induction chain with
  | nil => exact trivial
  | cons fields supers ih => exact fits_append.mpr ⟨ih, fits_bucketsOps _⟩

/-! ## Linking -/

/-- The offsets and sizes of a chain are those of the unbounded layout modulo `2 ^ 32`. -/
structure Follows (w : WordSize) (chain : List (List VmField)) (s : Linked) : Prop where
  size : ∀ isStatic, s.areaSize isStatic = neededSize w isStatic chain % 2 ^ 32
  placed : ∀ isStatic, ∀ p ∈ places 0 (chainOps w isStatic chain), s.offsets p.ref = .ofNat p.offset
  other : ∀ ref, (∀ isStatic, ref ∉ refs (chainOps w isStatic chain)) → s.offsets ref = 0

theorem linkFields_kept {super : Linked} (h : ref.1 ≠ c) :
    (linkFields w c fields super).offsets ref = super.offsets ref := by
  have hkept isStatic s :
      (bucketsOrderFields w (fieldBucket fields c isStatic) s).1 ref = s.1 ref := by
    have hnot : ref ∉ refs (bucketsOps w (fieldBucket fields c isStatic)) := fun hmem => h (mem_refs_bucketsOps hmem).1
    have hsize := (Nat.mod_eq_of_lt s.2.toNat_lt).symm
    rw [bucketsOrderFields_eq]
    exact (foldl_applyOp (fun _ => align_mem_bucketsOps) (nodup_refs_bucketsOps _ _ _) hsize).2.2 ref hnot
  exact (hkept false _).trans (hkept true _)

theorem linkChain_follows (w : WordSize) (chain : List (List VmField)) : Follows w chain (linkChain w chain) := by
  induction chain with
  | nil => exact ⟨fun isStatic => by cases isStatic <;> rfl, nofun, fun _ _ => rfl⟩
  | cons fields supers ih =>
    have hrun isStatic {s : Offsets × UInt32} (hs : s.2.toNat = neededSize w isStatic supers % 2 ^ 32) :=
      foldl_applyOp (fun _ => align_mem_bucketsOps (w := w)) (nodup_refs_bucketsOps fields supers.length isStatic) hs
    simp only [← bucketsOrderFields_eq] at hrun
    obtain ⟨hsize, hplaced, hother⟩ := hrun true (s := ((linkChain w supers).offsets, _)) (ih.size true)
    obtain ⟨hsize', hplaced', hother'⟩ := hrun false (s := (_, _)) (ih.size false)
    refine ⟨fun isStatic => ?_, fun isStatic p hp => ?_, fun ref href => ?_⟩
    · rw [neededSize, chainOps, finish_append]
      cases isStatic with
      | true => exact hsize
      | false => exact hsize'
    · rw [chainOps, places_append] at hp
      rcases mem_append.mp hp with hp | hp
      · obtain ⟨f, hf, -⟩ := mem_chainOps.mp (place_mem hp)
        exact (linkFields_kept (fieldAt_lt hf).ne).trans (ih.placed isStatic p hp)
      · cases isStatic with
        | true =>
          have href : p.ref ∈ refs (bucketsOps w (fieldBucket fields supers.length true)) := by
            rw [← map_ref_places (neededSize w true supers)]
            exact mem_map_of_mem hp
          obtain ⟨-, f, hf, hs⟩ := mem_refs_bucketsOps href
          refine (hother' p.ref fun hmem => ?_).trans (hplaced p hp)
          obtain ⟨-, f', hf', hs'⟩ := mem_refs_bucketsOps hmem
          cases Option.some.inj (hf.symm.trans hf')
          exact absurd (hs.symm.trans hs') (by decide)
        | false => exact hplaced' p hp
    · simp only [refs_chainOps_cons, mem_append, not_or] at href
      exact (hother' ref (href false).2).trans ((hother ref (href true).2).trans (ih.other ref fun b => (href b).1))

/-! ## When the layout is right -/

/-- The fields that are laid out lie apart exactly if their unbounded layout ends below `2 ^ 32`. -/
theorem apart_chainOps : Apart (2 ^ 32) (chainOps w isStatic chain) ↔ neededSize w isStatic chain < 2 ^ 32 :=
  apart_iff fits_chainOps (by decide)

theorem pairwise_ref_ne : (places 0 (chainOps w isStatic chain)).Pairwise fun p q => p.ref ≠ q.ref := by
  have hnodup : (refs (chainOps w isStatic chain)).Nodup := nodup_refs_chainOps
  rw [← map_ref_places 0] at hnodup
  exact pairwise_map.mp hnodup

section Correct

variable {fields : List VmField} {supers : List (List VmField)}

/-- A field that is laid out has a place, and one that is not lies at offset zero and has no bytes. -/
theorem Follows.place {s : Linked} (hfollows : Follows w chain s) (h : fieldAt chain ref = some f) :
    (∃ p ∈ places 0 (chainOps w f.isStatic chain), p.ref = ref ∧ p.size = fieldSize w f.vmType) ∨
      s.offsets ref = 0 ∧ fieldSize w f.vmType = 0 := by
  by_cases ht : f.vmType ≠ .void ∧ f.vmType ≠ .returnAddress
  · exact .inl (exists_mem_places 0 (mem_chainOps.mpr ⟨f, h, rfl, mem_typeSizes.mpr ⟨ht, rfl⟩⟩))
  · refine .inr ⟨hfollows.other ref fun isStatic hmem => ?_, ?_⟩
    · obtain ⟨f', hf', -, ht'⟩ := mem_refs_chainOps hmem
      cases Option.some.inj (h.symm.trans hf')
      exact ht ht'
    · rcases not_and_or.mp ht with ht | ht
      · rw [not_not.mp ht, fieldSize]
      · rw [not_not.mp ht, fieldSize]

theorem layoutCorrect_of_apart (hapart : ∀ isStatic, Apart (2 ^ 32) (chainOps w isStatic (fields :: supers))) :
    LayoutCorrect w fields supers := by
  have hfollows := linkChain_follows w (fields :: supers)
  refine ⟨fun ref f h => ?_, fun ref f ref' f' h h' hs hne => ?_, fun ref href => linkFields_kept href.ne⟩
  · rcases hfollows.place h with ⟨p, hp, rfl, hsize⟩ | ⟨hzero, hsize⟩
    · obtain ⟨-, -, -, hdvd, hm⟩ := fits_chainOps.of_mem hp
      rw [hfollows.placed _ p hp, ← hsize, UInt32.toNat_ofNat', hfollows.size]
      exact ⟨(Nat.dvd_mod_iff hm).mpr hdvd, (hapart f.isStatic).inside p hp⟩
    · rw [hzero, hsize]
      exact ⟨Nat.dvd_zero 0, Nat.zero_le _⟩
  · rcases hfollows.place h with ⟨p, hp, rfl, hsize⟩ | ⟨hzero, hsize⟩
    · rcases hfollows.place h' with ⟨q, hq, rfl, hsize'⟩ | ⟨hzero', hsize'⟩
      · rw [← hs] at hq
        rw [hfollows.placed _ p hp, hfollows.placed _ q hq, ← hsize, ← hsize', UInt32.toNat_ofNat', UInt32.toNat_ofNat']
        exact (hapart f.isStatic).of_ne hp hq fun heq => hne (congrArg Placement.ref heq)
      · rw [hzero', hsize']
        exact .inr (Nat.zero_le _)
    · rw [hzero, hsize]
      exact .inl (Nat.zero_le _)

theorem LayoutCorrect.apart (h : LayoutCorrect w fields supers) (isStatic : Bool) :
    Apart (2 ^ 32) (chainOps w isStatic (fields :: supers)) := by
  have hfollows := linkChain_follows w (fields :: supers)
  have hfield {p} (hp : p ∈ places 0 (chainOps w isStatic (fields :: supers))) :
      ∃ f, fieldAt (fields :: supers) p.ref = some f ∧ f.isStatic = isStatic ∧ p.size = fieldSize w f.vmType := by
    obtain ⟨f, hf, hs, ht⟩ := mem_chainOps.mp (place_mem hp)
    exact ⟨f, hf, hs, (mem_typeSizes.mp ht).2⟩
  constructor
  · intro p hp
    obtain ⟨f, hf, rfl, hsize⟩ := hfield hp
    obtain ⟨-, hin⟩ := h.inside p.ref f hf
    rwa [hfollows.placed _ p hp, ← hsize, UInt32.toNat_ofNat', hfollows.size] at hin
  · refine pairwise_ref_ne.imp_of_mem fun {p q} hp hq hne => ?_
    obtain ⟨f, hf, hs, hsize⟩ := hfield hp
    obtain ⟨f', hf', hs', hsize'⟩ := hfield hq
    have := h.disjoint _ f _ f' hf hf' (hs.trans hs'.symm) hne
    rwa [hfollows.placed _ p hp, hfollows.placed _ q hq, ← hsize, ← hsize', UInt32.toNat_ofNat', UInt32.toNat_ofNat'] at this

/-- **The layout of a chain** is right exactly if no area needs `2 ^ 32` bytes or more. -/
theorem layoutCorrect_iff : LayoutCorrect w fields supers ↔
    ∀ isStatic, neededSize w isStatic (fields :: supers) < 2 ^ 32 := by
  simp only [← apart_chainOps]
  exact ⟨fun h => h.apart, layoutCorrect_of_apart⟩

end Correct

/-! ## A chain that needs too many bytes -/

/-- The instance fields of a class with `k` of the type `long`. -/
def longs (k : Nat) : List VmField := replicate k ⟨false, .long⟩

theorem finish_bucketOps (bucket : List FieldRef) (size x : Nat) :
    finish x (bucketOps bucket size) = x + bucket.length * size := by
  induction bucket generalizing x with
  | nil => simp [bucketOps, finish]
  | cons ref bucket ih =>
    change finish (x + size) (bucketOps bucket size) = _
    rw [ih, length_cons, Nat.succ_mul]
    omega

theorem length_fieldBucket_longs (k c : Nat) (t : VmType) :
    (fieldBucket (longs k) c false t).length = if t = .long then k else 0 := by
  have hmem {p : VmField × Nat} (hp : p ∈ (longs k).zipIdx) : p.1 = ⟨false, .long⟩ :=
    eq_of_mem_replicate (fst_mem_of_mem_zipIdx hp)
  rw [fieldBucket, length_map]
  split_ifs with ht
  · rw [filter_eq_self.mpr fun p hp => by simp [hmem hp, ht], length_zipIdx, longs, length_replicate]
  · rw [filter_eq_nil_iff.mpr fun p hp => by simpa [hmem hp] using Ne.symm ht, length_nil]

theorem neededSize_longs (k n : Nat) : neededSize .eight false (replicate n (longs k)) = 8 * (n * k) := by
  induction n with
  | zero =>
    rw [Nat.zero_mul]
    rfl
  | succ n ih =>
    have hcons x (op : Op FieldRef) ops : finish x (op :: ops) = finish (op.next x) ops := rfl
    have halign : alignUp 8 (8 * (n * k)) = 8 * (n * k) := by
      rw [alignUp]
      omega
    rw [neededSize] at ih ⊢
    rw [replicate_succ, chainOps, finish_append, ih]
    simp only [bucketsOps, bucketSizes, cons_append, flatMap_cons, flatMap_nil, append_nil, hcons, finish_append,
      finish_bucketOps, length_fieldBucket_longs, reduceCtorEq, if_false, if_true, Nat.zero_mul, Nat.add_zero, Op.next,
      WordSize.bytes, halign, Nat.succ_mul n k]
    omega

/-- The size of an object wraps when the classes of a chain need `2 ^ 32` bytes for it. -/
theorem not_layoutCorrect_replicate {k n : Nat} (hneed : 2 ^ 32 ≤ 8 * ((n + 1) * k)) :
    ¬ LayoutCorrect .eight (longs k) (replicate n (longs k)) := by
  intro h
  have hlt := apart_chainOps.mp (h.apart false)
  rw [← replicate_succ, neededSize_longs] at hlt
  exact Nat.not_le_of_lt hlt hneed

/-- After `2 ^ 14` classes with `2 ^ 15` fields each, objects have the size zero. -/
theorem not_layoutCorrect_longs : ¬ LayoutCorrect .eight (longs (2 ^ 15)) (replicate (2 ^ 14 - 1) (longs (2 ^ 15))) :=
  not_layoutCorrect_replicate (by decide)

end Jato.Vm.FieldLayout
