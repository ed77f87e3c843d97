import Jato.Lib.Format
import Mathlib.Algebra.Order.Ring.Nat

/-!
# Streams of bytes

`cafebabe/stream.c` and `cafebabe/attribute_info.c`. Positions and sizes of a stream are `unsigned int`s, and the tests
for the end of the stream are made on sums that wrap. A read that the test lets through and that is not inside the
buffer is the error `fault`. Inside a buffer the reads are exact (`streamRead_reads`): a test that has wrapped is followed
by an access outside the buffer.
-/

namespace Jato.Cafebabe

open Jato.Lib List

/-! ## Numbers -/

/-- The number with these bytes, the most significant one first. -/
def ofBigEndian (l : List UInt8) : Nat := l.foldl (fun n b => n * 2 ^ 8 + b.toNat) 0

/-- The last `k` bytes of a number, the most significant one first. -/
def bigEndian : Nat → Nat → List UInt8
  | 0, _ => []
  | k + 1, n => bigEndian k (n / 2 ^ 8) ++ [UInt8.ofNat n]

theorem ofBigEndian_append (l : List UInt8) (b : UInt8) : ofBigEndian (l ++ [b]) = ofBigEndian l * 2 ^ 8 + b.toNat := by
  rw [ofBigEndian, foldl_append]
  rfl

@[simp] theorem length_bigEndian (k n : Nat) : (bigEndian k n).length = k := by
  induction k generalizing n with
  | zero => rfl
  | succ k ih => rw [bigEndian, length_append, ih, length_singleton]

theorem bigEndian_ofBigEndian (l : List UInt8) : bigEndian l.length (ofBigEndian l) = l := by
  induction l using List.reverseRecOn with
  | nil => rfl
  | append_singleton l b ih =>
    have hb := b.toNat_lt
    have hdiv : (ofBigEndian l * 2 ^ 8 + b.toNat) / 2 ^ 8 = ofBigEndian l := by omega
    have hlast : UInt8.ofNat (ofBigEndian l * 2 ^ 8 + b.toNat) = b := by
      apply UInt8.toNat_inj.mp
      rw [UInt8.toNat_ofNat']
      omega
    rw [length_append, length_singleton, ofBigEndian_append, bigEndian, hdiv, ih, hlast]

theorem ofBigEndian_bigEndian (k n : Nat) : ofBigEndian (bigEndian k n) = n % 2 ^ (8 * k) := by
  induction k generalizing n with
  | zero =>
    rw [Nat.mul_zero, Nat.pow_zero, Nat.mod_one]
    rfl
  | succ k ih =>
    have hpow : 2 ^ (8 * (k + 1)) = 2 ^ 8 * 2 ^ (8 * k) := by rw [Nat.mul_succ, Nat.add_comm, Nat.pow_add]
    rw [bigEndian, ofBigEndian_append, ih, UInt8.toNat_ofNat', hpow, Nat.mod_mul]
    omega

/-! ## The stream -/

/-- `enum cafebabe_errno` without the errors of system calls. -/
inductive Errno
  | unexpectedEof
  | expectedEof
  | badMagicNumber
  | badConstantTag
  | fault
deriving DecidableEq, Repr

/-- `struct cafebabe_stream`. -/
structure Stream where
  virtual : List UInt8
  virtualI : Nat
  virtualN : Nat
deriving DecidableEq

abbrev Parse := StateT Stream (Except Errno)

/-- What a stream can be opened on: the size is an `unsigned int`. -/
structure Buffer where
  bytes : List UInt8
  length_lt : bytes.length < 2 ^ 32

def streamOpenBuffer (buf : Buffer) : Stream := ⟨buf.bytes, 0, buf.bytes.length⟩

/-- Addition of `unsigned int`s. -/
def addU32 (a b : Nat) : Nat := (a + b) % 2 ^ 32

/-- `v[i]`. -/
def Stream.byte (s : Stream) (i : Nat) : Except Errno UInt8 :=
  match s.virtual[i]? with
  | some b => .ok b
  | none => .error .fault

def streamEof : Parse Bool := fun s => .ok (s.virtualI = s.virtualN, s)

/-- The bytes `v[i]` to `v[i + k - 1]`. -/
def Stream.bytes (s : Stream) : Nat → Except Errno (List UInt8)
  | 0 => .ok []
  | k + 1 => do
    let l ← s.bytes k
    let b ← s.byte (addU32 s.virtualI k)
    return l ++ [b]

/-- The common part of the reads of one, two and four bytes. -/
def streamRead (k : Nat) : Parse (List UInt8) := fun s =>
  if s.virtualN ≤ addU32 s.virtualI (k - 1) then .error .unexpectedEof
  else (s.bytes k).map fun l => (l, { s with virtualI := addU32 s.virtualI k })

def streamReadUint8 : Parse UInt8 := do
  let l ← streamRead 1
  return UInt8.ofNat (ofBigEndian l)

def streamReadUint16 : Parse UInt16 := do
  let l ← streamRead 2
  return UInt16.ofNat (ofBigEndian l)

def streamReadUint32 : Parse UInt32 := do
  let l ← streamRead 4
  return UInt32.ofNat (ofBigEndian l)

/-- The position in the buffer. -/
def streamPointer : Parse Nat := fun s => .ok (s.virtualI, s)

/-- A skip to the very end is an error as well. -/
def streamSkip (n : Nat) : Parse Unit := fun s =>
  if s.virtualN ≤ addU32 s.virtualI n then .error .unexpectedEof
  else .ok ((), { s with virtualI := addU32 s.virtualI n })

/-! ## Reads inside a buffer -/

/-- The stream is at a position of its buffer. -/
structure Stream.Valid (s : Stream) : Prop where
  size : s.virtualN = s.virtual.length
  size_lt : s.virtualN < 2 ^ 32
  le : s.virtualI ≤ s.virtualN

theorem streamOpenBuffer_valid (buf : Buffer) : (streamOpenBuffer buf).Valid := ⟨rfl, buf.length_lt, Nat.zero_le _⟩

/-- Streams as positions. -/
def cursor : Cursor Stream UInt8 where
  Valid := Stream.Valid
  rest s := s.virtual.drop s.virtualI
  advance s n := { s with virtualI := s.virtualI + n }
  advance_zero _ _ := rfl
  advance_add s m n _ _ := by simp only [Nat.add_assoc]
  rest_advance s n _ _ := by simp only [drop_drop]
  valid_advance s n hs hn := by
    rw [length_drop] at hn
    have hle := hs.le
    have hsize := hs.size
    exact ⟨hs.size, hs.size_lt, by simp only; omega⟩

variable {k n : Nat}

theorem Stream.bytes_eq_ok {s : Stream} (hs : s.Valid) {l : List UInt8} :
    s.bytes k = .ok l ↔ l.length = k ∧ l <+: s.virtual.drop s.virtualI := by
  induction k generalizing l with
  | zero =>
    constructor
    · rintro ⟨⟩
      exact ⟨rfl, nil_prefix⟩
    · rintro ⟨hl, -⟩
      rw [length_eq_zero_iff.mp hl]
      rfl
  | succ k ih =>
    have hsize := hs.size
    have hlt := hs.size_lt
    -- the bytes so far are in the buffer, so the position of the next one has not wrapped
    have hnext {l'} (hl' : l'.length = k) (hpre : l' <+: s.virtual.drop s.virtualI) b :
        s.byte (addU32 s.virtualI k) = .ok b ↔ l' ++ [b] <+: s.virtual.drop s.virtualI := by
      have hle := hpre.length_le
      have hle' := hs.le
      rw [length_drop] at hle
      have hpos : addU32 s.virtualI k = s.virtualI + k := Nat.mod_eq_of_lt (by omega)
      have hget : (s.virtual.drop s.virtualI)[l'.length]? = s.virtual[s.virtualI + k]? := by
        rw [getElem?_drop, hl']
      rw [Stream.byte, hpos]
      obtain ⟨r, hr⟩ := hpre
      rw [← hr] at hget ⊢
      rw [getElem?_append_right (Nat.le_refl _), Nat.sub_self] at hget
      rw [prefix_append_right_inj, ← hget]
      cases r with
      | nil => simp
      | cons c r => simp [eq_comm]
    constructor
    · intro h
      obtain ⟨l', hl', h⟩ := except_bind_eq_ok.mp h
      obtain ⟨b, hb, h⟩ := except_bind_eq_ok.mp h
      cases h
      obtain ⟨hlen, hpre⟩ := ih.mp hl'
      exact ⟨by rw [length_append, hlen, length_singleton], (hnext hlen hpre b).mp hb⟩
    · rintro ⟨hlen, hpre⟩
      obtain rfl | ⟨l', b, rfl⟩ := eq_nil_or_concat l
      · cases hlen
      rw [concat_eq_append] at hlen hpre ⊢
      have hl' : l'.length = k := by simpa using hlen
      have hpre' := (prefix_append l' [b]).trans hpre
      exact except_bind_eq_ok.mpr ⟨l', ih.mpr ⟨hl', hpre'⟩,
        except_bind_eq_ok.mpr ⟨b, (hnext hl' hpre' b).mpr hpre, rfl⟩⟩

/-- **Reads are exact**: a test that has wrapped does not lead to a result. -/
theorem streamRead_reads (hk : 0 < k) : Reads cursor (streamRead k) fun l b => l.length = k ∧ b = l := by
  intro s hs l s'
  have hsize := hs.size
  have hlt := hs.size_lt
  -- `k` bytes in the buffer leave both sums below the size
  have hadd (hpre : l <+: s.virtual.drop s.virtualI) (hlen : l.length = k) :
      addU32 s.virtualI (k - 1) < s.virtualN ∧ addU32 s.virtualI k = s.virtualI + k := by
    have hroom := hpre.length_le
    rw [length_drop] at hroom
    rw [addU32, addU32, Nat.mod_eq_of_lt (by omega), Nat.mod_eq_of_lt (by omega)]
    omega
  constructor
  · intro h
    unfold streamRead at h
    split at h
    · cases h
    · cases hbytes : s.bytes k with
      | error e =>
        rw [hbytes] at h
        cases h
      | ok l' =>
        rw [hbytes] at h
        cases h
        obtain ⟨hlen, hpre⟩ := (Stream.bytes_eq_ok hs).mp hbytes
        refine ⟨l, ⟨hlen, rfl⟩, hpre, ?_⟩
        rw [(hadd hpre hlen).2, hlen]
        rfl
  · rintro ⟨b, ⟨hlen, rfl⟩, hpre, rfl⟩
    obtain ⟨htest, hpos⟩ := hadd hpre hlen
    unfold streamRead
    rw [if_neg (by omega), (Stream.bytes_eq_ok hs).mpr ⟨hlen, hpre⟩, hpos, hlen]
    rfl

theorem streamRead_value {α : Type} (hk : 0 < k) {ofNat : Nat → α} {toNat : α → Nat}
    (hto : ∀ n, toNat (ofNat n) = n % 2 ^ (8 * k)) (hof : ∀ a, ofNat (toNat a) = a) :
    Reads cursor (streamRead k >>= fun l => pure (ofNat (ofBigEndian l)))
      (.computed (fun _ => True) fun a => bigEndian k (toNat a)) := by
  refine ((streamRead_reads hk).bind fun l => Reads.pure _).congr fun a b => ?_
  constructor
  · rintro ⟨l, b₁, b₂, ⟨hlen, rfl⟩, ⟨rfl, rfl⟩, rfl⟩
    refine ⟨trivial, ?_⟩
    have hlt : ofBigEndian b₁ < 2 ^ (8 * k) := by
      rw [← bigEndian_ofBigEndian b₁, ofBigEndian_bigEndian, hlen]
      exact Nat.mod_lt _ (Nat.two_pow_pos _)
    show b₁ ++ [] = bigEndian k (toNat (ofNat (ofBigEndian b₁)))
    rw [hto, Nat.mod_eq_of_lt hlt, append_nil, ← hlen, bigEndian_ofBigEndian]
  · rintro ⟨-, rfl⟩
    refine ⟨bigEndian k (toNat a), bigEndian k (toNat a), [], ⟨length_bigEndian .., rfl⟩, ⟨?_, rfl⟩, ?_⟩
    · have hlt : toNat a < 2 ^ (8 * k) := by
        rw [← hof a, hto]
        exact Nat.mod_lt _ (Nat.two_pow_pos _)
      rw [ofBigEndian_bigEndian, Nat.mod_eq_of_lt hlt, hof]
    · rw [append_nil]

theorem streamReadUint8_reads : Reads cursor streamReadUint8 (.computed (fun _ => True) fun b => [b]) :=
  (streamRead_value Nat.one_pos (fun _ => UInt8.toNat_ofNat') fun _ => UInt8.ofNat_toNat).congr fun a b => by
    simp [Format.computed, bigEndian]

def u16Bytes (v : UInt16) : List UInt8 := bigEndian 2 v.toNat

def u32Bytes (v : UInt32) : List UInt8 := bigEndian 4 v.toNat

theorem u16Bytes_ofNat (h : n < 2 ^ 16) : u16Bytes (UInt16.ofNat n) = bigEndian 2 n := by
  rw [u16Bytes, UInt16.toNat_ofNat_of_lt' h]

theorem u32Bytes_ofNat (h : n < 2 ^ 32) : u32Bytes (UInt32.ofNat n) = bigEndian 4 n := by
  rw [u32Bytes, UInt32.toNat_ofNat_of_lt' h]

theorem streamReadUint16_reads : Reads cursor streamReadUint16 (.computed (fun _ => True) u16Bytes) :=
  streamRead_value Nat.two_pos (fun _ => UInt16.toNat_ofNat') fun _ => UInt16.ofNat_toNat

theorem streamReadUint32_reads : Reads cursor streamReadUint32 (.computed (fun _ => True) u32Bytes) :=
  streamRead_value (by decide) (fun _ => UInt32.toNat_ofNat') fun _ => UInt32.ofNat_toNat

/-- A number of two bytes, and as many values of `p`. -/
def streamReadArray {α : Type} (p : Parse α) : Parse (List α) := do
  let count ← streamReadUint16
  repeatM p count.toNat

def arrayBytes {α : Type} (enc : α → List UInt8) (l : List α) : List UInt8 := bigEndian 2 l.length ++ l.flatMap enc

theorem streamReadArray_reads {α : Type} {p : Parse α} {ok : α → Prop} {enc : α → List UInt8}
    (h : Reads cursor p (.computed ok enc)) :
    Reads cursor (streamReadArray p) (.computed (fun l => l.length < 2 ^ 16 ∧ ∀ a ∈ l, ok a) (arrayBytes enc)) := by
  refine (streamReadUint16_reads.bind fun count => h.repeated count.toNat).congr fun l b => ?_
  constructor
  · rintro ⟨count, b₁, b₂, ⟨-, rfl⟩, hrep, rfl⟩
    obtain ⟨hlen, hall, rfl⟩ := rep_computed.mp hrep
    exact ⟨⟨hlen ▸ count.toNat_lt, hall⟩, by rw [arrayBytes, hlen, u16Bytes]⟩
  · rintro ⟨⟨hlt, hall⟩, rfl⟩
    have hcount := (UInt16.toNat_ofNat_of_lt' hlt).symm
    refine ⟨UInt16.ofNat l.length, _, _, ⟨trivial, rfl⟩, rep_computed.mpr ⟨hcount, hall, rfl⟩, ?_⟩
    rw [arrayBytes, u16Bytes_ofNat hlt]

/-! ## Attributes -/

/-- `struct cafebabe_attribute_info`; `attribute_length` is the length of `info`. -/
structure AttributeInfo where
  attributeNameIndex : UInt16
  info : List UInt8
deriving DecidableEq

def attributeInfoInit : Parse AttributeInfo := do
  let attributeNameIndex ← streamReadUint16
  let attributeLength ← streamReadUint32
  let info ← repeatM streamReadUint8 attributeLength.toNat
  return ⟨attributeNameIndex, info⟩

def AttributeInfo.bytes (a : AttributeInfo) : List UInt8 :=
  u16Bytes a.attributeNameIndex ++ (bigEndian 4 a.info.length ++ a.info)

def AttributeInfo.Ok (a : AttributeInfo) : Prop := a.info.length < 2 ^ 32

theorem attributeInfoInit_reads : Reads cursor attributeInfoInit (.computed AttributeInfo.Ok AttributeInfo.bytes) := by
  refine (streamReadUint16_reads.bind fun name => streamReadUint32_reads.bind fun length =>
    (streamReadUint8_reads.repeated length.toNat).bind fun info => Reads.pure _).congr fun a b => ?_
  constructor
  · rintro ⟨name, _, _, ⟨-, rfl⟩, ⟨length, _, _, ⟨-, rfl⟩, ⟨info, b₃, _, hinfo, ⟨rfl, rfl⟩, rfl⟩, rfl⟩, rfl⟩
    obtain ⟨hlen, -, rfl⟩ := rep_computed.mp hinfo
    have hlt : info.length < 2 ^ 32 := hlen ▸ length.toNat_lt
    refine ⟨hlt, ?_⟩
    rw [AttributeInfo.bytes, hlen, u32Bytes, flatMap_singleton', append_nil]
  · rintro ⟨hlt, rfl⟩
    have hlength := (UInt32.toNat_ofNat_of_lt' hlt).symm
    refine ⟨a.attributeNameIndex, _, _, ⟨trivial, rfl⟩, ⟨UInt32.ofNat a.info.length, _, _, ⟨trivial, rfl⟩,
      ⟨a.info, a.info, [], rep_computed.mpr ⟨hlength, fun _ _ => trivial, ?_⟩, ⟨rfl, rfl⟩, rfl⟩, rfl⟩, ?_⟩
    · rw [flatMap_singleton']
    · rw [AttributeInfo.bytes, u32Bytes_ofNat hlt, append_nil]

end Jato.Cafebabe
