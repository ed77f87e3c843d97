import Jato.Cafebabe.Stream

/-!
# Class files

`cafebabe/class.c`, `cafebabe/constant_pool.c`, `cafebabe/field_info.c` and `cafebabe/method_info.c`. The constant pool is
allocated and not cleared: what an entry holds that nothing was stored to is a parameter. A long or double takes two
indices, which the loop over the pool counts in a `uint16_t`.

A `ClassFile` is what the bytes of a class file say. `classInit_eq_ok` relates it to the result of the reader, and
`classInit_correct_iff` says for which strings and which uninitialised memory the reader and the typed lookups of
constants do what they are for.
-/

namespace Jato.Cafebabe

open Jato.Lib List Option

/-! ## Constants -/

/-- `enum cafebabe_constant_tag`. -/
inductive ConstantTag
  | utf8
  | integer
  | float
  | long
  | double
  | class_
  | string
  | fieldRef
  | methodRef
  | interfaceMethodRef
  | nameAndType
deriving DecidableEq

def ConstantTag.toUInt8 : ConstantTag → UInt8
  | utf8 => 1
  | integer => 3
  | float => 4
  | long => 5
  | double => 6
  | class_ => 7
  | string => 8
  | fieldRef => 9
  | methodRef => 10
  | interfaceMethodRef => 11
  | nameAndType => 12

/-- `struct cafebabe_constant_pool`, with the member of the union that the tag selects. -/
inductive Constant
  | utf8 (bytes : List UInt8)
  | integer (bytes : UInt32)
  | float (bytes : UInt32)
  | long (highBytes lowBytes : UInt32)
  | double (highBytes lowBytes : UInt32)
  | class_ (nameIndex : UInt16)
  | string (stringIndex : UInt16)
  | fieldRef (classIndex nameAndTypeIndex : UInt16)
  | methodRef (classIndex nameAndTypeIndex : UInt16)
  | interfaceMethodRef (classIndex nameAndTypeIndex : UInt16)
  | nameAndType (nameIndex descriptorIndex : UInt16)
deriving DecidableEq

def Constant.tag : Constant → ConstantTag
  | utf8 _ => .utf8
  | integer _ => .integer
  | float _ => .float
  | long .. => .long
  | double .. => .double
  | class_ _ => .class_
  | string _ => .string
  | fieldRef .. => .fieldRef
  | methodRef .. => .methodRef
  | interfaceMethodRef .. => .interfaceMethodRef
  | nameAndType .. => .nameAndType

/-- The readers of one and of two numbers, for the constants that have no other parts. -/
def readU16 (f : UInt16 → Constant) : Parse Constant := do
  let a ← streamReadUint16
  return f a

def readU16Pair (f : UInt16 → UInt16 → Constant) : Parse Constant := do
  let a ← streamReadUint16
  let b ← streamReadUint16
  return f a b

def readU32 (f : UInt32 → Constant) : Parse Constant := do
  let a ← streamReadUint32
  return f a

def readU32Pair (f : UInt32 → UInt32 → Constant) : Parse Constant := do
  let a ← streamReadUint32
  let b ← streamReadUint32
  return f a b

def constantInfoUtf8Init : Parse Constant := do
  let bytes ← streamReadArray streamReadUint8
  return .utf8 bytes

def constantInfoIntegerInit : Parse Constant := readU32 .integer

def constantInfoFloatInit : Parse Constant := readU32 .float

def constantInfoLongInit : Parse Constant := readU32Pair .long

def constantInfoDoubleInit : Parse Constant := readU32Pair .double

def constantInfoClassInit : Parse Constant := readU16 .class_

def constantInfoStringInit : Parse Constant := readU16 .string

def constantInfoFieldRefInit : Parse Constant := readU16Pair .fieldRef

def constantInfoMethodRefInit : Parse Constant := readU16Pair .methodRef

def constantInfoInterfaceMethodRefInit : Parse Constant := readU16Pair .interfaceMethodRef

def constantInfoNameAndTypeInit : Parse Constant := readU16Pair .nameAndType

/-- The part of `cafebabe_constant_pool_init` behind the tag. -/
def constantInfoInit (tag : UInt8) : Parse Constant :=
  match tag.toNat with
  | 1 => constantInfoUtf8Init
  | 3 => constantInfoIntegerInit
  | 4 => constantInfoFloatInit
  | 5 => constantInfoLongInit
  | 6 => constantInfoDoubleInit
  | 7 => constantInfoClassInit
  | 8 => constantInfoStringInit
  | 9 => constantInfoFieldRefInit
  | 10 => constantInfoMethodRefInit
  | 11 => constantInfoInterfaceMethodRefInit
  | 12 => constantInfoNameAndTypeInit
  | _ => throw .badConstantTag

def constantPoolInit : Parse Constant := do
  let tag ← streamReadUint8
  constantInfoInit tag

/-! ## Members -/

/-- `struct cafebabe_field_info` and `struct cafebabe_method_info`. -/
structure MemberInfo where
  accessFlags : UInt16
  nameIndex : UInt16
  descriptorIndex : UInt16
  attributes : List AttributeInfo
deriving DecidableEq

def memberInfoInit : Parse MemberInfo := do
  let accessFlags ← streamReadUint16
  let nameIndex ← streamReadUint16
  let descriptorIndex ← streamReadUint16
  let attributes ← streamReadArray attributeInfoInit
  return ⟨accessFlags, nameIndex, descriptorIndex, attributes⟩

def fieldInfoInit : Parse MemberInfo := memberInfoInit

def methodInfoInit : Parse MemberInfo := memberInfoInit

/-! ## Classes -/

def Constant.isWide : Constant → Bool
  | long .. | double .. => true
  | _ => false

/-- The index after that of the constant `c`. -/
def nextIndex (i : Nat) (c : Constant) : Nat :=
  let i := if c.isWide then (i + 1) % 2 ^ 16 else i
  (i + 1) % 2 ^ 16

/-- The loop over the constant pool, with the constants in the order of their stores. -/
def constantPoolLoop (count : Nat) : Nat → Nat → Parse (List Constant)
  | 0, _ => throw .unexpectedEof
  | fuel + 1, i =>
    if i < count then do
      let c ← constantPoolInit
      let cs ← constantPoolLoop count fuel (nextIndex i c)
      return c :: cs
    else return []

/-- Every entry takes at least one byte, so there are no more of them than the stream has bytes. -/
def readConstants (count : Nat) : Parse (List Constant) := fun s => constantPoolLoop count (s.virtualN + 1) 1 s

/-- What a class file says. -/
structure ClassFile where
  minorVersion : UInt16
  majorVersion : UInt16
  constantPoolCount : UInt16
  constants : List Constant
  accessFlags : UInt16
  thisClass : UInt16
  superClass : UInt16
  interfaces : List UInt16
  fields : List MemberInfo
  methods : List MemberInfo
  attributes : List AttributeInfo
deriving DecidableEq

/-- The part of `cafebabe_class_init` behind the magic number. -/
def readClassBody : Parse ClassFile := do
  let minorVersion ← streamReadUint16
  let majorVersion ← streamReadUint16
  let constantPoolCount ← streamReadUint16
  let constants ← readConstants constantPoolCount.toNat
  let accessFlags ← streamReadUint16
  let thisClass ← streamReadUint16
  let superClass ← streamReadUint16
  let interfaces ← streamReadArray streamReadUint16
  let fields ← streamReadArray fieldInfoInit
  let methods ← streamReadArray methodInfoInit
  let attributes ← streamReadArray attributeInfoInit
  return ⟨minorVersion, majorVersion, constantPoolCount, constants, accessFlags, thisClass, superClass, interfaces,
    fields, methods, attributes⟩

def readClassFile : Parse ClassFile := do
  let magic ← streamReadUint32
  if magic = 0xCAFEBABE then readClassBody else throw .badMagicNumber

/-- The entries of an allocated constant pool: `none` has a tag that is none of the constants'. -/
abbrev PoolMemory := Nat → Option Constant

/-- The stores of the loop over the constant pool. -/
def storeConstants : Nat → List Constant → PoolMemory → PoolMemory
  | _, [], pool => pool
  | i, c :: cs, pool => storeConstants (nextIndex i c) cs (Function.update pool i (some c))

/-- `struct cafebabe_class`: what the file says, and the memory of the constant pool. -/
structure Class where
  file : ClassFile
  constantPool : PoolMemory

/-- `cafebabe_class_init`, where `junk` is what the allocated constant pool holds. -/
def classInit (junk : PoolMemory) : Parse Class := do
  let file ← readClassFile
  if ← streamEof then return ⟨file, storeConstants 1 file.constants junk⟩
  else throw .expectedEof

/-! ## Typed lookups -/

def classConstantIndexInvalid (c : Class) (i : UInt16) : Bool :=
  i.toNat < 1 || c.file.constantPoolCount.toNat ≤ i.toNat

/-- The common part of the lookups: the entry at `i`, if it has the tag. -/
def classConstantGet (tag : ConstantTag) (c : Class) (i : UInt16) : Option Constant :=
  if classConstantIndexInvalid c i then none else (c.constantPool i.toNat).filter (·.tag = tag)

def classConstantGetInteger (c : Class) (i : UInt16) : Option Constant := classConstantGet .integer c i

def classConstantGetLong (c : Class) (i : UInt16) : Option Constant := classConstantGet .long c i

def classConstantGetFloat (c : Class) (i : UInt16) : Option Constant := classConstantGet .float c i

def classConstantGetDouble (c : Class) (i : UInt16) : Option Constant := classConstantGet .double c i

def classConstantGetUtf8 (c : Class) (i : UInt16) : Option Constant := classConstantGet .utf8 c i

def classConstantGetClass (c : Class) (i : UInt16) : Option Constant := classConstantGet .class_ c i

def classConstantGetFieldRef (c : Class) (i : UInt16) : Option Constant := classConstantGet .fieldRef c i

def classConstantGetMethodRef (c : Class) (i : UInt16) : Option Constant := classConstantGet .methodRef c i

def classConstantGetInterfaceMethodRef (c : Class) (i : UInt16) : Option Constant :=
  classConstantGet .interfaceMethodRef c i

def classConstantGetNameAndType (c : Class) (i : UInt16) : Option Constant := classConstantGet .nameAndType c i

/-- The lookup for a tag; there is none for strings. -/
def lookupFor : ConstantTag → Option (Class → UInt16 → Option Constant)
  | .integer => some classConstantGetInteger
  | .long => some classConstantGetLong
  | .float => some classConstantGetFloat
  | .double => some classConstantGetDouble
  | .utf8 => some classConstantGetUtf8
  | .class_ => some classConstantGetClass
  | .string => none
  | .fieldRef => some classConstantGetFieldRef
  | .methodRef => some classConstantGetMethodRef
  | .interfaceMethodRef => some classConstantGetInterfaceMethodRef
  | .nameAndType => some classConstantGetNameAndType

/-! ## Well-formed class files -/

def Constant.payload : Constant → List UInt8
  | utf8 bytes => arrayBytes (fun b => [b]) bytes
  | integer a | float a => u32Bytes a
  | long a b | double a b => u32Bytes a ++ u32Bytes b
  | class_ a | string a => u16Bytes a
  | fieldRef a b | methodRef a b | interfaceMethodRef a b | nameAndType a b => u16Bytes a ++ u16Bytes b

def Constant.bytes (c : Constant) : List UInt8 := c.tag.toUInt8 :: c.payload

def Constant.Ok : Constant → Prop
  | utf8 bytes => bytes.length < 2 ^ 16
  | _ => True

def MemberInfo.bytes (m : MemberInfo) : List UInt8 :=
  u16Bytes m.accessFlags ++ (u16Bytes m.nameIndex ++ (u16Bytes m.descriptorIndex ++
    arrayBytes AttributeInfo.bytes m.attributes))

def MemberInfo.Ok (m : MemberInfo) : Prop := m.attributes.length < 2 ^ 16 ∧ ∀ a ∈ m.attributes, a.Ok

namespace ClassFile

def body (c : ClassFile) : List UInt8 :=
  u16Bytes c.minorVersion ++ (u16Bytes c.majorVersion ++ (u16Bytes c.constantPoolCount ++
    (c.constants.flatMap Constant.bytes ++ (u16Bytes c.accessFlags ++ (u16Bytes c.thisClass ++ (u16Bytes c.superClass ++
      (arrayBytes u16Bytes c.interfaces ++ (arrayBytes MemberInfo.bytes c.fields ++
        (arrayBytes MemberInfo.bytes c.methods ++ arrayBytes AttributeInfo.bytes c.attributes)))))))))

def bytes (c : ClassFile) : List UInt8 := u32Bytes 0xCAFEBABE ++ c.body

/-- The lengths fit the fields that hold them. -/
structure PartsOk (c : ClassFile) : Prop where
  constants : ∀ k ∈ c.constants, k.Ok
  interfaces : c.interfaces.length < 2 ^ 16
  fields : c.fields.length < 2 ^ 16 ∧ ∀ m ∈ c.fields, m.Ok
  methods : c.methods.length < 2 ^ 16 ∧ ∀ m ∈ c.methods, m.Ok
  attributes : c.attributes.length < 2 ^ 16 ∧ ∀ a ∈ c.attributes, a.Ok

end ClassFile

/-- How many indices a constant takes. -/
def Constant.width (c : Constant) : Nat := if c.isWide then 2 else 1

/-- The constants with their indices, from `i` on. -/
def indexed : Nat → List Constant → List (Nat × Constant)
  | _, [] => []
  | i, c :: cs => (i, c) :: indexed (i + c.width) cs

/-- **Structurally well-formed class files**: the constants take all the indices from `1` up to the declared count. -/
structure ClassFile.WellFormed (c : ClassFile) : Prop where
  parts : c.PartsOk
  pool : 1 + (c.constants.map Constant.width).sum = max 1 c.constantPoolCount.toNat

/-- The constant that is stored at an index. -/
def ClassFile.entryAt (c : ClassFile) (i : Nat) : Option Constant := (indexed 1 c.constants).lookup i

/-! ## Exact readers -/

section

variable {α : Type} {p : Parse α} {bytes : α → List UInt8} (hp : Reads cursor p (.computed (fun _ => True) bytes))

include hp

theorem word_reads (f : α → Constant) :
    Reads cursor (do let a ← p; return f a) fun c b => ∃ a, c = f a ∧ b = bytes a := by
  refine (hp.bind fun a => Reads.pure _).congr fun c b => ?_
  constructor
  · rintro ⟨a, _, _, ⟨-, rfl⟩, ⟨rfl, rfl⟩, rfl⟩
    exact ⟨a, rfl, append_nil _⟩
  · rintro ⟨a, rfl, rfl⟩
    exact ⟨a, _, _, ⟨trivial, rfl⟩, ⟨rfl, rfl⟩, (append_nil _).symm⟩

theorem wordPair_reads (f : α → α → Constant) :
    Reads cursor (do let a ← p; let b ← p; return f a b) fun c b => ∃ a a', c = f a a' ∧ b = bytes a ++ bytes a' := by
  refine (hp.bind fun a => word_reads hp (f a)).congr fun c b => ?_
  constructor
  · rintro ⟨a, _, _, ⟨-, rfl⟩, ⟨a', rfl, rfl⟩, rfl⟩
    exact ⟨a, a', rfl, rfl⟩
  · rintro ⟨a, a', rfl, rfl⟩
    exact ⟨a, _, _, ⟨trivial, rfl⟩, ⟨a', rfl, rfl⟩, rfl⟩

end

theorem constantInfoUtf8Init_reads :
    Reads cursor constantInfoUtf8Init fun c b => ∃ l, c = .utf8 l ∧ l.length < 2 ^ 16 ∧ b = arrayBytes (fun b => [b]) l := by
  refine ((streamReadArray_reads streamReadUint8_reads).bind fun l => Reads.pure _).congr fun c b => ?_
  constructor
  · rintro ⟨l, _, _, ⟨⟨hlt, -⟩, rfl⟩, ⟨rfl, rfl⟩, rfl⟩
    exact ⟨l, rfl, hlt, append_nil _⟩
  · rintro ⟨l, rfl, hlt, rfl⟩
    exact ⟨l, _, _, ⟨⟨hlt, fun _ _ => trivial⟩, rfl⟩, ⟨rfl, rfl⟩, (append_nil _).symm⟩

theorem constantInfoInit_reads (tag : UInt8) :
    Reads cursor (constantInfoInit tag) fun c b => c.tag.toUInt8 = tag ∧ c.Ok ∧ b = c.payload := by
  have heq {k} (h : tag.toNat = k) : tag = UInt8.ofNat k := h ▸ UInt8.ofNat_toNat.symm
  unfold constantInfoInit
  split
  case h_1 h =>
    refine constantInfoUtf8Init_reads.congr fun c b => ?_
    rw [heq h]
    cases c <;> simp [Constant.tag, ConstantTag.toUInt8, Constant.Ok, Constant.payload]
  case h_2 h | h_3 h =>
    refine (word_reads streamReadUint32_reads _).congr fun c b => ?_
    rw [heq h]
    cases c <;> simp [Constant.tag, ConstantTag.toUInt8, Constant.Ok, Constant.payload]
  case h_4 h | h_5 h =>
    refine (wordPair_reads streamReadUint32_reads _).congr fun c b => ?_
    rw [heq h]
    cases c <;> simp [Constant.tag, ConstantTag.toUInt8, Constant.Ok, Constant.payload, and_assoc]
  case h_6 h | h_7 h =>
    refine (word_reads streamReadUint16_reads _).congr fun c b => ?_
    rw [heq h]
    cases c <;> simp [Constant.tag, ConstantTag.toUInt8, Constant.Ok, Constant.payload]
  case h_8 h | h_9 h | h_10 h | h_11 h =>
    refine (wordPair_reads streamReadUint16_reads _).congr fun c b => ?_
    rw [heq h]
    cases c <;> simp [Constant.tag, ConstantTag.toUInt8, Constant.Ok, Constant.payload, and_assoc]
  case h_12 h1 h3 h4 h5 h6 h7 h8 h9 h10 h11 h12 =>
    refine (Reads.throw _).congr fun c b => ⟨False.elim, ?_⟩
    rintro ⟨rfl, -⟩
    cases c <;> simp_all [Constant.tag, ConstantTag.toUInt8]

theorem constantPoolInit_reads : Reads cursor constantPoolInit (.computed Constant.Ok Constant.bytes) := by
  refine (streamReadUint8_reads.bind fun tag => constantInfoInit_reads tag).congr fun c b => ?_
  constructor
  · rintro ⟨tag, _, _, ⟨-, rfl⟩, ⟨rfl, hok, rfl⟩, rfl⟩
    exact ⟨hok, rfl⟩
  · rintro ⟨hok, rfl⟩
    exact ⟨c.tag.toUInt8, _, _, ⟨trivial, rfl⟩, ⟨rfl, hok, rfl⟩, rfl⟩

theorem memberInfoInit_reads : Reads cursor memberInfoInit (.computed MemberInfo.Ok MemberInfo.bytes) := by
  refine (streamReadUint16_reads.bind fun accessFlags => streamReadUint16_reads.bind fun nameIndex =>
    streamReadUint16_reads.bind fun descriptorIndex => (streamReadArray_reads attributeInfoInit_reads).bind fun attributes =>
      Reads.pure _).congr fun m b => ?_
  constructor
  · rintro ⟨_, _, _, ⟨-, rfl⟩, ⟨_, _, _, ⟨-, rfl⟩, ⟨_, _, _, ⟨-, rfl⟩, ⟨_, _, _, ⟨hok, rfl⟩, ⟨rfl, rfl⟩, rfl⟩, rfl⟩, rfl⟩, rfl⟩
    exact ⟨hok, by rw [MemberInfo.bytes, append_nil]⟩
  · rintro ⟨hok, rfl⟩
    refine ⟨m.accessFlags, _, _, ⟨trivial, rfl⟩, ⟨m.nameIndex, _, _, ⟨trivial, rfl⟩, ⟨m.descriptorIndex, _, _, ⟨trivial, rfl⟩,
      ⟨m.attributes, _, _, ⟨hok, rfl⟩, ⟨rfl, rfl⟩, rfl⟩, rfl⟩, rfl⟩, ?_⟩
    rw [MemberInfo.bytes, append_nil]

/-! ## The constant pool -/

/-- The loop over a pool of `count` entries, from the index `i` on, ends with these constants. -/
def Fills (count : Nat) : Nat → List Constant → Prop
  | i, [] => count ≤ i
  | i, c :: cs => i < count ∧ Fills count (nextIndex i c) cs

variable {cs : List Constant} {i j : Nat}

variable {count : Nat} {buf : Buffer} {c : ClassFile} {k : Constant} {t : ConstantTag}

theorem constantPoolLoop_eq_ok {fuel i : Nat} {s s' : Stream} (hs : s.Valid)
    (hfuel : (cursor.rest s).length < fuel) : constantPoolLoop count fuel i s = .ok (cs, s') ↔
      (Fills count i cs ∧ ∀ c ∈ cs, c.Ok) ∧ cs.flatMap Constant.bytes <+: cursor.rest s ∧
        s' = cursor.advance s (cs.flatMap Constant.bytes).length := by
  induction fuel generalizing i s s' cs with
  | zero => cases hfuel
  | succ fuel ih =>
    unfold constantPoolLoop
    split
    · rename_i hi
      -- a constant has at least its tag, which leaves enough fuel for the rest
      have hnext {c : Constant} (hpre : c.bytes <+: cursor.rest s) : (cursor.advance s c.bytes.length).Valid ∧
          cursor.rest (cursor.advance s c.bytes.length) = (cursor.rest s).drop c.bytes.length ∧
          (cursor.rest (cursor.advance s c.bytes.length)).length < fuel := by
        have hrest := cursor.rest_advance s _ hs hpre.length_le
        have hpos : 0 < c.bytes.length := Nat.succ_pos _
        have hle := hpre.length_le
        refine ⟨cursor.valid_advance s _ hs hle, hrest, ?_⟩
        rw [hrest, length_drop]
        omega
      rw [stateT_bind_eq_ok]
      constructor
      · rintro ⟨c, s₁, hc, h⟩
        obtain ⟨_, ⟨hok, rfl⟩, hpre, rfl⟩ := (constantPoolInit_reads s hs c s₁).mp hc
        obtain ⟨hvalid, hrest, hlt⟩ := hnext hpre
        obtain ⟨cs', s₂, hcs, h⟩ := stateT_bind_eq_ok.mp h
        cases h
        obtain ⟨⟨hfills, hall⟩, hpre', rfl⟩ := (ih hvalid hlt).mp hcs
        obtain ⟨r, hr⟩ := hpre
        rw [hrest, ← hr, drop_left] at hpre'
        have hboth : c.bytes ++ cs'.flatMap Constant.bytes <+: cursor.rest s :=
          hr ▸ (prefix_append_right_inj _).mpr hpre'
        refine ⟨⟨⟨hi, hfills⟩, forall_mem_cons.mpr ⟨hok, hall⟩⟩, hboth, ?_⟩
        rw [flatMap_cons, length_append, cursor.advance_add s _ _ hs (by simpa using hboth.length_le)]
      · rintro ⟨⟨hfills, hall⟩, hpre, rfl⟩
        cases cs with
        | nil => exact absurd hi (not_lt.mpr hfills)
        | cons c cs =>
          obtain ⟨-, hfills⟩ := hfills
          obtain ⟨hok, hall⟩ := forall_mem_cons.mp hall
          rw [flatMap_cons] at hpre ⊢
          have hc : c.bytes <+: cursor.rest s := (prefix_append _ _).trans hpre
          obtain ⟨hvalid, hrest, hlt⟩ := hnext hc
          have hcs : cs.flatMap Constant.bytes <+: cursor.rest (cursor.advance s c.bytes.length) := by
            obtain ⟨r, hr⟩ := hpre
            rw [hrest, ← hr, append_assoc, drop_left]
            exact prefix_append _ r
          rw [length_append, cursor.advance_add s _ _ hs (by simpa using hpre.length_le)]
          refine ⟨c, _, (constantPoolInit_reads s hs c _).mpr ⟨_, ⟨hok, rfl⟩, hc, rfl⟩, ?_⟩
          exact stateT_bind_eq_ok.mpr ⟨cs, _, (ih hvalid hlt).mpr ⟨⟨hfills, hall⟩, hcs, rfl⟩, rfl⟩
    · rename_i hi
      constructor
      · rintro ⟨⟩
        exact ⟨⟨Nat.le_of_not_lt hi, by simp⟩, nil_prefix, rfl⟩
      · rintro ⟨⟨hfills, -⟩, -, rfl⟩
        cases cs with
        | nil => rfl
        | cons c cs => exact absurd hfills.1 hi

theorem readConstants_reads (count : Nat) : Reads cursor (readConstants count)
    (.computed (fun cs => Fills count 1 cs ∧ ∀ c ∈ cs, c.Ok) fun cs => cs.flatMap Constant.bytes) := by
  intro s hs cs s'
  have hlen : (cursor.rest s).length < s.virtualN + 1 := by
    have hsize := hs.size
    simp only [cursor, length_drop]
    omega
  refine (constantPoolLoop_eq_ok hs hlen).trans ⟨fun ⟨hok, hpre, hs'⟩ => ⟨_, ⟨hok, rfl⟩, hpre, hs'⟩, ?_⟩
  rintro ⟨_, ⟨hok, rfl⟩, hpre, hs'⟩
  exact ⟨hok, hpre, hs'⟩

/-! ## The whole file -/

/-- The files that the reader accepts. -/
structure ClassFile.Readable (c : ClassFile) : Prop where
  parts : c.PartsOk
  pool : Fills c.constantPoolCount.toNat 1 c.constants

theorem readClassBody_reads : Reads cursor readClassBody (.computed ClassFile.Readable ClassFile.body) := by
  refine (streamReadUint16_reads.bind fun minorVersion => streamReadUint16_reads.bind fun majorVersion =>
    streamReadUint16_reads.bind fun count => (readConstants_reads count.toNat).bind fun constants =>
    streamReadUint16_reads.bind fun accessFlags => streamReadUint16_reads.bind fun thisClass =>
    streamReadUint16_reads.bind fun superClass => (streamReadArray_reads streamReadUint16_reads).bind fun interfaces =>
    (streamReadArray_reads memberInfoInit_reads).bind fun fields =>
    (streamReadArray_reads memberInfoInit_reads).bind fun methods =>
    (streamReadArray_reads attributeInfoInit_reads).bind fun attributes => Reads.pure _).congr fun c b => ?_
  constructor
  · rintro ⟨_, _, _, ⟨-, rfl⟩, ⟨_, _, _, ⟨-, rfl⟩, ⟨_, _, _, ⟨-, rfl⟩, ⟨_, _, _, ⟨⟨hpool, hconstants⟩, rfl⟩, ⟨_, _, _, ⟨-, rfl⟩,
      ⟨_, _, _, ⟨-, rfl⟩, ⟨_, _, _, ⟨-, rfl⟩, ⟨_, _, _, ⟨⟨hinterfaces, -⟩, rfl⟩, ⟨_, _, _, ⟨hfields, rfl⟩, ⟨_, _, _, ⟨hmethods, rfl⟩,
        ⟨_, _, _, ⟨hattributes, rfl⟩, ⟨rfl, rfl⟩, rfl⟩, rfl⟩, rfl⟩, rfl⟩, rfl⟩, rfl⟩, rfl⟩, rfl⟩, rfl⟩, rfl⟩, rfl⟩
    refine ⟨⟨⟨hconstants, hinterfaces, hfields, hmethods, hattributes⟩, hpool⟩, ?_⟩
    rw [ClassFile.body, append_nil]
  · rintro ⟨⟨⟨hconstants, hinterfaces, hfields, hmethods, hattributes⟩, hpool⟩, rfl⟩
    refine ⟨c.minorVersion, _, _, ⟨trivial, rfl⟩, ⟨c.majorVersion, _, _, ⟨trivial, rfl⟩,
      ⟨c.constantPoolCount, _, _, ⟨trivial, rfl⟩, ⟨c.constants, _, _, ⟨⟨hpool, hconstants⟩, rfl⟩,
      ⟨c.accessFlags, _, _, ⟨trivial, rfl⟩, ⟨c.thisClass, _, _, ⟨trivial, rfl⟩, ⟨c.superClass, _, _, ⟨trivial, rfl⟩,
      ⟨c.interfaces, _, _, ⟨⟨hinterfaces, fun _ _ => trivial⟩, rfl⟩, ⟨c.fields, _, _, ⟨hfields, rfl⟩,
      ⟨c.methods, _, _, ⟨hmethods, rfl⟩, ⟨c.attributes, _, _, ⟨hattributes, rfl⟩, ⟨rfl, rfl⟩, rfl⟩, rfl⟩, rfl⟩, rfl⟩, rfl⟩, rfl⟩,
      rfl⟩, rfl⟩, rfl⟩, rfl⟩, ?_⟩
    rw [ClassFile.body, append_nil]

theorem readClassFile_reads : Reads cursor readClassFile (.computed ClassFile.Readable ClassFile.bytes) := by
  have hbody (magic : UInt32) : Reads cursor (if magic = 0xCAFEBABE then readClassBody else throw .badMagicNumber)
      fun c b => magic = 0xCAFEBABE ∧ c.Readable ∧ b = c.body := by
    split_ifs with hmagic
    · exact readClassBody_reads.congr fun c b => (and_iff_right hmagic).symm
    · exact (Reads.throw _).congr fun c b => ⟨False.elim, fun h => hmagic h.1⟩
  refine (streamReadUint32_reads.bind hbody).congr fun c b => ?_
  constructor
  · rintro ⟨_, _, _, ⟨-, rfl⟩, ⟨rfl, hok, rfl⟩, rfl⟩
    exact ⟨hok, rfl⟩
  · rintro ⟨hok, rfl⟩
    exact ⟨_, _, _, ⟨trivial, rfl⟩, ⟨rfl, hok, rfl⟩, rfl⟩

/-- A parser whose success also asks for the end of the stream accepts the encodings. -/
theorem atEof_eq_ok {α β : Type} {p : Parse α} {ok : α → Prop} {enc : α → List UInt8} {f : α → β} {x : β}
    (hp : Reads cursor p (.computed ok enc)) :
    (∃ s', (do let a ← p; if ← streamEof then return f a else throw .expectedEof : Parse β) (streamOpenBuffer buf) =
      .ok (x, s')) ↔ ∃ a, ok a ∧ enc a = buf.bytes ∧ x = f a := by
  have hs := streamOpenBuffer_valid buf
  constructor
  · rintro ⟨s', h⟩
    obtain ⟨a, s₁, ha, h⟩ := stateT_bind_eq_ok.mp h
    obtain ⟨eof, s₂, heof, h⟩ := stateT_bind_eq_ok.mp h
    obtain ⟨_, ⟨hok, rfl⟩, hpre, rfl⟩ := (hp _ hs a s₁).mp ha
    cases heof
    split at h
    · rename_i heof
      cases h
      simp only [cursor, streamOpenBuffer, decide_eq_true_eq, zero_add] at heof
      exact ⟨a, hok, hpre.eq_of_length heof, rfl⟩
    · cases h
  · rintro ⟨a, hok, hbytes, rfl⟩
    refine ⟨cursor.advance (streamOpenBuffer buf) (enc a).length, stateT_bind_eq_ok.mpr ⟨a, _,
      (hp _ hs a _).mpr ⟨_, ⟨hok, rfl⟩, hbytes ▸ prefix_refl _, rfl⟩, ?_⟩⟩
    refine stateT_bind_eq_ok.mpr ⟨true, _, ?_, rfl⟩
    simp [streamEof, cursor, streamOpenBuffer, hbytes]

/-- **Accepted strings** are those of the readable class files. -/
theorem classInit_eq_ok (junk : PoolMemory) {cls : Class} :
    (∃ s', classInit junk (streamOpenBuffer buf) = .ok (cls, s')) ↔
      ∃ c : ClassFile, c.Readable ∧ c.bytes = buf.bytes ∧ cls = ⟨c, storeConstants 1 c.constants junk⟩ :=
  atEof_eq_ok readClassFile_reads

theorem ClassFile.Readable.unique {c' : ClassFile} (hc : c.Readable) (hbytes : c.bytes = buf.bytes)
    (hc' : c'.Readable) (hbytes' : c'.bytes = buf.bytes) : c = c' := by
  obtain ⟨s, hs⟩ := (classInit_eq_ok fun _ => none).mpr ⟨c, hc, hbytes, rfl⟩
  obtain ⟨s', hs'⟩ := (classInit_eq_ok fun _ => none).mpr ⟨c', hc', hbytes', rfl⟩
  rw [hs] at hs'
  cases hs'
  rfl

/-! ## Indices -/

/-- The stores of the loop. -/
def stored : Nat → List Constant → List (Nat × Constant)
  | _, [] => []
  | i, c :: cs => (i, c) :: stored (nextIndex i c) cs

theorem width_pos (c : Constant) : 0 < c.width := by
  unfold Constant.width
  split_ifs <;> omega

theorem nextIndex_eq {i : Nat} {c : Constant} (h : i + c.width < 2 ^ 16) : nextIndex i c = i + c.width := by
  unfold nextIndex Constant.width at *
  split_ifs at * <;> simp only [] <;> omega

/-- The constants fill the pool exactly if no wide one is stored at the last index. -/
theorem fills_iff_sum (i : Nat) (cs : List Constant) (hcount : count < 2 ^ 16) :
    (Fills count i cs ∧ ∀ p ∈ stored i cs, p.2.isWide → p.1 + 1 < count) ↔
      i + (cs.map Constant.width).sum = max i count := by
  induction cs generalizing i with
  | nil =>
    have hnil : (∀ p ∈ stored i [], p.2.isWide → p.1 + 1 < count) ↔ True := iff_true_intro fun _ h => nomatch h
    rw [hnil, and_true, map_nil, sum_nil, Fills]
    omega
  | cons c cs ih =>
    have hpos := width_pos c
    have hwide : (c.isWide → i + 1 < count) ∧ i < count ↔ i + c.width ≤ count := by
      unfold Constant.width
      split_ifs with h <;> simp only [h, forall_true_left, Bool.false_eq_true, false_imp_iff, true_and] <;> omega
    rw [map_cons, sum_cons, ← add_assoc]
    constructor
    · rintro ⟨⟨hi, hfills⟩, hstored⟩
      obtain ⟨hc, hcs⟩ := forall_mem_cons.mp hstored
      have hle := hwide.mp ⟨hc, hi⟩
      rw [nextIndex_eq (by omega)] at hfills hcs
      have := (ih _).mp ⟨hfills, hcs⟩
      omega
    · intro hsum
      have hle : i + c.width ≤ count := by omega
      obtain ⟨hc, hi⟩ := hwide.mpr hle
      have hnext : i + c.width = nextIndex i c := (nextIndex_eq (by omega)).symm
      obtain ⟨hfills, hcs⟩ := (ih (i + c.width)).mpr (by omega)
      rw [hnext] at hfills hcs
      exact ⟨⟨hi, hfills⟩, forall_mem_cons.mpr ⟨hc, hcs⟩⟩

theorem ClassFile.wellFormed_iff : c.WellFormed ↔
    c.Readable ∧ ∀ p ∈ stored 1 c.constants, p.2.isWide → p.1 + 1 < c.constantPoolCount.toNat := by
  have hpool := fills_iff_sum 1 c.constants c.constantPoolCount.toNat_lt
  constructor
  · rintro ⟨hparts, hsum⟩
    obtain ⟨hfills, hlast⟩ := hpool.mpr hsum
    exact ⟨⟨hparts, hfills⟩, hlast⟩
  · rintro ⟨⟨hparts, hfills⟩, hlast⟩
    exact ⟨hparts, hpool.mp ⟨hfills, hlast⟩⟩

theorem lookup_indexed_cons (i j : Nat) (c : Constant) (cs : List Constant) : (indexed i (c :: cs)).lookup j =
    if j = i then some c else (indexed (i + c.width) cs).lookup j := by
  rw [indexed, lookup_cons]
  by_cases h : j = i
  · rw [if_pos h, beq_iff_eq.mpr h]
  · rw [if_neg h, beq_eq_false_iff_ne.mpr h]

theorem lookup_indexed_bounds (h : (indexed i cs).lookup j = some k) :
    i ≤ j ∧ j + k.width ≤ i + (cs.map Constant.width).sum := by
  induction cs generalizing i with
  | nil => cases h
  | cons c cs ih =>
    rw [map_cons, sum_cons]
    rw [lookup_indexed_cons] at h
    split_ifs at h with hj
    · cases h
      omega
    · have := ih h
      omega

theorem lookup_indexed_eq_none (h : j < i) : (indexed i cs).lookup j = none := by
  by_contra hne
  obtain ⟨k, hk⟩ := ne_none_iff_exists'.mp hne
  exact absurd (lookup_indexed_bounds hk).1 (not_le.mpr h)

theorem lookup_indexed_succ_eq_none
    (h : (indexed i cs).lookup j = some k) (hwide : k.isWide) : (indexed i cs).lookup (j + 1) = none := by
  induction cs generalizing i with
  | nil => rfl
  | cons c cs ih =>
    rw [lookup_indexed_cons] at h ⊢
    split_ifs at h with hj
    · cases h
      have hwidth : k.width = 2 := if_pos hwide
      rw [if_neg (by omega), lookup_indexed_eq_none (by omega)]
    · have hbounds := lookup_indexed_bounds h
      rw [if_neg (by omega), ih h]

/-- The indices of the pool without a constant are the second ones of the wide constants. -/
theorem exists_isWide_of_lookup_eq_none (hi : i ≤ j)
    (hj : j < i + (cs.map Constant.width).sum) (h : (indexed i cs).lookup j = none) :
    ∃ j' k, (indexed i cs).lookup j' = some k ∧ k.isWide ∧ j = j' + 1 := by
  induction cs generalizing i with
  | nil => exact absurd hj (not_lt.mpr hi)
  | cons c cs ih =>
    have hpos := width_pos c
    rw [map_cons, sum_cons, ← add_assoc] at hj
    rw [lookup_indexed_cons] at h
    split_ifs at h with hne
    by_cases hsecond : j < i + c.width
    · refine ⟨i, c, by rw [lookup_indexed_cons, if_pos rfl], ?_, ?_⟩ <;>
        (unfold Constant.width at hsecond; split_ifs at hsecond with hwide)
      · exact hwide
      · omega
      · omega
      · omega
    · obtain ⟨j', k, hk, hwide, rfl⟩ := ih (not_lt.mp hsecond) hj h
      have hbounds := lookup_indexed_bounds hk
      exact ⟨j', k, by rw [lookup_indexed_cons, if_neg (by omega), hk], hwide, rfl⟩

theorem storeConstants_apply {pool : PoolMemory} (h : i + (cs.map Constant.width).sum < 2 ^ 16) :
    storeConstants i cs pool j = ((indexed i cs).lookup j).or (pool j) := by
  induction cs generalizing i pool with
  | nil => rfl
  | cons c cs ih =>
    have hpos := width_pos c
    rw [map_cons, sum_cons, ← add_assoc] at h
    rw [storeConstants, nextIndex_eq (by omega), ih h, lookup_indexed_cons]
    split_ifs with hj
    · rw [hj, lookup_indexed_eq_none (by omega), Function.update_self, none_or, some_or]
    · rw [Function.update_of_ne hj]

/-! ## Correctness -/

theorem lookupFor_eq {get : Class → UInt16 → Option Constant} (h : lookupFor t = some get) :
    get = classConstantGet t := by
  cases t <;> cases h <;> rfl

theorem classConstantGet_isSome {c : Class} {i : UInt16} : (classConstantGet t c i).isSome ↔
    (1 ≤ i.toNat ∧ i.toNat < c.file.constantPoolCount.toNat) ∧ ∃ k, c.constantPool i.toNat = some k ∧ k.tag = t := by
  have hvalid : (1 ≤ i.toNat ∧ i.toNat < c.file.constantPoolCount.toNat) ↔ ¬ classConstantIndexInvalid c i = true := by
    simp only [classConstantIndexInvalid, Bool.or_eq_true, decide_eq_true_eq]
    omega
  rw [hvalid, classConstantGet]
  split_ifs with h
  · exact iff_of_false (by simp) fun hne => hne.1 h
  · rw [and_iff_right h]
    simp only [isSome_iff_exists, filter_eq_some_iff, decide_eq_true_eq]

/-- `cafebabe_class_init` accepts the well-formed class files, and a lookup then succeeds at an index exactly if a
constant with its tag is stored there. A run that reads outside the buffer, which takes a buffer of nearly `2 ^ 32` bytes
whose offsets wrap, ends in the error `fault` and so counts as one that does not accept. -/
structure Correct (buf : Buffer) (junk : PoolMemory) : Prop where
  accepts : (∃ cls s', classInit junk (streamOpenBuffer buf) = .ok (cls, s')) ↔
    ∃ c : ClassFile, c.WellFormed ∧ c.bytes = buf.bytes
  lookups : ∀ c : ClassFile, c.WellFormed → c.bytes = buf.bytes →
    ∀ cls s', classInit junk (streamOpenBuffer buf) = .ok (cls, s') → ∀ t get, lookupFor t = some get →
      ∀ i : UInt16, (get cls i).isSome ↔ ∃ k, c.entryAt i.toNat = some k ∧ k.tag = t

theorem ClassFile.WellFormed.storeConstants_eq (hc : c.WellFormed) {junk : PoolMemory} {i : Nat} :
    storeConstants 1 c.constants junk i = (c.entryAt i).or (junk i) := by
  have hpool := hc.pool
  have hcount := c.constantPoolCount.toNat_lt
  exact storeConstants_apply (by omega)

/-- **Class files**: the parser and the lookups are right exactly if no long or double is stored at the last index of
the constant pool, and the allocated memory holds no tag of a lookup at the second index of one. -/
theorem classInit_correct_iff {buf : Buffer} {junk : PoolMemory} : Correct buf junk ↔
    ∀ c : ClassFile, c.Readable → c.bytes = buf.bytes →
      (∀ p ∈ stored 1 c.constants, p.2.isWide → p.1 + 1 < c.constantPoolCount.toNat) ∧
      ∀ i k, c.entryAt i = some k → k.isWide → ∀ k', junk (i + 1) = some k' → lookupFor k'.tag = none := by
  constructor
  · rintro ⟨haccepts, hlookups⟩ c hread hbytes
    obtain ⟨s', hs'⟩ := (classInit_eq_ok junk).mpr ⟨c, hread, hbytes, rfl⟩
    obtain ⟨c', hwf, hbytes'⟩ := haccepts.mp ⟨_, s', hs'⟩
    obtain rfl := hread.unique hbytes (ClassFile.wellFormed_iff.mp hwf).1 hbytes'
    refine ⟨(ClassFile.wellFormed_iff.mp hwf).2, fun i k hk hwide k' hjunk => ?_⟩
    by_contra hne
    obtain ⟨get, hget⟩ := ne_none_iff_exists'.mp hne
    -- the lookup finds what the memory holds at the second index
    have hbounds := lookup_indexed_bounds hk
    have hwidth : k.width = 2 := if_pos hwide
    have hpool := hwf.pool
    have hcount := c.constantPoolCount.toNat_lt
    have hnone : c.entryAt (i + 1) = none := lookup_indexed_succ_eq_none hk hwide
    have hlt : i + 1 < 2 ^ 16 := by omega
    have hi : (UInt16.ofNat (i + 1)).toNat = i + 1 := UInt16.toNat_ofNat_of_lt' hlt
    have hfound : (get ⟨c, storeConstants 1 c.constants junk⟩ (UInt16.ofNat (i + 1))).isSome := by
      rw [lookupFor_eq hget, classConstantGet_isSome, hi]
      refine ⟨by simp only; omega, k', ?_, rfl⟩
      change storeConstants 1 c.constants junk (i + 1) = some k'
      rw [hwf.storeConstants_eq, hnone, hjunk, none_or]
    obtain ⟨k'', hk'', -⟩ := (hlookups c hwf hbytes _ s' hs' _ get hget _).mp hfound
    rw [hi, hnone] at hk''
    cases hk''
  · intro h
    refine ⟨⟨?_, ?_⟩, ?_⟩
    · rintro ⟨cls, hcls⟩
      obtain ⟨c, hread, hbytes, -⟩ := (classInit_eq_ok junk).mp hcls
      exact ⟨c, ClassFile.wellFormed_iff.mpr ⟨hread, (h c hread hbytes).1⟩, hbytes⟩
    · rintro ⟨c, hwf, hbytes⟩
      exact ⟨_, (classInit_eq_ok junk).mpr ⟨c, (ClassFile.wellFormed_iff.mp hwf).1, hbytes, rfl⟩⟩
    · intro c hwf hbytes cls s' hs' t get hget i
      have hread := (ClassFile.wellFormed_iff.mp hwf).1
      obtain ⟨c', hread', hbytes', rfl⟩ := (classInit_eq_ok junk).mp ⟨s', hs'⟩
      obtain rfl := hread.unique hbytes hread' hbytes'
      have hpool := hwf.pool
      rw [lookupFor_eq hget, classConstantGet_isSome]
      simp only [hwf.storeConstants_eq]
      constructor
      · rintro ⟨⟨hi, hlt⟩, k, hk, htag⟩
        cases hentry : c.entryAt i.toNat with
        | some k' =>
          rw [hentry, some_or] at hk
          exact ⟨k, hk, htag⟩
        | none =>
          rw [hentry, none_or] at hk
          obtain ⟨j, k', hk', hwide, hj⟩ := exists_isWide_of_lookup_eq_none hi (by omega) hentry
          have := (h c hread hbytes).2 j k' hk' hwide k (hj ▸ hk)
          rw [htag, hget] at this
          cases this
      · rintro ⟨k, hk, htag⟩
        have hbounds := lookup_indexed_bounds hk
        have hpos := width_pos k
        exact ⟨by omega, k, by rw [hk, some_or], htag⟩

/-- A constant pool with the indices `0` and `1`, and a long at the index `1`. -/
def longLast : ClassFile := ⟨0, 49, 2, [.long 0 0], 0, 0, 0, [], [], [], []⟩

def longLastBuffer : Buffer := ⟨longLast.bytes, by decide⟩

/-- The file is accepted, and the second index of the long is beyond the pool. -/
theorem not_correct_longLast : ¬ Correct longLastBuffer fun _ => none := by
  intro h
  have hread : longLast.Readable := by
    refine ⟨⟨?_, ?_, ⟨?_, nofun⟩, ⟨?_, nofun⟩, ⟨?_, nofun⟩⟩, ?_⟩
    all_goals simp [longLast, Constant.Ok, Fills, nextIndex, Constant.isWide]
  have hbuffer : longLast.bytes = longLastBuffer.bytes := rfl
  obtain ⟨s', hs'⟩ := (classInit_eq_ok fun _ => none).mpr ⟨longLast, hread, hbuffer, rfl⟩
  obtain ⟨c, hwf, hbytes⟩ := h.accepts.mp ⟨_, s', hs'⟩
  obtain rfl := hread.unique hbuffer (ClassFile.wellFormed_iff.mp hwf).1 hbytes
  exact absurd hwf.pool (by decide)

end Jato.Cafebabe
