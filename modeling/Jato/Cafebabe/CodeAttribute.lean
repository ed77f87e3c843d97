import Jato.Cafebabe.Stream

/-!
# The Code attribute

`cafebabe/code_attribute.c`. The code is not copied out of the stream: the attribute keeps a pointer to it, and the
stream skips `code_length` bytes. The test of the skip wraps, so a length near `2 ^ 32` moves the stream backwards.
`laidOut_iff` says for which accepted contents the parts of the attribute lie one after the other and fill it.
-/

namespace Jato.Cafebabe

open Jato.Lib

/-- `struct cafebabe_code_attribute_exception`. -/
structure CodeAttributeException where
  startPc : UInt16
  endPc : UInt16
  handlerPc : UInt16
  catchType : UInt16
deriving DecidableEq

/-- `struct cafebabe_code_attribute`: `code` is a position in the stream, and the other counts are lengths. -/
structure CodeAttribute where
  maxStack : UInt16
  maxLocals : UInt16
  codeLength : UInt32
  code : Nat
  exceptionTable : List CodeAttributeException
  attributes : List AttributeInfo
deriving DecidableEq

def codeAttributeExceptionInit : Parse CodeAttributeException := do
  let startPc ← streamReadUint16
  let endPc ← streamReadUint16
  let handlerPc ← streamReadUint16
  let catchType ← streamReadUint16
  return ⟨startPc, endPc, handlerPc, catchType⟩

/-- The fields in front of the code. -/
def codeAttributeHead : Parse (UInt16 × UInt16 × UInt32) := do
  let maxStack ← streamReadUint16
  let maxLocals ← streamReadUint16
  let codeLength ← streamReadUint32
  return (maxStack, maxLocals, codeLength)

/-- The tables behind the code. -/
def codeAttributeTables : Parse (List CodeAttributeException × List AttributeInfo) := do
  let exceptionTable ← streamReadArray codeAttributeExceptionInit
  let attributes ← streamReadArray attributeInfoInit
  return (exceptionTable, attributes)

def codeAttributeInit : Parse CodeAttribute := do
  let (maxStack, maxLocals, codeLength) ← codeAttributeHead
  let code ← streamPointer
  streamSkip codeLength.toNat
  let (exceptionTable, attributes) ← codeAttributeTables
  if ← streamEof then return ⟨maxStack, maxLocals, codeLength, code, exceptionTable, attributes⟩
  else throw .expectedEof

/-! ## What the parts look like -/

def CodeAttributeException.bytes (e : CodeAttributeException) : List UInt8 :=
  u16Bytes e.startPc ++ (u16Bytes e.endPc ++ (u16Bytes e.handlerPc ++ u16Bytes e.catchType))

theorem codeAttributeExceptionInit_reads :
    Reads cursor codeAttributeExceptionInit (.computed (fun _ => True) CodeAttributeException.bytes) := by
  refine (streamReadUint16_reads.bind fun startPc => streamReadUint16_reads.bind fun endPc =>
    streamReadUint16_reads.bind fun handlerPc => streamReadUint16_reads.bind fun catchType => Reads.pure _).congr
      fun e b => ?_
  constructor
  · rintro ⟨_, _, _, ⟨-, rfl⟩, ⟨_, _, _, ⟨-, rfl⟩, ⟨_, _, _, ⟨-, rfl⟩, ⟨_, _, _, ⟨-, rfl⟩, ⟨rfl, rfl⟩, rfl⟩, rfl⟩, rfl⟩, rfl⟩
    exact ⟨trivial, by rw [CodeAttributeException.bytes, List.append_nil]⟩
  · rintro ⟨-, rfl⟩
    refine ⟨e.startPc, _, _, ⟨trivial, rfl⟩, ⟨e.endPc, _, _, ⟨trivial, rfl⟩, ⟨e.handlerPc, _, _, ⟨trivial, rfl⟩,
      ⟨e.catchType, _, _, ⟨trivial, rfl⟩, ⟨rfl, rfl⟩, rfl⟩, rfl⟩, rfl⟩, ?_⟩
    rw [CodeAttributeException.bytes, List.append_nil]

def headBytes (head : UInt16 × UInt16 × UInt32) : List UInt8 :=
  u16Bytes head.1 ++ (u16Bytes head.2.1 ++ u32Bytes head.2.2)

theorem length_headBytes (head : UInt16 × UInt16 × UInt32) : (headBytes head).length = 8 := by
  simp [headBytes, u16Bytes, u32Bytes]

theorem codeAttributeHead_reads : Reads cursor codeAttributeHead (.computed (fun _ => True) headBytes) := by
  refine (streamReadUint16_reads.bind fun maxStack => streamReadUint16_reads.bind fun maxLocals =>
    streamReadUint32_reads.bind fun codeLength => Reads.pure _).congr fun head b => ?_
  constructor
  · rintro ⟨_, _, _, ⟨-, rfl⟩, ⟨_, _, _, ⟨-, rfl⟩, ⟨_, _, _, ⟨-, rfl⟩, ⟨rfl, rfl⟩, rfl⟩, rfl⟩, rfl⟩
    exact ⟨trivial, by rw [headBytes, List.append_nil]⟩
  · rintro ⟨-, rfl⟩
    refine ⟨head.1, _, _, ⟨trivial, rfl⟩, ⟨head.2.1, _, _, ⟨trivial, rfl⟩, ⟨head.2.2, _, _, ⟨trivial, rfl⟩, ⟨rfl, rfl⟩, rfl⟩,
      rfl⟩, ?_⟩
    rw [headBytes, List.append_nil]

def tablesBytes (tables : List CodeAttributeException × List AttributeInfo) : List UInt8 :=
  arrayBytes CodeAttributeException.bytes tables.1 ++ arrayBytes AttributeInfo.bytes tables.2

def TablesOk (tables : List CodeAttributeException × List AttributeInfo) : Prop :=
  tables.1.length < 2 ^ 16 ∧ tables.2.length < 2 ^ 16 ∧ ∀ a ∈ tables.2, a.Ok

theorem codeAttributeTables_reads : Reads cursor codeAttributeTables (.computed TablesOk tablesBytes) := by
  refine ((streamReadArray_reads codeAttributeExceptionInit_reads).bind fun exceptionTable =>
    (streamReadArray_reads attributeInfoInit_reads).bind fun attributes => Reads.pure _).congr fun tables b => ?_
  constructor
  · rintro ⟨_, _, _, ⟨⟨hlen, -⟩, rfl⟩, ⟨_, _, _, ⟨hattributes, rfl⟩, ⟨rfl, rfl⟩, rfl⟩, rfl⟩
    exact ⟨⟨hlen, hattributes⟩, by rw [tablesBytes, List.append_nil]⟩
  · rintro ⟨⟨hlen, hattributes⟩, rfl⟩
    refine ⟨tables.1, _, _, ⟨⟨hlen, fun _ _ => trivial⟩, rfl⟩, ⟨tables.2, _, _, ⟨hattributes, rfl⟩, ⟨rfl, rfl⟩, rfl⟩, ?_⟩
    rw [tablesBytes, List.append_nil]

/-! ## Layout -/

/-- The code lies inside the content, directly behind the fixed fields, and is followed by the exception table and the
nested attributes, which end the content. -/
structure LaidOut (content : List UInt8) (a : CodeAttribute) : Prop where
  inside : a.code + a.codeLength.toNat ≤ content.length
  parts : content = headBytes (a.maxStack, a.maxLocals, a.codeLength) ++
    ((content.drop a.code).take a.codeLength.toNat ++ tablesBytes (a.exceptionTable, a.attributes))

/-- What a successful run has done: the head, the skip and the tables up to the end of the stream. -/
theorem codeAttributeInit_eq_ok {buf : Buffer} {a : CodeAttribute} {s' : Stream}
    (h : codeAttributeInit (streamOpenBuffer buf) = .ok (a, s')) : a.code = 8 ∧
      headBytes (a.maxStack, a.maxLocals, a.codeLength) <+: buf.bytes ∧
      buf.bytes.drop (addU32 8 a.codeLength.toNat) = tablesBytes (a.exceptionTable, a.attributes) := by
  obtain ⟨⟨maxStack, maxLocals, codeLength⟩, s₁, hhead, h⟩ := stateT_bind_eq_ok.mp h
  obtain ⟨code, s₂, hcode, h⟩ := stateT_bind_eq_ok.mp h
  obtain ⟨⟨⟩, s₃, hskip, h⟩ := stateT_bind_eq_ok.mp h
  obtain ⟨⟨exceptionTable, attributes⟩, s₄, htables, h⟩ := stateT_bind_eq_ok.mp h
  obtain ⟨eof, s₅, heof, h⟩ := stateT_bind_eq_ok.mp h
  obtain ⟨_, ⟨-, rfl⟩, hpre, rfl⟩ := (codeAttributeHead_reads _ (streamOpenBuffer_valid buf) _ _).mp hhead
  cases hcode
  rw [length_headBytes] at hskip
  unfold streamSkip at hskip
  split at hskip
  · cases hskip
  rename_i htest
  cases hskip
  change ¬ buf.bytes.length ≤ addU32 (0 + 8) codeLength.toNat at htest
  rw [Nat.zero_add] at htest
  have hvalid : Stream.Valid ⟨buf.bytes, addU32 (0 + 8) codeLength.toNat, buf.bytes.length⟩ :=
    ⟨rfl, buf.length_lt, by simp only [Nat.zero_add]; omega⟩
  obtain ⟨_, ⟨-, rfl⟩, hpre', rfl⟩ := (codeAttributeTables_reads _ hvalid _ _).mp htables
  cases heof
  split at h
  · rename_i heof
    cases h
    refine ⟨by rw [length_headBytes]; rfl, hpre, ?_⟩
    simp only [cursor, decide_eq_true_eq, Nat.zero_add] at heof hpre'
    refine (hpre'.eq_of_length ?_).symm
    rw [List.length_drop]
    omega
  · cases h

/-- **Accepted Code attributes**: the parts lie one after the other inside the content and fill it, exactly if the end
of the code does not wrap. -/
theorem laidOut_iff {buf : Buffer} {a : CodeAttribute} {s' : Stream}
    (h : codeAttributeInit (streamOpenBuffer buf) = .ok (a, s')) :
    LaidOut buf.bytes a ↔ 8 + a.codeLength.toNat < 2 ^ 32 := by
  obtain ⟨hcode, hpre, htables⟩ := codeAttributeInit_eq_ok h
  have hlt := buf.length_lt
  constructor
  · rintro ⟨hinside, -⟩
    omega
  · intro hwrap
    rw [addU32, Nat.mod_eq_of_lt hwrap] at htables
    obtain ⟨r, hr⟩ := hpre
    have hlen := length_headBytes (a.maxStack, a.maxLocals, a.codeLength)
    have hr' : r = buf.bytes.drop 8 := by rw [← hr, ← hlen, List.drop_left]
    refine ⟨?_, ?_⟩
    · have hne : (buf.bytes.drop (8 + a.codeLength.toNat)).length ≠ 0 := by
        rw [htables]
        simp [tablesBytes, arrayBytes]
      rw [List.length_drop] at hne
      omega
    · rw [hcode, ← htables, ← List.drop_drop, List.take_append_drop, ← hr', hr]

/-- The attribute of a method that consists of one `return`, with a handler for it and a nested attribute of two bytes. -/
def returnContent : Buffer :=
  ⟨[0, 0, 0, 1, 0, 0, 0, 1, 0xb1, 0, 1, 0, 0, 0, 1, 0, 0, 0, 0, 0, 1, 0, 5, 0, 0, 0, 2, 0, 0], by decide⟩

theorem laidOut_return : ∃ a s', codeAttributeInit (streamOpenBuffer returnContent) = .ok (a, s') ∧
    a.exceptionTable = [⟨0, 1, 0, 0⟩] ∧ a.attributes = [⟨5, [0, 0]⟩] ∧ LaidOut returnContent.bytes a := by
  have h : codeAttributeInit (streamOpenBuffer returnContent) =
      .ok (⟨0, 1, 1, 8, [⟨0, 1, 0, 0⟩], [⟨5, [0, 0]⟩]⟩, ⟨returnContent.bytes, 29, 29⟩) := by decide +kernel
  exact ⟨_, _, h, rfl, rfl, (laidOut_iff h).mpr (by decide)⟩

/-- A code length of `2 ^ 32 - 6`. -/
def wrappedContent : Buffer := ⟨[0, 0, 0, 1, 0xff, 0xff, 0xff, 0xfa, 0, 0, 0, 0, 0, 0], by decide⟩

/-- The skip moves the stream back to the third byte, and the tables are read from the head of the attribute. -/
theorem not_laidOut_wrapped : ∃ a s', codeAttributeInit (streamOpenBuffer wrappedContent) = .ok (a, s') ∧
    ¬ LaidOut wrappedContent.bytes a := by
  have h : codeAttributeInit (streamOpenBuffer wrappedContent) =
      .ok (⟨0, 1, 0xfffffffa, 8, [⟨0xffff, 0xfffa, 0, 0⟩], []⟩, ⟨wrappedContent.bytes, 14, 14⟩) := by decide
  exact ⟨_, _, h, fun hlaid => absurd hlaid.inside (by decide)⟩

end Jato.Cafebabe
