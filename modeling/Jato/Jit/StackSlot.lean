import Jato.Arch.Encode
import Jato.Lib.Bump

/-!
# Stack slots and the stack frame

`jit/stack-slot.c` hands out the slots of a method's frame and `arch/x86/stack-frame.c` says where they lie, seen from the
frame pointer: the first local slots are the caller's arguments, above the frame pointer and growing upwards, and all
other slots lie below it and grow downwards. An `unsigned long` does not overflow here: every spill slot is an allocated
record that is larger than the bytes it stands for.

`slotsSound_iff` says when the slots that were handed out lie where they should: in the 32-bit back end a 64-bit local
variable whose first half replaces the last argument reaches out of the caller's argument area.
-/

namespace Jato.Jit.StackSlot

open List

open Jato.Arch (Config argsStartOffset indexToOffset)
open Jato.Lib.Bump (alignUp le_alignUp)

/-! ## Slots -/

structure Slot where
  index : Nat
deriving DecidableEq

structure StackFrame where
  nrArgs : Nat
  /-- The arguments on the stack are among the local variables. -/
  nrLocalSlots : Nat
  nrSpillSlots : Nat
  /-- The last slot that was handed out comes first. -/
  spillSlots : List Slot

def allocStackFrame (nrArgs nrLocalSlots : Nat) : StackFrame := ⟨nrArgs, nrLocalSlots, 0, []⟩

/-- The table of local slots holds the slot with that index. -/
def getLocalSlot (_frame : StackFrame) (index : Nat) : Slot := ⟨index⟩

def getSpillSlotOfSize (frame : StackFrame) (size : Nat) : StackFrame × Slot :=
  let slot : Slot := ⟨frame.nrLocalSlots + frame.nrSpillSlots⟩
  ({ frame with nrSpillSlots := frame.nrSpillSlots + size, spillSlots := slot :: frame.spillSlots }, slot)

inductive Width
  | w32
  | w64
deriving DecidableEq

/-- `vm_type_slot_size`. -/
def Width.slotSize : Width → Nat
  | .w32 => 1
  | .w64 => 2

def getSpillSlot32 (frame : StackFrame) : StackFrame × Slot := getSpillSlotOfSize frame 1

def getSpillSlot64 (frame : StackFrame) : StackFrame × Slot := getSpillSlotOfSize frame 2

/-- `get_spill_slot` for a type of that width. -/
def getSpillSlot (frame : StackFrame) (width : Width) : StackFrame × Slot := getSpillSlotOfSize frame width.slotSize

/-! ## Offsets -/

def nrCalleeSaveRegs : Config → Nat
  | .x86_32 => 3
  | .x86_64 => 5

section Offsets

variable (config : Config)

def slotOffset (frame : StackFrame) (slot : Slot) : Int := indexToOffset config slot.index 1 frame.nrArgs

def slotOffset64 (frame : StackFrame) (slot : Slot) : Int := indexToOffset config slot.index 2 frame.nrArgs

def x86StackAlign : Nat := 16

def frameLocalsSize (frame : StackFrame) : Nat :=
  alignUp x86StackAlign ((frame.nrLocalSlots - frame.nrArgs + frame.nrSpillSlots) * config.wordSize)

end Offsets

/-! ## Requests -/

/-- What the frame of a method is allocated for; `frame_locals_size` asserts that the arguments are local variables. -/
structure MethodFrame where
  nrArgs : Nat
  nrLocalSlots : Nat
  args_le : nrArgs ≤ nrLocalSlots

/-- A request for a spill slot, or for the slot of a local variable. -/
inductive Request (nrLocalSlots : Nat)
  | spill (width : Width)
  | localVar (index : Nat) (width : Width) (h : index + width.slotSize ≤ nrLocalSlots)

/-- A slot with the width it was requested for. -/
structure Handed where
  slot : Slot
  width : Width
  isLocal : Bool

def request {n : Nat} (frame : StackFrame) : Request n → StackFrame × Handed
  | .spill width =>
    let (frame, slot) := getSpillSlot frame width
    (frame, ⟨slot, width, false⟩)
  | .localVar index width _ => (frame, ⟨getLocalSlot frame index, width, true⟩)

/-- The frame after the requests, and what was handed out. -/
def runRequests {n : Nat} : StackFrame → List (Request n) → StackFrame × List Handed
  | frame, [] => (frame, [])
  | frame, r :: rs =>
    let (frame, handed) := request frame r
    let (frame, rest) := runRequests frame rs
    (frame, handed :: rest)

/-- The requests for the slots of a method, from the allocation of its frame on. -/
def MethodFrame.handOut (m : MethodFrame) (reqs : List (Request m.nrLocalSlots)) : StackFrame × List Handed :=
  runRequests (allocStackFrame m.nrArgs m.nrLocalSlots) reqs

/-! ## Where the slots should lie -/

/-- The bytes from `start` to `start + size`, seen from the frame pointer. -/
structure Bytes where
  start : Int
  size : Nat

def Bytes.Disjoint (a b : Bytes) : Prop := a.start + a.size ≤ b.start ∨ b.start + b.size ≤ a.start

def Bytes.Within (a b : Bytes) : Prop := b.start ≤ a.start ∧ a.start + a.size ≤ b.start + b.size

section Layout

variable (config : Config) (frame : StackFrame)

/-- The ranges of bytes that instructions reach through a slot: a word, and for 64 bits also eight bytes at the offset
that is meant for them. -/
def Handed.ranges (h : Handed) : List Bytes :=
  match h.width with
  | .w32 => [⟨slotOffset config frame h.slot, config.wordSize⟩]
  | .w64 => [⟨slotOffset config frame h.slot, config.wordSize⟩, ⟨slotOffset64 config frame h.slot, 8⟩]

/-- The space for locals and spill slots that the prologue reserves. -/
def reservedFrame : Bytes := ⟨-(frameLocalsSize config frame : Int), frameLocalsSize config frame⟩

/-- The old frame pointer and the return address. -/
def savedLinks : Bytes := ⟨0, argsStartOffset config⟩

/-- The registers that the prologue pushes behind the reserved space. -/
def savedRegs : Bytes :=
  ⟨-(frameLocalsSize config frame + nrCalleeSaveRegs config * config.wordSize : Nat), nrCalleeSaveRegs config * config.wordSize⟩

def argumentArea : Bytes := ⟨argsStartOffset config, frame.nrArgs * config.wordSize⟩

/-- Two requests of local variables that share an index. -/
def Handed.SameLocal (a b : Handed) : Prop := a.isLocal ∧ b.isLocal ∧
  a.slot.index < b.slot.index + b.width.slotSize ∧ b.slot.index < a.slot.index + a.width.slotSize

/-- The slots that were handed out do not overlap, apart from requests of one local variable, and lie in their areas. -/
structure SlotsSound (slots : List Handed) : Prop where
  apart : slots.Pairwise fun a b => ¬a.SameLocal b → ∀ x ∈ a.ranges config frame, ∀ y ∈ b.ranges config frame, x.Disjoint y
  links : ∀ a ∈ slots, ∀ x ∈ a.ranges config frame, x.Disjoint (savedLinks config)
  regs : ∀ a ∈ slots, ∀ x ∈ a.ranges config frame, x.Disjoint (savedRegs config frame)
  reserved : ∀ a ∈ slots, frame.nrArgs ≤ a.slot.index → ∀ x ∈ a.ranges config frame, x.Within (reservedFrame config frame)
  argument : ∀ a ∈ slots, a.slot.index < frame.nrArgs → ∀ x ∈ a.ranges config frame, x.Within (argumentArea config frame)

end Layout

/-! ## The indices -/

section Indices

variable {n : Nat}

/-- A local variable lies among the local slots, a spill slot between the slots from `first` to `last` behind them. -/
def Handed.InIndices (n first last : Nat) (h : Handed) : Prop :=
  if h.isLocal then h.slot.index + h.width.slotSize ≤ n
  else n + first ≤ h.slot.index ∧ h.slot.index + h.width.slotSize ≤ n + last

def Handed.IndexDisjoint (a b : Handed) : Prop :=
  a.slot.index + a.width.slotSize ≤ b.slot.index ∨ b.slot.index + b.width.slotSize ≤ a.slot.index

theorem Handed.InIndices.mono {first last first' last' : Nat} {h : Handed} (hi : h.InIndices n first last)
    (hf : first' ≤ first) (hl : last ≤ last') : h.InIndices n first' last' := by
  unfold Handed.InIndices at hi ⊢
  split_ifs at hi ⊢ with hlocal
  · exact hi
  · omega

theorem request_spec (frame : StackFrame) (hn : frame.nrLocalSlots = n) (r : Request n) :
    (request frame r).1.nrArgs = frame.nrArgs ∧ (request frame r).1.nrLocalSlots = n ∧
      frame.nrSpillSlots ≤ (request frame r).1.nrSpillSlots ∧
      (request frame r).2.InIndices n frame.nrSpillSlots (request frame r).1.nrSpillSlots := by
  cases r with
  | spill width =>
    refine ⟨rfl, hn, Nat.le_add_right _ _, ?_⟩
    show n + frame.nrSpillSlots ≤ frame.nrLocalSlots + frame.nrSpillSlots ∧
      frame.nrLocalSlots + frame.nrSpillSlots + width.slotSize ≤ n + (frame.nrSpillSlots + width.slotSize)
    omega
  | localVar index width h => exact ⟨rfl, hn, le_refl _, h⟩

/-- Slots whose indices come from separate parts of the counter do not share an index. -/
theorem Handed.InIndices.indexDisjoint {first mid last : Nat} {a b : Handed} (ha : a.InIndices n first mid)
    (hb : b.InIndices n mid last) (hlocal : ¬a.SameLocal b) : a.IndexDisjoint b := by
  unfold Handed.InIndices at ha hb
  unfold Handed.SameLocal at hlocal
  unfold Handed.IndexDisjoint
  split_ifs at ha hb with hal hbl <;> simp_all <;> omega

theorem runRequests_spec : ∀ (reqs : List (Request n)) (frame : StackFrame), frame.nrLocalSlots = n →
    (runRequests frame reqs).1.nrArgs = frame.nrArgs ∧ (runRequests frame reqs).1.nrLocalSlots = n ∧
      frame.nrSpillSlots ≤ (runRequests frame reqs).1.nrSpillSlots ∧
      (∀ h ∈ (runRequests frame reqs).2, h.InIndices n frame.nrSpillSlots (runRequests frame reqs).1.nrSpillSlots) ∧
      (runRequests frame reqs).2.Pairwise fun a b => ¬a.SameLocal b → a.IndexDisjoint b
  | [], frame, hn => ⟨rfl, hn, le_refl _, nofun, .nil⟩
  | r :: rs, frame, hn => by
    obtain ⟨hargs, hn', hle, hr⟩ := request_spec frame hn r
    obtain ⟨hargs', hn'', hle', hin, hpair⟩ := runRequests_spec rs (request frame r).1 hn'
    refine ⟨hargs'.trans hargs, hn'', le_trans hle hle', ?_, ?_⟩
    · intro h hmem
      rcases mem_cons.mp hmem with rfl | hmem
      · exact hr.mono (le_refl _) hle'
      · exact (hin h hmem).mono hle (le_refl _)
    · exact pairwise_cons.mpr ⟨fun b hb hlocal => hr.indexDisjoint (hin b hb) hlocal, hpair⟩

theorem MethodFrame.handOut_spec (m : MethodFrame) (reqs : List (Request m.nrLocalSlots)) :
    (m.handOut reqs).1.nrArgs = m.nrArgs ∧ (m.handOut reqs).1.nrLocalSlots = m.nrLocalSlots ∧
      (∀ h ∈ (m.handOut reqs).2, h.InIndices m.nrLocalSlots 0 (m.handOut reqs).1.nrSpillSlots) ∧
      (m.handOut reqs).2.Pairwise fun a b => ¬a.SameLocal b → a.IndexDisjoint b := by
  obtain ⟨hargs, hlocals, -, hin, hpair⟩ := runRequests_spec reqs (allocStackFrame m.nrArgs m.nrLocalSlots) rfl
  exact ⟨hargs, hlocals, hin, hpair⟩

theorem mem_runRequests {index : Nat} {width : Width} {h : index + width.slotSize ≤ n} :
    ∀ {reqs : List (Request n)} {frame : StackFrame}, Request.localVar index width h ∈ reqs →
      (⟨⟨index⟩, width, true⟩ : Handed) ∈ (runRequests frame reqs).2
  | r :: rs, frame, hmem => by
    rcases mem_cons.mp hmem with rfl | hmem
    · exact mem_cons_self
    · exact mem_cons_of_mem _ (mem_runRequests hmem)

theorem exists_request {a : Handed} : ∀ {reqs : List (Request n)} {frame : StackFrame},
    a ∈ (runRequests frame reqs).2 → a.isLocal →
      ∃ h, Request.localVar a.slot.index a.width h ∈ reqs
  | r :: rs, frame, hmem, hlocal => by
    rcases mem_cons.mp hmem with rfl | hmem
    · cases r with
      | spill width => cases hlocal
      | localVar index width h => exact ⟨h, mem_cons_self⟩
    · obtain ⟨h, hr⟩ := exists_request hmem hlocal
      exact ⟨h, mem_cons_of_mem r hr⟩

end Indices

/-! ## The bytes -/

section Ranges

variable {config : Config} {frame : StackFrame} {a b : Handed} {x y : Bytes}

section

variable (hx : x ∈ a.ranges config frame)

include hx

theorem ranges_below (h : frame.nrArgs ≤ a.slot.index) :
    -((a.slot.index + a.width.slotSize - frame.nrArgs) * config.wordSize : Int) ≤ x.start ∧
      x.start + x.size ≤ -((a.slot.index - frame.nrArgs) * config.wordSize : Int) := by
  obtain ⟨⟨i⟩, width, l⟩ := a
  have hnot : ¬i < frame.nrArgs := not_lt.mpr h
  cases width <;> simp only [Handed.ranges, slotOffset, slotOffset64, indexToOffset, if_neg hnot, mem_cons,
    not_mem_nil, or_false] at hx
  · subst hx
    cases config <;> simp only [Width.slotSize, Config.wordSize] <;> omega
  · rcases hx with rfl | rfl <;> cases config <;> simp only [Width.slotSize, Config.wordSize] <;> omega

theorem ranges_above (h : a.slot.index < frame.nrArgs) :
    (argsStartOffset config + a.slot.index * config.wordSize : Int) ≤ x.start ∧
      x.start + x.size ≤ argsStartOffset config + (a.slot.index + a.width.slotSize) * config.wordSize := by
  obtain ⟨⟨i⟩, width, l⟩ := a
  cases width <;> simp only [Handed.ranges, slotOffset, slotOffset64, indexToOffset, if_pos h, mem_cons,
    not_mem_nil, or_false] at hx
  · subst hx
    cases config <;> simp only [Width.slotSize, Config.wordSize] <;> omega
  · rcases hx with rfl | rfl <;> cases config <;> simp only [Width.slotSize, Config.wordSize] <;> omega

theorem disjoint_of_indexDisjoint (hy : y ∈ b.ranges config frame) (h : a.IndexDisjoint b) : x.Disjoint y := by
  unfold Bytes.Disjoint
  unfold Handed.IndexDisjoint at h
  rcases Nat.lt_or_ge a.slot.index frame.nrArgs with ha | ha <;>
    rcases Nat.lt_or_ge b.slot.index frame.nrArgs with hb | hb
  · have hax := ranges_above hx ha
    have hby := ranges_above hy hb
    cases config <;> simp only [Config.wordSize, argsStartOffset] at hax hby <;> omega
  · -- an argument lies above the frame pointer, everything else below
    have hax := ranges_above hx ha
    have hby := ranges_below hy hb
    cases config <;> simp only [Config.wordSize, argsStartOffset] at hax hby <;> omega
  · have hax := ranges_below hx ha
    have hby := ranges_above hy hb
    cases config <;> simp only [Config.wordSize, argsStartOffset] at hax hby <;> omega
  · have hax := ranges_below hx ha
    have hby := ranges_below hy hb
    cases config <;> simp only [Config.wordSize] at hax hby <;> omega

theorem within_reservedFrame (h : frame.nrArgs ≤ a.slot.index)
    (hend : a.slot.index + a.width.slotSize ≤ frame.nrLocalSlots + frame.nrSpillSlots) :
    x.Within (reservedFrame config frame) := by
  have hax := ranges_below hx h
  have hsize := le_alignUp (show 0 < x86StackAlign by decide)
    ((frame.nrLocalSlots - frame.nrArgs + frame.nrSpillSlots) * config.wordSize)
  unfold Bytes.Within reservedFrame frameLocalsSize
  generalize alignUp x86StackAlign ((frame.nrLocalSlots - frame.nrArgs + frame.nrSpillSlots) * config.wordSize) = size
    at hsize ⊢
  cases config <;> simp only [Config.wordSize] at hax hsize ⊢ <;> omega

/-- A slot whose indices are arguments lies in the argument area, and in the 64-bit back end a slot that only starts
there does. -/
theorem within_argumentArea (h : a.slot.index < frame.nrArgs)
    (hend : config = .x86_32 → a.slot.index + a.width.slotSize ≤ frame.nrArgs) : x.Within (argumentArea config frame) := by
  cases config with
  | x86_32 =>
    have hax := ranges_above hx h
    have hle := hend rfl
    unfold Bytes.Within argumentArea
    simp only [Config.wordSize, argsStartOffset] at hax ⊢
    omega
  | x86_64 =>
    obtain ⟨⟨i⟩, width, l⟩ := a
    have hi : i < frame.nrArgs := h
    unfold Bytes.Within argumentArea
    cases width <;> simp only [Handed.ranges, slotOffset, slotOffset64, indexToOffset, if_pos h, mem_cons,
      not_mem_nil, or_false, or_self, Config.wordSize] at hx <;> subst hx <;>
      simp only [argsStartOffset, Config.wordSize] <;> omega

theorem disjoint_savedLinks : x.Disjoint (savedLinks config) := by
  unfold Bytes.Disjoint savedLinks
  rcases Nat.lt_or_ge a.slot.index frame.nrArgs with h | h
  · have hax := ranges_above hx h
    cases config <;> simp only [Config.wordSize, argsStartOffset] at hax ⊢ <;> omega
  · have hax := ranges_below hx h
    cases config <;> simp only [Config.wordSize, argsStartOffset] at hax ⊢ <;> omega

theorem disjoint_savedRegs (hend : a.slot.index + a.width.slotSize ≤ frame.nrLocalSlots + frame.nrSpillSlots) :
    x.Disjoint (savedRegs config frame) := by
  unfold Bytes.Disjoint savedRegs
  rcases Nat.lt_or_ge a.slot.index frame.nrArgs with h | h
  · have hax := ranges_above hx h
    cases config <;> simp only [Config.wordSize, argsStartOffset, nrCalleeSaveRegs] at hax ⊢ <;> omega
  · have hwithin := within_reservedFrame hx h hend
    unfold Bytes.Within reservedFrame at hwithin
    simp only at hwithin ⊢
    omega

end

end Ranges

/-! ## The result -/

/-- No 64-bit local variable starts at the last argument. -/
def NoStraddle (m : MethodFrame) (reqs : List (Request m.nrLocalSlots)) : Prop :=
  ∀ index h, Request.localVar index .w64 h ∈ reqs → index + 1 ≠ m.nrArgs

section Result

variable {config : Config} {m : MethodFrame} {reqs : List (Request m.nrLocalSlots)}

theorem slotSize_le_of_noStraddle (h : NoStraddle m reqs) {a : Handed}
    (ha : a ∈ (m.handOut reqs).2) (hlt : a.slot.index < m.nrArgs) : a.slot.index + a.width.slotSize ≤ m.nrArgs := by
  obtain ⟨-, -, hin, -⟩ := m.handOut_spec reqs
  have hlocal : a.isLocal = true := by
    have hidx := hin a ha
    unfold Handed.InIndices at hidx
    split_ifs at hidx with hl
    · exact hl
    · have := m.args_le
      omega
  obtain ⟨hr, hreq⟩ := exists_request ha hlocal
  obtain ⟨⟨i⟩, width, l⟩ := a
  cases width with
  | w32 => exact hlt
  | w64 =>
    have hne := h i hr hreq
    simp only [Width.slotSize] at hlt ⊢
    omega

/-- **Stack slots** lie apart and in their areas, for every sequence of requests in the 64-bit back end, and in the 32-bit
back end exactly when no 64-bit local variable starts at the last argument. -/
theorem slotsSound_iff (config : Config) (m : MethodFrame) (reqs : List (Request m.nrLocalSlots)) :
    SlotsSound config (m.handOut reqs).1 (m.handOut reqs).2 ↔ (config = .x86_32 → NoStraddle m reqs) := by
  obtain ⟨hargs, hlocals, hin, hpair⟩ := m.handOut_spec reqs
  have hend : ∀ a ∈ (m.handOut reqs).2,
      a.slot.index + a.width.slotSize ≤ (m.handOut reqs).1.nrLocalSlots + (m.handOut reqs).1.nrSpillSlots := by
    intro a ha
    have hidx := hin a ha
    unfold Handed.InIndices at hidx
    split_ifs at hidx <;> omega
  constructor
  · rintro hsound rfl index h hreq heq
    have hwithin := hsound.argument _ (mem_runRequests hreq) (by rw [hargs]; exact Nat.lt_of_lt_of_eq index.lt_succ_self heq)
      ⟨slotOffset64 .x86_32 _ ⟨index⟩, 8⟩ (mem_cons_of_mem _ mem_cons_self)
    unfold Bytes.Within argumentArea slotOffset64 indexToOffset at hwithin
    rw [hargs, if_pos (show index < m.nrArgs by omega)] at hwithin
    simp only [Config.wordSize, argsStartOffset] at hwithin
    omega
  · intro hno
    refine ⟨hpair.imp fun h hlocal x hx y hy => disjoint_of_indexDisjoint hx hy (h hlocal),
      fun a _ x hx => disjoint_savedLinks hx, fun a ha x hx => disjoint_savedRegs hx (hend a ha),
      fun a ha h x hx => within_reservedFrame hx h (hend a ha), fun a ha h x hx => within_argumentArea hx h fun hconfig => ?_⟩
    rw [hargs] at h ⊢
    exact slotSize_le_of_noStraddle (hno hconfig) ha h

end Result

/-- A static method with one argument and two local variables. -/
def oneArgument : MethodFrame := ⟨1, 2, by decide⟩

/-- A `double` in the local variable of the argument. -/
def straddle : List (Request oneArgument.nrLocalSlots) := [.localVar 0 .w64 (by decide)]

theorem not_slotsSound_straddle :
    ¬SlotsSound .x86_32 (oneArgument.handOut straddle).1 (oneArgument.handOut straddle).2 := by
  intro h
  have hwithin := h.argument ⟨⟨0⟩, .w64, true⟩ mem_cons_self (by decide) ⟨8, 8⟩
    (mem_cons_of_mem _ mem_cons_self)
  exact absurd hwithin.2 (by decide)

end Jato.Jit.StackSlot
