import Jato.Jit.StackSlot

/-!
# Copying 64-bit slots in the 32-bit back end

`insert_copy_slot_64_insns` of `arch/x86/instruction.c` copies two words through the stack. It takes the second word from
the slot that follows in the list of spill slots, which is the slot that was handed out before, and not the second half
of the slot. `copiesSlot64_iff` says for which memory contents the result is still the right one.
-/

namespace Jato.Arch.CopySlot

open Jato.Jit.StackSlot hiding slotOffset
open Function

/-! ## The machine -/

/-- The words of the stack at their addresses, and the stack pointer, seen from the frame pointer. -/
structure Machine where
  mem : Int → BitVec 32
  esp : Int

/-- Push and pop of a memory operand that is addressed from the frame pointer. -/
inductive Insn
  | pushMemlocal (disp : Int)
  | popMemlocal (disp : Int)

def exec (s : Machine) : Insn → Machine
  | .pushMemlocal disp => ⟨Function.update s.mem (s.esp - 4) (s.mem disp), s.esp - 4⟩
  | .popMemlocal disp => ⟨Function.update s.mem disp (s.mem s.esp), s.esp + 4⟩

def run (s : Machine) (insns : List Insn) : Machine := insns.foldl exec s

/-- The stack pointer lies below the slots, and `depth` further down. -/
def start (frame : StackFrame) (mem : Int → BitVec 32) (depth : Nat) : Machine :=
  ⟨mem, -(frameLocalsSize .x86_32 frame + depth : Nat)⟩

/-! ## The copy -/

/-- `slot_offset` in the 32-bit back end. -/
def offset (frame : StackFrame) (slot : Slot) : Int := Jit.StackSlot.slotOffset .x86_32 frame slot

/-- The pointer `next` of a slot: the slot behind it in the list of spill slots. -/
def next (frame : StackFrame) (slot : Slot) : Option Slot :=
  match frame.spillSlots.dropWhile (· ≠ slot) with
  | _ :: n :: _ => some n
  | _ => none

/-- An instruction for a missing slot cannot be emitted. -/
def insertCopySlot64Insns (frame : StackFrame) (src dest : Slot) : Option (List Insn) := do
  let srcNext ← next frame src
  let destNext ← next frame dest
  return [.pushMemlocal (offset frame srcNext), .pushMemlocal (offset frame src), .popMemlocal (offset frame dest),
    .popMemlocal (offset frame destNext)]

/-- The address of the word with that index in the frame. -/
def word (frame : StackFrame) (index : Nat) : Int := offset frame ⟨index⟩

/-- What the copy is for: the two words of the destination hold those of the source, and no other word of the frame and
no argument has changed. -/
structure Copies (frame : StackFrame) (src dest : Slot) (s s' : Machine) : Prop where
  esp : s'.esp = s.esp
  first : s'.mem (word frame dest.index) = s.mem (word frame src.index)
  second : s'.mem (word frame (dest.index + 1)) = s.mem (word frame (src.index + 1))
  others : ∀ index < frame.nrLocalSlots + frame.nrSpillSlots, index ≠ dest.index → index ≠ dest.index + 1 →
    s'.mem (word frame index) = s.mem (word frame index)

/-- There are instructions for the copy, and they do it. -/
def CopiesSlot64 (frame : StackFrame) (src dest : Slot) (mem : Int → BitVec 32) (depth : Nat) : Prop :=
  ∃ insns, insertCopySlot64Insns frame src dest = some insns ∧
    Copies frame src dest (start frame mem depth) (run (start frame mem depth) insns)

/-! ## The list of spill slots -/

section Spills

variable {n : Nat}

/-- Newer slots have larger indices, behind those of the local variables. -/
structure SpillsOrdered (frame : StackFrame) : Prop where
  ordered : frame.spillSlots.Pairwise fun a b => b.index < a.index
  bounds : ∀ a ∈ frame.spillSlots, frame.nrLocalSlots ≤ a.index ∧
    a.index < frame.nrLocalSlots + frame.nrSpillSlots

theorem SpillsOrdered.getSpillSlot {frame : StackFrame} (h : SpillsOrdered frame) (width : Width) :
    SpillsOrdered (getSpillSlot frame width).1 := by
  have hpos : 0 < width.slotSize := by cases width <;> decide
  refine ⟨List.pairwise_cons.mpr ⟨fun a ha => (h.bounds a ha).2, h.ordered⟩, ?_⟩
  intro a ha
  show frame.nrLocalSlots ≤ a.index ∧ a.index < frame.nrLocalSlots + (frame.nrSpillSlots + width.slotSize)
  rcases List.mem_cons.mp ha with rfl | ha
  · exact ⟨Nat.le_add_right _ _, Nat.add_lt_add_left (Nat.lt_add_of_pos_right hpos) _⟩
  · have := h.bounds a ha
    omega

theorem SpillsOrdered.runRequests : ∀ (reqs : List (Request n)) {frame : StackFrame}, SpillsOrdered frame →
    SpillsOrdered (runRequests frame reqs).1
  | [], _, h => h
  | .spill width :: rs, _, h => SpillsOrdered.runRequests rs (h.getSpillSlot width)
  | .localVar _ _ _ :: rs, _, h => SpillsOrdered.runRequests rs h

theorem spillsOrdered_alloc (nrArgs nrLocalSlots : Nat) : SpillsOrdered (allocStackFrame nrArgs nrLocalSlots) :=
  ⟨.nil, nofun⟩

theorem SpillsOrdered.next_eq_some {frame : StackFrame} (h : SpillsOrdered frame) {slot m : Slot}
    (hm : next frame slot = some m) : m.index < slot.index ∧ frame.nrLocalSlots ≤ m.index ∧
      m.index < frame.nrLocalSlots + frame.nrSpillSlots := by
  unfold next at hm
  split at hm
  · rename_i a b l heq
    cases hm
    have hsuffix : a :: m :: l <:+ frame.spillSlots := heq ▸ List.dropWhile_suffix _
    have hslot : a = slot := by
      have hhead := List.head?_dropWhile_not (· ≠ slot) frame.spillSlots
      rw [heq] at hhead
      simpa using hhead
    have hpair := (List.pairwise_cons.mp (h.ordered.sublist hsuffix.sublist)).1 m List.mem_cons_self
    have hmem : m ∈ frame.spillSlots := hsuffix.subset (List.mem_cons_of_mem _ List.mem_cons_self)
    exact ⟨hslot ▸ hpair, h.bounds m hmem⟩
  · cases hm

end Spills

/-! ## What the copy does -/

section Copy

variable {frame : StackFrame} {mem : Int → BitVec 32} {depth : Nat}

theorem word_ge {index : Nat} (h : index < frame.nrLocalSlots + frame.nrSpillSlots) :
    (start frame mem depth).esp ≤ word frame index := by
  have hsize := Lib.Bump.le_alignUp (show 0 < Jit.StackSlot.x86StackAlign by decide)
    ((frame.nrLocalSlots - frame.nrArgs + frame.nrSpillSlots) * 4)
  unfold start word offset Jit.StackSlot.slotOffset indexToOffset frameLocalsSize
  simp only [Config.wordSize, argsStartOffset]
  split_ifs <;> omega

theorem word_inj {i j : Nat} (hi : frame.nrArgs ≤ i) (h : word frame i = word frame j) : i = j := by
  unfold word offset Jit.StackSlot.slotOffset indexToOffset at h
  simp only [Config.wordSize, argsStartOffset] at h
  split_ifs at h <;> omega

/-- The effect of two pushes and two pops on an address above the stack pointer. -/
theorem run_pushes_pops {s : Machine} {a b c d : Int} (hb : s.esp ≤ b) (hc : s.esp ≤ c) :
    (run s [.pushMemlocal a, .pushMemlocal b, .popMemlocal c, .popMemlocal d]).esp = s.esp ∧
      ∀ x, s.esp ≤ x → (run s [.pushMemlocal a, .pushMemlocal b, .popMemlocal c, .popMemlocal d]).mem x =
        if x = d then s.mem a else if x = c then s.mem b else s.mem x := by
  have hb' : b ≠ s.esp - 4 := by omega
  have hc' : s.esp - 4 ≠ c := by omega
  have hlow : s.esp - 4 ≠ s.esp - 4 - 4 := by omega
  simp only [run, List.foldl_cons, List.foldl_nil, exec]
  refine ⟨by omega, fun x hx => ?_⟩
  have hx₁ : x ≠ s.esp - 4 := by omega
  have hx₂ : x ≠ s.esp - 4 - 4 := by omega
  rw [show s.esp - 4 - 4 + 4 = s.esp - 4 by omega, update_self, update_of_ne hb',
    update_of_ne hc', update_of_ne hlow, update_self]
  by_cases hd : x = d
  · rw [if_pos hd, hd, update_self]
  · rw [if_neg hd, update_of_ne hd]
    by_cases hxc : x = c
    · rw [if_pos hxc, hxc, update_self]
    · rw [if_neg hxc, update_of_ne hxc, update_of_ne hx₂, update_of_ne hx₁]

end Copy

/-! ## The result -/

/-- Both slots have an older slot behind them, and the words that are not copied, or copied to the wrong place, agree
already. -/
def WordsAgree (frame : StackFrame) (src dest : Slot) (mem : Int → BitVec 32) : Prop :=
  ∃ srcNext destNext, next frame src = some srcNext ∧ next frame dest = some destNext ∧
    mem (word frame (dest.index + 1)) = mem (word frame (src.index + 1)) ∧
    mem (word frame destNext.index) = mem (word frame srcNext.index)

section Result

variable {frame : StackFrame} {mem : Int → BitVec 32} {depth : Nat} {src dest : Slot}

/-- A slot of 64 bits lies behind the local variables, with both words inside the frame. -/
def IsSpill64 (frame : StackFrame) (slot : Slot) : Prop :=
  frame.nrLocalSlots ≤ slot.index ∧ slot.index + 1 < frame.nrLocalSlots + frame.nrSpillSlots

theorem copies_iff (hframe : SpillsOrdered frame) (hargs : frame.nrArgs ≤ frame.nrLocalSlots)
    (hsrc : IsSpill64 frame src) (hdest : IsSpill64 frame dest) :
    CopiesSlot64 frame src dest mem depth ↔ WordsAgree frame src dest mem := by
  unfold CopiesSlot64 insertCopySlot64Insns WordsAgree
  cases hs : next frame src with
  | none => simp
  | some srcNext =>
    cases hd : next frame dest with
    | none => simp
    | some destNext =>
      obtain ⟨-, hsl, hsr⟩ := hframe.next_eq_some hs
      obtain ⟨hlt, hdl, hdr⟩ := hframe.next_eq_some hd
      obtain ⟨hsrc₁, hsrc₂⟩ := hsrc
      obtain ⟨hdest₁, hdest₂⟩ := hdest
      simp only [Option.bind_eq_bind, Option.bind_some, Option.pure_def, Option.some.injEq, exists_eq_left']
      obtain ⟨hesp, hmem⟩ := run_pushes_pops (s := start frame mem depth) (a := word frame srcNext.index)
        (d := word frame destNext.index) (word_ge (show src.index < _ by omega)) (word_ge (show dest.index < _ by omega))
      have hne {i j : Nat} (hi : frame.nrLocalSlots ≤ i) (hij : i ≠ j) : word frame i ≠ word frame j :=
        fun h => hij (word_inj (Nat.le_trans hargs hi) h)
      constructor
      · rintro ⟨-, -, hsecond, hothers⟩
        refine ⟨srcNext, destNext, rfl, rfl, ?_, ?_⟩
        · have h := hmem _ (word_ge hdest₂)
          rw [if_neg (hne (by omega) (by omega)), if_neg (hne (by omega) (by omega))] at h
          exact h.symm.trans hsecond
        · have h := hmem _ (word_ge hdr)
          rw [if_pos rfl] at h
          exact (hothers _ hdr (by omega) (by omega)).symm.trans h
      · rintro ⟨_, _, rfl, rfl, hsecond, hnext⟩
        refine ⟨hesp, ?_, ?_, fun i hi h₁ h₂ => ?_⟩
        · refine (hmem _ (word_ge (show dest.index < _ by omega))).trans ?_
          rw [if_neg (hne hdest₁ (by omega)), if_pos rfl]
        · refine (hmem _ (word_ge hdest₂)).trans ?_
          rw [if_neg (hne (by omega) (by omega)), if_neg (hne (by omega) (by omega))]
          exact hsecond
        · refine (hmem _ (word_ge hi)).trans ?_
          split_ifs with hx hy
          · rw [hx]
            exact hnext.symm
          · exact absurd (word_inj (Nat.le_trans hargs hdest₁) hy.symm).symm h₁
          · rfl

theorem isSpill64_of_mem {m : MethodFrame} {reqs : List (Request m.nrLocalSlots)} {slot : Slot}
    (h : ⟨slot, .w64, false⟩ ∈ (m.handOut reqs).2) : IsSpill64 (m.handOut reqs).1 slot := by
  obtain ⟨-, hlocals, hin, -⟩ := m.handOut_spec reqs
  have hidx := hin _ h
  unfold Handed.InIndices at hidx
  simp only [Bool.false_eq_true, if_false, Width.slotSize] at hidx
  unfold IsSpill64
  omega

/-- **Copying a 64-bit spill slot** of a frame to another one, from any contents of the memory, is right exactly when the
words that it does not copy, or copies to another slot, hold the right values already. -/
theorem copiesSlot64_iff (m : MethodFrame) (reqs : List (Request m.nrLocalSlots)) (src dest : Slot)
    (hsrc : ⟨src, .w64, false⟩ ∈ (m.handOut reqs).2) (hdest : ⟨dest, .w64, false⟩ ∈ (m.handOut reqs).2)
    (mem : Int → BitVec 32) (depth : Nat) : CopiesSlot64 (m.handOut reqs).1 src dest mem depth ↔
      WordsAgree (m.handOut reqs).1 src dest mem := by
  obtain ⟨hargs, hlocals, -⟩ := m.handOut_spec reqs
  refine copies_iff ((spillsOrdered_alloc _ _).runRequests reqs) ?_ (isSpill64_of_mem hsrc) (isSpill64_of_mem hdest)
  rw [hargs, hlocals]
  exact m.args_le

end Result

/-! ## Two slots of a frame -/

/-- A frame without local variables. -/
def emptyFrame : MethodFrame := ⟨0, 0, Nat.le_refl 0⟩

/-- The slot for exceptions, and two slots of 64 bits. -/
def twoSlots : List (Request emptyFrame.nrLocalSlots) := [.spill .w32, .spill .w64, .spill .w64]

/-- The frame with these slots. -/
def twoSlotsFrame : StackFrame := (emptyFrame.handOut twoSlots).1

theorem copiesSlot64_twoSlots : CopiesSlot64 twoSlotsFrame ⟨1⟩ ⟨3⟩ (fun _ => 0) 12 ↔
    WordsAgree twoSlotsFrame ⟨1⟩ ⟨3⟩ fun _ => 0 :=
  copiesSlot64_iff emptyFrame twoSlots ⟨1⟩ ⟨3⟩ (List.mem_cons_of_mem _ List.mem_cons_self)
    (List.mem_cons_of_mem _ (List.mem_cons_of_mem _ List.mem_cons_self)) (fun _ => 0) 12

/-- With a second word of the source that differs from all others, the copy is wrong. -/
theorem not_copiesSlot64_twoSlots : ¬CopiesSlot64 twoSlotsFrame ⟨1⟩ ⟨3⟩ (fun a => if a = -12 then 1 else 0) 12 := by
  rintro ⟨insns, hinsns, h⟩
  obtain rfl := Option.some.inj hinsns
  exact absurd h.second (by decide)

end Jato.Arch.CopySlot
