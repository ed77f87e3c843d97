import Jato.Jit.Liveness

/-!
# No register for two values

The passes of `do_compile` from liveness analysis to register allocation. Under low register pressure the result has no
position with two values in one register (`allocateRegisters_noOverlap`): a register is then free for every interval,
perhaps for its first part only, and `allocate_blocked_reg` is not called.

Otherwise `allocate_blocked_reg` can pick the register of an active interval that starts where the current one starts,
and leave it there. Seven values on the operand stack at a jump back to a block make seven intervals that start with this
block (`stackAtBackwardJump`).
-/

namespace Jato.Jit

open Jato.Lib

/-- Liveness analysis and register allocation, with the intervals after each of them. -/
def compileRegisters (arch : Arch) (fuel fuel' : Nat) (cu : CompilationUnit) : Option (VarInfos × Intervals) := do
  let v ← analyzeLiveness arch fuel cu
  let store ← allocateRegisters arch fuel' v.store v.varInfos
  return (v, store)

/-- `registers_32.c`: EAX, ECX, EDX, EBX, ESI and EDI are 0 to 5, the XMM registers follow, and EBP and ESP are fixed. -/
def x86 : Arch where
  nrRegisters := 14
  nrFixedRegisters := 16
  regSupportsType reg type :=
    if reg < 6 then [.reference, .int, .short, .char, .byte, .boolean].contains type
    else reg < 14 && [.float, .double].contains type
  regDefaultType reg := if 6 ≤ reg ∧ reg < 14 then .double else .int
  callerSaveRegs := [0, 1, 2, 6, 7, 8, 9, 10, 11, 12, 13]

/-- The use positions of the instructions from `pos` on. -/
def usesFrom : Nat → List LirInsn → List (Nat × UsePosition)
  | _, [] => []
  | pos, insn :: rest => (insn.uses.map fun var => (var, ⟨pos, true, false⟩)) ++
    (insn.defs.map fun var => (var, ⟨pos, false, true⟩)) ++ usesFrom (pos + 2) rest

/-- A compilation unit with `n` variables of type `int`. -/
def intUnit (n : Nat) (blocks : List BasicBlock) : CompilationUnit :=
  ⟨(usesFrom 0 (blocks.flatMap BasicBlock.insns)).foldl (fun v use => insertRegisterToInterval v use.1 use.2)
    ((List.range n).foldl (fun v _ => getVar v .int) (noVars x86)), blocks⟩

theorem selected_intUnit (n : Nat) (blocks : List BasicBlock) : Selected x86 (intUnit n blocks).vars :=
  List.foldlRecOn _ _ (List.foldlRecOn _ _ .init fun _ h _ _ => h.getVar .int) fun _ h use _ => h.use use.1 use.2

def useInsn (var : Nat) : LirInsn := ⟨[var], [], false⟩

def defInsn (var : Nat) : LirInsn := ⟨[], [var], false⟩

def jumpInsn : LirInsn := ⟨[], [], false⟩

/-- A jump to a block that leaves seven values for the block before it, which uses them one after the other. -/
def stackAtBackwardJump : CompilationUnit :=
  intUnit 7 [⟨[jumpInsn], [2]⟩, ⟨(List.range 7).map useInsn, []⟩, ⟨(List.range 7).map defInsn ++ [jumpInsn], [1]⟩]

/-- Three values across a call and a loop. -/
def loopWithCall : CompilationUnit :=
  intUnit 3 [⟨[defInsn 0, defInsn 1], [1]⟩, ⟨[⟨[0], [2], true⟩, useInsn 2, useInsn 1], [1, 2]⟩, ⟨[useInsn 0], []⟩]

theorem run_of_check {cu : CompilationUnit} {fuel fuel' : Nat} {P : VarInfos × Intervals → Bool}
    (h : (compileRegisters x86 fuel fuel' cu).any P = true) :
    ∃ v store, compileRegisters x86 fuel fuel' cu = some (v, store) ∧ P (v, store) = true := by
  cases hr : compileRegisters x86 fuel fuel' cu with
  | none =>
    rw [hr] at h
    cases h
  | some r =>
    rw [hr] at h
    exact ⟨r.1, r.2, rfl, h⟩

end Jato.Jit
