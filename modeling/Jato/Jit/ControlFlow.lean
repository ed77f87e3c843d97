import Jato.Jit.BasicBlock
import Jato.Vm.InsnSize
import Jato.Vm.Verifier

/-!
# Control-flow analysis

`analyze_control_flow` of `jit/cfg-analyzer.c`. The code starts as one block; it is split behind each instruction that ends a
block (`splitAfterBranches`), at each branch or switch target (`splitAtBranchTargets`) and at each exception handler
(`splitAtExceptionHandlers`). Edges to the following block are added when blocks are split, edges to branch targets in
between (`updateBranchSuccessors`); the edges of switches are left to the conversion to the intermediate form.

The result `none` stands for a failed assertion, a returned error, and for a use of a null pointer or of memory behind the
bit set. Allocations do not fail.
-/

namespace Jato.Jit.Flow

open Jato.Lib Jato.Vm

/-- What the analysis reads of a method. -/
structure MethodCode where
  code : List UInt8
  exceptionTable : List ExceptionEntry
deriving DecidableEq, Repr

def bcEndsBasicBlock (opc : Nat) : Bool := bcIsBranch opc || bcIsAthrow opc || bcIsReturn opc

/-- The offsets read by the loop over `info.targets`, and the default one; the count is a `uint32_t`. -/
def tableswitchTargets (code : List UInt8) (pc : Nat) : List Int :=
  let count := (readU32 code (switchBody pc + 8) + (2 ^ 32 - readU32 code (switchBody pc + 4)) + 1) % 2 ^ 32
  (pc + readS32 code (switchBody pc)) ::
    (List.range count).map fun (i : Nat) => (pc + readS32 code (switchBody pc + 12 + 4 * i) : Int)

def lookupswitchTargets (code : List UInt8) (pc : Nat) : List Int :=
  let count := readU32 code (switchBody pc + 4)
  (pc + readS32 code (switchBody pc)) ::
    (List.range count).map fun (i : Nat) => (pc + readS32 code (switchBody pc + 8 + 8 * i + 4) : Int)

/-- `set_bit` for each of the offsets, which have to lie inside the set. -/
def setTargets (targets : Bitset) : List Int → Option Bitset
  | [] => some targets
  | off :: offs => if 0 ≤ off ∧ off < targets.capacity then setTargets (setBit targets off.toNat) offs else none

/-- The variables of `split_after_branches`. -/
structure AfterBranches where
  cu : CompilationUnit
  bb : Nat
  branchTargets : Bitset

/-- The split behind the instruction at `pc`, with the new block if there is one. -/
def splitBehind (cu : CompilationUnit) (bb opcode nextInsnOff : Nat) : Option (CompilationUnit × Option Nat) :=
  if nextInsnOff = (cu.block bb).stop then some (cu, none)
  else
    match bbSplit cu bb nextInsnOff with
    | none => if bcIsBranch opcode && !bcIsGoto opcode then none else some (cu, none)
    | some (cu, newBb) =>
      if bcIsBranch opcode && !bcIsGoto opcode then some (bbAddSuccessor cu bb newBb, some newBb)
      else some (cu, some newBb)

/-- What is noted about the block that the instruction at `pc` ends, and the branch targets. -/
def noteInsn (code : List UInt8) (pc bb : Nat) (cu : CompilationUnit) (branchTargets : Bitset) :
    Option (CompilationUnit × Bitset) :=
  let opcode := byteAt code pc
  if opcode = opcTableswitch then (setTargets branchTargets (tableswitchTargets code pc)).map (cu, ·)
  else if opcode = opcLookupswitch then (setTargets branchTargets (lookupswitchTargets code pc)).map (cu, ·)
  else if bcIsBranch opcode then
    let brTargetOff := bcTargetOff code pc + pc
    (setTargets branchTargets [brTargetOff]).map
      (cu.updateBlock bb fun b => { b with brTargetOff := brTargetOff.toNat, hasBranch := true }, ·)
  else if bcIsReturn opcode then some (cu.updateBlock bb fun b => { b with hasReturn := true }, branchTargets)
  else if bcIsAthrow opcode then some (cu.updateBlock bb fun b => { b with hasAthrow := true }, branchTargets)
  else some (cu, branchTargets)

/-- The body of the loop of `split_after_branches`, for the instruction at `pc`. -/
def splitAfterInsn (code : List UInt8) (pc : Nat) (s : AfterBranches) : Option AfterBranches := do
  if !bcEndsBasicBlock (byteAt code pc) then return s
  let size ← bcInsnSize code pc
  let (cu, newBb) ← splitBehind s.cu s.bb (byteAt code pc) (pc + size)
  let (cu, branchTargets) ← noteInsn code pc s.bb cu s.branchTargets
  return ⟨cu, newBb.getD s.bb, branchTargets⟩

/-- The loop of `split_after_branches` from `pc` on. -/
def splitAfterBranches (code : List UInt8) : Nat → Nat → AfterBranches → Option AfterBranches
  | 0, _, _ => none
  | fuel + 1, pc, s =>
    if code.length ≤ pc then some s
    else do
      let s ← splitAfterInsn code pc s
      let size ← bcInsnSize code pc
      splitAfterBranches code fuel (pc + size) s

def splitAtBranchTarget (branchTargets : Bitset) (cu : CompilationUnit) (offset : Nat) : Option CompilationUnit :=
  if testBit (fun _ => false) branchTargets offset then do
    let bb ← findBb cu offset
    if (cu.block bb).start = offset then return cu
    let (cu, newBb) ← bbSplit cu bb offset
    return bbAddSuccessor cu bb newBb
  else some cu

def splitAtBranchTargets (codeLength : Nat) (branchTargets : Bitset) (cu : CompilationUnit) : Option CompilationUnit :=
  (List.range codeLength).foldlM (splitAtBranchTarget branchTargets) cu

def updateBranchSuccessor (cu : CompilationUnit) (bb : Nat) : Option CompilationUnit :=
  if (cu.block bb).hasBranch then do
    let targetBb ← findBb cu (cu.block bb).brTargetOff
    if bbSuccessorsContains cu bb targetBb then return cu
    return bbAddSuccessor cu bb targetBb
  else some cu

def updateBranchSuccessors (cu : CompilationUnit) : Option CompilationUnit := cu.bbList.foldlM updateBranchSuccessor cu

def lookupEhEntry (method : MethodCode) (target : Nat) : Option ExceptionEntry :=
  method.exceptionTable.find? fun eh => eh.handlerPc == target

def isExceptionHandler (method : MethodCode) (bb : BasicBlock) : Bool := (lookupEhEntry method bb.start).isSome

def detectExceptionHandlers (method : MethodCode) (cu : CompilationUnit) : CompilationUnit :=
  cu.bbList.foldl (fun cu b => cu.updateBlock b fun bb => { bb with isEh := isExceptionHandler method bb }) cu

def splitAtExceptionHandler (cu : CompilationUnit) (eh : ExceptionEntry) : Option CompilationUnit := do
  let bb ← findBb cu eh.handlerPc
  -- the assertion that `bb` is an exception handler
  if !(cu.block bb).isEh then none
  else if (cu.block bb).start = eh.handlerPc then return cu
  else
    let (cu, newBb) ← bbSplit cu bb eh.handlerPc
    return bbAddSuccessor (cu.updateBlock newBb fun b => { b with isEh := true }) bb newBb

def splitAtExceptionHandlers (method : MethodCode) (cu : CompilationUnit) : Option CompilationUnit :=
  method.exceptionTable.foldlM splitAtExceptionHandler cu

def allExceptionHandlersHaveBb (method : MethodCode) (cu : CompilationUnit) : Bool :=
  method.exceptionTable.all fun eh =>
    match findBb cu eh.handlerPc with
    | none => false
    | some bb => (cu.block bb).start == eh.handlerPc && (cu.block bb).isEh

/-- The analysis. An instruction has at least one byte, so that the length of the code bounds the number of rounds. -/
def analyzeControlFlow (method : MethodCode) : Option CompilationUnit := do
  let codeLength := method.code.length
  let s ← splitAfterBranches method.code (codeLength + 1) 0 ⟨entryUnit codeLength, 0, allocBitset codeLength⟩
  let cu ← splitAtBranchTargets codeLength s.branchTargets s.cu
  let cu ← updateBranchSuccessors cu
  let cu ← splitAtExceptionHandlers method (detectExceptionHandlers method cu)
  if allExceptionHandlersHaveBb method cu then return cu else none

end Jato.Jit.Flow
