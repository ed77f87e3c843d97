import Jato.Lib.X86
import Jato.Lib.Layout

/-!
# Emission of machine code

`jit/emit.c` and the branches of `arch/x86/emit_64.c`. The blocks are emitted one after the other, then the exit block
and the unwind block, then the resolution blocks: the moves of an edge of the graph with a jump to its target. A branch
to an edge with moves goes to the resolution block; it gets its displacement in a second pass, as a branch to a block
that is not emitted yet does. Other branches use the offset of the first instruction of their target.

A block without instructions has no first instruction: what is read instead is a parameter. Moves of an edge from a block
to the next one are not executed if control just goes on to it. `emitCorrect_iff` says for which graphs every branch and
every entry of a switch table leads where it should.
-/

namespace Jato.Jit.Emit

open Jato.Lib List Option
open Jato.Lib.X86 (Byte imm32Bytes takeImm32 takeImm32_imm32Bytes)

/-! ## Compilation units -/

/-- The branch instructions. -/
inductive BranchType
  | je
  | jne
  | jge
  | jg
  | jle
  | jl
  | jmp
deriving DecidableEq

namespace BranchType

/-- The prefix that the emitter passes to `__emit_branch`, if it is not zero. -/
def escape : BranchType → List Byte
  | .jmp => []
  | _ => [0x0f]

def opc : BranchType → Byte
  | .je => 0x84
  | .jne => 0x85
  | .jge => 0x8d
  | .jg => 0x8f
  | .jle => 0x8e
  | .jl => 0x8c
  | .jmp => 0xe9

end BranchType

/-- A branch goes to a block, given by its index, or to the exit block. -/
inductive Target
  | block (i : Nat)
  | exit
deriving DecidableEq

/-- An instruction that is not a branch has the bytes of its encoding; control may or may not go on behind it. -/
inductive InsnKind
  | branch (type : BranchType) (target : Target)
  | other (bytes : List Byte) (goesOn : Bool)
deriving DecidableEq

structure Insn where
  bcOffset : Option UInt16
  kind : InsnKind
deriving DecidableEq

/-- `struct basic_block`, with the instructions of the resolution block for each successor. -/
structure BasicBlock where
  insns : List Insn
  successors : List Nat
  resolution : List (List (List Byte))

def BasicBlock.lookupSuccessorIndex (b : BasicBlock) (t : Nat) : Option Nat := b.successors.idxOf? t

def BasicBlock.needsResolutionBlock (b : BasicBlock) (i : Nat) : Bool := !(b.resolution.getD i []).isEmpty

/-- A `struct tableswitch` or `struct lookupswitch`. -/
structure Switch where
  src : Nat
  targets : List Nat

/-- What `emit_machine_code` reads of a compilation unit. -/
structure CompilationUnit where
  /-- The check of inline caches, the prolog and what follows it. -/
  prolog : List Byte
  blocks : List BasicBlock
  exitCode : List Byte
  unwindCode : List Byte
  switches : List Switch
  traceMachineCode : Bool
  prolog_ne : prolog ≠ []
  exitCode_ne : exitCode ≠ []
  resolution_length : ∀ b ∈ blocks, b.resolution.length = b.successors.length
  successors_lt : ∀ b ∈ blocks, ∀ t ∈ b.successors, t < blocks.length
  targets_lt : ∀ b ∈ blocks, ∀ insn ∈ b.insns, ∀ type t, insn.kind = .branch type (.block t) → t < blocks.length
  switches_mem : ∀ s ∈ switches, ∃ b, blocks[s.src]? = some b ∧ ∀ t ∈ s.targets, t ∈ b.successors

/-! ## The first pass -/

/-- What the flags of an emitted branch ask the second pass for. -/
inductive Patch
  | done
  | branch (target : Target)
  | resolution (src i : Nat)
deriving DecidableEq

/-- The emitted bytes of an instruction. -/
inductive Chunk
  | raw (bytes : List Byte)
  | branch (type : BranchType) (rel : Int) (patch : Patch)
deriving DecidableEq

def branchInsnSize : Nat := 5

/-- `emit_branch_rel`. -/
def branchBytes (type : BranchType) (rel : Int) : List Byte := type.escape ++ type.opc :: imm32Bytes rel

def Chunk.bytes : Chunk → List Byte
  | .raw bytes => bytes
  | .branch type rel _ => branchBytes type rel

def branchRelAddr (machOffset : Nat) (type : BranchType) (targetOffset : Nat) : Int :=
  targetOffset - machOffset - branchInsnSize - type.escape.length

structure Emitted where
  insn : Insn
  machOffset : Nat
  chunk : Chunk

section

variable (cu : CompilationUnit) (stale : Nat → UInt32)

/-- The resolution block of the edge from a block to a target, if it is not empty. -/
def edgeResolution (bb : Option (Nat × BasicBlock)) (t : Nat) : Option (Nat × Nat) :=
  match bb with
  | none => none
  | some (src, b) =>
    match b.lookupSuccessorIndex t with
    | some i => if b.needsResolutionBlock i then some (src, i) else none
    | none => none

/-- The `mach_offset` of the first instruction of a block that starts at `start`; for a block without instructions that
is a field of something else. -/
def firstMachOffset (t start : Nat) : Nat :=
  match cu.blocks[t]? with
  | some b => if b.insns.isEmpty then (stale t).toNat else start
  | none => start

/-- `__emit_branch`, where `emitted` has the offsets of the blocks that are emitted already. -/
def emitBranch (bb : Option (Nat × BasicBlock)) (emitted : List Nat) (machOffset : Nat) (type : BranchType) :
    Target → Chunk
  | .exit => .branch type 0 (.branch .exit)
  | .block t =>
    match edgeResolution bb t with
    | some (src, i) => .branch type 0 (.resolution src i)
    | none =>
      match emitted[t]? with
      | some start => .branch type (branchRelAddr machOffset type (firstMachOffset cu stale t start)) .done
      | none => .branch type 0 (.branch (.block t))

def emitKind (bb : Option (Nat × BasicBlock)) (emitted : List Nat) (machOffset : Nat) : InsnKind → Chunk
  | .branch type target => emitBranch cu stale bb emitted machOffset type target
  | .other bytes _ => .raw bytes

def emitInsn (bb : Option (Nat × BasicBlock)) (emitted : List Nat) (off : Nat) (insn : Insn) : Emitted :=
  ⟨insn, off, emitKind cu stale bb emitted off insn.kind⟩

def emitInsns (bb : Option (Nat × BasicBlock)) (emitted : List Nat) : Nat → List Insn → List Emitted :=
  layout (emitInsn cu stale bb emitted) (·.chunk.bytes)

/-- An emitted block, with the `nop` behind it if machine code is traced. -/
structure EmittedBlock where
  machOffset : Nat
  insns : List Emitted
  nop : List Byte

def EmittedBlock.bytes (e : EmittedBlock) : List Byte := e.insns.flatMap (·.chunk.bytes) ++ e.nop

def traceNop : List Byte := if cu.traceMachineCode then [0x90] else []

def emitBody (src : Nat) (b : BasicBlock) (emitted : List Nat) (off : Nat) : EmittedBlock :=
  ⟨off, emitInsns cu stale (some (src, b)) (emitted ++ [off]) off b.insns, traceNop cu⟩

def emitBodies : Nat → List Nat → Nat → List BasicBlock → List EmittedBlock
  | _, _, _, [] => []
  | src, emitted, off, b :: bs =>
    let e := emitBody cu stale src b emitted off
    e :: emitBodies (src + 1) (emitted ++ [off]) (off + e.bytes.length) bs

def bodies : List EmittedBlock := emitBodies cu stale 0 [] cu.prolog.length cu.blocks

/-- Where the blocks start. -/
def blockOffsets : List Nat := (bodies cu stale).map (·.machOffset)

def bodiesBytes : List Byte := (bodies cu stale).flatMap EmittedBlock.bytes

def exitOffset : Nat := cu.prolog.length + (bodiesBytes cu stale).length

/-- The exit block and the unwind block have no instructions. -/
def tailBytes : List Byte := traceNop cu ++ cu.exitCode ++ (traceNop cu ++ cu.unwindCode)

/-- An emitted resolution block: its moves, and the jump behind them if there are any. -/
structure EmittedResolution where
  machOffset : Nat
  moves : List (List Byte)
  jump : Option Chunk

def EmittedResolution.bytes (e : EmittedResolution) : List Byte :=
  e.moves.flatten ++ (e.jump.toList.flatMap Chunk.bytes)

/-- The resolution block of a successor with its moves. -/
def emitResolutionBlock (off : Nat) (edge : Nat × List (List Byte)) : EmittedResolution :=
  if edge.2.isEmpty then ⟨off, [], none⟩
  else ⟨off, edge.2,
    some (emitBranch cu stale none (blockOffsets cu stale) (off + edge.2.flatten.length) .jmp (.block edge.1))⟩

def resolutionsBytes (es : List EmittedResolution) : List Byte := es.flatMap EmittedResolution.bytes

/-- `emit_resolution_blocks`. -/
def emitResolutionBlocks (off : Nat) (b : BasicBlock) : List EmittedResolution :=
  layout (emitResolutionBlock cu stale) EmittedResolution.bytes off (b.successors.zip b.resolution)

def resolutions : List (List EmittedResolution) :=
  layout (emitResolutionBlocks cu stale) resolutionsBytes (exitOffset cu stale + (tailBytes cu).length) cu.blocks

/-- The buffer after the first pass. -/
def firstPass : List Byte :=
  cu.prolog ++ (bodiesBytes cu stale ++ (tailBytes cu ++ (resolutions cu stale).flatMap resolutionsBytes))

/-! ## The second pass -/

/-- The `mach_offset` of a target. -/
def targetOffset : Target → Nat
  | .block t => (blockOffsets cu stale).getD t 0
  | .exit => exitOffset cu stale

def resolutionOffset (src i : Nat) : Nat :=
  (((resolutions cu stale).getD src [])[i]?.map (·.machOffset)).getD 0

def writeImm32 (buf : List Byte) (off : Nat) (v : Int) : List Byte :=
  buf.take off ++ imm32Bytes v ++ buf.drop (off + 4)

def backpatchBranchTarget (buf : List Byte) (machOffset : Nat) (type : BranchType) (target : Nat) : List Byte :=
  writeImm32 buf (machOffset + 1 + type.escape.length) (branchRelAddr machOffset type target)

def backpatchBranch (buf : List Byte) (e : Emitted) : List Byte :=
  match e.chunk with
  | .branch type _ (.branch target) => backpatchBranchTarget buf e.machOffset type (targetOffset cu stale target)
  | .branch type _ (.resolution src i) => backpatchBranchTarget buf e.machOffset type (resolutionOffset cu stale src i)
  | _ => buf

def backpatchBranches (buf : List Byte) : List Byte :=
  (bodies cu stale).foldl (fun buf e => e.insns.foldl (backpatchBranch cu stale) buf) buf

def emitMachineCode : List Byte := backpatchBranches cu stale (firstPass cu stale)

/-- The entry of a switch table for a target, as an offset in the code. -/
def backpatchSwitch (s : Switch) (t : Nat) : Nat :=
  match edgeResolution ((cu.blocks[s.src]?).map fun b => (s.src, b)) t with
  | some (src, i) => resolutionOffset cu stale src i
  | none => targetOffset cu stale (.block t)

end

/-! ## Correct code -/

def InsnKind.size : InsnKind → Nat
  | .branch type _ => branchInsnSize + type.escape.length
  | .other bytes _ => bytes.length

def insnsSize (insns : List Insn) : Nat := (insns.map (·.kind.size)).sum

def InsnKind.goesOn : InsnKind → Bool
  | .branch type _ => type ≠ .jmp
  | .other _ goesOn => goesOn

/-- Control can reach the end of the block. -/
def BasicBlock.goesOn (b : BasicBlock) : Bool :=
  match b.insns.getLast? with
  | some insn => insn.kind.goesOn
  | none => true

/-- The moves of the edge to a target. -/
def BasicBlock.moves (b : BasicBlock) (t : Nat) : List (List Byte) :=
  match b.lookupSuccessorIndex t with
  | some i => b.resolution.getD i []
  | none => []

/-- Where the branch at an offset goes. -/
def leadsTo (code : List Byte) (off : Nat) (type : BranchType) : Option Int :=
  (takeImm32 (code.drop (off + 1 + type.escape.length))).map fun p => off + branchInsnSize + type.escape.length + p.1

section

variable (cu : CompilationUnit) (stale : Nat → UInt32)

/-- Where a branch or an entry of a switch table of a block should lead. -/
def edgeOffset (src : Nat) (b : BasicBlock) : Target → Nat
  | .exit => targetOffset cu stale .exit
  | .block t =>
    if b.moves t = [] then targetOffset cu stale (.block t)
    else resolutionOffset cu stale src (b.successors.idxOf t)

/-- Every branch and every entry of a switch table leads to its target, over the moves of its edge if there are any, and
where control goes on from the last instruction of a block, what follows it is what a branch to the next block leads to. -/
structure EmitCorrect : Prop where
  branches : ∀ src b, cu.blocks[src]? = some b → ∀ pre bc type target post,
    b.insns = pre ++ ⟨bc, .branch type target⟩ :: post →
    leadsTo (emitMachineCode cu stale) (targetOffset cu stale (.block src) + insnsSize pre) type =
      some ↑(edgeOffset cu stale src b target)
  resolutions : ∀ src b, cu.blocks[src]? = some b → ∀ i t, b.successors[i]? = some t → b.resolution.getD i [] ≠ [] →
    (b.resolution.getD i []).flatten ++ [BranchType.jmp.opc] <+:
        (emitMachineCode cu stale).drop (resolutionOffset cu stale src i) ∧
      leadsTo (emitMachineCode cu stale) (resolutionOffset cu stale src i + (b.resolution.getD i []).flatten.length) .jmp =
        some ↑(targetOffset cu stale (.block t))
  switches : ∀ s ∈ cu.switches, ∀ b, cu.blocks[s.src]? = some b → ∀ t ∈ s.targets,
    backpatchSwitch cu stale s t = edgeOffset cu stale s.src b (.block t)
  next : ∀ src b, cu.blocks[src]? = some b → b.goesOn → src + 1 < cu.blocks.length →
    let off := targetOffset cu stale (.block src) + insnsSize b.insns
    traceNop cu <+: (emitMachineCode cu stale).drop off ∧
      off + (traceNop cu).length = edgeOffset cu stale src b (.block (src + 1))

end

/-! ## The first pass -/

variable {src : Nat} (v : Int) (insns : List Insn)

section

variable {cu : CompilationUnit} {stale : Nat → UInt32} {bb : Option (Nat × BasicBlock)} {emitted : List Nat} {off : Nat}

@[simp] theorem length_imm32Bytes : (imm32Bytes v).length = 4 := rfl

@[simp] theorem length_branchBytes (type : BranchType) (rel : Int) :
    (branchBytes type rel).length = branchInsnSize + type.escape.length := by
  rw [branchBytes, length_append, length_cons, length_imm32Bytes, add_comm]
  rfl

variable (cu stale bb emitted off) in
theorem emitBranch_eq (type : BranchType) (target : Target) :
    ∃ rel patch, emitBranch cu stale bb emitted off type target = .branch type rel patch := by
  unfold emitBranch
  split
  · exact ⟨_, _, rfl⟩
  · split
    · exact ⟨_, _, rfl⟩
    · split <;> exact ⟨_, _, rfl⟩

theorem length_emitKind (kind : InsnKind) : (emitKind cu stale bb emitted off kind).bytes.length = kind.size := by
  cases kind with
  | branch type target =>
    obtain ⟨rel, patch, h⟩ := emitBranch_eq cu stale bb emitted off type target
    rw [emitKind, h, Chunk.bytes, length_branchBytes, InsnKind.size]
  | other bytes goesOn => rfl

theorem emitInsns_cons (insn : Insn) : emitInsns cu stale bb emitted off (insn :: insns) =
    emitInsn cu stale bb emitted off insn :: emitInsns cu stale bb emitted (off + insn.kind.size) insns := by
  rw [emitInsns, layout, emitInsn, length_emitKind]

theorem length_emitInsns :
    ((emitInsns cu stale bb emitted off insns).flatMap (·.chunk.bytes)).length = insnsSize insns := by
  induction insns generalizing off with
  | nil => rfl
  | cons insn insns ih =>
    rw [emitInsns_cons, flatMap_cons, length_append, ih, emitInsn, length_emitKind, insnsSize, insnsSize,
      map_cons, sum_cons]

theorem emitInsns_append (pre post : List Insn) : emitInsns cu stale bb emitted off (pre ++ post) =
    emitInsns cu stale bb emitted off pre ++ emitInsns cu stale bb emitted (off + insnsSize pre) post := by
  rw [← length_emitInsns pre]
  exact layout_append pre post

theorem getElem?_emitBodies {bs : List BasicBlock} {k : Nat} {b : BasicBlock} (h : bs[k]? = some b) :
    (emitBodies cu stale src emitted off bs)[k]? = some (emitBody cu stale (src + k) b
      (emitted ++ ((emitBodies cu stale src emitted off bs).take k).map (·.machOffset))
      (off + (((emitBodies cu stale src emitted off bs).take k).flatMap EmittedBlock.bytes).length)) := by
  induction bs generalizing src emitted off k with
  | nil => cases h
  | cons b' bs ih =>
    cases k with
    | zero =>
      cases h
      simp [emitBodies]
    | succ k =>
      rw [emitBodies, getElem?_cons_succ, ih h, take_succ_cons, map_cons, flatMap_cons,
        length_append]
      congr 2
      · omega
      · rw [append_assoc]
        rfl
      · omega

end

/-! ## The second pass -/

variable {type : BranchType} {b' : BasicBlock}

section

variable {cu : CompilationUnit} {stale : Nat → UInt32} {pre : List Byte}

/-- A chunk with the displacement that the second pass gives it. -/
def resolveChunk (cu : CompilationUnit) (stale : Nat → UInt32) (machOffset : Nat) : Chunk → Chunk
  | .branch type _ (.branch target) => .branch type (branchRelAddr machOffset type (targetOffset cu stale target)) .done
  | .branch type _ (.resolution src i) =>
    .branch type (branchRelAddr machOffset type (resolutionOffset cu stale src i)) .done
  | chunk => chunk

def resolveEmitted (cu : CompilationUnit) (stale : Nat → UInt32) (e : Emitted) : Emitted :=
  { e with chunk := resolveChunk cu stale e.machOffset e.chunk }

def resolveBlock (cu : CompilationUnit) (stale : Nat → UInt32) (e : EmittedBlock) : EmittedBlock :=
  { e with insns := e.insns.map (resolveEmitted cu stale) }

theorem length_resolveChunk (machOffset : Nat) (c : Chunk) :
    (resolveChunk cu stale machOffset c).bytes.length = c.bytes.length := by
  unfold resolveChunk
  split <;> simp [Chunk.bytes]

theorem writeImm32_append (pre post : List Byte) (w : Int) :
    writeImm32 (pre ++ (imm32Bytes v ++ post)) pre.length w = pre ++ (imm32Bytes w ++ post) := by
  rw [writeImm32, take_left, ← length_imm32Bytes v, ← length_append, ← append_assoc, drop_left,
    append_assoc]

theorem backpatchBranchTarget_append {machOffset : Nat} (hpre : pre.length = machOffset)
    (post : List Byte) (type : BranchType) (rel : Int) (target : Nat) :
    backpatchBranchTarget (pre ++ (branchBytes type rel ++ post)) machOffset type target =
      pre ++ (branchBytes type (branchRelAddr machOffset type target) ++ post) := by
  have hsplit r : pre ++ (branchBytes type r ++ post) =
      (pre ++ (type.escape ++ [type.opc])) ++ (imm32Bytes r ++ post) := by
    simp [branchBytes]
  have hlen : machOffset + 1 + type.escape.length = (pre ++ (type.escape ++ [type.opc])).length := by
    simp only [length_append, length_singleton, hpre]
    omega
  rw [backpatchBranchTarget, hsplit, hlen, writeImm32_append, ← hsplit]

theorem backpatchBranch_append {e : Emitted} (hpre : pre.length = e.machOffset) (post : List Byte) :
    backpatchBranch cu stale (pre ++ (e.chunk.bytes ++ post)) e =
      pre ++ ((resolveEmitted cu stale e).chunk.bytes ++ post) := by
  obtain ⟨insn, machOffset, chunk⟩ := e
  cases chunk with
  | raw bytes => rfl
  | branch type rel patch =>
    cases patch with
    | done => rfl
    | branch target | resolution src i => exact backpatchBranchTarget_append hpre post type rel _

variable {emitted : List Nat}

theorem foldl_backpatchBranch {bb : Option (Nat × BasicBlock)}
    (hpre : pre.length = off) (post : List Byte) :
    (emitInsns cu stale bb emitted off insns).foldl (backpatchBranch cu stale)
        (pre ++ ((emitInsns cu stale bb emitted off insns).flatMap (·.chunk.bytes) ++ post)) =
      pre ++ (((emitInsns cu stale bb emitted off insns).map (resolveEmitted cu stale)).flatMap (·.chunk.bytes) ++ post) := by
  induction insns generalizing off pre with
  | nil => rfl
  | cons insn insns ih =>
    rw [emitInsns_cons, foldl_cons, flatMap_cons, append_assoc, backpatchBranch_append hpre]
    rw [← append_assoc pre, ih]
    · rw [map_cons, flatMap_cons, append_assoc, append_assoc]
    · rw [length_append, hpre, resolveEmitted, length_resolveChunk, emitInsn, length_emitKind]

theorem length_flatMap_resolveEmitted (l : List Emitted) :
    ((l.map (resolveEmitted cu stale)).flatMap (·.chunk.bytes)).length = (l.flatMap (·.chunk.bytes)).length := by
  induction l with
  | nil => rfl
  | cons e l ih =>
    rw [map_cons, flatMap_cons, flatMap_cons, length_append, length_append, ih, resolveEmitted,
      length_resolveChunk]

theorem length_resolveBlock (e : EmittedBlock) : (resolveBlock cu stale e).bytes.length = e.bytes.length := by
  rw [EmittedBlock.bytes, EmittedBlock.bytes, length_append, length_append]
  exact congrArg (· + e.nop.length) (length_flatMap_resolveEmitted e.insns)

theorem foldl_backpatchBlocks (bs : List BasicBlock) (hpre : pre.length = off) (post : List Byte) :
    (emitBodies cu stale src emitted off bs).foldl (fun buf e => e.insns.foldl (backpatchBranch cu stale) buf)
        (pre ++ ((emitBodies cu stale src emitted off bs).flatMap EmittedBlock.bytes ++ post)) =
      pre ++ (((emitBodies cu stale src emitted off bs).map (resolveBlock cu stale)).flatMap EmittedBlock.bytes ++
        post) := by
  induction bs generalizing src emitted off pre with
  | nil => rfl
  | cons b bs ih =>
    obtain ⟨e, he⟩ : ∃ e, emitBody cu stale src b emitted off = e := ⟨_, rfl⟩
    have hcons : emitBodies cu stale src emitted off (b :: bs) =
        e :: emitBodies cu stale (src + 1) (emitted ++ [off]) (off + e.bytes.length) bs := he ▸ rfl
    have hinsns : e.insns = emitInsns cu stale (some (src, b)) (emitted ++ [off]) off b.insns := he ▸ rfl
    have hlen : (pre ++ (resolveBlock cu stale e).bytes).length = off + e.bytes.length := by
      rw [length_append, hpre, length_resolveBlock]
    have hhead rest : e.insns.foldl (backpatchBranch cu stale) (pre ++ (e.bytes ++ rest)) =
        (pre ++ (resolveBlock cu stale e).bytes) ++ rest := by
      simp only [EmittedBlock.bytes, resolveBlock, append_assoc, hinsns]
      exact foldl_backpatchBranch b.insns hpre (e.nop ++ rest)
    rw [hcons, foldl_cons, flatMap_cons, append_assoc, hhead, ih hlen, map_cons, flatMap_cons,
      append_assoc, append_assoc]

theorem emitMachineCode_eq (cu : CompilationUnit) (stale : Nat → UInt32) : emitMachineCode cu stale =
    cu.prolog ++ (((bodies cu stale).map (resolveBlock cu stale)).flatMap EmittedBlock.bytes ++
      (tailBytes cu ++ (resolutions cu stale).flatMap resolutionsBytes)) :=
  foldl_backpatchBlocks cu.blocks rfl _

end

/-! ## Where things lie -/

section

variable {cu : CompilationUnit} {stale : Nat → UInt32} {b : BasicBlock} {pre post : List Insn}

theorem getElem?_bodies (h : cu.blocks[src]? = some b) :
    (bodies cu stale)[src]? = some (emitBody cu stale src b ((blockOffsets cu stale).take src)
      (cu.prolog.length + (((bodies cu stale).take src).flatMap EmittedBlock.bytes).length)) := by
  have hbody : (emitBodies cu stale 0 [] cu.prolog.length cu.blocks)[src]? = _ := getElem?_emitBodies h
  rw [zero_add, nil_append] at hbody
  rw [blockOffsets, ← map_take]
  exact hbody

theorem targetOffset_eq (h : cu.blocks[src]? = some b) : targetOffset cu stale (.block src) =
    cu.prolog.length + (((bodies cu stale).take src).flatMap EmittedBlock.bytes).length := by
  rw [targetOffset, getD_eq_getElem?_getD, blockOffsets, getElem?_map, getElem?_bodies h]
  rfl

theorem length_flatMap_resolveBlock (l : List EmittedBlock) :
    ((l.map (resolveBlock cu stale)).flatMap EmittedBlock.bytes).length = (l.flatMap EmittedBlock.bytes).length := by
  induction l with
  | nil => rfl
  | cons e l ih =>
    rw [map_cons, flatMap_cons, flatMap_cons, length_append, length_append, ih,
      length_resolveBlock]

theorem drop_of_eq_append {α : Type} {l pre post : List α} {n : Nat} (h : l = pre ++ post) (hpre : pre.length = n) :
    l.drop n = post := by
  rw [h, ← hpre, drop_left]

/-- The blocks that are emitted when a block is: those before it and the block itself. -/
theorem take_blockOffsets (h : cu.blocks[src]? = some b) : (blockOffsets cu stale).take (src + 1) =
    (blockOffsets cu stale).take src ++ [targetOffset cu stale (.block src)] := by
  rw [take_add_one, targetOffset_eq h, blockOffsets, getElem?_map, getElem?_bodies h]
  rfl

theorem getElem?_resolvedBodies (h : cu.blocks[src]? = some b) :
    ((bodies cu stale).map (resolveBlock cu stale))[src]? = some (resolveBlock cu stale
      (emitBody cu stale src b ((blockOffsets cu stale).take src) (targetOffset cu stale (.block src)))) := by
  rw [getElem?_map, getElem?_bodies h, targetOffset_eq h]
  rfl

variable (stale) in
theorem drop_emitMachineCode (h : cu.blocks[src]? = some b) {insn : Insn} (hinsns : b.insns = pre ++ insn :: post) :
    let off := targetOffset cu stale (.block src) + insnsSize pre
    ∃ rest, (emitMachineCode cu stale).drop off = (resolveChunk cu stale off (emitKind cu stale (some (src, b))
      ((blockOffsets cu stale).take (src + 1)) off insn.kind)).bytes ++ rest := by
  have hcode := emitMachineCode_eq cu stale
  rw [flatMap_split (getElem?_resolvedBodies h), EmittedBlock.bytes, resolveBlock, emitBody, hinsns, ← take_blockOffsets h, emitInsns_append,
    map_append, flatMap_append, emitInsns_cons, map_cons, flatMap_cons] at hcode
  simp only [append_assoc] at hcode
  rw [← append_assoc, ← append_assoc] at hcode
  refine ⟨_, drop_of_eq_append hcode ?_⟩
  rw [length_append, length_append, length_flatMap_resolveEmitted, length_emitInsns, ← map_take,
    length_flatMap_resolveBlock, targetOffset_eq h]

/-- Behind the last instruction of a block stands the `nop` of a trace, and behind that the next block. -/
theorem drop_insns (h : cu.blocks[src]? = some b) : traceNop cu <+:
    (emitMachineCode cu stale).drop (targetOffset cu stale (.block src) + insnsSize b.insns) := by
  have hcode := emitMachineCode_eq cu stale
  rw [flatMap_split (getElem?_resolvedBodies h), EmittedBlock.bytes, resolveBlock, emitBody] at hcode
  simp only [append_assoc] at hcode
  rw [← append_assoc, ← append_assoc] at hcode
  refine ⟨_, (drop_of_eq_append hcode ?_).symm⟩
  rw [length_append, length_append, length_flatMap_resolveEmitted, length_emitInsns, ← map_take,
    length_flatMap_resolveBlock, targetOffset_eq h]

theorem targetOffset_succ (h : cu.blocks[src]? = some b) (hlt : src + 1 < cu.blocks.length) :
    targetOffset cu stale (.block (src + 1)) =
      targetOffset cu stale (.block src) + insnsSize b.insns + (traceNop cu).length := by
  rw [targetOffset_eq (getElem?_eq_getElem hlt), targetOffset_eq h, take_add_one, getElem?_bodies h, Option.toList_some,
    flatMap_append, flatMap_singleton, length_append, EmittedBlock.bytes, length_append, emitBody, length_emitInsns,
    ← Nat.add_assoc, ← Nat.add_assoc]

variable (stale) in
/-- Where the resolution block of an edge lies, in the resolution blocks of its block. -/
theorem getElem?_resolutions (h : cu.blocks[src]? = some b) {i t : Nat} (ht : b.successors[i]? = some t) :
    let start := exitOffset cu stale + (tailBytes cu).length +
      (((resolutions cu stale).take src).flatMap resolutionsBytes).length
    (resolutions cu stale)[src]? = some (emitResolutionBlocks cu stale start b) ∧
      resolutionOffset cu stale src i =
        start + (((emitResolutionBlocks cu stale start b).take i).flatMap EmittedResolution.bytes).length ∧
      (emitResolutionBlocks cu stale start b)[i]? =
        some (emitResolutionBlock cu stale (resolutionOffset cu stale src i) (t, b.resolution.getD i [])) := by
  intro start
  have hlen := cu.resolution_length b (List.mem_of_getElem? h)
  obtain ⟨hi, -⟩ := List.getElem?_eq_some_iff.mp ht
  have hedge : (b.successors.zip b.resolution)[i]? = some (t, b.resolution.getD i []) := by
    refine List.getElem?_zip_eq_some.mpr ⟨ht, ?_⟩
    rw [List.getD_eq_getElem?_getD, List.getElem?_eq_getElem (hlen ▸ hi)]
    rfl
  have hblock : (resolutions cu stale)[src]? = some (emitResolutionBlocks cu stale start b) := getElem?_layout h
  obtain ⟨off, hoff⟩ : ∃ off, off = start +
    (((emitResolutionBlocks cu stale start b).take i).flatMap EmittedResolution.bytes).length := ⟨_, rfl⟩
  have hentry : (emitResolutionBlocks cu stale start b)[i]? =
      some (emitResolutionBlock cu stale off (t, b.resolution.getD i [])) := hoff ▸ getElem?_layout hedge
  have hmach : (emitResolutionBlock cu stale off (t, b.resolution.getD i [])).machOffset = off := by
    unfold emitResolutionBlock
    split_ifs <;> rfl
  have hoffset : resolutionOffset cu stale src i = off := by
    rw [resolutionOffset, List.getD_eq_getElem?_getD, hblock, Option.getD_some, hentry, Option.map_some, Option.getD_some,
      hmach]
  rw [hoffset]
  exact ⟨hblock, hoff, hentry⟩

variable (stale) in
theorem drop_resolutionOffset (h : cu.blocks[src]? = some b) {i t : Nat} (ht : b.successors[i]? = some t) :
    ∃ rest, (emitMachineCode cu stale).drop (resolutionOffset cu stale src i) =
      (emitResolutionBlock cu stale (resolutionOffset cu stale src i) (t, b.resolution.getD i [])).bytes ++ rest := by
  obtain ⟨hblock, hoff, hentry⟩ := getElem?_resolutions stale h ht
  have hcode := emitMachineCode_eq cu stale
  rw [flatMap_split hblock, resolutionsBytes, flatMap_split hentry] at hcode
  simp only [List.append_assoc] at hcode
  rw [← List.append_assoc, ← List.append_assoc, ← List.append_assoc, ← List.append_assoc] at hcode
  refine ⟨_, drop_of_eq_append hcode ?_⟩
  simp only [List.length_append, length_flatMap_resolveBlock]
  rw [hoff, exitOffset, bodiesBytes]

variable (stale) in
/-- The resolution blocks lie behind the exit block, which has code. -/
theorem exitOffset_lt_resolutionOffset (h : cu.blocks[src]? = some b) {i t : Nat} (ht : b.successors[i]? = some t) :
    exitOffset cu stale < resolutionOffset cu stale src i := by
  obtain ⟨-, hoff, -⟩ := getElem?_resolutions stale h ht
  have hexit := length_pos_iff.mpr cu.exitCode_ne
  have htail : 0 < (tailBytes cu).length := by
    rw [tailBytes, length_append, length_append]
    omega
  omega

theorem length_emitMachineCode (cu : CompilationUnit) (stale : Nat → UInt32) :
    exitOffset cu stale + (tailBytes cu).length ≤ (emitMachineCode cu stale).length := by
  rw [emitMachineCode_eq, exitOffset, bodiesBytes]
  simp only [length_append, length_flatMap_resolveBlock]
  omega

theorem targetOffset_le_exitOffset (h : cu.blocks[src]? = some b) :
    targetOffset cu stale (.block src) ≤ exitOffset cu stale := by
  rw [exitOffset, bodiesBytes, flatMap_split (getElem?_bodies h), length_append, targetOffset_eq h]
  omega

theorem targetOffset_le (h : cu.blocks[src]? = some b) :
    targetOffset cu stale (.block src) ≤ (emitMachineCode cu stale).length :=
  (targetOffset_le_exitOffset h).trans ((Nat.le_add_right _ _).trans (length_emitMachineCode cu stale))

theorem lt_length_of_drop {α : Type} {l x rest : List α} {n : Nat} (h : l.drop n = x ++ rest) (hx : x ≠ []) :
    n < l.length := by
  by_contra hge
  rw [drop_eq_nil_of_le (not_lt.mp hge)] at h
  exact hx (append_eq_nil_iff.mp h.symm).1

end

/-! ## Branches -/

section

variable {cu : CompilationUnit} {stale : Nat → UInt32} {b : BasicBlock} {pre post : List Insn}

/-- `MAX_TEXT_SIZE`. -/
def maxTextSize : Nat := 256 * 1024 * 1024

theorem leadsTo_branchRelAddr {code rest : List Byte} {off target : Nat}
    (h : code.drop off = branchBytes type (branchRelAddr off type target) ++ rest)
    (hsize : code.length ≤ maxTextSize) (htarget : target ≤ maxTextSize) : leadsTo code off type = some ↑target := by
  have hlt := lt_length_of_drop h (append_ne_nil_of_right_ne_nil _ nofun)
  have hescape : type.escape.length ≤ 1 := by cases type <;> decide
  have hdrop : code.drop (off + 1 + type.escape.length) = imm32Bytes (branchRelAddr off type target) ++ rest := by
    have hsplit : code.drop off = (type.escape ++ [type.opc]) ++ (imm32Bytes (branchRelAddr off type target) ++ rest) := by
      rw [h, branchBytes, append_assoc, append_assoc]
      rfl
    rw [add_assoc, ← drop_drop]
    refine drop_of_eq_append hsplit ?_
    rw [length_append, length_singleton, add_comm]
  have hrange : -2 ^ 31 ≤ branchRelAddr off type target ∧ branchRelAddr off type target < 2 ^ 31 := by
    unfold maxTextSize branchRelAddr branchInsnSize at *
    omega
  rw [leadsTo, hdrop, takeImm32_imm32Bytes hrange, map_some]
  unfold branchRelAddr
  congr 1
  omega

theorem edgeResolution_eq (src : Nat) (b : BasicBlock) (t : Nat) : edgeResolution (some (src, b)) t =
    if b.moves t = [] then none else some (src, b.successors.idxOf t) := by
  unfold edgeResolution BasicBlock.moves
  cases h : b.lookupSuccessorIndex t with
  | none => simp only [if_true, h]
  | some i =>
    have hi : b.successors.idxOf t = i := by
      rw [idxOf_eq_getD_idxOf?, show b.successors.idxOf? t = some i from h, getD_some]
    simp only [BasicBlock.needsResolutionBlock, Bool.not_eq_true', h, hi]
    by_cases hmoves : b.resolution.getD i [] = []
    · rw [if_pos hmoves, if_neg (by rw [hmoves]; decide)]
    · rw [if_neg hmoves, if_pos (isEmpty_eq_false_iff.mpr hmoves)]

/-- A branch back to a block without instructions reads the offset of an instruction that is not there. -/
def ReadsStale (cu : CompilationUnit) (src : Nat) (b : BasicBlock) (t : Nat) : Prop :=
  t ≤ src ∧ b.moves t = [] ∧ ∃ b', cu.blocks[t]? = some b' ∧ b'.insns = []

variable {t : Nat} {bc : Option UInt16}

theorem getElem?_blockOffsets (h : cu.blocks[t]? = some b') :
    (blockOffsets cu stale)[t]? = some (targetOffset cu stale (.block t)) := by
  rw [blockOffsets, getElem?_map, getElem?_bodies h, targetOffset_eq h]
  rfl

theorem resolveChunk_emitBranch (off : Nat) (type : BranchType) (target : Target)
    (hok : ∀ t, target = .block t → t < cu.blocks.length ∧ ¬ ReadsStale cu src b t) :
    (resolveChunk cu stale off (emitBranch cu stale (some (src, b)) ((blockOffsets cu stale).take (src + 1)) off type
      target)).bytes = branchBytes type (branchRelAddr off type (edgeOffset cu stale src b target)) := by
  cases target with
  | exit => rfl
  | block t =>
    obtain ⟨hlt, hstale⟩ := hok t rfl
    have ht := getElem?_eq_getElem hlt
    by_cases hmoves : b.moves t = []
    · simp only [emitBranch, edgeOffset, edgeResolution_eq, if_pos hmoves]
      by_cases hle : t ≤ src
      · have hne : ¬ cu.blocks[t].insns.isEmpty = true := fun hempty =>
          hstale ⟨hle, hmoves, _, ht, isEmpty_iff.mp hempty⟩
        rw [getElem?_take_of_lt (by omega), getElem?_blockOffsets ht]
        simp only [firstMachOffset, ht, if_neg hne]
        rfl
      · rw [getElem?_eq_none (by rw [length_take]; omega)]
        rfl
    · simp only [emitBranch, edgeOffset, edgeResolution_eq, if_neg hmoves]
      rfl

theorem resolveChunk_emitBranch_stale (h : ReadsStale cu src b t) (off : Nat) (type : BranchType) :
    (resolveChunk cu stale off (emitBranch cu stale (some (src, b)) ((blockOffsets cu stale).take (src + 1)) off type
      (.block t))).bytes = branchBytes type (branchRelAddr off type (stale t).toNat) := by
  obtain ⟨hle, hmoves, b', ht, hempty⟩ := h
  simp only [emitBranch, edgeResolution_eq, if_pos hmoves]
  rw [getElem?_take_of_lt (by omega), getElem?_blockOffsets ht]
  simp only [firstMachOffset, ht, hempty, isEmpty_nil, if_true]
  rfl

theorem getElem?_idxOf_of_moves (h : b.moves t ≠ []) :
    b.successors[b.successors.idxOf t]? = some t ∧ b.resolution.getD (b.successors.idxOf t) [] = b.moves t := by
  unfold BasicBlock.moves at *
  cases hi : b.lookupSuccessorIndex t with
  | none => simp only [hi, ne_eq, not_true_eq_false] at h
  | some i =>
    obtain ⟨hlt, rfl, -⟩ := idxOf?_eq_some_iff.mp hi
    have heq : b.successors.idxOf b.successors[i] = i := by
      rw [idxOf_eq_getD_idxOf?, show b.successors.idxOf? b.successors[i] = some i from hi, getD_some]
    rw [heq]
    exact ⟨getElem?_eq_getElem hlt, rfl⟩

theorem bytes_emitResolutionBlock {moves : List (List Byte)} (hmoves : moves ≠ [])
    (ht : cu.blocks[t]? = some b') : (emitResolutionBlock cu stale off (t, moves)).bytes = moves.flatten ++
      branchBytes .jmp (branchRelAddr (off + moves.flatten.length) .jmp
        (if b'.insns = [] then (stale t).toNat else targetOffset cu stale (.block t))) := by
  have hne : ¬ moves.isEmpty = true := fun hempty => hmoves (List.isEmpty_iff.mp hempty)
  rw [emitResolutionBlock, if_neg hne, emitBranch, edgeResolution, getElem?_blockOffsets ht]
  simp only [firstMachOffset, ht, EmittedResolution.bytes, Option.toList_some, List.flatMap_singleton, Chunk.bytes,
    List.isEmpty_iff]

theorem edgeOffset_le (h : cu.blocks[src]? = some b) {target : Target}
    (htarget : ∀ t, target = .block t → t < cu.blocks.length) :
    edgeOffset cu stale src b target ≤ (emitMachineCode cu stale).length := by
  cases target with
  | exit => exact (Nat.le_add_right _ _).trans (length_emitMachineCode cu stale)
  | block t =>
    have ht := getElem?_eq_getElem (htarget t rfl)
    by_cases hmoves : b.moves t = []
    · rw [edgeOffset, if_pos hmoves]
      exact targetOffset_le ht
    · obtain ⟨hi, heq⟩ := getElem?_idxOf_of_moves hmoves
      obtain ⟨rest, hrest⟩ := drop_resolutionOffset stale h hi
      rw [heq, bytes_emitResolutionBlock hmoves ht] at hrest
      rw [edgeOffset, if_neg hmoves]
      refine le_of_lt (lt_length_of_drop hrest ?_)
      exact append_ne_nil_of_right_ne_nil _ (append_ne_nil_of_right_ne_nil _ (by simp))

section

variable (h : cu.blocks[src]? = some b) (hsize : (emitMachineCode cu stale).length ≤ maxTextSize)

include h hsize

/-- A branch that reads no stale offset leads to its target, over the moves of its edge. -/
theorem leadsTo_branch {target : Target} (hinsns : b.insns = pre ++ ⟨bc, .branch type target⟩ :: post)
    (hstale : ∀ t, target = .block t → ¬ ReadsStale cu src b t) :
    leadsTo (emitMachineCode cu stale) (targetOffset cu stale (.block src) + insnsSize pre) type =
      some ↑(edgeOffset cu stale src b target) := by
  have hmem : (⟨bc, .branch type target⟩ : Insn) ∈ b.insns := by
    rw [hinsns]
    exact mem_append_right _ mem_cons_self
  have htarget t (heq : target = .block t) : t < cu.blocks.length :=
    cu.targets_lt b (mem_of_getElem? h) _ hmem type t (congrArg _ heq)
  obtain ⟨rest, hrest⟩ := drop_emitMachineCode stale h hinsns
  rw [emitKind, resolveChunk_emitBranch _ _ _ fun t heq => ⟨htarget t heq, hstale t heq⟩] at hrest
  exact leadsTo_branchRelAddr hrest hsize ((edgeOffset_le h htarget).trans hsize)

theorem leadsTo_branch_stale (hinsns : b.insns = pre ++ ⟨bc, .branch type (.block t)⟩ :: post)
    (hstale : ReadsStale cu src b t) (ht : (stale t).toNat ≤ maxTextSize) :
    leadsTo (emitMachineCode cu stale) (targetOffset cu stale (.block src) + insnsSize pre) type =
      some ↑(stale t).toNat := by
  obtain ⟨rest, hrest⟩ := drop_emitMachineCode stale h hinsns
  rw [emitKind, resolveChunk_emitBranch_stale hstale] at hrest
  exact leadsTo_branchRelAddr hrest hsize ht

/-- A resolution block holds its moves, and the jump behind them goes to what was read as the offset of its target. -/
theorem leadsTo_resolution {i t : Nat} (hi : b.successors[i]? = some t) (hmoves : b.resolution.getD i [] ≠ [])
    (ht : cu.blocks[t]? = some b') (hle : (stale t).toNat ≤ maxTextSize ∨ b'.insns ≠ []) :
    (b.resolution.getD i []).flatten ++ [BranchType.jmp.opc] <+:
        (emitMachineCode cu stale).drop (resolutionOffset cu stale src i) ∧
      leadsTo (emitMachineCode cu stale) (resolutionOffset cu stale src i + (b.resolution.getD i []).flatten.length) .jmp =
        some ↑(if b'.insns = [] then (stale t).toNat else targetOffset cu stale (.block t)) := by
  obtain ⟨rest, hrest⟩ := drop_resolutionOffset stale h hi
  rw [bytes_emitResolutionBlock hmoves ht, append_assoc] at hrest
  constructor
  · rw [hrest]
    exact prefix_append_right_inj _ |>.mpr ⟨_, rfl⟩
  · have hjump := drop_of_eq_append hrest rfl
    rw [drop_drop] at hjump
    refine leadsTo_branchRelAddr hjump hsize ?_
    split_ifs with hempty
    · exact hle.resolve_right (not_not_intro hempty)
    · exact (targetOffset_le ht).trans hsize

end

theorem backpatchSwitch_eq {s : Switch} (h : cu.blocks[s.src]? = some b) (t : Nat) :
    backpatchSwitch cu stale s t = edgeOffset cu stale s.src b (.block t) := by
  rw [backpatchSwitch, h, map_some, edgeResolution_eq, edgeOffset]
  split_ifs <;> rfl

variable (stale) in
theorem targetOffset_pos (h : cu.blocks[src]? = some b) : 0 < targetOffset cu stale (.block src) := by
  rw [targetOffset_eq h]
  exact Nat.add_pos_left (length_pos_iff.mpr cu.prolog_ne) _

end

/-! ## Compilation units -/

section

variable {cu : CompilationUnit}

/-- The block behind the last instruction of a block is what the edge leads to exactly if the edge has no moves. -/
theorem next_iff {stale : Nat → UInt32} {b : BasicBlock} (h : cu.blocks[src]? = some b) (hlt : src + 1 < cu.blocks.length) :
    (let off := targetOffset cu stale (.block src) + insnsSize b.insns
    traceNop cu <+: (emitMachineCode cu stale).drop off ∧
      off + (traceNop cu).length = edgeOffset cu stale src b (.block (src + 1))) ↔ b.moves (src + 1) = [] := by
  simp only [← targetOffset_succ h hlt, edgeOffset]
  constructor
  · rintro ⟨-, heq⟩
    by_contra hmoves
    rw [if_neg hmoves] at heq
    have hbehind := exitOffset_lt_resolutionOffset stale h (getElem?_idxOf_of_moves hmoves).1
    have hle : _ ≤ exitOffset cu stale := targetOffset_le_exitOffset (getElem?_eq_getElem hlt)
    omega
  · intro hmoves
    rw [if_pos hmoves]
    exact ⟨drop_insns h, rfl⟩

/-- **Emitted code** is right, whatever is read in place of the first instruction of a block without instructions,
exactly if no branch goes back to such a block, no resolution block belongs to an edge to one, and no edge with moves
leads to the next block by just going on. -/
theorem emitCorrect_iff (hsize : ∀ stale, (emitMachineCode cu stale).length ≤ maxTextSize) :
    (∀ stale, EmitCorrect cu stale) ↔
      (∀ (src : Nat) (b : BasicBlock), cu.blocks[src]? = some b → ∀ insn ∈ b.insns, ∀ type t,
        insn.kind = .branch type (.block t) → ¬ ReadsStale cu src b t) ∧
      (∀ (src : Nat) (b : BasicBlock), cu.blocks[src]? = some b → ∀ i t : Nat, b.successors[i]? = some t →
        b.resolution.getD i [] ≠ [] → ∀ b' : BasicBlock, cu.blocks[t]? = some b' → b'.insns ≠ []) ∧
      ∀ (src : Nat) (b : BasicBlock), cu.blocks[src]? = some b → b.goesOn → src + 1 < cu.blocks.length → b.moves (src + 1) = [] := by
  constructor
  · intro h
    -- a stale offset of zero lies in the prolog, so it is not the offset of a block
    have hcorrect := h fun _ => 0
    refine ⟨?_, ?_, fun src b hb hgoes hlt => (next_iff hb hlt).mp (hcorrect.next src b hb hgoes hlt)⟩
    · rintro src b hb ⟨bc, kind⟩ hinsn type t rfl hstale
      obtain ⟨pre, post, hinsns⟩ := append_of_mem hinsn
      have hlead := hcorrect.branches src b hb pre bc type (.block t) post hinsns
      rw [leadsTo_branch_stale hb (hsize _) hinsns hstale (Nat.zero_le _)] at hlead
      obtain ⟨-, hmoves, b', ht, -⟩ := hstale
      rw [edgeOffset, if_pos hmoves, some_inj, Int.ofNat_inj] at hlead
      exact (targetOffset_pos _ ht).ne hlead
    · intro src b hb i t hi hmoves b' ht hempty
      have hlead := (hcorrect.resolutions src b hb i t hi hmoves).2
      rw [(leadsTo_resolution hb (hsize _) hi hmoves ht (.inl (Nat.zero_le _))).2, if_pos hempty,
        some_inj, Int.ofNat_inj] at hlead
      exact (targetOffset_pos _ ht).ne hlead
  · rintro ⟨hstale, hresolution, hnext⟩ stale
    refine ⟨?_, ?_, ?_, fun src b hb hgoes hlt => (next_iff hb hlt).mpr (hnext src b hb hgoes hlt)⟩
    · intro src b hb pre bc type target post hinsns
      refine leadsTo_branch hb (hsize stale) hinsns ?_
      rintro t rfl
      exact hstale src b hb _ (hinsns ▸ mem_append_right _ mem_cons_self) type t rfl
    · intro src b hb i t hi hmoves
      have ht := getElem?_eq_getElem
        (cu.successors_lt b (mem_of_getElem? hb) t (mem_of_getElem? hi))
      have hne := hresolution src b hb i t hi hmoves _ ht
      have hlead := leadsTo_resolution hb (hsize stale) hi hmoves ht (.inr hne)
      rwa [if_neg hne] at hlead
    · exact fun s _ b hb t _ => backpatchSwitch_eq hb t

end

/-- A loop around a block that is entered over a move. -/
def movedLoop : CompilationUnit where
  prolog := [0x55]
  blocks := [⟨[⟨some 0, .other [0x90] true⟩, ⟨some 1, .branch .je (.block 0)⟩, ⟨some 4, .branch .jmp .exit⟩], [0],
    [[[0x48, 0x89, 0xc3]]]⟩]
  exitCode := [0xc3]
  unwindCode := [0xc3]
  switches := [⟨0, [0]⟩]
  traceMachineCode := false
  prolog_ne := nofun
  exitCode_ne := nofun
  resolution_length := by decide
  successors_lt := by decide
  targets_lt := by simp
  switches_mem := by simp

theorem emitCorrect_movedLoop : EmitCorrect movedLoop fun _ => 0 := by
  have hblock {src : Nat} {b} (h : movedLoop.blocks[src]? = some b) : src = 0 ∧ b.insns ≠ [] := by
    cases src with
    | zero =>
      cases h
      exact ⟨rfl, nofun⟩
    | succ src => cases h
  refine (emitCorrect_iff fun stale => ?_).mpr ⟨?_, ?_, ?_⟩ _
  · calc (emitMachineCode movedLoop stale).length = 23 := rfl
      _ ≤ maxTextSize := by decide
  · rintro src b - insn - type t - ⟨-, -, b', ht, hempty⟩
    exact (hblock ht).2 hempty
  · exact fun _ _ _ _ _ _ _ b' ht => (hblock ht).2
  · intro src b hb _ hlt
    cases (hblock hb).1
    exact absurd hlt (by decide)

/-- A block without instructions and a jump back to it. -/
def emptyLoop : CompilationUnit where
  prolog := [0x55]
  blocks := [⟨[], [1], [[]]⟩, ⟨[⟨some 1, .branch .jmp (.block 0)⟩], [0], [[]]⟩]
  exitCode := [0xc3]
  unwindCode := [0xc3]
  switches := []
  traceMachineCode := false
  prolog_ne := nofun
  exitCode_ne := nofun
  resolution_length := by decide
  successors_lt := by decide
  targets_lt := by simp
  switches_mem := nofun

/-- The jump goes to whatever offset lies in the memory before the list head of the block: here to offset 7, not to
offset 1. -/
theorem not_emitCorrect_emptyLoop : ¬ EmitCorrect emptyLoop fun _ => 7 := by
  intro h
  have hlead := h.branches 1 _ rfl [] (some 1) .jmp (.block 0) [] rfl
  revert hlead
  decide

end Jato.Jit.Emit
