import Jato.Jit.Emit

/-!
# Bytecode offsets of machine code

`build_bc_offset_map` of `jit/bc-offset-mapping.c`. Each instruction writes its bytecode offset at its own offset in the
code, and the bytecode offset of the instruction before it at the byte in front of it. That byte is the last one of the
instruction before it unless that one has no bytes, and nothing is written behind the last instruction.
`getElem?_lastByte` says what the last byte of an instruction is mapped to, and `bcOffsetMapCorrect_iff` for which
sequences of instructions the map is right.
-/

namespace Jato.Jit.Emit

open Jato.Lib List
open Jato.Lib.X86 (Byte)

/-! ## The map -/

/-- An unknown offset is `none`. -/
abbrev BcOffsetMap : Type := List (Option UInt16)

/-- A write outside the map fails. -/
def BcOffsetMap.write (map : BcOffsetMap) (i : Nat) (bc : Option UInt16) : Option BcOffsetMap :=
  if i < map.length then some (map.set i bc) else none

/-- The body of the loop: the instruction and its offset in the code. -/
def recordInsn (map : BcOffsetMap) (prevInsn : Option Insn) (machOffset : Nat) (insn : Insn) : Option BcOffsetMap := do
  let map ← match prevInsn with
    | some prev => if machOffset = 0 then none else map.write (machOffset - 1) prev.bcOffset
    | none => some map
  map.write machOffset insn.bcOffset

def recordInsns (map : BcOffsetMap) (prevInsn : Option Insn) : List (Nat × Insn) → Option BcOffsetMap
  | [] => some map
  | (machOffset, insn) :: rest => do
    let map ← recordInsn map prevInsn machOffset insn
    recordInsns map (some insn) rest

section

variable (cu : CompilationUnit) (stale : Nat → UInt32)

/-- The emitted instructions of all blocks. -/
def emittedInsns : List Emitted := (bodies cu stale).flatMap (·.insns)

def buildBcOffsetMap : Option BcOffsetMap :=
  recordInsns (List.replicate (emitMachineCode cu stale).length none) none
    ((emittedInsns cu stale).map fun e => (e.machOffset, e.insn))

/-- The first and the last byte of every instruction with bytes are mapped to its bytecode offset. -/
def BcOffsetMapCorrect : Prop :=
  ∃ map, buildBcOffsetMap cu stale = some map ∧ ∀ e ∈ emittedInsns cu stale, 0 < e.chunk.bytes.length →
    map[e.machOffset]? = some e.insn.bcOffset ∧
    map[e.machOffset + e.chunk.bytes.length - 1]? = some e.insn.bcOffset

end

/-! ## One entry of the map -/

/-- What the body of the loop leaves in the entry `i` that held `v` before. -/
def entryStep (i : Nat) (v : Option UInt16) (prevInsn : Option Insn) (machOffset : Nat) (insn : Insn) : Option UInt16 :=
  if machOffset = i then insn.bcOffset
  else if machOffset = i + 1 then (prevInsn.map (·.bcOffset)).getD v
  else v

def entryAfter (i : Nat) (v : Option UInt16) (prevInsn : Option Insn) : List (Nat × Insn) → Option UInt16
  | [] => v
  | (machOffset, insn) :: rest => entryAfter i (entryStep i v prevInsn machOffset insn) (some insn) rest

variable {map : BcOffsetMap} {pre post : List (Option Insn)} {insn : Insn} {emitted : List Nat} {src : Nat}

theorem write_eq_some {i : Nat} (h : i < map.length) (bc : Option UInt16) :
    ∃ map', map.write i bc = some map' ∧ map'.length = map.length ∧
      ∀ j v, map[j]? = some v → map'[j]? = some (if i = j then bc else v) := by
  refine ⟨map.set i bc, if_pos h, length_set, fun j v hv => ?_⟩
  rw [getElem?_set]
  split_ifs with hij
  · rfl
  · exact hv

variable (prevInsn : Option Insn) (insn : Insn) in
theorem recordInsn_eq {machOffset : Nat} (hpos : 0 < machOffset) (hlt : machOffset < map.length) :
    ∃ map', recordInsn map prevInsn machOffset insn = some map' ∧ map'.length = map.length ∧
      ∀ i v, map[i]? = some v → map'[i]? = some (entryStep i v prevInsn machOffset insn) := by
  cases prevInsn with
  | none =>
    obtain ⟨map', hmap', hlen, hentry⟩ := write_eq_some hlt insn.bcOffset
    refine ⟨map', hmap', hlen, fun i v hv => (hentry i v hv).trans ?_⟩
    simp [entryStep]
  | some prev =>
    obtain ⟨map₁, h₁, hlen₁, hentry₁⟩ := write_eq_some (lt_of_le_of_lt (Nat.sub_le _ 1) hlt) prev.bcOffset
    obtain ⟨map₂, h₂, hlen₂, hentry₂⟩ := write_eq_some (hlen₁ ▸ hlt) insn.bcOffset
    refine ⟨map₂, ?_, hlen₂.trans hlen₁, fun i v hv => (hentry₂ i _ (hentry₁ i v hv)).trans ?_⟩
    · simp only [recordInsn, if_neg hpos.ne', h₁]
      exact h₂
    · have hiff : machOffset - 1 = i ↔ machOffset = i + 1 := by omega
      simp [entryStep, hiff]

theorem recordInsns_eq {l : List (Nat × Insn)} {prevInsn : Option Insn} (h : ∀ p ∈ l, 0 < p.1 ∧ p.1 < map.length) :
    ∃ map', recordInsns map prevInsn l = some map' ∧
      ∀ i v, map[i]? = some v → map'[i]? = some (entryAfter i v prevInsn l) := by
  induction l generalizing map prevInsn with
  | nil => exact ⟨map, rfl, fun i v hv => hv⟩
  | cons p l ih =>
    obtain ⟨machOffset, insn⟩ := p
    obtain ⟨hpos, hlt⟩ := h _ mem_cons_self
    obtain ⟨map₁, h₁, hlen, hentry⟩ := recordInsn_eq prevInsn insn hpos hlt
    have hrest : ∀ p ∈ l, 0 < p.1 ∧ p.1 < map₁.length := fun p hp => hlen ▸ h p (mem_cons_of_mem _ hp)
    obtain ⟨map₂, h₂, hentry₂⟩ := ih hrest
    refine ⟨map₂, ?_, fun i v hv => hentry₂ i _ (hentry i v hv)⟩
    rw [recordInsns, h₁]
    exact h₂

/-! ## What lies in the code -/

/-- What the bodies of the blocks consist of: instructions, and a `nop` behind each block if machine code is traced. -/
def pieces (cu : CompilationUnit) : List (Option Insn) :=
  cu.blocks.flatMap fun b => b.insns.map some ++ (traceNop cu).map fun _ => none

def pieceSize : Option Insn → Nat
  | some insn => insn.kind.size
  | none => 1

/-- The instructions with their offsets. -/
def place : Nat → List (Option Insn) → List (Nat × Insn)
  | _, [] => []
  | off, some insn :: ps => (off, insn) :: place (off + insn.kind.size) ps
  | off, none :: ps => place (off + 1) ps

variable (ps : List (Option Insn))

theorem place_append (off : Nat) (qs : List (Option Insn)) :
    place off (ps ++ qs) = place off ps ++ place (off + (ps.map pieceSize).sum) qs := by
  induction ps generalizing off with
  | nil => rfl
  | cons p ps ih =>
    cases p with
    | none => rw [cons_append, place, place, ih, map_cons, sum_cons, pieceSize, add_assoc]
    | some insn =>
      rw [cons_append, place, place, ih, map_cons, sum_cons, pieceSize, add_assoc, cons_append]

theorem mem_place {off o : Nat} {k : Insn} {ps : List (Option Insn)} :
    (o, k) ∈ place off ps ↔ ∃ pre post, ps = pre ++ some k :: post ∧ o = off + (pre.map pieceSize).sum := by
  constructor
  · intro h
    induction ps generalizing off with
    | nil => exact absurd h not_mem_nil
    | cons p ps ih =>
      cases p with
      | none =>
        obtain ⟨pre, post, rfl, rfl⟩ := ih h
        refine ⟨none :: pre, post, rfl, ?_⟩
        rw [map_cons, sum_cons, pieceSize, add_assoc]
      | some insn =>
        rcases mem_cons.mp h with h | h
        · cases h
          exact ⟨[], ps, rfl, rfl⟩
        · obtain ⟨pre, post, rfl, rfl⟩ := ih h
          refine ⟨some insn :: pre, post, rfl, ?_⟩
          rw [map_cons, sum_cons, pieceSize, add_assoc]
  · rintro ⟨pre, post, rfl, rfl⟩
    rw [place_append]
    exact mem_append_right _ mem_cons_self

/-! ## Entries behind and before the instructions -/

section

variable {i off : Nat} {v : Option UInt16} {prevInsn : Option Insn}

theorem entryAfter_of_lt (h : i + 1 < off) : entryAfter i v prevInsn (place off ps) = v := by
  induction ps generalizing off prevInsn with
  | nil => rfl
  | cons p ps ih =>
    cases p with
    | none => exact ih (Nat.lt_succ_of_lt h)
    | some insn =>
      have hstep : entryStep i v prevInsn off insn = v := by
        rw [entryStep, if_neg (by omega), if_neg (by omega)]
      rw [place, entryAfter, hstep]
      exact ih (Nat.lt_add_right _ h)

variable (i off v prevInsn) in
/-- Pieces before an instruction: what they write lies at most at its offset. -/
theorem entryAfter_place_append (pre ps : List (Option Insn)) :
    ∃ v' prev', entryAfter i v prevInsn (place off (pre ++ ps)) =
        entryAfter i v' prev' (place (off + (pre.map pieceSize).sum) ps) ∧
      (off + (pre.map pieceSize).sum < i → v' = v) := by
  induction pre generalizing off v prevInsn with
  | nil => exact ⟨v, prevInsn, rfl, fun _ => rfl⟩
  | cons p pre ih =>
    rw [map_cons, sum_cons, ← add_assoc]
    cases p with
    | none => exact ih _ _ _
    | some insn =>
      obtain ⟨v', prev', heq, hv'⟩ := ih (off + insn.kind.size) (entryStep i v prevInsn off insn) (some insn)
      refine ⟨v', prev', heq, fun hlt => (hv' hlt).trans ?_⟩
      rw [entryStep, if_neg (by omega), if_neg (by omega)]

/-- The instructions that lie where the pieces start: those without bytes, and the first one with bytes. -/
def atStart : List (Option Insn) → List Insn
  | some insn :: ps => if insn.kind.size = 0 then insn :: atStart ps else [insn]
  | _ => []

/-- The instruction whose bytecode offset is written last in front of the pieces behind `insn`. -/
def lastWriter (insn : Insn) (ps : List (Option Insn)) : Option Insn := (insn :: atStart ps).dropLast.getLast?

theorem entryAfter_place_succ (prev : Insn) :
    entryAfter i v (some prev) (place (i + 1) ps) = ((lastWriter prev ps).map (·.bcOffset)).getD v := by
  induction ps generalizing prev v with
  | nil => rfl
  | cons p ps ih =>
    cases p with
    | none => exact entryAfter_of_lt ps (Nat.lt_succ_self _)
    | some insn =>
      have hstep : entryStep i v (some prev) (i + 1) insn = prev.bcOffset := by
        rw [entryStep, if_neg (Nat.succ_ne_self i), if_pos rfl]
        rfl
      rw [place, entryAfter, hstep, lastWriter, atStart]
      by_cases hsize : insn.kind.size = 0
      · rw [if_pos hsize, hsize, add_zero, ih, lastWriter]
        cases atStart ps with
        | nil => rfl
        | cons a l =>
          rw [dropLast_cons_cons, dropLast_cons_cons, dropLast_cons_cons, getLast?_cons_cons,
            getLast?_cons]
          rfl
      · rw [if_neg hsize]
        exact entryAfter_of_lt ps (by omega)

theorem entryAfter_last (hsize : 0 < insn.kind.size) (hi : i = off + (pre.map pieceSize).sum + insn.kind.size - 1) :
    entryAfter i none none (place off (pre ++ some insn :: post)) =
      ((lastWriter insn post).map (·.bcOffset)).getD (if insn.kind.size = 1 then insn.bcOffset else none) := by
  obtain ⟨v', prev', heq, hv'⟩ := entryAfter_place_append i off none none pre (some insn :: post)
  have hnext : off + (pre.map pieceSize).sum + insn.kind.size = i + 1 := by omega
  have hstep : entryStep i v' prev' (off + (pre.map pieceSize).sum) insn =
      if insn.kind.size = 1 then insn.bcOffset else none := by
    by_cases hone : insn.kind.size = 1
    · rw [entryStep, if_pos (by omega), if_pos hone]
    · rw [entryStep, if_neg (by omega), if_neg (by omega), if_neg hone, hv' (by omega)]
  rw [heq, place, entryAfter, hstep, hnext, entryAfter_place_succ]

theorem entryAfter_first (hsize : 1 < insn.kind.size) (hi : i = off + (pre.map pieceSize).sum) :
    entryAfter i none none (place off (pre ++ some insn :: post)) = insn.bcOffset := by
  obtain ⟨v', prev', heq, -⟩ := entryAfter_place_append i off none none pre (some insn :: post)
  rw [heq, place, entryAfter, entryStep, if_pos hi.symm]
  exact entryAfter_of_lt post (by omega)

end

section

variable {cu : CompilationUnit} {stale : Nat → UInt32}

variable (insns : List Insn) (nops : List Byte) (bs : List BasicBlock)

theorem map_emitInsns {bb : Option (Nat × BasicBlock)} {off : Nat} :
    (emitInsns cu stale bb emitted off insns).map (fun e => (e.machOffset, e.insn)) = place off (insns.map some) := by
  induction insns generalizing off with
  | nil => rfl
  | cons insn insns ih =>
    rw [emitInsns_cons, map_cons, ih]
    rfl

theorem place_nops (off : Nat) : place off (nops.map fun _ => none) = [] := by
  induction nops generalizing off with
  | nil => rfl
  | cons nop nops ih => exact ih _

theorem sum_pieceSize :
    ((insns.map some ++ nops.map fun _ => none).map pieceSize).sum = insnsSize insns + nops.length := by
  rw [map_append, sum_append, map_map, map_map]
  refine congrArg₂ (· + ·) rfl ?_
  simp [Function.comp_def, pieceSize]

theorem length_emitBody (b : BasicBlock) :
    (emitBody cu stale src b emitted off).bytes.length = insnsSize b.insns + (traceNop cu).length := by
  rw [EmittedBlock.bytes, length_append, emitBody, length_emitInsns]

theorem map_emitBodies :
    ((emitBodies cu stale src emitted off bs).flatMap (·.insns)).map (fun e => (e.machOffset, e.insn)) =
      place off (bs.flatMap fun b => b.insns.map some ++ (traceNop cu).map fun _ => none) := by
  induction bs generalizing src off emitted with
  | nil => rfl
  | cons b bs ih =>
    rw [emitBodies, flatMap_cons, map_append, ih, length_emitBody, emitBody, map_emitInsns, flatMap_cons,
      place_append, sum_pieceSize, place_append, place_nops, append_nil]

theorem map_emittedInsns : (emittedInsns cu stale).map (fun e => (e.machOffset, e.insn)) =
    place cu.prolog.length (pieces cu) := map_emitBodies cu.blocks

theorem length_of_mem_emitBodies {bs : List BasicBlock} {body : EmittedBlock}
    {e : Emitted} (hbody : body ∈ emitBodies cu stale src emitted off bs) (he : e ∈ body.insns) :
    e.chunk.bytes.length = e.insn.kind.size := by
  induction bs generalizing src off emitted with
  | nil => exact absurd hbody not_mem_nil
  | cons b bs ih =>
    rcases mem_cons.mp hbody with rfl | hbody
    · obtain ⟨off', insn, -, rfl⟩ := mem_layout he
      exact length_emitKind insn.kind
    · exact ih hbody

theorem length_emitBodies :
    ((emitBodies cu stale src emitted off bs).flatMap EmittedBlock.bytes).length =
      ((bs.flatMap fun b => b.insns.map some ++ (traceNop cu).map fun _ => none).map pieceSize).sum := by
  induction bs generalizing src off emitted with
  | nil => rfl
  | cons b bs ih =>
    rw [emitBodies, flatMap_cons, length_append, ih, length_emitBody, flatMap_cons, map_append,
      sum_append, sum_pieceSize]

variable (stale) in
/-- The instructions are emitted behind the prolog and before the exit block. -/
theorem place_lt {off : Nat} (h : (off, insn) ∈ place cu.prolog.length (pieces cu)) :
    0 < off ∧ off + insn.kind.size < (emitMachineCode cu stale).length := by
  obtain ⟨pre, post, hpieces, rfl⟩ := mem_place.mp h
  have hprolog := length_pos_iff.mpr cu.prolog_ne
  have hexit := length_pos_iff.mpr cu.exitCode_ne
  have htail : cu.exitCode.length ≤ (tailBytes cu).length := by
    simp only [tailBytes, length_append]
    omega
  have hbodies : (bodiesBytes cu stale).length = ((pieces cu).map pieceSize).sum := length_emitBodies cu.blocks
  rw [hpieces, map_append, sum_append, map_cons, sum_cons, pieceSize] at hbodies
  have hlen := length_emitMachineCode cu stale
  rw [exitOffset] at hlen
  omega

/-- The map is built, and the entries of the first and the last byte of an instruction are these. -/
theorem getElem?_buildBcOffsetMap (cu : CompilationUnit) (stale : Nat → UInt32) :
    ∃ map, buildBcOffsetMap cu stale = some map ∧ ∀ pre insn post, pieces cu = pre ++ some insn :: post →
      0 < insn.kind.size → map[cu.prolog.length + (pre.map pieceSize).sum + insn.kind.size - 1]? =
        some (((lastWriter insn post).map (·.bcOffset)).getD (if insn.kind.size = 1 then insn.bcOffset else none)) ∧
      (1 < insn.kind.size → map[cu.prolog.length + (pre.map pieceSize).sum]? = some insn.bcOffset) := by
  obtain ⟨n, hn⟩ : ∃ n, (emitMachineCode cu stale).length = n := ⟨_, rfl⟩
  have hplace : ∀ p ∈ place cu.prolog.length (pieces cu),
      0 < p.1 ∧ p.1 < (List.replicate n (none : Option UInt16)).length := by
    rintro ⟨off, insn⟩ hp
    obtain ⟨hpos, hlt⟩ := place_lt stale hp
    rw [length_replicate]
    omega
  obtain ⟨map, hmap, hentry⟩ := recordInsns_eq hplace
  refine ⟨map, ?_, ?_⟩
  · rw [buildBcOffsetMap, map_emittedInsns, hn]
    exact hmap
  · intro pre insn post hpieces hsize
    obtain ⟨-, hlt⟩ := place_lt stale (mem_place.mpr ⟨pre, post, hpieces, rfl⟩)
    have hinit i (hi : i < n) : (List.replicate n (none : Option UInt16))[i]? = some none := by
      rw [getElem?_replicate, if_pos hi]
    rw [hpieces] at hentry
    constructor
    · rw [hentry _ none (hinit _ (by omega)), entryAfter_last hsize rfl]
    · intro hone
      rw [hentry _ none (hinit _ (by omega)), entryAfter_first hone rfl]

theorem mem_emittedInsns {e : Emitted} (h : e ∈ emittedInsns cu stale) :
    e.chunk.bytes.length = e.insn.kind.size ∧ ∃ pre post, pieces cu = pre ++ some e.insn :: post ∧
      e.machOffset = cu.prolog.length + (pre.map pieceSize).sum := by
  obtain ⟨body, hbody, he⟩ := mem_flatMap.mp h
  refine ⟨length_of_mem_emitBodies hbody he, mem_place.mp ?_⟩
  rw [← map_emittedInsns]
  exact mem_map_of_mem h

variable (stale) in
theorem exists_emitted {insn : Insn} (h : pieces cu = pre ++ some insn :: post) :
    ∃ e ∈ emittedInsns cu stale, e.insn = insn ∧ e.machOffset = cu.prolog.length + (pre.map pieceSize).sum := by
  obtain ⟨off, hoff⟩ : ∃ off, off = cu.prolog.length + (pre.map pieceSize).sum := ⟨_, rfl⟩
  have hmem := mem_place.mpr ⟨pre, post, h, hoff⟩
  rw [← map_emittedInsns] at hmem
  obtain ⟨e, he, heq⟩ := mem_map.mp hmem
  cases heq
  exact ⟨e, he, rfl, hoff⟩

theorem lastEntry_eq_iff (insn : Insn) (post : List (Option Insn)) :
    ((lastWriter insn post).map (·.bcOffset)).getD (if insn.kind.size = 1 then insn.bcOffset else none) = insn.bcOffset ↔
      match lastWriter insn post with
      | some writer => writer.bcOffset = insn.bcOffset
      | none => insn.kind.size = 1 ∨ insn.bcOffset = none := by
  cases lastWriter insn post with
  | some writer => rfl
  | none =>
    rw [Option.map_none, Option.getD_none]
    split_ifs with hone
    · exact iff_of_true rfl (.inl hone)
    · rw [eq_comm, or_iff_right hone]

/-- **The map** is right exactly if, for every instruction with bytes, the last entry that is written for its last byte is
its own: the last instruction but one of those that lie at its end and itself has its bytecode offset; where nothing lies
at its end, it has a single byte or no bytecode offset. -/
theorem bcOffsetMapCorrect_iff (cu : CompilationUnit) (stale : Nat → UInt32) : BcOffsetMapCorrect cu stale ↔
    ∀ pre insn post, pieces cu = pre ++ some insn :: post → 0 < insn.kind.size →
      match lastWriter insn post with
      | some writer => writer.bcOffset = insn.bcOffset
      | none => insn.kind.size = 1 ∨ insn.bcOffset = none := by
  obtain ⟨map, hmap, hentry⟩ := getElem?_buildBcOffsetMap cu stale
  constructor
  · rintro ⟨map', hmap', hcorrect⟩ pre insn post hpieces hsize
    cases hmap.symm.trans hmap'
    obtain ⟨e, he, rfl, hoff⟩ := exists_emitted stale hpieces
    have hlen := (mem_emittedInsns he).1
    have hlast := (hcorrect e he (hlen ▸ hsize)).2
    rw [hlen, hoff, (hentry pre e.insn post hpieces hsize).1] at hlast
    exact (lastEntry_eq_iff e.insn post).mp (Option.some_inj.mp hlast)
  · intro h
    refine ⟨map, hmap, fun e he hsize => ?_⟩
    obtain ⟨hlen, pre, post, hpieces, hoff⟩ := mem_emittedInsns he
    rw [hlen] at hsize ⊢
    obtain ⟨hlast, hfirst⟩ := hentry pre e.insn post hpieces hsize
    rw [(lastEntry_eq_iff e.insn post).mpr (h pre e.insn post hpieces hsize), ← hoff] at hlast
    refine ⟨?_, hlast⟩
    -- the only byte of an instruction is both
    rcases Nat.lt_or_ge 1 e.insn.kind.size with hone | hone
    · rw [hoff]
      exact hfirst hone
    · rwa [show e.machOffset + e.insn.kind.size - 1 = e.machOffset by omega] at hlast

end

/-- Two calls, of bytecodes 0 and 3, with the pseudo instructions that restore and save the registers between them. -/
def twoCalls : CompilationUnit where
  prolog := [0x55]
  blocks := [⟨[⟨some 0, .other [0xe8, 0, 0, 0, 0] true⟩, ⟨some 0, .other [] true⟩, ⟨some 3, .other [] true⟩,
    ⟨some 3, .other [0xe8, 0, 0, 0, 0] true⟩, ⟨some 6, .other [0xc3] false⟩], [], []⟩]
  exitCode := [0xc3]
  unwindCode := [0xc3]
  switches := []
  traceMachineCode := false
  prolog_ne := by decide
  exitCode_ne := by decide
  resolution_length := by decide
  successors_lt := by decide
  targets_lt := by
    simp only [mem_cons, not_mem_nil, or_false, forall_eq, forall_eq_or_imp, reduceCtorEq, false_implies, implies_true,
      and_self]
  switches_mem := by decide

/-- The last byte of the first call is mapped to the bytecode of the second one. -/
theorem not_bcOffsetMapCorrect_twoCalls : ¬ BcOffsetMapCorrect twoCalls fun _ => 0 := by
  rintro ⟨map, hmap, hcorrect⟩
  cases hmap
  have hfirst := (hcorrect ⟨⟨some 0, .other [0xe8, 0, 0, 0, 0] true⟩, 1, .raw [0xe8, 0, 0, 0, 0]⟩
    mem_cons_self (by decide)).2
  revert hfirst
  decide

end Jato.Jit.Emit
