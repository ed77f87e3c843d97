import Jato.Lib.Tiling

/-!
# Basic blocks

The blocks of a compilation unit and their edges, as in `jit/basic-block.c`: `bb_split`, `bb_add_successor` and `find_bb`.

A unit is well formed (`CompilationUnit.WellFormed`) if the blocks of its list tile the code and each edge is recorded at
both of its ends. Cutting a block at a position inside it and adding an edge between two blocks keep a unit well formed
(`WellFormed.bbSplit`, `WellFormed.bbAddSuccessor`).
-/

namespace Jato.Jit.Flow

open Jato.Lib List Function

/-- A basic block; the neighbours are numbers of blocks. -/
structure BasicBlock where
  start : Nat
  /-- The field `end`. -/
  stop : Nat
  hasBranch : Bool := false
  hasReturn : Bool := false
  hasAthrow : Bool := false
  /-- Branch target offset in bytecode insns. -/
  brTargetOff : Nat := 0
  isEh : Bool := false
  successors : List Nat := []
  predecessors : List Nat := []
deriving DecidableEq, Repr

/-- Pointers to blocks are numbers, in the order of allocation, so that the next block is number `nrBb`. -/
structure CompilationUnit where
  nrBb : Nat
  block : Nat → BasicBlock
  bbList : List Nat

def CompilationUnit.updateBlock (cu : CompilationUnit) (b : Nat) (f : BasicBlock → BasicBlock) : CompilationUnit :=
  { cu with block := update cu.block b (f (cu.block b)) }

/-- A unit with one block that holds all of the code: `get_basic_block(cu, 0, code_length)`. -/
def entryUnit (codeLength : Nat) : CompilationUnit where
  nrBb := 1
  block := fun _ => { start := 0, stop := codeLength }
  bbList := [0]

def findBb (cu : CompilationUnit) (offset : Nat) : Option Nat :=
  cu.bbList.find? fun b => (cu.block b).start ≤ offset && offset < (cu.block b).stop

def bbAddSuccessor (cu : CompilationUnit) (bb successor : Nat) : CompilationUnit :=
  (cu.updateBlock successor fun s => { s with predecessors := s.predecessors ++ [bb] }).updateBlock bb
    fun b => { b with successors := b.successors ++ [successor] }

def bbSuccessorsContains (cu : CompilationUnit) (bb lookupBb : Nat) : Bool := (cu.block bb).successors.contains lookupBb

/-- `new` instead of `orig` among the predecessors. -/
def renamePredecessor (orig new : Nat) (bb : BasicBlock) : BasicBlock :=
  { bb with predecessors := bb.predecessors.map fun p => if p = orig then new else p }

/-- The lower half of a block that is split. -/
def lowerHalf (bb : BasicBlock) (offset : Nat) : BasicBlock where
  start := offset
  stop := bb.stop
  successors := bb.successors
  hasBranch := bb.hasBranch
  brTargetOff := if bb.hasBranch then bb.brTargetOff else 0
  hasReturn := bb.hasReturn

/-- What is left of the block. -/
def upperHalf (bb : BasicBlock) (offset : Nat) : BasicBlock :=
  { bb with
    stop := offset
    successors := []
    hasBranch := false
    brTargetOff := if bb.hasBranch then 0 else bb.brTargetOff
    hasReturn := false }

/-- The blocks with the two halves of `orig` in their places. -/
def halves (cu : CompilationUnit) (orig offset : Nat) : Nat → BasicBlock :=
  update (update cu.block orig (upperHalf (cu.block orig) offset)) cu.nrBb
    (lowerHalf (cu.block orig) offset)

/-- Splits the block in two; the number of the new one is returned with the unit. -/
def bbSplit (cu : CompilationUnit) (orig offset : Nat) : Option (CompilationUnit × Nat) :=
  let bb := cu.block orig
  if offset < bb.start ∨ bb.stop < offset then none
  else
    let new := cu.nrBb
    let cu : CompilationUnit := ⟨new + 1, halves cu orig offset, insertAfter orig new cu.bbList⟩
    some (bb.successors.foldl (fun cu s => cu.updateBlock s (renamePredecessor orig new)) cu, new)

/-! ## What the operations do -/

section Operations

variable {cu cu' : CompilationUnit} {orig offset new b c : Nat}

theorem updateBlock_block (f : BasicBlock → BasicBlock) (c : Nat) :
    (cu.updateBlock b f).block c = if c = b then f (cu.block c) else cu.block c := by
  simp only [CompilationUnit.updateBlock, update_apply]
  split
  · rename_i h
    rw [h]
  · rfl

theorem renamePredecessor_idem (orig new : Nat) (bb : BasicBlock) :
    renamePredecessor orig new (renamePredecessor orig new bb) = renamePredecessor orig new bb := by
  simp only [renamePredecessor, map_map, BasicBlock.mk.injEq, map_inj_left, comp_apply, true_and]
  intro p _
  split
  · split <;> rfl
  · rfl

/-- The loop over the successors changes predecessors only, and those of each successor once. -/
theorem foldl_renamePredecessor (ss : List Nat) (orig new : Nat) (cu : CompilationUnit) :
    let r := ss.foldl (fun cu s => cu.updateBlock s (renamePredecessor orig new)) cu
    r.nrBb = cu.nrBb ∧ r.bbList = cu.bbList ∧
      ∀ c, r.block c = if c ∈ ss then renamePredecessor orig new (cu.block c) else cu.block c := by
  induction ss generalizing cu with
  | nil => simp
  | cons s ss ih =>
    obtain ⟨hnr, hlist, hblock⟩ := ih (cu.updateBlock s (renamePredecessor orig new))
    refine ⟨hnr, hlist, fun c => ?_⟩
    rw [foldl_cons, hblock c, updateBlock_block]
    by_cases hs : c = s
    · subst hs
      by_cases hmem : c ∈ ss <;> simp [hmem, renamePredecessor_idem]
    · simp [hs]

/-- `cu'` is `cu` after `orig` was split at `offset`. -/
structure Split (cu : CompilationUnit) (orig offset : Nat) (cu' : CompilationUnit) : Prop where
  nrBb : cu'.nrBb = cu.nrBb + 1
  bbList : cu'.bbList = insertAfter orig cu.nrBb cu.bbList
  block : ∀ c, cu'.block c = if c ∈ (cu.block orig).successors then
    renamePredecessor orig cu.nrBb (halves cu orig offset c) else halves cu orig offset c

theorem split_of_bbSplit (h : bbSplit cu orig offset = some (cu', new)) : new = cu.nrBb ∧ Split cu orig offset cu' := by
  simp only [bbSplit] at h
  split at h
  · cases h
  · obtain ⟨rfl, rfl⟩ := Prod.mk.inj (Option.some.inj h)
    obtain ⟨hnr, hlist, hblock⟩ := foldl_renamePredecessor (cu.block orig).successors orig cu.nrBb
      ⟨cu.nrBb + 1, halves cu orig offset, insertAfter orig cu.nrBb cu.bbList⟩
    exact ⟨rfl, hnr, hlist, hblock⟩

section

variable (h : Split cu orig offset cu')

include h

/-- The fields of the blocks after a split, except for the predecessors. -/
theorem Split.field {α : Type} (f : BasicBlock → α)
    (hf : ∀ bb, f (renamePredecessor orig cu.nrBb bb) = f bb) (c : Nat) :
    f (cu'.block c) = if c = cu.nrBb then f (lowerHalf (cu.block orig) offset)
      else if c = orig then f (upperHalf (cu.block c) offset) else f (cu.block c) := by
  have hhalf : f (cu'.block c) = f (halves cu orig offset c) := by
    rw [h.block c]
    split
    · exact hf _
    · rfl
  rw [hhalf, halves, update_apply, update_apply]
  split
  · rfl
  · split
    · rename_i ho
      rw [ho]
    · rfl

theorem Split.start (c : Nat) : (cu'.block c).start = if c = cu.nrBb then offset else (cu.block c).start := by
  rw [h.field BasicBlock.start fun _ => rfl]
  simp [lowerHalf, upperHalf]

theorem Split.stop (c : Nat) : (cu'.block c).stop =
    if c = cu.nrBb then (cu.block orig).stop else if c = orig then offset else (cu.block c).stop :=
  h.field BasicBlock.stop (fun _ => rfl) c

theorem Split.successors (c : Nat) : (cu'.block c).successors =
    if c = cu.nrBb then (cu.block orig).successors else if c = orig then [] else (cu.block c).successors :=
  h.field BasicBlock.successors (fun _ => rfl) c

theorem Split.hasBranch (c : Nat) : (cu'.block c).hasBranch =
    if c = cu.nrBb then (cu.block orig).hasBranch else if c = orig then false else (cu.block c).hasBranch :=
  h.field BasicBlock.hasBranch (fun _ => rfl) c

theorem Split.hasReturn (c : Nat) : (cu'.block c).hasReturn =
    if c = cu.nrBb then (cu.block orig).hasReturn else if c = orig then false else (cu.block c).hasReturn :=
  h.field BasicBlock.hasReturn (fun _ => rfl) c

/-- The split does not move this flag. -/
theorem Split.hasAthrow (c : Nat) :
    (cu'.block c).hasAthrow = if c = cu.nrBb then false else (cu.block c).hasAthrow := by
  rw [h.field BasicBlock.hasAthrow fun _ => rfl]
  simp [lowerHalf, upperHalf]

theorem Split.isEh (c : Nat) : (cu'.block c).isEh = if c = cu.nrBb then false else (cu.block c).isEh := by
  rw [h.field BasicBlock.isEh fun _ => rfl]
  simp [lowerHalf, upperHalf]

/-- The branch target goes with the branch. -/
theorem Split.brTargetOff {c : Nat} (hb : (cu'.block c).hasBranch = true) :
    (cu'.block c).brTargetOff = if c = cu.nrBb then (cu.block orig).brTargetOff else (cu.block c).brTargetOff := by
  rw [h.field BasicBlock.brTargetOff fun _ => rfl]
  rw [h.hasBranch] at hb
  split
  · rename_i hn
    rw [if_pos hn] at hb
    exact if_pos hb
  · rename_i hn
    rw [if_neg hn] at hb
    split
    · rename_i ho
      rw [if_pos ho] at hb
      cases hb
    · rfl

theorem Split.predecessors {c : Nat} (hc : c ≠ cu.nrBb) :
    (cu'.block c).predecessors = if c ∈ (cu.block orig).successors then
      (cu.block c).predecessors.map fun p => if p = orig then cu.nrBb else p else (cu.block c).predecessors := by
  have hhalf : (halves cu orig offset c).predecessors = (cu.block c).predecessors := by
    rw [halves, update_of_ne hc, update_apply]
    split
    · rename_i ho
      rw [ho]
      rfl
    · rfl
  rw [h.block c]
  split
  · simp [renamePredecessor, hhalf]
  · exact hhalf

end

theorem bbSplit_isSome (h : (cu.block orig).start ≤ offset ∧ offset ≤ (cu.block orig).stop) :
    ∃ cu', bbSplit cu orig offset = some (cu', cu.nrBb) := by
  simp only [bbSplit]
  rw [if_neg (by omega)]
  exact ⟨_, rfl⟩

theorem bbAddSuccessor_successors (cu : CompilationUnit) (b s c : Nat) : ((bbAddSuccessor cu b s).block c).successors =
      if c = b then (cu.block c).successors ++ [s] else (cu.block c).successors := by
  simp only [bbAddSuccessor, updateBlock_block]
  split <;> split <;> rfl

theorem bbAddSuccessor_predecessors (cu : CompilationUnit) (b s c : Nat) :
    ((bbAddSuccessor cu b s).block c).predecessors =
      if c = s then (cu.block c).predecessors ++ [b] else (cu.block c).predecessors := by
  simp only [bbAddSuccessor, updateBlock_block]
  split <;> split <;> rfl

theorem bbAddSuccessor_block (cu : CompilationUnit) (b s c : Nat) :
    { (bbAddSuccessor cu b s).block c with successors := [], predecessors := [] } =
      { cu.block c with successors := [], predecessors := [] } := by
  simp only [bbAddSuccessor, updateBlock_block]
  split <;> split <;> rfl

end Operations

/-! ## Well-formed units -/

/-- The blocks tile the code, in the order of the list, and edges are recorded at both ends. -/
structure CompilationUnit.WellFormed (n : Nat) (cu : CompilationUnit) : Prop where
  mem : ∀ b, b ∈ cu.bbList ↔ b < cu.nrBb
  tiles : Tiles (fun b => (cu.block b).start) (fun b => (cu.block b).stop) 0 n cu.bbList
  bound : ∀ b c, c ∈ (cu.block b).successors → b < cu.nrBb ∧ c < cu.nrBb
  edges : ∀ b c, c ∈ (cu.block b).successors ↔ b ∈ (cu.block c).predecessors

section WellFormed

variable {n : Nat} {cu cu' : CompilationUnit} {orig offset : Nat}

theorem wellFormed_entryUnit (hn : 0 < n) : (entryUnit n).WellFormed n where
  mem b := by simp [entryUnit, Nat.lt_one_iff]
  tiles := ⟨rfl, hn, rfl⟩
  bound b c h := by simp [entryUnit] at h
  edges b c := by simp [entryUnit]

section

variable (h : cu.WellFormed n)

include h

theorem CompilationUnit.WellFormed.of_fields (hnr : cu'.nrBb = cu.nrBb) (hlist : cu'.bbList = cu.bbList)
    (hblock : ∀ c, (cu'.block c).start = (cu.block c).start ∧ (cu'.block c).stop = (cu.block c).stop ∧
      (cu'.block c).successors = (cu.block c).successors ∧ (cu'.block c).predecessors = (cu.block c).predecessors) :
    cu'.WellFormed n where
  mem b := by rw [hnr, hlist, h.mem]
  tiles := by
    rw [hlist]
    exact h.tiles.congr fun b _ => ⟨(hblock b).1, (hblock b).2.1⟩
  bound b c := by
    rw [(hblock b).2.2.1, hnr]
    exact h.bound b c
  edges b c := by
    rw [(hblock b).2.2.1, (hblock c).2.2.2]
    exact h.edges b c

/-- A position of the code lies in one block, which `find_bb` returns. -/
theorem CompilationUnit.WellFormed.findBb (ho : offset < n) : ∃ b < cu.nrBb,
    (cu.block b).start ≤ offset ∧ offset < (cu.block b).stop ∧ findBb cu offset = some b := by
  obtain ⟨b, hb, hle, hlt, hfind⟩ := h.tiles.find (Nat.zero_le _) ho
  exact ⟨b, (h.mem b).mp hb, hle, hlt, hfind⟩

theorem CompilationUnit.WellFormed.bounds {b : Nat} (hb : b < cu.nrBb) :
    (cu.block b).start < (cu.block b).stop ∧ (cu.block b).stop ≤ n :=
  (h.tiles.bounds ((h.mem b).mpr hb)).2

theorem CompilationUnit.WellFormed.start_inj {b c : Nat} (hb : b < cu.nrBb) (hc : c < cu.nrBb)
    (heq : (cu.block b).start = (cu.block c).start) : b = c :=
  h.tiles.start_inj ((h.mem b).mpr hb) ((h.mem c).mpr hc) heq

theorem CompilationUnit.WellFormed.unique {b c : Nat} (hb : b < cu.nrBb) (hc : c < cu.nrBb)
    (hob : (cu.block b).start ≤ offset ∧ offset < (cu.block b).stop)
    (hoc : (cu.block c).start ≤ offset ∧ offset < (cu.block c).stop) : b = c :=
  h.tiles.unique ((h.mem b).mpr hb) ((h.mem c).mpr hc) hob hoc

/-- **Splitting** a block at a position inside it. -/
theorem CompilationUnit.WellFormed.split (hs : Split cu orig offset cu') (horig : orig < cu.nrBb)
    (ho : (cu.block orig).start < offset ∧ offset < (cu.block orig).stop) : cu'.WellFormed n := by
  have hne := Nat.ne_of_lt horig
  have hmem := (h.mem orig).mpr horig
  have hnot : cu.nrBb ∉ cu.bbList := fun hn => Nat.lt_irrefl _ ((h.mem _).mp hn)
  have hnew b (hb : cu.nrBb ∈ (cu.block b).successors) : False := Nat.lt_irrefl _ (h.bound b _ hb).2
  have hnewSucc : (cu.block cu.nrBb).successors = [] :=
    eq_nil_iff_forall_not_mem.mpr fun c hc => Nat.lt_irrefl _ (h.bound _ c hc).1
  have hnewPred c : cu.nrBb ∉ (cu.block c).predecessors := by
    rw [← h.edges, hnewSucc]
    exact not_mem_nil
  refine ⟨fun b => ?_, ?_, fun b c => ?_, fun b c => ?_⟩
  · rw [hs.bbList, mem_insertAfter hmem, h.mem, hs.nrBb]
    omega
  · rw [hs.bbList]
    refine h.tiles.split hmem hnot ho (fun b hb => ?_) ?_ ?_ ?_
    · have hbn := Nat.ne_of_lt ((h.mem b).mp hb)
      exact ⟨by rw [hs.start, if_neg hbn], fun hbo => by rw [hs.stop, if_neg hbn, if_neg hbo]⟩
    · rw [hs.stop, if_neg hne, if_pos rfl]
    · rw [hs.start, if_pos rfl]
    · rw [hs.stop, if_pos rfl]
  · rw [hs.successors, hs.nrBb]
    intro hc
    split at hc
    · have := h.bound orig c hc
      omega
    · split at hc
      · cases hc
      · have := h.bound b c hc
        omega
  · rw [hs.successors]
    by_cases hcn : c = cu.nrBb
    · -- nothing leads to the new block yet
      subst hcn
      rw [hs.block, if_neg (hnew orig), halves, update_self]
      refine iff_of_false ?_ not_mem_nil
      split
      · exact hnew orig
      · split
        · exact not_mem_nil
        · exact hnew b
    · rw [hs.predecessors hcn]
      by_cases hbn : b = cu.nrBb
      · subst hbn
        rw [if_pos rfl]
        split
        · rename_i hc
          refine iff_of_true hc (mem_map.mpr ⟨orig, (h.edges orig c).mp hc, if_pos rfl⟩)
        · rename_i hc
          exact iff_of_false hc (hnewPred c)
      · rw [if_neg hbn]
        by_cases hbo : b = orig
        · subst hbo
          rw [if_pos rfl]
          refine iff_of_false not_mem_nil ?_
          split
          · intro hb
            obtain ⟨p, -, hp⟩ := mem_map.mp hb
            split at hp
            · exact hne hp.symm
            · exact absurd hp ‹_›
          · rename_i hc
            exact fun hb => hc ((h.edges b c).mpr hb)
        · rw [if_neg hbo, h.edges]
          split
          · constructor
            · exact fun hb => mem_map.mpr ⟨b, hb, if_neg hbo⟩
            · intro hb
              obtain ⟨p, hp, heq⟩ := mem_map.mp hb
              split at heq
              · exact absurd heq.symm hbn
              · exact heq ▸ hp
          · rfl

/-- **A new edge** between two blocks. -/
theorem CompilationUnit.WellFormed.addSuccessor {b s : Nat} (hb : b < cu.nrBb) (hs : s < cu.nrBb) :
    (bbAddSuccessor cu b s).WellFormed n where
  mem := h.mem
  tiles := h.tiles.congr fun c _ => by
    have := bbAddSuccessor_block cu b s c
    simp only [BasicBlock.mk.injEq] at this
    exact ⟨this.1, this.2.1⟩
  bound c d := by
    rw [bbAddSuccessor_successors]
    intro hd
    split at hd
    · rename_i hcb
      rcases mem_append.mp hd with hd | hd
      · exact h.bound c d hd
      · exact ⟨hcb ▸ hb, mem_singleton.mp hd ▸ hs⟩
    · exact h.bound c d hd
  edges c d := by
    rw [bbAddSuccessor_successors, bbAddSuccessor_predecessors]
    by_cases hcb : c = b <;> by_cases hds : d = s <;> simp [hcb, hds, h.edges]

end

end WellFormed

end Jato.Jit.Flow
