import Jato.Jit.Switch
import Jato.Jit.ControlFlowCorrect
import Mathlib.Data.List.Find

/-!
# Switches go where they should

Where a switch of the class file format goes (`jvmTarget`), and when the converted switch goes there for every key
(`SwitchCorrect`). A tableswitch always does. A lookupswitch does exactly if the comparisons of each of its keys with the
others fit an `int32_t`, except for keys that lead to the default target anyway (`switchCorrect_iff`): the difference that
`lookupswitch_pair_comp` returns wraps, and `bsearch` promises nothing for such comparisons.
-/

namespace Jato.Jit.Switch

open Jato.Lib Jato.Vm Jato.Jit.Flow List Option

/-- Where the switch at `pc` goes for a key. -/
def jvmTarget (code : List UInt8) (pc : Nat) (key : Int) : Int :=
  if byteAt code pc = opcTableswitch then
    if tableswitchLow code pc ≤ key ∧ key ≤ tableswitchHigh code pc then
      tableTarget code pc (key - tableswitchLow code pc).toNat
    else defaultTarget code pc
  else
    match (List.range (lookupswitchCount code pc)).find? fun i => lookupMatch code pc i == key with
    | some i => lookupTarget code pc i
    | none => defaultTarget code pc

/-- A switch that is about to be converted: it ends the block `bb` of a unit in which blocks start at its targets, and the
keys of a lookupswitch ascend. -/
structure Site where
  code : List UInt8
  length_lt : code.length < 2 ^ 31
  pc : Nat
  isSwitch : byteAt code pc = opcTableswitch ∨ byteAt code pc = opcLookupswitch
  complete : ∃ len, InsnAt code pc len
  cu : Flow.CompilationUnit
  listed : ∀ b, b ∈ cu.bbList → b < cu.nrBb
  bb : Nat
  bb_mem : bb ∈ cu.bbList
  bb_le : (cu.block bb).start ≤ (cu.block bb).stop
  targets : ∀ d, JumpDest code pc d → 0 ≤ d ∧ ∃ b, findBb cu d.toNat = some b ∧ ((cu.block b).start : Int) = d
  ascending : byteAt code pc = opcLookupswitch → ∀ i j, i < j → j < lookupswitchCount code pc →
    lookupMatch code pc i < lookupMatch code pc j

/-- The control-flow analysis leaves switches in this state. -/
theorem exists_site {m : VerifiedMethod} {cu : Flow.CompilationUnit} (h : HandlerInv m.toMethodCode cu) {pc len : Nat}
    (hpc : InsnStart m.code pc) (hi : InsnAt m.code pc len)
    (hsw : byteAt m.code pc = opcTableswitch ∨ byteAt m.code pc = opcLookupswitch)
    (hasc : byteAt m.code pc = opcLookupswitch → ∀ i j, i < j → j < lookupswitchCount m.code pc →
      lookupMatch m.code pc i < lookupMatch m.code pc j) :
    ∃ s : Site, s.code = m.code ∧ s.pc = pc ∧ s.cu = cu ∧ (cu.block s.bb).stop = pc + len := by
  have hends : bcEndsBasicBlock (byteAt m.code pc) = true := by rcases hsw with ho | ho <;> rw [ho] <;> decide
  obtain ⟨bb, hbb, -, hstop⟩ := h.flow.exists_block m.complete hpc hi hends
  have hbounds := h.flow.wellFormed.bounds hbb
  refine ⟨⟨m.code, m.length_lt, pc, hsw, ⟨len, hi⟩, cu, fun b hb => (h.flow.wellFormed.mem b).mp hb, bb,
    (h.flow.wellFormed.mem bb).mpr hbb, by omega, fun d hd => ?_, hasc⟩, rfl, rfl, rfl, hstop.symm⟩
  obtain ⟨h0, hlt, -⟩ := m.dests pc hi.1 hpc d hd
  obtain ⟨n, rfl⟩ := Int.eq_ofNat_of_zero_le h0
  obtain ⟨b, -, hs, hfind⟩ := h.flow.findBb_startsAt (by simpa using hlt) (h.flow.dests rfl n (by simpa using hlt) ⟨pc, hi.1, hpc, hd⟩)
  exact ⟨h0, b, hfind, by rw [hs]⟩

/-- The converted switch goes where it should, whatever `bsearch` does that is not promised. -/
def SwitchCorrect (s : Site) : Prop :=
  ∃ c, convertSwitch s.code s.pc s.cu s.bb = some c ∧ ∀ (bs : Bsearch) (needs : Nat → Nat → Bool) (key : BitVec 32),
    ∃ b, control bs c.cu needs key c.stmts = some b ∧ ((c.cu.block b).start : Int) = jvmTarget s.code s.pc key.toInt

/-! ## What the conversion keeps -/

/-- Edges and flags were added, but no block was moved. -/
structure Extends (cu cu' : Flow.CompilationUnit) : Prop where
  bbList : cu'.bbList = cu.bbList
  bounds : ∀ c, (cu'.block c).start = (cu.block c).start ∧ (cu'.block c).stop = (cu.block c).stop
  successors : ∀ b c, c ∈ (cu.block b).successors → c ∈ (cu'.block b).successors

section Extends

variable {cu cu' cu'' : Flow.CompilationUnit} {bb : Nat}

theorem Extends.refl (cu : Flow.CompilationUnit) : Extends cu cu := ⟨rfl, fun _ => ⟨rfl, rfl⟩, fun _ _ h => h⟩

theorem Extends.trans (h : Extends cu cu') (h' : Extends cu' cu'') : Extends cu cu'' where
  bbList := h'.bbList.trans h.bbList
  bounds c := ⟨(h'.bounds c).1.trans (h.bounds c).1, (h'.bounds c).2.trans (h.bounds c).2⟩
  successors b c hc := h'.successors b c (h.successors b c hc)

theorem extends_bbAddSuccessor (cu : Flow.CompilationUnit) (b s : Nat) : Extends cu (bbAddSuccessor cu b s) where
  bbList := rfl
  bounds c := by
    have h := bbAddSuccessor_block cu b s c
    simp only [Flow.BasicBlock.mk.injEq] at h
    exact ⟨h.1, h.2.1⟩
  successors c d hd := by
    rw [bbAddSuccessor_successors]
    split
    · exact mem_append_left _ hd
    · exact hd

theorem mem_bbAddSuccessor (cu : Flow.CompilationUnit) (b s : Nat) : s ∈ ((bbAddSuccessor cu b s).block b).successors := by
  rw [bbAddSuccessor_successors, if_pos rfl]
  exact mem_append_right _ (mem_singleton.mpr rfl)

theorem extends_setHasBranch (cu : Flow.CompilationUnit) (b : Nat) : Extends cu (setHasBranch cu b) := by
  refine ⟨rfl, fun c => ?_, fun c d => ?_⟩
  · rw [setHasBranch, updateBlock_block]
    split <;> exact ⟨rfl, rfl⟩
  · rw [setHasBranch, updateBlock_block]
    split <;> exact id

theorem Extends.findBbAt (h : Extends cu cu') (off : Int) : findBbAt cu' off = findBbAt cu off := by
  simp only [Switch.findBbAt, findBb, h.bbList, h.bounds]

theorem addTargets_spec {offs : List Int} (h : ∀ d ∈ offs, ∃ t, findBbAt cu d = some t) : ∃ cu', addTargets bb cu offs = some cu' ∧
    Extends cu cu' ∧ ∀ d ∈ offs, ∀ t, findBbAt cu d = some t → t ∈ (cu'.block bb).successors := by
  induction offs generalizing cu with
  | nil => exact ⟨cu, rfl, .refl cu, fun _ hd => absurd hd not_mem_nil⟩
  | cons d ds ih =>
    obtain ⟨t, ht⟩ := h d (by simp)
    -- the unit after the edge to the first target, whether it was there or not
    obtain ⟨cu₁, hstep, hext₁, hmem⟩ : ∃ cu₁, (do
        let targetBb ← findBbAt cu d
        if bbSuccessorsContains cu bb targetBb then return cu
        return bbAddSuccessor cu bb targetBb) = some cu₁ ∧ Extends cu cu₁ ∧ t ∈ (cu₁.block bb).successors := by
      simp only [ht, bind_eq_bind, bind_some]
      split
      · rename_i hc
        exact ⟨cu, rfl, .refl cu, by simpa [bbSuccessorsContains] using hc⟩
      · exact ⟨_, rfl, extends_bbAddSuccessor cu bb t, mem_bbAddSuccessor cu bb t⟩
    have hrest : ∀ e ∈ ds, ∃ t, findBbAt cu₁ e = some t := by
      intro e he
      rw [hext₁.findBbAt]
      exact h e (mem_cons_of_mem _ he)
    obtain ⟨cu', hfold, hext, hall⟩ := ih hrest
    refine ⟨cu', ?_, hext₁.trans hext, ?_⟩
    · rw [addTargets, foldlM_cons, hstep]
      exact hfold
    · intro e he u hu
      rcases mem_cons.mp he with rfl | he'
      · rw [ht] at hu
        exact Option.some.inj hu ▸ hext.successors bb t hmem
      · exact hall e he' u (by rw [hext₁.findBbAt, hu])

/-- A jump along an edge arrives, with or without a resolution block. -/
theorem landing_of_mem {src target : Nat} (h : target ∈ (cu.block src).successors) (needs : Nat → Nat → Bool) :
    (patchedTarget cu needs src target).bind (landing cu) = some target := by
  simp only [patchedTarget, bbLookupSuccessorIndex]
  cases hidx : (cu.block src).successors.findIdx? (· == target) with
  | none =>
    rw [findIdx?_eq_none_iff] at hidx
    exact absurd (hidx target h) (by simp)
  | some idx =>
    obtain ⟨hlt, hp, -⟩ := findIdx?_eq_some_iff_getElem.mp hidx
    have hget : (cu.block src).successors[idx] = target := by simpa using hp
    simp only [map_some, bind_some]
    split
    · simp [landing, getElem?_eq_getElem hlt, hget]
    · rfl

end Extends

/-! ## Empty blocks behind a block -/

section SplitEnd

variable {cu cu' : Flow.CompilationUnit} {bb new : Nat}

theorem find?_insertAfter {p : Nat → Bool} (l : List Nat) (orig : Nat) (hnew : p new = false) :
    (insertAfter orig new l).find? p = l.find? p := by
  induction l with
  | nil => rfl
  | cons b bs ih =>
    simp only [insertAfter]
    split
    · simp only [find?_cons, hnew]
    · simp only [find?_cons, ih]

theorem nextBb_insertAfter {l : List Nat} (h : bb ∈ l) : nextBb bb (insertAfter bb new l) = some new := by
  induction l with
  | nil => cases h
  | cons b bs ih =>
    simp only [insertAfter]
    split
    · rename_i hb
      simp [nextBb, hb]
    · rename_i hb
      have hmem : bb ∈ bs := (mem_cons.mp h).resolve_left fun heq => hb heq.symm
      cases hbs : insertAfter bb new bs with
      | nil =>
        rw [hbs] at ih
        exact absurd (ih hmem) (by simp [nextBb])
      | cons c cs =>
        rw [nextBb, if_neg hb, ← hbs]
        exact ih hmem

/-- What follows a block does not change when a block is put behind another one. -/
theorem nextBb_insertAfter_of_ne {l : List Nat} {orig : Nat} (hne : bb ≠ orig) (hnew : bb ≠ new) :
    nextBb bb (insertAfter orig new l) = nextBb bb l := by
  induction l with
  | nil => rfl
  | cons b bs ih =>
    simp only [insertAfter]
    split
    · rename_i hb
      have hbb : b ≠ bb := fun heq => hne (heq.symm.trans hb)
      cases bs with
      | nil => simp [nextBb, hbb]
      | cons c cs => simp [nextBb, hbb, hnew.symm]
    · rename_i hb
      cases bs with
      | nil => rfl
      | cons c cs =>
        have hhead : ∃ ds, insertAfter orig new (c :: cs) = c :: ds := by
          simp only [insertAfter]
          split
          · exact ⟨_, rfl⟩
          · exact ⟨_, rfl⟩
        obtain ⟨ds, hds⟩ := hhead
        rw [hds] at ih ⊢
        simp only [nextBb]
        rw [ih]

/-- An empty block behind `bb`. -/
structure SplitEnd (cu : Flow.CompilationUnit) (bb : Nat) (cu' : Flow.CompilationUnit) : Prop where
  bbList : cu'.bbList = insertAfter bb cu.nrBb cu.bbList
  nrBb : cu'.nrBb = cu.nrBb + 1
  start : ∀ c ∈ cu.bbList, (cu'.block c).start = (cu.block c).start
  stop : (cu'.block bb).stop = (cu.block bb).stop
  new : (cu'.block cu.nrBb).start = (cu.block bb).stop ∧ (cu'.block cu.nrBb).stop = (cu.block bb).stop
  findBb : ∀ o, Flow.findBb cu' o = Flow.findBb cu o
  listed : ∀ b ∈ cu'.bbList, b < cu'.nrBb

theorem bbSplit_end (hlisted : ∀ b ∈ cu.bbList, b < cu.nrBb) (hmem : bb ∈ cu.bbList)
    (hle : (cu.block bb).start ≤ (cu.block bb).stop) :
    ∃ cu', bbSplit cu bb (cu.block bb).stop = some (cu', cu.nrBb) ∧ SplitEnd cu bb cu' := by
  obtain ⟨cu', hsplit⟩ := bbSplit_isSome ⟨hle, Nat.le_refl (cu.block bb).stop⟩
  obtain ⟨-, hs⟩ := split_of_bbSplit hsplit
  have hne c (hc : c ∈ cu.bbList) : c ≠ cu.nrBb := Nat.ne_of_lt (hlisted c hc)
  have hstart c (hc : c ∈ cu.bbList) : (cu'.block c).start = (cu.block c).start := by
    rw [hs.start, if_neg (hne c hc)]
  have hstop c (hc : c ∈ cu.bbList) : (cu'.block c).stop = (cu.block c).stop := by
    rw [hs.stop, if_neg (hne c hc)]
    split
    · rename_i hcb
      rw [hcb]
    · rfl
  have hnew : (cu'.block cu.nrBb).start = (cu.block bb).stop ∧ (cu'.block cu.nrBb).stop = (cu.block bb).stop := by
    rw [hs.start, hs.stop, if_pos rfl, if_pos rfl]
    exact ⟨rfl, rfl⟩
  refine ⟨cu', hsplit, hs.bbList, hs.nrBb, hstart, hstop bb hmem, hnew, fun o => ?_, fun b hb => ?_⟩
  · rw [Flow.findBb, Flow.findBb, hs.bbList, find?_insertAfter]
    · refine find?_congr ?_
      intro c hc
      rw [hstart c hc, hstop c hc]
    · rw [hnew.1, hnew.2]
      simp only [Bool.and_eq_false_iff, decide_eq_false_iff_not]
      omega
  · rw [hs.bbList, mem_insertAfter hmem] at hb
    rw [hs.nrBb]
    rcases hb with rfl | hb
    · exact Nat.lt_succ_self _
    · exact Nat.lt_succ_of_lt (hlisted b hb)

theorem SplitEnd.findBbAt (h : SplitEnd cu bb cu') (off : Int) : findBbAt cu' off = findBbAt cu off := by
  simp only [Switch.findBbAt, h.findBb]

end SplitEnd

/-! ## Targets of a site -/

section Targets

variable (s : Site)

theorem Site.findBbAt {d : Int} (hd : JumpDest s.code s.pc d) :
    ∃ b, findBbAt s.cu d = some b ∧ b ∈ s.cu.bbList ∧ ((s.cu.block b).start : Int) = d := by
  obtain ⟨h0, b, hfind, hstart⟩ := s.targets d hd
  exact ⟨b, by rw [Switch.findBbAt, if_neg (Int.not_lt.mpr h0), hfind], mem_of_find?_eq_some hfind, hstart⟩

theorem Site.jumpDest_default : JumpDest s.code s.pc (defaultTarget s.code s.pc) := by
  rcases s.isSwitch with ho | ho
  · exact .tableDefault ho
  · exact .lookupDefault ho

variable {s}

/-- The bounds of a tableswitch are in order, and its entries are counted in an `int`. -/
theorem Site.tableCount_eq (ho : byteAt s.code s.pc = opcTableswitch) :
    tableswitchLow s.code s.pc ≤ tableswitchHigh s.code s.pc ∧
      tableCount s.code s.pc = tableswitchCount s.code s.pc ∧ tableswitchCount s.code s.pc < 2 ^ 31 := by
  obtain ⟨len, hi⟩ := s.complete
  obtain ⟨-, hl, hend⟩ := hi
  have hlen := s.length_lt
  obtain ⟨hle, heq⟩ := insnLength_tableswitch ho hl
  exact ⟨hle, tableswitchCount_eq (Int.not_lt.mpr hle) (by omega), by omega⟩

theorem Site.lookupCount_eq (ho : byteAt s.code s.pc = opcLookupswitch) :
    readU32 s.code (switchBody s.pc + 4) = lookupswitchCount s.code s.pc := by
  obtain ⟨len, -, hl, -⟩ := s.complete
  exact readU32_eq_toNat (Int.not_lt.mpr (insnLength_lookupswitch ho hl).1)

end Targets

variable (code : List UInt8) (pc : Nat)

theorem tableswitchLow_eq :
    tableswitchLow code pc = toS32 (readU32 code (switchBody pc + 4)) := by rw [tableswitchLow, readS32]

theorem tableswitchHigh_eq :
    tableswitchHigh code pc = toS32 (readU32 code (switchBody pc + 8)) := by rw [tableswitchHigh, readS32]

theorem mapM_eq_some_map {α β : Type} {f : α → Option β} {g : α → β} {l : List α} (h : ∀ a ∈ l, f a = some (g a)) :
    l.mapM f = some (l.map g) := by
  induction l with
  | nil => rfl
  | cons a as ih =>
    rw [mapM_cons, h a (by simp), ih fun b hb => h b (mem_cons_of_mem _ hb)]
    rfl

/-! ## Tableswitch -/

theorem extends_tableEdges (cu : Flow.CompilationUnit) (bb b1 b2 defaultBb : Nat) :
    Extends cu (tableEdges cu bb b1 b2 defaultBb) ∧
      defaultBb ∈ ((tableEdges cu bb b1 b2 defaultBb).block bb).successors ∧
      defaultBb ∈ ((tableEdges cu bb b1 b2 defaultBb).block b1).successors := by
  have hflags := ((extends_setHasBranch cu bb).trans (extends_setHasBranch _ b1)).trans (extends_setHasBranch _ b2)
  have hfirst := (extends_bbAddSuccessor (setHasBranch (setHasBranch (setHasBranch cu bb) b1) b2) bb defaultBb)
  have hsecond := extends_bbAddSuccessor (bbAddSuccessor (setHasBranch (setHasBranch (setHasBranch cu bb) b1) b2) bb defaultBb)
    bb b1
  have hthird := extends_bbAddSuccessor (bbAddSuccessor (bbAddSuccessor
    (setHasBranch (setHasBranch (setHasBranch cu bb) b1) b2) bb defaultBb) bb b1) b1 defaultBb
  have hlast := extends_bbAddSuccessor (bbAddSuccessor (bbAddSuccessor (bbAddSuccessor
    (setHasBranch (setHasBranch (setHasBranch cu bb) b1) b2) bb defaultBb) bb b1) b1 defaultBb) b1 b2
  refine ⟨(((hflags.trans hfirst).trans hsecond).trans hthird).trans hlast, ?_, ?_⟩
  · exact ((hsecond.trans hthird).trans hlast).successors _ _ (mem_bbAddSuccessor _ _ _)
  · exact hlast.successors _ _ (mem_bbAddSuccessor _ _ _)

/-- The unit and the statements of a converted tableswitch: the blocks of its targets are `defaultBb` and `block i`. -/
structure TableConverted (s : Site) (c : Converted) (defaultBb b1 b2 : Nat) (block : Nat → Nat) : Prop where
  stmts : c.stmts = tableStmts s.bb b1 b2 defaultBb ⟨readU32 s.code (switchBody s.pc + 4),
    readU32 s.code (switchBody s.pc + 8), b2, (List.range (tableswitchCount s.code s.pc)).map block⟩
  default_start : ((c.cu.block defaultBb).start : Int) = defaultTarget s.code s.pc
  block_start : ∀ i < tableswitchCount s.code s.pc, ((c.cu.block (block i)).start : Int) = tableTarget s.code s.pc i
  default_edge : defaultBb ∈ (c.cu.block s.bb).successors
  default_edge' : defaultBb ∈ (c.cu.block b1).successors
  block_edge : ∀ i < tableswitchCount s.code s.pc, block i ∈ (c.cu.block b2).successors
  next : nextBb s.bb c.cu.bbList = some b1
  next' : nextBb b1 c.cu.bbList = some b2

theorem convertTableswitch_spec (s : Site) (ho : byteAt s.code s.pc = opcTableswitch) :
    ∃ c defaultBb b1 b2 block, convertTableswitch s.code s.pc s.cu s.bb = some c ∧
      TableConverted s c defaultBb b1 b2 block := by
  obtain ⟨-, hcount, -⟩ := Site.tableCount_eq ho
  obtain ⟨defaultBb, hdefault, hdmem, hdstart⟩ := s.findBbAt s.jumpDest_default
  have hcase i (hi : i < tableswitchCount s.code s.pc) : ∃ b, findBbAt s.cu (tableTarget s.code s.pc i) = some b ∧
      b ∈ s.cu.bbList ∧ ((s.cu.block b).start : Int) = tableTarget s.code s.pc i := s.findBbAt (.tableCase i ho hi)
  choose! block hblock hbmem hbstart using hcase
  -- two empty blocks
  obtain ⟨cu₁, hsplit₁, hs₁⟩ := bbSplit_end s.listed s.bb_mem s.bb_le
  have hmem₁ b : b ∈ cu₁.bbList ↔ b = s.cu.nrBb ∨ b ∈ s.cu.bbList := by rw [hs₁.bbList, mem_insertAfter s.bb_mem]
  have hb1mem : s.cu.nrBb ∈ cu₁.bbList := (hmem₁ _).mpr (.inl rfl)
  obtain ⟨cu₂, hsplit₂, hs₂⟩ := bbSplit_end hs₁.listed hb1mem (by rw [hs₁.new.1, hs₁.new.2])
  rw [hs₁.new.2, ← hs₁.stop] at hsplit₂
  obtain ⟨h₅, hedge, hedge'⟩ := extends_tableEdges cu₂ s.bb s.cu.nrBb cu₁.nrBb defaultBb
  have hfind off : findBbAt (tableEdges cu₂ s.bb s.cu.nrBb cu₁.nrBb defaultBb) off = findBbAt s.cu off := by
    rw [h₅.findBbAt, hs₂.findBbAt, hs₁.findBbAt]
  -- the edges to the entries
  have hoffs : ∀ d ∈ tableTargets s.code s.pc, ∃ t, findBbAt (tableEdges cu₂ s.bb s.cu.nrBb cu₁.nrBb defaultBb) d = some t := by
    intro d hd
    obtain ⟨i, hi, rfl⟩ := mem_map.mp hd
    rw [hcount, mem_range] at hi
    exact ⟨block i, by rw [hfind]; exact hblock i hi⟩
  obtain ⟨cu₆, hadd, h₆, hsucc⟩ := addTargets_spec hoffs
  have hext := h₅.trans h₆
  have htable : (tableTargets s.code s.pc).mapM (findBbAt cu₆) =
      some ((List.range (tableswitchCount s.code s.pc)).map block) := by
    rw [tableTargets, hcount, mapM_map]
    refine mapM_eq_some_map fun i hi => ?_
    rw [Function.comp_apply, h₆.findBbAt, hfind]
    exact hblock i (mem_range.mp hi)
  have hstart b (hb : b ∈ s.cu.bbList) : (cu₆.block b).start = (s.cu.block b).start := by
    rw [(hext.bounds b).1, hs₂.start b ((hmem₁ b).mpr (.inr hb)), hs₁.start b hb]
  have hbb : s.bb ≠ s.cu.nrBb := Nat.ne_of_lt (s.listed _ s.bb_mem)
  have hbb' : s.bb ≠ cu₁.nrBb := by
    have := s.listed _ s.bb_mem
    have := hs₁.nrBb
    omega
  have halloc : allocTableswitch s.code s.pc cu₆ cu₁.nrBb = some ⟨readU32 s.code (switchBody s.pc + 4),
      readU32 s.code (switchBody s.pc + 8), cu₁.nrBb, (List.range (tableswitchCount s.code s.pc)).map block⟩ := by
    rw [allocTableswitch, htable]
    rfl
  refine ⟨⟨cu₆, tableStmts s.bb s.cu.nrBb cu₁.nrBb defaultBb ⟨readU32 s.code (switchBody s.pc + 4),
    readU32 s.code (switchBody s.pc + 8), cu₁.nrBb, (List.range (tableswitchCount s.code s.pc)).map block⟩⟩,
    defaultBb, s.cu.nrBb, cu₁.nrBb, block, ?_, rfl, ?_, fun i hi => ?_, ?_, ?_, fun i hi => ?_, ?_, ?_⟩
  · rw [convertTableswitch, hdefault, bind_eq_bind, bind_some, hsplit₁, bind_eq_bind, bind_some]
    dsimp only
    rw [hsplit₂, bind_eq_bind, bind_some]
    dsimp only
    rw [hadd, bind_eq_bind, bind_some, halloc, bind_some, Option.pure_def]
  · rw [hstart _ hdmem, hdstart]
  · rw [hstart _ (hbmem i hi), hbstart i hi]
  · exact h₆.successors _ _ hedge
  · exact h₆.successors _ _ hedge'
  · refine hsucc (tableTarget s.code s.pc i) (mem_map.mpr ⟨i, ?_, rfl⟩) _ ?_
    · rw [hcount]
      exact mem_range.mpr hi
    · rw [hfind]
      exact hblock i hi
  · rw [hext.bbList, hs₂.bbList, nextBb_insertAfter_of_ne hbb hbb', hs₁.bbList, nextBb_insertAfter s.bb_mem]
  · rw [hext.bbList, hs₂.bbList, nextBb_insertAfter hb1mem]

theorem toInt_eq_toS32 (key : BitVec 32) : key.toInt = toS32 key.toNat := by
  rw [BitVec.toInt_eq_toNat_bmod, toS32]

variable {low defaultBb b1 : Nat} {key : BitVec 32} {block : Nat → Nat} {c : Converted} {s : Site}

theorem sub_mod_eq {x : Nat} (hx : x < 2 ^ 32) (hlow : low < 2 ^ 32) (hle : toS32 low ≤ toS32 x) :
    (2 ^ 32 - low + x) % 2 ^ 32 = (toS32 x - toS32 low).toNat := by
  simp only [toS32, Int.bmod] at hle ⊢
  omega

theorem tableIndex_eq (hlow : low < 2 ^ 32) (hle : toS32 low ≤ key.toInt) :
    (key - BitVec.ofNat 32 low).toNat = (key.toInt - toS32 low).toNat := by
  rw [toInt_eq_toS32] at hle ⊢
  rw [BitVec.toNat_sub, BitVec.toNat_ofNat, Nat.mod_eq_of_lt hlow, sub_mod_eq key.isLt hlow hle]

theorem intCount_eq {high : Nat} (hle : toS32 low ≤ toS32 high) (hlt : (toS32 high - toS32 low + 1).toNat < 2 ^ 31) :
    toS32 ((high : Int) - low + 1) = (toS32 high - toS32 low + 1).toNat := by
  simp only [toS32, Int.bmod] at hle hlt ⊢
  omega

variable {target : Nat} {right : Int} {i : Nat} {table : Lookupswitch}

section Control

variable {bs : Bsearch} {cu : Flow.CompilationUnit} {needs : Nat → Nat → Bool} {key : BitVec 32} {bb : Nat} {stmt : SwitchStmt}

variable {rest : List (Nat × SwitchStmt)}

theorem control_jump {target : Option Nat}
    (h : exec bs cu needs key bb stmt = some target) : control bs cu needs key ((bb, stmt) :: rest) = target := by
  rw [control, h]

theorem control_fall {bb' : Nat} {stmt' : SwitchStmt}
    (h : exec bs cu needs key bb stmt = none) (hnext : nextBb bb cu.bbList = some bb') :
    control bs cu needs key ((bb, stmt) :: (bb', stmt') :: rest) = control bs cu needs key ((bb', stmt') :: rest) := by
  rw [control, h]
  exact if_pos hnext

theorem exec_ifLesser (h : key.toInt < right) :
    exec bs cu needs key bb (.ifLesser target right) = some ((patchedTarget cu needs bb target).bind (landing cu)) := if_pos h

theorem exec_not_ifLesser (h : ¬ key.toInt < right) :
    exec bs cu needs key bb (.ifLesser target right) = none := if_neg h

theorem exec_ifGreater (h : right < key.toInt) :
    exec bs cu needs key bb (.ifGreater target right) = some ((patchedTarget cu needs bb target).bind (landing cu)) := if_pos h

theorem exec_not_ifGreater (h : ¬ right < key.toInt) :
    exec bs cu needs key bb (.ifGreater target right) = none := if_neg h

theorem exec_tableswitch (table : Tableswitch) : exec bs cu needs key bb (.tableswitch table) =
    some (((backpatchTableswitch cu needs table)[(key - BitVec.ofNat 32 table.low).toNat]?.join).bind (landing cu)) := rfl

end Control

/-- **A tableswitch** goes where it should. -/
theorem TableConverted.control_eq {b2 : Nat} (h : TableConverted s c defaultBb b1 b2 block)
    (ho : byteAt s.code s.pc = opcTableswitch) (bs : Bsearch) (needs : Nat → Nat → Bool) (key : BitVec 32) :
    ∃ b, control bs c.cu needs key c.stmts = some b ∧ ((c.cu.block b).start : Int) = jvmTarget s.code s.pc key.toInt := by
  obtain ⟨hle, hcount, hlt⟩ := Site.tableCount_eq ho
  rw [h.stmts, tableStmts, ← tableswitchLow_eq, ← tableswitchHigh_eq, jvmTarget, if_pos ho]
  by_cases hlow : key.toInt < tableswitchLow s.code s.pc
  · refine ⟨defaultBb, ?_, ?_⟩
    · rw [control_jump (exec_ifLesser hlow), landing_of_mem h.default_edge]
    · rw [if_neg (by omega), h.default_start]
  rw [control_fall (exec_not_ifLesser hlow) h.next]
  by_cases hhigh : tableswitchHigh s.code s.pc < key.toInt
  · refine ⟨defaultBb, ?_, ?_⟩
    · rw [control_jump (exec_ifGreater hhigh), landing_of_mem h.default_edge']
    · rw [if_neg (by omega), h.default_start]
  rw [control_fall (exec_not_ifGreater hhigh) h.next', control_jump (exec_tableswitch _)]
  have hidx : (key.toInt - tableswitchLow s.code s.pc).toNat < tableswitchCount s.code s.pc := by
    simp only [tableswitchCount]
    omega
  refine ⟨block (key.toInt - tableswitchLow s.code s.pc).toNat, ?_, ?_⟩
  · have hindex : (key - BitVec.ofNat 32 (readU32 s.code (switchBody s.pc + 4))).toNat =
        (key.toInt - tableswitchLow s.code s.pc).toNat := by
      rw [tableswitchLow_eq] at hlow ⊢
      exact tableIndex_eq (readU32_lt _ _) (Int.not_lt.mp hlow)
    have hint : toS32 ((readU32 s.code (switchBody s.pc + 8) : Int) - readU32 s.code (switchBody s.pc + 4) + 1) =
        tableswitchCount s.code s.pc := by
      rw [tableswitchCount, tableswitchLow_eq, tableswitchHigh_eq] at hlt ⊢
      rw [tableswitchLow_eq, tableswitchHigh_eq] at hle
      exact intCount_eq hle hlt
    rw [hindex, backpatchTableswitch, getElem?_mapIdx, getElem?_map, getElem?_range hidx]
    simp only [map_some, hint]
    rw [if_pos (by omega)]
    exact landing_of_mem (h.block_edge _ hidx) needs
  · rw [if_pos (by omega), h.block_start _ hidx]

/-! ## Lookupswitch -/

/-- The pairs of the table, with the block of each target. -/
def pairAt (s : Site) (block : Nat → Nat) (i : Nat) : LookupswitchPair := ⟨lookupMatch s.code s.pc i, block i⟩

def pairsOf (s : Site) (block : Nat → Nat) : List LookupswitchPair :=
  (List.range (lookupswitchCount s.code s.pc)).map (pairAt s block)

/-- The unit and the statements of a converted lookupswitch. -/
structure LookupConverted (s : Site) (c : Converted) (defaultBb b1 : Nat) (block : Nat → Nat) : Prop where
  stmts : c.stmts = [(s.bb, .ifNull defaultBb ⟨b1, pairsOf s block⟩), (b1, .lookupswitchJump ⟨b1, pairsOf s block⟩)]
  default_start : ((c.cu.block defaultBb).start : Int) = defaultTarget s.code s.pc
  block_start : ∀ i < lookupswitchCount s.code s.pc, ((c.cu.block (block i)).start : Int) = lookupTarget s.code s.pc i
  default_edge : defaultBb ∈ (c.cu.block s.bb).successors
  block_edge : ∀ i < lookupswitchCount s.code s.pc, block i ∈ (c.cu.block b1).successors
  next : nextBb s.bb c.cu.bbList = some b1

theorem extends_lookupEdges (cu : Flow.CompilationUnit) (bb b1 defaultBb : Nat) :
    Extends cu (lookupEdges cu bb b1 defaultBb) ∧ defaultBb ∈ ((lookupEdges cu bb b1 defaultBb).block bb).successors := by
  have hflag := extends_setHasBranch cu b1
  have hfirst := extends_bbAddSuccessor (setHasBranch cu b1) bb defaultBb
  have hsecond := extends_bbAddSuccessor (bbAddSuccessor (setHasBranch cu b1) bb defaultBb) bb b1
  exact ⟨(hflag.trans hfirst).trans hsecond, hsecond.successors _ _ (mem_bbAddSuccessor _ _ _)⟩

theorem convertLookupswitch_spec (s : Site) (ho : byteAt s.code s.pc = opcLookupswitch) :
    ∃ c defaultBb b1 block, convertLookupswitch s.code s.pc s.cu s.bb = some c ∧ LookupConverted s c defaultBb b1 block := by
  have hcount := Site.lookupCount_eq ho
  obtain ⟨defaultBb, hdefault, hdmem, hdstart⟩ := s.findBbAt s.jumpDest_default
  have hcase i (hi : i < lookupswitchCount s.code s.pc) : ∃ b, findBbAt s.cu (lookupTarget s.code s.pc i) = some b ∧
      b ∈ s.cu.bbList ∧ ((s.cu.block b).start : Int) = lookupTarget s.code s.pc i := s.findBbAt (.lookupCase i ho hi)
  choose! block hblock hbmem hbstart using hcase
  obtain ⟨cu₁, hsplit, hs⟩ := bbSplit_end s.listed s.bb_mem s.bb_le
  obtain ⟨h₂, hedge⟩ := extends_lookupEdges cu₁ s.bb s.cu.nrBb defaultBb
  have hfind off : findBbAt (lookupEdges cu₁ s.bb s.cu.nrBb defaultBb) off = findBbAt s.cu off := by
    rw [h₂.findBbAt, hs.findBbAt]
  have hoffs : ∀ d ∈ lookupTargets s.code s.pc, ∃ t, findBbAt (lookupEdges cu₁ s.bb s.cu.nrBb defaultBb) d = some t := by
    intro d hd
    obtain ⟨i, hi, rfl⟩ := mem_map.mp hd
    rw [hcount, mem_range] at hi
    exact ⟨block i, by rw [hfind]; exact hblock i hi⟩
  obtain ⟨cu₃, hadd, h₃, hsucc⟩ := addTargets_spec hoffs
  have hext := h₂.trans h₃
  have halloc : allocLookupswitch s.code s.pc cu₃ s.cu.nrBb = some ⟨s.cu.nrBb, pairsOf s block⟩ := by
    have hpairs : ((List.range (lookupswitchCount s.code s.pc)).mapM fun i => (findBbAt cu₃ (lookupTarget s.code s.pc i)).map
        fun bbTarget => (⟨lookupMatch s.code s.pc i, bbTarget⟩ : LookupswitchPair)) = some (pairsOf s block) := by
      refine mapM_eq_some_map fun i hi => ?_
      rw [h₃.findBbAt, hfind, hblock i (mem_range.mp hi)]
      rfl
    rw [allocLookupswitch, hcount, hpairs]
    rfl
  have hstart b (hb : b ∈ s.cu.bbList) : (cu₃.block b).start = (s.cu.block b).start := by
    rw [(hext.bounds b).1, hs.start b hb]
  refine ⟨⟨cu₃, [(s.bb, .ifNull defaultBb ⟨s.cu.nrBb, pairsOf s block⟩),
    (s.cu.nrBb, .lookupswitchJump ⟨s.cu.nrBb, pairsOf s block⟩)]⟩, defaultBb, s.cu.nrBb, block, ?_, rfl, ?_,
    fun i hi => ?_, ?_, fun i hi => ?_, ?_⟩
  · rw [convertLookupswitch, hdefault, bind_eq_bind, bind_some, hsplit, bind_eq_bind, bind_some]
    dsimp only
    rw [hadd, bind_eq_bind, bind_some, halloc, bind_eq_bind, bind_some, Option.pure_def]
  · rw [hstart _ hdmem, hdstart]
  · rw [hstart _ (hbmem i hi), hbstart i hi]
  · exact h₃.successors _ _ hedge
  · refine hsucc (lookupTarget s.code s.pc i) (mem_map.mpr ⟨i, ?_, rfl⟩) _ ?_
    · rw [hcount]
      exact mem_range.mpr hi
    · rw [hfind]
      exact hblock i hi
  · rw [hext.bbList, hs.bbList, nextBb_insertAfter s.bb_mem]

section Compare

variable {s : Site} {block : Nat → Nat}

theorem lookupMatch_bounds (i : Nat) : -2 ^ 31 ≤ lookupMatch code pc i ∧ lookupMatch code pc i < 2 ^ 31 := by
  have := readU32_lt code (switchBody pc + 8 + 8 * i)
  simp only [lookupMatch, readS32, toS32, Int.bmod]
  omega

variable {x : Int}

theorem toS32_eq_zero (h : -2 ^ 32 < x ∧ x < 2 ^ 32) : toS32 x = 0 ↔ x = 0 := by
  simp only [toS32, Int.bmod]
  omega

theorem toS32_of_fits (h : -2 ^ 31 ≤ x ∧ x < 2 ^ 31) : toS32 x = x := by
  simp only [toS32, Int.bmod]
  omega

/-- A difference that is too large turns negative. -/
theorem toS32_neg (h : 2 ^ 31 ≤ x) (h' : x < 2 ^ 32) : toS32 x < 0 := by
  simp only [toS32, Int.bmod]
  omega

/-- A difference that is too small turns positive. -/
theorem toS32_pos (h : x < -2 ^ 31) (h' : -2 ^ 32 < x) : 0 < toS32 x := by
  simp only [toS32, Int.bmod]
  omega

theorem getElem?_pairsOf {pair : LookupswitchPair} :
    (pairsOf s block)[i]? = some pair ↔ i < lookupswitchCount s.code s.pc ∧ pair = pairAt s block i := by
  rw [pairsOf, List.getElem?_map, Option.map_eq_some_iff]
  constructor
  · rintro ⟨j, hj, rfl⟩
    obtain ⟨hlt, hget⟩ := List.getElem?_eq_some_iff.mp hj
    rw [List.length_range] at hlt
    rw [List.getElem_range] at hget
    exact ⟨hlt, by rw [hget]⟩
  · rintro ⟨hi, rfl⟩
    exact ⟨i, List.getElem?_range hi, rfl⟩

theorem comp_pairAt (k : Int) (i : Nat) :
    lookupswitchPairComp k (pairAt s block i) = toS32 (k - lookupMatch s.code s.pc i) := by rw [lookupswitchPairComp, pairAt]

/-- A pair compares equal with its key only. -/
theorem comp_eq_zero_iff :
    lookupswitchPairComp key.toInt (pairAt s block i) = 0 ↔ lookupMatch s.code s.pc i = key.toInt := by
  have hm := lookupMatch_bounds s.code s.pc i
  have hlo := key.le_toInt
  have hhi := key.toInt_lt
  rw [comp_pairAt, toS32_eq_zero (by constructor <;> omega)]
  omega

theorem sign_le_sign {a b : Int} (h : a ≤ b) : a.sign ≤ b.sign := by
  rcases Int.lt_trichotomy a 0 with ha | rfl | ha <;> rcases Int.lt_trichotomy b 0 with hb | rfl | hb
  all_goals simp only [Int.sign_zero, Int.sign_eq_neg_one_of_neg, Int.sign_eq_one_of_pos, *]
  all_goals omega

/-- The pairs are in order for a key from which the differences to all keys fit. -/
theorem signSorted_of_fits {key : Int} (ho : byteAt s.code s.pc = opcLookupswitch)
    (hfits : ∀ j < lookupswitchCount s.code s.pc, -2 ^ 31 ≤ key - lookupMatch s.code s.pc j ∧
      key - lookupMatch s.code s.pc j < 2 ^ 31) : SignSorted (lookupswitchPairComp key) (pairsOf s block) := by
  rw [SignSorted, pairsOf, pairwise_map]
  refine pairwise_iff_getElem.mpr fun i j hi hj hij => ?_
  rw [length_range] at hi hj
  rw [getElem_range, getElem_range, comp_pairAt, comp_pairAt, toS32_of_fits (hfits i hi),
    toS32_of_fits (hfits j hj)]
  have hasc := s.ascending ho i j hij hj
  exact sign_le_sign (by omega)

/-- The pairs are not in order for a key of the switch from which the difference to another key wraps. -/
theorem not_signSorted {i j : Nat} (ho : byteAt s.code s.pc = opcLookupswitch) (hi : i < lookupswitchCount s.code s.pc)
    (hj : j < lookupswitchCount s.code s.pc)
    (hwraps : ¬ (-2 ^ 31 ≤ lookupMatch s.code s.pc i - lookupMatch s.code s.pc j ∧
      lookupMatch s.code s.pc i - lookupMatch s.code s.pc j < 2 ^ 31)) :
    ¬ SignSorted (lookupswitchPairComp (lookupMatch s.code s.pc i)) (pairsOf s block) := by
  intro h
  have hmi := lookupMatch_bounds s.code s.pc i
  have hmj := lookupMatch_bounds s.code s.pc j
  have hgeti : (pairsOf s block)[i]? = some (pairAt s block i) := getElem?_pairsOf.mpr ⟨hi, rfl⟩
  have hgetj : (pairsOf s block)[j]? = some (pairAt s block j) := getElem?_pairsOf.mpr ⟨hj, rfl⟩
  have hself : lookupswitchPairComp (lookupMatch s.code s.pc i) (pairAt s block i) = 0 := by
    rw [comp_pairAt, Int.sub_self]
    rfl
  rcases Nat.lt_trichotomy i j with hij | rfl | hji
  · have hasc := s.ascending ho i j hij hj
    have hpos : 0 < lookupswitchPairComp (lookupMatch s.code s.pc i) (pairAt s block j) := by
      rw [comp_pairAt]
      exact toS32_pos (by omega) (by omega)
    have hle := h.sign_le hgeti hgetj hij
    rw [hself, Int.sign_eq_one_of_pos hpos] at hle
    exact absurd hle (by decide)
  · exact hwraps ⟨by omega, by omega⟩
  · have hasc := s.ascending ho j i hji hi
    have hneg : lookupswitchPairComp (lookupMatch s.code s.pc i) (pairAt s block j) < 0 := by
      rw [comp_pairAt]
      exact toS32_neg (by omega) (by omega)
    have hle := h.sign_le hgetj hgeti hji
    rw [hself, Int.sign_eq_neg_one_of_neg hneg] at hle
    exact absurd hle (by decide)

end Compare

section ControlLookup

variable {bs : Bsearch} {cu : Flow.CompilationUnit} {needs : Nat → Nat → Bool} {key : BitVec 32} {bb : Nat}
  {s : Site} {c : Converted} {defaultBb b1 : Nat} {block : Nat → Nat}

theorem exec_ifNull (h : search bs key table = none) :
    exec bs cu needs key bb (.ifNull target table) = some ((patchedTarget cu needs bb target).bind (landing cu)) := if_pos h

theorem exec_not_ifNull (h : search bs key table ≠ none) :
    exec bs cu needs key bb (.ifNull target table) = none := if_neg h

theorem exec_lookupswitchJump (h : search bs key table = some i) : exec bs cu needs key bb (.lookupswitchJump table) =
      some (((backpatchLookupswitch cu needs table)[i]?.join).bind (landing cu)) := by
  rw [exec, h, bind_some]

theorem LookupConverted.control_none (h : LookupConverted s c defaultBb b1 block)
    (hnone : bs.find (lookupswitchPairComp key.toInt) (pairsOf s block) = none) :
    control bs c.cu needs key c.stmts = some defaultBb := by
  have hsearch : search bs key ⟨b1, pairsOf s block⟩ = none := by rw [search, hnone]
  rw [h.stmts, control_jump (exec_ifNull hsearch), landing_of_mem h.default_edge]

/-- The result of a search is a pair with the key, and control goes to its target. -/
theorem LookupConverted.control_some (h : LookupConverted s c defaultBb b1 block)
    (hsome : bs.find (lookupswitchPairComp key.toInt) (pairsOf s block) = some i) :
    i < lookupswitchCount s.code s.pc ∧ lookupMatch s.code s.pc i = key.toInt ∧
      control bs c.cu needs key c.stmts = some (block i) := by
  obtain ⟨pair, hget, hzero⟩ := bs.sound hsome
  obtain ⟨hi, rfl⟩ := getElem?_pairsOf.mp hget
  refine ⟨hi, comp_eq_zero_iff.mp hzero, ?_⟩
  have hsearch : search bs key ⟨b1, pairsOf s block⟩ = some i := by rw [search, hsome]
  have hne : search bs key ⟨b1, pairsOf s block⟩ ≠ none := by
    rw [hsearch]
    exact some_ne_none i
  rw [h.stmts, control_fall (exec_not_ifNull hne) h.next, control_jump (exec_lookupswitchJump hsearch), backpatchLookupswitch,
    getElem?_map, hget]
  exact landing_of_mem (h.block_edge i hi) needs

theorem jvmTarget_of_match {k : Int} (ho : byteAt s.code s.pc = opcLookupswitch)
    (hi : i < lookupswitchCount s.code s.pc) (hk : lookupMatch s.code s.pc i = k) :
    jvmTarget s.code s.pc k = lookupTarget s.code s.pc i := by
  rw [jvmTarget, if_neg (by rw [ho]; decide)]
  cases hfind : (List.range (lookupswitchCount s.code s.pc)).find? fun j => lookupMatch s.code s.pc j == k with
  | none =>
    rw [find?_eq_none] at hfind
    exact absurd (hfind i (mem_range.mpr hi)) (by simp [hk])
  | some j =>
    have hj : lookupMatch s.code s.pc j = k := by simpa using find?_some hfind
    have hjlt := mem_range.mp (mem_of_find?_eq_some hfind)
    -- the keys ascend, so that there is one such pair
    rcases Nat.lt_trichotomy i j with hij | rfl | hji
    · have := s.ascending ho i j hij hjlt
      omega
    · rfl
    · have := s.ascending ho j i hji hi
      omega

theorem jvmTarget_of_no_match {k : Int} (ho : byteAt s.code s.pc = opcLookupswitch)
    (hno : ∀ i < lookupswitchCount s.code s.pc, lookupMatch s.code s.pc i ≠ k) :
    jvmTarget s.code s.pc k = defaultTarget s.code s.pc := by
  have hfind : ((List.range (lookupswitchCount s.code s.pc)).find? fun j => lookupMatch s.code s.pc j == k) = none := by
    rw [find?_eq_none]
    intro i hi
    simpa using hno i (mem_range.mp hi)
  rw [jvmTarget, if_neg (by rw [ho]; decide), hfind]

end ControlLookup

/-! ## Both switches -/

/-- The difference of each key and any other key fits an `int32_t`, unless the key leads to the default target. -/
def KeysFit (code : List UInt8) (pc : Nat) : Prop :=
  ∀ i < lookupswitchCount code pc, ∀ j < lookupswitchCount code pc,
    -2 ^ 31 ≤ lookupMatch code pc i - lookupMatch code pc j ∧ lookupMatch code pc i - lookupMatch code pc j < 2 ^ 31 ∨
      lookupTarget code pc i = defaultTarget code pc

theorem LookupConverted.control_eq
    (h : LookupConverted s c defaultBb b1 block) (ho : byteAt s.code s.pc = opcLookupswitch) (hfit : KeysFit s.code s.pc)
    (bs : Bsearch) (needs : Nat → Nat → Bool) (key : BitVec 32) :
    ∃ b, control bs c.cu needs key c.stmts = some b ∧ ((c.cu.block b).start : Int) = jvmTarget s.code s.pc key.toInt := by
  cases hfind : bs.find (lookupswitchPairComp key.toInt) (pairsOf s block) with
  | some i =>
    obtain ⟨hi, hk, hcontrol⟩ := h.control_some hfind
    exact ⟨block i, hcontrol, by rw [h.block_start i hi, jvmTarget_of_match ho hi hk]⟩
  | none =>
    refine ⟨defaultBb, h.control_none hfind, ?_⟩
    rw [h.default_start]
    by_cases hmatch : ∃ i < lookupswitchCount s.code s.pc, lookupMatch s.code s.pc i = key.toInt
    · obtain ⟨i, hi, hk⟩ := hmatch
      rw [jvmTarget_of_match ho hi hk]
      by_contra hne
      -- all differences fit, so the search would have found the pair
      refine bs.complete (signSorted_of_fits ho fun j hj => ?_) ⟨pairAt s block i, ?_, comp_eq_zero_iff.mpr hk⟩ hfind
      · rw [← hk]
        exact (hfit i hi j hj).resolve_right fun heq => hne heq.symm
      · exact List.mem_map.mpr ⟨i, mem_range.mpr hi, rfl⟩
    · rw [jvmTarget_of_no_match ho fun i hi hk => hmatch ⟨i, hi, hk⟩]

/-- **Converted switches** go where they should exactly if the keys of a lookupswitch fit. -/
theorem switchCorrect_iff (s : Site) :
    SwitchCorrect s ↔ (byteAt s.code s.pc = opcLookupswitch → KeysFit s.code s.pc) := by
  rcases s.isSwitch with ho | ho
  · refine iff_of_true ?_ fun hl => absurd (ho.symm.trans hl) (by decide)
    obtain ⟨c, defaultBb, b1, b2, block, hconv, h⟩ := convertTableswitch_spec s ho
    exact ⟨c, by rw [convertSwitch, if_pos ho, hconv], h.control_eq ho⟩
  · obtain ⟨c, defaultBb, b1, block, hconv, h⟩ := convertLookupswitch_spec s ho
    have hconv' : convertSwitch s.code s.pc s.cu s.bb = some c := by rw [convertSwitch, if_neg (by rw [ho]; decide), hconv]
    constructor
    · rintro ⟨c', hc', hall⟩ - i hi j hj
      obtain rfl := Option.some.inj (hconv'.symm.trans hc')
      by_contra hnot
      obtain ⟨hwraps, htarget⟩ := not_or.mp hnot
      have hm := lookupMatch_bounds s.code s.pc i
      -- the key itself in a register, and a search that finds nothing out of order
      have hkey : (BitVec.ofInt 32 (lookupMatch s.code s.pc i)).toInt = lookupMatch s.code s.pc i := by
        rw [BitVec.toInt_ofInt]
        exact toS32_of_fits hm
      obtain ⟨b, hb, hstart⟩ := hall cautious (fun _ _ => false) (BitVec.ofInt 32 (lookupMatch s.code s.pc i))
      have hnone : cautious.find (lookupswitchPairComp (BitVec.ofInt 32 (lookupMatch s.code s.pc i)).toInt)
          (pairsOf s block) = none := by
        rw [hkey]
        exact cautious_of_not_signSorted (not_signSorted ho hi hj hwraps)
      rw [h.control_none hnone] at hb
      rw [← Option.some.inj hb, h.default_start, hkey, jvmTarget_of_match ho hi rfl] at hstart
      exact htarget hstart.symm
    · intro hfit
      exact ⟨c, hconv', h.control_eq ho (hfit ho)⟩

/-- **Switches of verified methods** go where they should after the analysis of the control flow. -/
theorem switches_of_analyze (m : VerifiedMethod)
    (hled : ∀ eh ∈ m.exceptionTable, LedByHandler m.toMethodCode eh.handlerPc) :
    ∃ cu, analyzeControlFlow m.toMethodCode = some cu ∧ ∀ pc len, InsnStart m.code pc → InsnAt m.code pc len →
      byteAt m.code pc = opcTableswitch ∨ byteAt m.code pc = opcLookupswitch →
      (byteAt m.code pc = opcLookupswitch → KeysFit m.code pc ∧ ∀ i j, i < j → j < lookupswitchCount m.code pc →
        lookupMatch m.code pc i < lookupMatch m.code pc j) →
      ∃ bb ∈ cu.bbList, (cu.block bb).stop = pc + len ∧ ∃ c, convertSwitch m.code pc cu bb = some c ∧
        ∀ (bs : Bsearch) (needs : Nat → Nat → Bool) (key : BitVec 32), ∃ b, control bs c.cu needs key c.stmts = some b ∧
          ((c.cu.block b).start : Int) = jvmTarget m.code pc key.toInt := by
  obtain ⟨cu, hcu, h, -⟩ := (analyzeControlFlow_spec m).1 hled
  refine ⟨cu, hcu, fun pc len hpc hi hsw hkeys => ?_⟩
  obtain ⟨s, hcode, rfl, rfl, hstop⟩ := exists_site h hpc hi hsw fun ho => (hkeys ho).2
  refine ⟨s.bb, s.bb_mem, hstop, ?_⟩
  rw [← hcode] at hkeys ⊢
  rcases s.isSwitch with ho | ho
  · obtain ⟨c, defaultBb, b1, b2, block, hconv, hc⟩ := convertTableswitch_spec s ho
    exact ⟨c, by rw [convertSwitch, if_pos ho, hconv], hc.control_eq ho⟩
  · obtain ⟨c, defaultBb, b1, block, hconv, hc⟩ := convertLookupswitch_spec s ho
    exact ⟨c, by rw [convertSwitch, if_neg (by rw [ho]; decide), hconv], hc.control_eq ho (hkeys ho).1⟩

/-- `iconst_0`, a lookupswitch with the keys 0 and 5, two returns, and an athrow that handles exceptions of the switch. -/
def guardedSwitchCode : List UInt8 :=
  [3, 0xab, 0, 0, 0, 0, 0, 27, 0, 0, 0, 2, 0, 0, 0, 0, 0, 0, 0, 28, 0, 0, 0, 5, 0, 0, 0, 27, 0xb1, 0xb1, 0xbf]

theorem guardedSwitchCode_switch : InsnStart guardedSwitchCode 1 ∧ InsnAt guardedSwitchCode 1 27 := by
  have hfirst : InsnAt guardedSwitchCode 0 1 := ⟨by decide, rfl, by decide⟩
  exact ⟨InsnStart.zero.next hfirst, by decide, by decide, by decide⟩

theorem guardedSwitchCode_first : InsnStart guardedSwitchCode 28 :=
  guardedSwitchCode_switch.1.next guardedSwitchCode_switch.2

theorem guardedSwitchCode_second : InsnStart guardedSwitchCode 29 :=
  guardedSwitchCode_first.next (⟨by decide, rfl, by decide⟩ : InsnAt guardedSwitchCode 28 1)

theorem guardedSwitchCode_handler : InsnStart guardedSwitchCode 30 :=
  guardedSwitchCode_second.next (⟨by decide, rfl, by decide⟩ : InsnAt guardedSwitchCode 29 1)

def guardedSwitch : VerifiedMethod where
  code := guardedSwitchCode
  exceptionTable := [⟨0, 28, 30, 0⟩]
  nonempty := by decide
  length_lt := by decide
  complete := guardedSwitchCode_handler.next (⟨by decide, rfl, by decide⟩ : InsnAt _ 30 1)
  dests := by
    intro pc hpc _ d hd
    have hswitch : ∀ pc < 31, bcIsBranch (byteAt guardedSwitchCode pc) = true → pc = 1 := by decide
    obtain rfl := hswitch pc hpc (Flow.bcIsBranch_of_jumpDest hd)
    have htargets : lookupswitchTargets guardedSwitchCode 1 = [28, 29, 28] := by decide
    rw [← mem_lookupswitchTargets guardedSwitchCode_switch.2 (by decide), htargets] at hd
    simp only [mem_cons, not_mem_nil, or_false] at hd
    rcases hd with rfl | rfl | rfl
    · exact ⟨by decide, by decide, guardedSwitchCode_first⟩
    · exact ⟨by decide, by decide, guardedSwitchCode_second⟩
    · exact ⟨by decide, by decide, guardedSwitchCode_first⟩
  handlers := by
    intro eh heh
    cases mem_singleton.mp heh
    exact ⟨by decide, by decide, guardedSwitchCode_handler⟩

theorem switches_of_analyze_guarded : ∃ cu, analyzeControlFlow guardedSwitch.toMethodCode = some cu ∧ ∃ bb c,
    convertSwitch guardedSwitchCode 1 cu bb = some c ∧
      (∃ b, control halving c.cu (fun _ _ => false) 0 c.stmts = some b ∧ (c.cu.block b).start = 29) ∧
      ∃ b, control halving c.cu (fun _ _ => true) 7 c.stmts = some b ∧ (c.cu.block b).start = 28 := by
  have hled : ∀ eh ∈ guardedSwitch.exceptionTable, LedByHandler guardedSwitch.toMethodCode eh.handlerPc := by
    intro eh heh
    cases mem_singleton.mp heh
    -- the athrow follows a return, so a block starts there
    refine ⟨30, Nat.le_refl _, .inl ?_, ⟨_, heh, rfl⟩, fun _ _ hle => hle⟩
    exact .inr ⟨29, ⟨guardedSwitchCode_second, 1, ⟨by decide, rfl, by decide⟩, rfl⟩, by decide⟩
  obtain ⟨cu, hcu, h⟩ := switches_of_analyze guardedSwitch hled
  obtain ⟨hs, hi⟩ := guardedSwitchCode_switch
  have hfits : KeysFit guardedSwitchCode 1 := by
    rw [KeysFit]
    decide
  have hcount : lookupswitchCount guardedSwitchCode 1 = 2 := by decide
  have hascending : ∀ i j, i < j → j < lookupswitchCount guardedSwitchCode 1 →
      lookupMatch guardedSwitchCode 1 i < lookupMatch guardedSwitchCode 1 j := by
    intro i j hij hj
    obtain ⟨rfl, rfl⟩ : i = 0 ∧ j = 1 := by omega
    decide
  obtain ⟨bb, -, -, c, hc, hgo⟩ := h 1 27 hs hi (.inr (by decide)) fun _ => ⟨hfits, hascending⟩
  obtain ⟨b, hb, hstart⟩ := hgo halving (fun _ _ => false) 0
  obtain ⟨b', hb', hstart'⟩ := hgo halving (fun _ _ => true) 7
  have htarget : jvmTarget guardedSwitchCode 1 0 = 29 := by decide
  have htarget' : jvmTarget guardedSwitchCode 1 7 = 28 := by decide
  exact ⟨cu, hcu, bb, c, hc, ⟨b, hb, Int.ofNat.inj (hstart.trans htarget)⟩, b', hb', Int.ofNat.inj (hstart'.trans htarget')⟩

/-- `iload_0`, a lookupswitch with the keys `-2`, `-1` and `2147483647`, and two returns. -/
def wideKeysCode : List UInt8 :=
  [0x1a, 0xab, 0, 0, 0, 0, 0, 35, 0, 0, 0, 3,
    0xff, 0xff, 0xff, 0xfe, 0, 0, 0, 35, 0xff, 0xff, 0xff, 0xff, 0, 0, 0, 35, 0x7f, 0xff, 0xff, 0xff, 0, 0, 0, 36,
    0xb1, 0xb1]

/-- Its blocks: the switch, and one for each return. -/
def wideKeysUnit : Flow.CompilationUnit where
  nrBb := 3
  block b := if b = 0 then { start := 0, stop := 36 } else { start := 35 + b, stop := 36 + b, hasReturn := true }
  bbList := [0, 1, 2]

def wideKeys : Site where
  code := wideKeysCode
  length_lt := by decide
  pc := 1
  isSwitch := .inr (by decide)
  complete := ⟨35, by decide, by decide, by decide⟩
  cu := wideKeysUnit
  listed := by decide
  bb := 0
  bb_mem := by decide
  bb_le := by decide
  targets := by
    intro d hd
    cases hd with
    | branch _ _ hls => exact absurd (by decide) hls
    | tableDefault ho => exact absurd ho (by decide)
    | tableCase _ ho => exact absurd ho (by decide)
    | lookupDefault => exact ⟨by decide, 1, by decide, by decide⟩
    | lookupCase i _ hi =>
      have hcount : lookupswitchCount wideKeysCode 1 = 3 := by decide
      rw [hcount] at hi
      have hall : ∀ i < 3, lookupTarget wideKeysCode 1 i = 36 ∨ lookupTarget wideKeysCode 1 i = 37 := by decide
      change 0 ≤ lookupTarget wideKeysCode 1 i ∧ ∃ b, findBb wideKeysUnit (lookupTarget wideKeysCode 1 i).toNat = some b ∧
        ((wideKeysUnit.block b).start : Int) = lookupTarget wideKeysCode 1 i
      rcases hall i hi with h | h
      · rw [h]
        exact ⟨by decide, 1, by decide, by decide⟩
      · rw [h]
        exact ⟨by decide, 2, by decide, by decide⟩
  ascending := by
    intro _ i j hij hj
    have hcount : lookupswitchCount wideKeysCode 1 = 3 := by decide
    rw [hcount] at hj
    have hall : ∀ j < 3, ∀ i < j, lookupMatch wideKeysCode 1 i < lookupMatch wideKeysCode 1 j := by decide
    exact hall j hj i hij

/-- The binary search does not find the key `2147483647`, so control goes to the default target. -/
theorem not_switchCorrect_wideKeys : ¬ SwitchCorrect wideKeys := by
  rintro ⟨c, hc, hall⟩
  obtain ⟨b, hb, hstart⟩ := hall halving (fun _ _ => false) 2147483647#32
  have hrun : (convertSwitch wideKeysCode 1 wideKeysUnit 0).map (fun c =>
      (control halving c.cu (fun _ _ => false) 2147483647#32 c.stmts, (c.cu.block 1).start)) = some (some 1, 36) := by decide
  have hc' : convertSwitch wideKeysCode 1 wideKeysUnit 0 = some c := hc
  rw [hc', map_some, hb] at hrun
  obtain ⟨hb1, hs1⟩ := Prod.mk.inj (Option.some.inj hrun)
  rw [Option.some.inj hb1, hs1] at hstart
  exact absurd hstart (by decide)

end Jato.Jit.Switch
