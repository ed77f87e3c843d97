import Jato.Jit.MimicStack
import Jato.Lib.FoldM

/-!
# The conversion of all blocks

The depth-first conversion reaches every reachable block, and spills and reloads each of them once. `Converted` says what
is known of the slots, the statements and the entries of the converted blocks; `convertBlocks_spec` proves it of the
result, and `exists_convertBlocks` that there is one.
-/

namespace Jato.Jit.Mimic

open Jato.Lib List Function

variable {Op : Type} {cfg : Cfg Op} {conv conv' : Conversion Op} {bb s fuel : Nat} {z : Slot}

/-! ## Spilling -/

/-- The exit or entry slots that are made for the mimic stack of `bb`. -/
def slotsOf (bb : Nat) (entry : Bool) (mimicStack : List (VmType × Term Op Leaf)) : List Slot :=
  mimicStack.zipIdx.map fun (expr, i) => ⟨bb, entry, i, expr.1⟩

def storesOf (bb : Nat) (mimicStack : List (VmType × Term Op Leaf)) : List (SpillStmt Op) :=
  mimicStack.zipIdx.map fun (expr, i) => .store ⟨bb, false, i, expr.1⟩ expr.2

theorem mem_slotsOf {entry : Bool} {mimicStack : List (VmType × Term Op Leaf)} : z ∈ slotsOf bb entry mimicStack ↔
      z.creator = bb ∧ z.entry = entry ∧ ∃ e, mimicStack[z.slotNdx]? = some (z.vmType, e) := by
  unfold slotsOf
  rw [mem_map]
  constructor
  · rintro ⟨⟨⟨t, e⟩, i⟩, hmem, rfl⟩
    exact ⟨rfl, rfl, e, mk_mem_zipIdx_iff_getElem?.mp hmem⟩
  · obtain ⟨creator, entry', i, t⟩ := z
    rintro ⟨rfl, rfl, e, he⟩
    exact ⟨((t, e), i), mk_mem_zipIdx_iff_getElem?.mpr he, rfl⟩

theorem foldl_spillExpression (bb : Nat) (hasBranch : Bool) (exprs : List ((VmType × Term Op Leaf) × Nat))
    (front : List (SpillStmt Op)) (exits reload : List Slot) :
    exprs.foldl (fun spilled (expr, i) => spillExpression bb hasBranch spilled expr i)
        ⟨front ++ (if hasBranch then [.ending] else []), exits, reload⟩ =
      ⟨front ++ exprs.map (fun (expr, i) => .store ⟨bb, false, i, expr.1⟩ expr.2) ++ (if hasBranch then [.ending] else []),
        exits ++ exprs.map (fun (expr, i) => ⟨bb, false, i, expr.1⟩),
        reload ++ exprs.map (fun (expr, i) => ⟨bb, true, i, expr.1⟩)⟩ := by
  induction exprs generalizing front exits reload with
  | nil => simp
  | cons a exprs ih =>
    obtain ⟨⟨t, e⟩, i⟩ := a
    have hstep : spillExpression bb hasBranch ⟨front ++ (if hasBranch then [.ending] else []), exits, reload⟩ (t, e) i =
        ⟨(front ++ [.store ⟨bb, false, i, t⟩ e]) ++ (if hasBranch then [.ending] else []),
          exits ++ [⟨bb, false, i, t⟩], reload ++ [⟨bb, true, i, t⟩]⟩ := by
      cases hasBranch <;> simp [spillExpression]
    rw [foldl_cons]
    refine (congrArg (fun spilled => exprs.foldl _ spilled) hstep).trans ((ih ..).trans ?_)
    simp

/-- The stores stand in front of the statement that ends the block only where the block is known to have one. -/
theorem spillMimicStack_eq (block : BasicBlock Op) : spillMimicStack bb block =
    ⟨if block.ending.hasBranch then storesOf bb block.mimicStack ++ [.ending]
      else (if block.ending.hasStatement then [.ending] else []) ++ storesOf bb block.mimicStack,
      slotsOf bb false block.mimicStack, slotsOf bb true block.mimicStack⟩ := by
  unfold spillMimicStack storesOf slotsOf
  cases hbranch : block.ending.hasBranch with
  | true =>
    have hstmt : block.ending.hasStatement = true := by
      revert hbranch
      cases block.ending <;> simp [Ending.hasBranch, Ending.hasStatement]
    simpa [hstmt] using foldl_spillExpression bb true block.mimicStack.zipIdx [] [] []
  | false =>
    simpa using foldl_spillExpression bb false block.mimicStack.zipIdx
      (if block.ending.hasStatement then [.ending] else []) [] []

/-! ## Reloading -/

/-- What the reload of a list of blocks does. -/
structure Reloads (reload : List Slot) (l : List Nat) (conv conv' : Conversion Op) : Prop where
  isConverted : conv'.isConverted = conv.isConverted
  stmts : conv'.stmts = conv.stmts
  exprs : ∀ bb z, z ∈ conv'.mimicStackExpr bb ↔ z ∈ conv.mimicStackExpr bb ∨ bb ∈ l ∧ z ∈ reload
  entry : ∀ bb, conv'.entry bb = if bb ∈ l then some ((conv.entry bb).getD (reload.map .slot)) else conv.entry bb

theorem foldl_reloadMimicStack (reload : List Slot) (l : List Nat) (conv : Conversion Op) :
    Reloads reload l conv (l.foldl (reloadMimicStack reload) conv) := by
  induction l generalizing conv with
  | nil => exact ⟨rfl, rfl, by simp, by simp⟩
  | cons s l ih =>
    obtain ⟨h1, h2, h3, h4⟩ := ih (reloadMimicStack reload conv s)
    refine ⟨h1, h2, fun bb z => ?_, fun bb => ?_⟩
    · rw [foldl_cons, h3]
      by_cases hbb : bb = s
      · subst hbb
        simp [reloadMimicStack]
        tauto
      · simp [reloadMimicStack, hbb]
    · rw [foldl_cons, h4]
      by_cases hbb : bb = s
      · subst hbb
        cases he : conv.entry bb <;> simp [reloadMimicStack, he]
      · have hentry : (reloadMimicStack reload conv s).entry bb = conv.entry bb := by
          cases he : conv.entry s <;> simp [reloadMimicStack, he, hbb]
        simp [hentry, hbb]

/-! ## Converted blocks -/

/-- The blocks that the conversion starts with. -/
def Root (cfg : Cfg Op) (bb : Nat) : Prop := bb = cfg.entryBb ∨ (cfg.block bb).isEh = true

/-- The slot has been made. -/
def Made (cfg : Cfg Op) (conv : Conversion Op) (z : Slot) : Prop :=
  z.creator ∈ conv.isConverted ∧ (cfg.block z.creator).successors ≠ [] ∧
    ∃ e, (cfg.block z.creator).mimicStack[z.slotNdx]? = some (z.vmType, e)

/-- The block has the slot among its expressions. -/
def Owner (cfg : Cfg Op) (bb : Nat) (z : Slot) : Prop :=
  if z.entry then bb ∈ (cfg.block z.creator).successors else bb = z.creator

structure Converted (cfg : Cfg Op) (conv : Conversion Op) : Prop where
  reachable : ∀ bb ∈ conv.isConverted, Reachable cfg bb
  exprs : ∀ bb z, z ∈ conv.mimicStackExpr bb ↔ Made cfg conv z ∧ Owner cfg bb z
  stmts : ∀ bb ∈ conv.isConverted, (cfg.block bb).successors ≠ [] →
    conv.stmts bb = (spillMimicStack bb (cfg.block bb)).stmts
  unspilled : ∀ bb, (cfg.block bb).successors = [] → conv.stmts bb = []
  entry : ∀ bb l, conv.entry bb = some l →
    (∃ p ∈ conv.isConverted, bb ∈ (cfg.block p).successors ∧ l = (slotsOf p true (cfg.block p).mimicStack).map .slot) ∨
      Root cfg bb ∧ l = defaultEntry (cfg.block bb)
  resolved : ∀ p ∈ conv.isConverted, ∀ s ∈ (cfg.block p).successors, (conv.entry s).isSome = true

theorem converted_initial : Converted cfg .initial :=
  ⟨nofun, fun _ _ => ⟨nofun, fun h => nomatch h.1.1⟩, nofun, fun _ _ => rfl, nofun, nofun⟩

/-- The mimic stack of the entry is resolved before the block is converted, or the block starts the conversion. -/
def Ready (cfg : Cfg Op) (conv : Conversion Op) (bb : Nat) : Prop :=
  Reachable cfg bb ∧ ((conv.entry bb).isSome = true ∨ Root cfg bb)

theorem Converted.doConvertBb_entry (h : Converted cfg conv) (hready : Ready cfg conv bb) (b : Nat) (l : List EntryOperand)
    (hl : (doConvertBb cfg bb conv).entry b = some l) :
    (∃ p ∈ conv.isConverted, b ∈ (cfg.block p).successors ∧ l = (slotsOf p true (cfg.block p).mimicStack).map .slot) ∨
      Root cfg b ∧ l = defaultEntry (cfg.block b) := by
  by_cases hb : b = bb
  · subst hb
    simp only [doConvertBb, update_self, Option.some.injEq] at hl
    cases he : conv.entry b with
    | some l' =>
      rw [he, Option.getD_some] at hl
      exact h.entry b l (hl ▸ he)
    | none =>
      rw [he, Option.getD_none] at hl
      exact .inr ⟨hready.2.resolve_left (by simp [he]), hl.symm⟩
  · simp only [doConvertBb, update_of_ne hb] at hl
    exact h.entry b l hl

theorem Converted.leaf (h : Converted cfg conv) (hready : Ready cfg conv bb) (hsucc : (cfg.block bb).successors = []) :
    Converted cfg (doConvertBb cfg bb conv) := by
  refine ⟨fun b hb => ?_, fun b z => ?_, fun b hb hne => ?_, h.unspilled, fun b l hl => ?_, fun p hp s hs => ?_⟩
  · rcases mem_cons.mp hb with rfl | hb
    · exact hready.1
    · exact h.reachable b hb
  · refine (h.exprs b z).trans (and_congr_left fun _ => ?_)
    refine and_congr_left fun hne => ⟨mem_cons_of_mem _, fun hmem => ?_⟩
    rcases mem_cons.mp hmem with heq | hmem
    · exact absurd (heq ▸ hsucc) hne.1
    · exact hmem
  · rcases mem_cons.mp hb with rfl | hb
    · exact absurd hsucc hne
    · exact h.stmts b hb hne
  · refine (h.doConvertBb_entry hready b l hl).imp_left ?_
    rintro ⟨p, hp, hrest⟩
    exact ⟨p, mem_cons_of_mem _ hp, hrest⟩
  · rcases mem_cons.mp hp with rfl | hp
    · rw [hsucc] at hs
      cases hs
    · have hsome := h.resolved p hp s hs
      by_cases hsb : s = bb
      · simp [doConvertBb, hsb]
      · simpa [doConvertBb, hsb] using hsome

/-- The state after the block is spilled, before it is reloaded in its successors. -/
theorem spillAndReload_reloads (cfg : Cfg Op) (bb : Nat) (conv : Conversion Op) :
    Reloads (slotsOf bb true (cfg.block bb).mimicStack) (cfg.block bb).successors
      { conv with
        mimicStackExpr := update conv.mimicStackExpr bb
          (conv.mimicStackExpr bb ++ slotsOf bb false (cfg.block bb).mimicStack)
        stmts := update conv.stmts bb (spillMimicStack bb (cfg.block bb)).stmts }
      (spillAndReload cfg bb conv) := by
  have h := foldl_reloadMimicStack (slotsOf bb true (cfg.block bb).mimicStack) (cfg.block bb).successors
    { conv with
      mimicStackExpr := update conv.mimicStackExpr bb
        (conv.mimicStackExpr bb ++ slotsOf bb false (cfg.block bb).mimicStack)
      stmts := update conv.stmts bb (spillMimicStack bb (cfg.block bb)).stmts }
  have hexit : (spillMimicStack bb (cfg.block bb)).exitSlots = slotsOf bb false (cfg.block bb).mimicStack := by
    rw [spillMimicStack_eq]
  have hreload : (spillMimicStack bb (cfg.block bb)).reloadStack = slotsOf bb true (cfg.block bb).mimicStack := by
    rw [spillMimicStack_eq]
  rw [spillAndReload, hexit, hreload]
  exact h

theorem mem_spillAndReload (b : Nat) (z : Slot) : z ∈ (spillAndReload cfg bb conv).mimicStackExpr b ↔
    z ∈ conv.mimicStackExpr b ∨ z ∈ slotsOf bb z.entry (cfg.block bb).mimicStack ∧ Owner cfg b z := by
  rw [(spillAndReload_reloads cfg bb conv).exprs]
  have hupdate : z ∈ update conv.mimicStackExpr bb
      (conv.mimicStackExpr bb ++ slotsOf bb false (cfg.block bb).mimicStack) b ↔
      z ∈ conv.mimicStackExpr b ∨ b = bb ∧ z ∈ slotsOf bb false (cfg.block bb).mimicStack := by
    by_cases hb : b = bb
    · subst hb
      simp
    · simp [hb]
  have howner : z ∈ slotsOf bb z.entry (cfg.block bb).mimicStack ∧ Owner cfg b z ↔
      b = bb ∧ z ∈ slotsOf bb false (cfg.block bb).mimicStack ∨
        b ∈ (cfg.block bb).successors ∧ z ∈ slotsOf bb true (cfg.block bb).mimicStack := by
    simp only [mem_slotsOf, Owner]
    cases z.entry with
    | true =>
      simp only [if_true, Bool.true_eq_false, false_and, and_false, false_or, true_and]
      constructor
      · rintro ⟨⟨rfl, he⟩, hb⟩
        exact ⟨hb, rfl, he⟩
      · rintro ⟨hb, rfl, he⟩
        exact ⟨⟨rfl, he⟩, hb⟩
    | false =>
      simp only [Bool.false_eq_true, if_false, false_and, and_false, or_false, true_and]
      constructor
      · rintro ⟨⟨rfl, he⟩, hb⟩
        exact ⟨hb, rfl, he⟩
      · rintro ⟨hb, rfl, he⟩
        exact ⟨⟨rfl, he⟩, hb⟩
  rw [hupdate, howner, or_assoc]

theorem Converted.spill (h : Converted cfg conv) (hready : Ready cfg conv bb) (hnew : bb ∉ conv.isConverted)
    (hsucc : (cfg.block bb).successors ≠ []) : Converted cfg (spillAndReload cfg bb (doConvertBb cfg bb conv)) := by
  have hreloads := spillAndReload_reloads cfg bb (doConvertBb cfg bb conv)
  have hconv : (spillAndReload cfg bb (doConvertBb cfg bb conv)).isConverted = bb :: conv.isConverted :=
    hreloads.isConverted
  refine ⟨fun b hb => ?_, fun b z => ?_, fun b hb hne => ?_, fun b hb => ?_, fun b l hl => ?_, fun p hp s hs => ?_⟩
  · rw [hconv] at hb
    rcases mem_cons.mp hb with rfl | hb
    · exact hready.1
    · exact h.reachable b hb
  · have hexprs := h.exprs b z
    rw [mem_spillAndReload, mem_slotsOf, Made, hconv, mem_cons]
    change z ∈ conv.mimicStackExpr b ∨ _ ↔ _
    rw [hexprs, Made]
    by_cases hz : z.creator = bb
    · rw [hz]
      simp [hnew, hsucc]
    · simp [hz]
  · rw [hconv] at hb
    rw [hreloads.stmts]
    by_cases hbb : b = bb
    · subst hbb
      exact update_self ..
    · refine (update_of_ne hbb ..).trans (h.stmts b ?_ hne)
      exact (mem_cons.mp hb).resolve_left hbb
  · have hbb : b ≠ bb := by
      rintro rfl
      exact hsucc hb
    rw [hreloads.stmts]
    exact (update_of_ne hbb ..).trans (h.unspilled b hb)
  · rw [hreloads.entry] at hl
    rw [hconv]
    have hold l (hl : (doConvertBb cfg bb conv).entry b = some l) :
        (∃ p ∈ bb :: conv.isConverted, b ∈ (cfg.block p).successors ∧
          l = (slotsOf p true (cfg.block p).mimicStack).map .slot) ∨ Root cfg b ∧ l = defaultEntry (cfg.block b) := by
      refine (h.doConvertBb_entry hready b l hl).imp_left ?_
      rintro ⟨p, hp, hrest⟩
      exact ⟨p, mem_cons_of_mem bb hp, hrest⟩
    by_cases hb : b ∈ (cfg.block bb).successors
    · rw [if_pos hb] at hl
      cases he : (doConvertBb cfg bb conv).entry b with
      | some l' =>
        rw [he] at hl
        exact hold l (hl ▸ he)
      | none =>
        change some (((doConvertBb cfg bb conv).entry b).getD _) = _ at hl
        rw [he] at hl
        exact .inl ⟨bb, mem_cons_self, hb, (Option.some.inj hl).symm⟩
    · rw [if_neg hb] at hl
      exact hold l hl
  · rw [hreloads.entry]
    by_cases hmem : s ∈ (cfg.block bb).successors
    · rw [if_pos hmem]
      rfl
    · rw [if_neg hmem]
      rw [hconv] at hp
      rcases mem_cons.mp hp with rfl | hp
      · exact absurd hs hmem
      · have hsome := h.resolved p hp s hs
        by_cases hsb : s = bb
        · simp [doConvertBb, hsb]
        · simpa [doConvertBb, hsb] using hsome

/-! ## The depth-first conversion -/

/-- What a conversion leaves behind: everything that was there, and the successors of all that is new. -/
structure Extends (cfg : Cfg Op) (conv conv' : Conversion Op) : Prop where
  converted : ∀ bb ∈ conv.isConverted, bb ∈ conv'.isConverted
  entry : ∀ bb, (conv.entry bb).isSome = true → (conv'.entry bb).isSome = true
  closed : ∀ bb ∈ conv'.isConverted, bb ∉ conv.isConverted → ∀ s ∈ (cfg.block bb).successors, s ∈ conv'.isConverted

theorem Extends.refl (conv : Conversion Op) : Extends cfg conv conv :=
  ⟨fun _ h => h, fun _ h => h, fun _ h hn => absurd h hn⟩

theorem Extends.trans {conv'' : Conversion Op} (h : Extends cfg conv conv') (h' : Extends cfg conv' conv'') :
    Extends cfg conv conv'' := by
  refine ⟨fun bb hb => h'.converted bb (h.converted bb hb), fun bb hb => h'.entry bb (h.entry bb hb), fun bb hb hn s hs => ?_⟩
  by_cases hmid : bb ∈ conv'.isConverted
  · exact h'.converted s (h.closed bb hmid hn s hs)
  · exact h'.closed bb hb hmid s hs

theorem convertBbToIr_spec (h : Converted cfg conv) (hready : Ready cfg conv bb)
    (hrun : convertBbToIr cfg fuel bb conv = some conv') :
    Converted cfg conv' ∧ Extends cfg conv conv' ∧ bb ∈ conv'.isConverted := by
  induction fuel generalizing bb conv conv' with
  | zero => cases hrun
  | succ fuel ih =>
    rw [convertBbToIr] at hrun
    by_cases hdone : bb ∈ conv.isConverted
    · rw [if_pos hdone] at hrun
      cases hrun
      exact ⟨h, .refl conv, hdone⟩
    · rw [if_neg hdone] at hrun
      by_cases hsucc : (cfg.block bb).successors = []
      · rw [if_pos hsucc] at hrun
        cases hrun
        refine ⟨h.leaf hready hsucc, ⟨fun b hb => mem_cons_of_mem _ hb, fun b hb => ?_, fun b hb hn s hs => ?_⟩,
          mem_cons_self⟩
        · by_cases hbb : b = bb
          · simp [doConvertBb, hbb]
          · simpa [doConvertBb, hbb] using hb
        · rw [(mem_cons.mp hb).resolve_right hn, hsucc] at hs
          cases hs
      · rw [if_neg hsucc] at hrun
        have hconv₁ := h.spill hready hdone hsucc
        have hreloads := spillAndReload_reloads cfg bb (doConvertBb cfg bb conv)
        have hmem : bb ∈ (spillAndReload cfg bb (doConvertBb cfg bb conv)).isConverted := by
          rw [hreloads.isConverted]
          exact mem_cons_self
        -- the successors have their entries, and keep them while the blocks before them are converted
        obtain ⟨⟨hconv', -⟩, hext, hall⟩ := foldlM_inv
          (I := fun c => Converted cfg c ∧ bb ∈ c.isConverted) (R := Extends cfg) Extends.refl Extends.trans
          (fun {c s c'} hs hc hrun => by
            have hready' : Ready cfg c s := ⟨.successor hready.1 hs, .inl (hc.1.resolved bb hc.2 s hs)⟩
            obtain ⟨hc', hext, -⟩ := ih hc.1 hready' hrun
            exact ⟨⟨hc', hext.converted bb hc.2⟩, hext⟩)
          ⟨hconv₁, hmem⟩ hrun
        refine ⟨hconv', ⟨fun b hb => ?_, fun b hb => ?_, fun b hb hn s hs => ?_⟩, hext.converted bb hmem⟩
        · refine hext.converted b ?_
          rw [hreloads.isConverted]
          exact mem_cons_of_mem _ hb
        · refine hext.entry b ?_
          rw [hreloads.entry]
          split_ifs
          · rfl
          · by_cases hbb : b = bb
            · simp [doConvertBb, hbb]
            · simpa [doConvertBb, hbb] using hb
        · by_cases hbb : b = bb
          · rw [hbb] at hs
            obtain ⟨c₁, c₂, hc₁, hstep, -, hext₂⟩ := hall s hs
            have hready' : Ready cfg c₁ s := ⟨.successor hready.1 hs, .inl (hc₁.1.resolved bb hc₁.2 s hs)⟩
            exact hext₂.converted s (ih hc₁.1 hready' hstep).2.2
          · refine hext.closed b hb (fun hmem₁ => ?_) s hs
            rw [hreloads.isConverted] at hmem₁
            rcases mem_cons.mp hmem₁ with heq | hmem₁
            · exact hbb heq
            · exact hn hmem₁

/-- **All reachable blocks are converted.** -/
theorem convertBlocks_spec (hrun : convertBlocks cfg fuel = some conv) :
    Converted cfg conv ∧ ∀ bb, Reachable cfg bb → bb ∈ conv.isConverted := by
  obtain ⟨conv₁, hentry, hrun⟩ := Option.bind_eq_some_iff.mp hrun
  obtain ⟨hconv₁, hext₁, hmem₁⟩ := convertBbToIr_spec converted_initial ⟨.entry, .inr (.inl rfl)⟩ hentry
  have hstep {c} {b} {c'} (hb : b ∈ cfg.bbList.filter fun b => (cfg.block b).isEh)
      (hc : Converted cfg c) (hrun : convertBbToIr cfg fuel b c = some c') :
      Converted cfg c' ∧ Extends cfg c c' ∧ b ∈ c'.isConverted := by
    obtain ⟨hmem, heh⟩ := mem_filter.mp hb
    exact convertBbToIr_spec hc ⟨.handler hmem heh, .inr (.inr heh)⟩ hrun
  obtain ⟨hconv, hext, hall⟩ := foldlM_inv (I := Converted cfg) (R := Extends cfg) Extends.refl Extends.trans
    (fun hb hc hrun => ⟨(hstep hb hc hrun).1, (hstep hb hc hrun).2.1⟩) hconv₁ hrun
  refine ⟨hconv, fun bb hbb => ?_⟩
  induction hbb with
  | entry => exact hext.converted _ hmem₁
  | @handler b hmem heh =>
    have hb : b ∈ cfg.bbList.filter fun b => (cfg.block b).isEh := mem_filter.mpr ⟨hmem, heh⟩
    obtain ⟨c₁, c₂, hc₁, hrun, -, hext₂⟩ := hall b hb
    exact hext₂.converted b (hstep hb hc₁ hrun).2.2
  | @successor b s _ hs ih => exact (hext₁.trans hext).closed b ih (by nofun) s hs

/-! ## The conversion comes to an end -/

/-- The number of blocks that are still to be converted. -/
def unconverted (cfg : Cfg Op) (conv : Conversion Op) : Nat :=
  (cfg.bbList.filter fun bb => bb ∉ conv.isConverted).length

theorem filter_unconverted_sublist (h : ∀ bb ∈ conv.isConverted, bb ∈ conv'.isConverted) :
    (cfg.bbList.filter fun bb => bb ∉ conv'.isConverted).Sublist (cfg.bbList.filter fun bb => bb ∉ conv.isConverted) := by
  refine monotone_filter_right _ fun b hb => ?_
  simp only [decide_eq_true_eq] at hb ⊢
  exact fun hmem => hb (h b hmem)

theorem unconverted_le (h : ∀ bb ∈ conv.isConverted, bb ∈ conv'.isConverted) :
    unconverted cfg conv' ≤ unconverted cfg conv :=
  (filter_unconverted_sublist h).length_le

theorem unconverted_lt (hmem : bb ∈ cfg.bbList) (hnew : bb ∉ conv.isConverted)
    (h : conv'.isConverted = bb :: conv.isConverted) : unconverted cfg conv' < unconverted cfg conv := by
  have hsub : ∀ b ∈ conv.isConverted, b ∈ conv'.isConverted := by
    intro b hb
    rw [h]
    exact mem_cons_of_mem bb hb
  refine Nat.lt_of_le_of_ne (unconverted_le hsub) fun heq => ?_
  have hfilter :=
    (filter_unconverted_sublist hsub).eq_of_length heq
  have hbb : bb ∈ cfg.bbList.filter fun b => b ∉ conv.isConverted := by simpa using ⟨hmem, hnew⟩
  rw [← hfilter, h] at hbb
  simp at hbb

theorem exists_convertBbToIr {depth : Nat → Nat} (hwf : cfg.WellFormed depth) (h : Converted cfg conv)
    (hready : Ready cfg conv bb) (hmem : bb ∈ cfg.bbList) (hfuel : unconverted cfg conv < fuel) :
    ∃ conv', convertBbToIr cfg fuel bb conv = some conv' := by
  induction fuel generalizing bb conv with
  | zero => cases hfuel
  | succ fuel ih =>
    rw [convertBbToIr]
    split_ifs with hdone hsucc
    · exact ⟨_, rfl⟩
    · exact ⟨_, rfl⟩
    · have hreloads := spillAndReload_reloads cfg bb (doConvertBb cfg bb conv)
      have hlt := unconverted_lt hmem hdone hreloads.isConverted
      have hbb : bb ∈ (spillAndReload cfg bb (doConvertBb cfg bb conv)).isConverted := by
        rw [hreloads.isConverted]
        exact mem_cons_self
      -- each of the successors has one block less to convert
      have hloop := foldlM_exists (l := (cfg.block bb).successors)
        (I := fun c => Converted cfg c ∧ bb ∈ c.isConverted ∧ unconverted cfg c < fuel)
        (fun c s hs ⟨hc, hbc, hcount⟩ => by
          have hready' : Ready cfg c s := ⟨.successor hready.1 hs, .inl (hc.resolved bb hbc s hs)⟩
          obtain ⟨c', hrun⟩ := ih hc hready' (hwf.successor_mem bb s hs).2 hcount
          obtain ⟨hc', hext, -⟩ := convertBbToIr_spec hc hready' hrun
          exact ⟨c', hrun, hc', hext.converted bb hbc, lt_of_le_of_lt (unconverted_le hext.converted) hcount⟩)
        ⟨h.spill hready hdone hsucc, hbb, by omega⟩
      obtain ⟨conv', hrun, -⟩ := hloop
      exact ⟨conv', hrun⟩

/-- **The conversion of all blocks comes to an end.** -/
theorem exists_convertBlocks {depth : Nat → Nat} (hwf : cfg.WellFormed depth) :
    ∃ fuel conv, convertBlocks cfg fuel = some conv := by
  have hinit : unconverted cfg .initial < cfg.bbList.length + 1 := Nat.lt_succ_of_le (length_filter_le ..)
  have hready : Ready cfg .initial cfg.entryBb := ⟨.entry, .inr (.inl rfl)⟩
  obtain ⟨conv₁, hrun₁⟩ := exists_convertBbToIr hwf converted_initial hready hwf.entryBb_mem hinit
  obtain ⟨hconv₁, hext₁, -⟩ := convertBbToIr_spec converted_initial hready hrun₁
  have hloop := foldlM_exists (l := cfg.bbList.filter fun b => (cfg.block b).isEh)
    (I := fun c => Converted cfg c ∧ unconverted cfg c < cfg.bbList.length + 1)
    (fun c b hb ⟨hc, hcount⟩ => by
      obtain ⟨hmem, heh⟩ := mem_filter.mp hb
      have hready' : Ready cfg c b := ⟨.handler hmem heh, .inr (.inr heh)⟩
      obtain ⟨c', hrun⟩ := exists_convertBbToIr hwf hc hready' hmem hcount
      obtain ⟨hc', hext, -⟩ := convertBbToIr_spec hc hready' hrun
      exact ⟨c', hrun, hc', lt_of_le_of_lt (unconverted_le hext.converted) hcount⟩)
    ⟨hconv₁, lt_of_le_of_lt (unconverted_le hext₁.converted) hinit⟩
  obtain ⟨conv, hrun, -⟩ := hloop
  refine ⟨cfg.bbList.length + 1, conv, ?_⟩
  rw [convertBlocks, hrun₁]
  exact hrun

end Jato.Jit.Mimic
