import Jato.Jit.MimicStackResolve
import Jato.Vm.FieldLayout

/-!
# When operands are handed on

The spill stores of a block are assignments to the temporaries of its exit. Whether an expression reads one of them is a
question about the graph (`leafLoc_eq_iff`), and so is whether the stores act as one simultaneous assignment. Together
with the end of the resolution this is `correct_iff_handedOn`: the operands of all blocks are handed on exactly when each
block meets `HandedOn`. `slotsResolved_iff` says when the slots denote what they are for in the first place.
-/

namespace Jato.Jit.Mimic

open Jato.Lib Jato.Lib.Graph List Option
open Jato.Vm.FieldLayout (WordSize)

variable {Op V : Type} {cfg : Cfg Op} {conv : Conversion Op} {depth : Nat → Nat} {bb s i j m : Nat}
  {z z' : Slot} {r : Resolved} {t t' : VmType} {e e' : Term Op Leaf} {x : Leaf}
  {mimicStack : List (VmType × Term Op Leaf)} {ρ : Resolution}

/-! ## Places -/

/-- What the conversion and the resolution have established. -/
structure Finished (cfg : Cfg Op) (depth : Nat → Nat) (conv : Conversion Op) (r : Resolved) : Prop where
  wellFormed : cfg.WellFormed depth
  plain : cfg.Plain
  converted : Converted cfg conv
  all : ∀ bb, Reachable cfg bb → bb ∈ conv.isConverted
  resolving : Resolving cfg conv r
  resolved : ∀ z, Made cfg conv z → (r.1.lookup z).isSome = true

namespace Finished

section

variable (h : Finished cfg depth conv r)
include h

theorem loc_made (hz : Made cfg conv z) : ∃ tmp, r.1.lookup z = some tmp ∧ r.1.loc z = .var tmp.tmpLow := by
  obtain ⟨tmp, htmp⟩ := isSome_iff_exists.mp (h.resolved z hz)
  exact ⟨tmp, htmp, by rw [Resolution.loc, htmp]⟩

theorem loc_eq_iff (hz : Made cfg conv z) (hz' : Made cfg conv z') : r.1.loc z = r.1.loc z' ↔ Together cfg z z' := by
  obtain ⟨tmp, htmp, hloc⟩ := h.loc_made hz
  obtain ⟨tmp', htmp', hloc'⟩ := h.loc_made hz'
  rw [hloc, hloc']
  constructor
  · intro heq
    exact h.resolving.distinct z z' tmp tmp' htmp htmp' _ mem_cons_self (Loc.var.inj heq ▸ mem_cons_self)
  · intro htogether
    have := h.resolving.uniform z z' hz' htogether tmp htmp
    rw [htmp'] at this
    rw [Option.some.inj this]

theorem made (hbb : Reachable cfg bb) (hs : s ∈ (cfg.block bb).successors)
    (he : (cfg.block bb).mimicStack[i]? = some (t, e)) (entry : Bool) : Made cfg conv ⟨bb, entry, i, t⟩ :=
  ⟨h.all bb hbb, ne_nil_of_mem hs, e, he⟩

/-- The block starts with the slots that one of its predecessors has made. -/
theorem entryLoc_of_entry (hs : s ∈ (cfg.block bb).successors) (hbb : Reachable cfg bb)
    (hentry : conv.entry s = some ((slotsOf bb true (cfg.block bb).mimicStack).map .slot)) (hi : i < depth s) :
    ∃ t, Made cfg conv ⟨bb, true, i, t⟩ ∧ conv.entryLoc r.1 s i = some (r.1.loc ⟨bb, true, i, t⟩) := by
  rw [h.wellFormed.depth_successor bb s hbb hs] at hi
  have he :=
    getElem?_eq_getElem hi
  refine ⟨_, h.made hbb hs he true, ?_⟩
  simp [Conversion.entryLoc, hentry, slotsOf, he, EntryOperand.loc]

/-- A block that is not a handler starts with the slots of a predecessor. -/
theorem entryLoc_successor (hbb : Reachable cfg bb) (hs : s ∈ (cfg.block bb).successors) (hi : i < depth s) :
    ∃ p t, s ∈ (cfg.block p).successors ∧ Made cfg conv ⟨p, true, i, t⟩ ∧
      conv.entryLoc r.1 s i = some (r.1.loc ⟨p, true, i, t⟩) := by
  obtain ⟨l, hl⟩ := isSome_iff_exists.mp (h.converted.resolved bb (h.all bb hbb) s hs)
  rcases h.converted.entry s l hl with ⟨p, hp, hsp, rfl⟩ | ⟨hroot | heh, -⟩
  · obtain ⟨t, hmade, hloc⟩ := h.entryLoc_of_entry hsp (h.converted.reachable p hp) hl hi
    exact ⟨p, t, hsp, hmade, hloc⟩
  · rw [hroot, h.wellFormed.depth_entryBb] at hi
    cases hi
  · rw [h.plain.notEh bb s hs] at heh
    cases heh

theorem leafLoc_handler (heh : (cfg.block m).isEh = true) : conv.leafLoc r.1 (.entry m i) = .exceptionRef := by
  rw [Conversion.leafLoc, Conversion.entryLoc]
  cases hentry : conv.entry m with
  | none => rfl
  | some l =>
    rcases h.converted.entry m l hentry with ⟨p, -, hmp, -⟩ | ⟨-, rfl⟩
    · rw [h.plain.notEh p m hmp] at heh
      cases heh
    · rw [bind_some, defaultEntry, if_pos heh]
      cases i <;> rfl

theorem not_shares_handler (heh : (cfg.block m).isEh = true) : ¬ Shares cfg bb m := by
  intro hshares
  obtain ⟨heq⟩ | ⟨⟨p, side⟩, -, hadj⟩ := Relation.ReflTransGen.cases_tail hshares
  · cases heq
  · obtain ⟨hm, hside⟩ := mem_sides.mp hadj
    cases side with
    | true => cases hside
    | false =>
      rw [h.plain.notEh p m hm] at heh
      cases heh

section

variable (hz : Made cfg conv ⟨bb, false, i, t⟩)

include hz

/-- **An expression reads a temporary of the exit** exactly where it reads this operand of a block that shares it. -/
theorem leafLoc_eq_iff (hx : x.Valid cfg depth) :
    conv.leafLoc r.1 x = r.1.loc ⟨bb, false, i, t⟩ ↔ ∃ m, x = .entry m i ∧ Shares cfg bb m := by
  cases x with
  | var n =>
    obtain ⟨tmp, htmp, hloc⟩ := h.loc_made hz
    have hrange := (h.resolving.range _ tmp htmp _ mem_cons_self).1
    have hn : n < cfg.nextVar := hx
    rw [hloc]
    constructor
    · intro heq
      have hn' := Loc.var.inj heq
      omega
    · rintro ⟨m, hm, -⟩
      cases hm
  | entry m j =>
    obtain ⟨hm, hj⟩ := hx
    have hexists : (∃ m', Leaf.entry m j = .entry m' i ∧ Shares cfg bb m') ↔ j = i ∧ Shares cfg bb m := by
      constructor
      · rintro ⟨m', heq, hshares⟩
        cases heq
        exact ⟨rfl, hshares⟩
      · rintro ⟨rfl, hshares⟩
        exact ⟨m, rfl, hshares⟩
    rw [hexists]
    by_cases heh : (cfg.block m).isEh = true
    · obtain ⟨tmp, -, hloc⟩ := h.loc_made hz
      rw [h.leafLoc_handler heh, hloc]
      exact ⟨nofun, fun hshares => absurd hshares.2 (h.not_shares_handler heh)⟩
    · obtain ⟨p, t', hmp, hmade, hloc⟩ : ∃ p t', m ∈ (cfg.block p).successors ∧ Made cfg conv ⟨p, true, j, t'⟩ ∧
          conv.entryLoc r.1 m j = some (r.1.loc ⟨p, true, j, t'⟩) := by
        cases hm with
        | entry =>
          rw [h.wellFormed.depth_entryBb] at hj
          cases hj
        | handler _ heh' => exact absurd heh' heh
        | successor hb hs => exact h.entryLoc_successor hb hs hj
      rw [Conversion.leafLoc, hloc, getD_some, eq_comm, h.loc_eq_iff hz hmade, Together]
      have hlink : Graph.Linked (sides cfg) (p, false) (m, true) := .single (mem_sides_exit.mpr hmp)
      refine and_congr eq_comm ⟨fun hp => hp.trans hlink, fun hm => ?_⟩
      exact hm.trans (hlink.symm (sides_symm h.wellFormed))

theorem idle_iff_unchanged (he : ∀ x ∈ e.vars, x.Valid cfg depth) :
    Idle (r.1.loc ⟨bb, false, i, t⟩, e.map (conv.leafLoc r.1)) ↔ Unchanged cfg bb i e := by
  unfold Idle Unchanged
  cases e with
  | var x =>
    have hiff := h.leafLoc_eq_iff hz (he x (mem_singleton.mpr rfl))
    simp only [Term.map, Term.var.injEq, hiff]
  | const op | app f arg => simp [Term.map]

theorem notMem_iff_untouched (he : ∀ x ∈ e.vars, x.Valid cfg depth) :
    r.1.loc ⟨bb, false, i, t⟩ ∉ (e.map (conv.leafLoc r.1)).vars ↔ Untouched cfg bb i e := by
  rw [Term.vars_map, List.mem_map]
  constructor
  · intro hnot m hm hshares
    exact hnot ⟨_, hm, (h.leafLoc_eq_iff hz (he _ hm)).mpr ⟨m, rfl, hshares⟩⟩
  · rintro huntouched ⟨x, hx, heq⟩
    obtain ⟨m, rfl, hshares⟩ := (h.leafLoc_eq_iff hz (he x hx)).mp heq
    exact huntouched m hx hshares

end

end

end Finished

/-! ## The spill stores -/

/-- The assignments of the spill stores. -/
def spills (conv : Conversion Op) (ρ : Resolution) (bb : Nat) (mimicStack : List (VmType × Term Op Leaf)) :
    List (Loc × Term Op Loc) :=
  mimicStack.zipIdx.map fun (expr, i) => (ρ.loc ⟨bb, false, i, expr.1⟩, expr.2.map (conv.leafLoc ρ))

theorem getElem?_spills (conv : Conversion Op) (ρ : Resolution) (bb : Nat) (mimicStack : List (VmType × Term Op Leaf)) (i : Nat) :
    (spills conv ρ bb mimicStack)[i]? =
      mimicStack[i]?.map fun expr => (ρ.loc ⟨bb, false, i, expr.1⟩, expr.2.map (conv.leafLoc ρ)) := by
  simp [spills, getElem?_zipIdx, Function.comp_def]

theorem mem_spills {a : Loc × Term Op Loc} : a ∈ spills conv ρ bb mimicStack ↔ ∃ i t e, mimicStack[i]? = some (t, e) ∧
      a = (ρ.loc ⟨bb, false, i, t⟩, e.map (conv.leafLoc ρ)) := by
  rw [mem_iff_getElem?]
  refine exists_congr fun i => ?_
  rw [getElem?_spills, map_eq_some_iff]
  constructor
  · rintro ⟨⟨t, e⟩, he, rfl⟩
    exact ⟨t, e, he, rfl⟩
  · rintro ⟨t, e, he, rfl⟩
    exact ⟨(t, e), he, rfl⟩

theorem pairwise_spills_iff
    {R : Loc × Term Op Loc → Loc × Term Op Loc → Prop} : (spills conv ρ bb mimicStack).Pairwise R ↔
    ∀ i j t e t' e', i < j → mimicStack[i]? = some (t, e) → mimicStack[j]? = some (t', e') →
      R (ρ.loc ⟨bb, false, i, t⟩, e.map (conv.leafLoc ρ)) (ρ.loc ⟨bb, false, j, t'⟩, e'.map (conv.leafLoc ρ)) := by
  rw [pairwise_iff_getElem]
  constructor
  · intro hall i j t e t' e' hij he he'
    have hget := getElem?_spills conv ρ bb mimicStack
    have hi := hget i
    have hj := hget j
    rw [he, map_some, getElem?_eq_some_iff] at hi
    rw [he', map_some, getElem?_eq_some_iff] at hj
    obtain ⟨hi, hi'⟩ := hi
    obtain ⟨hj, hj'⟩ := hj
    rw [← hi', ← hj']
    exact hall i j hi hj hij
  · intro hall i j hi hj hij
    have hget := getElem?_spills conv ρ bb mimicStack
    obtain ⟨⟨t, e⟩, he, heq⟩ := map_eq_some_iff.mp ((hget i).symm.trans (getElem?_eq_getElem hi))
    obtain ⟨⟨t', e'⟩, he', heq'⟩ := map_eq_some_iff.mp ((hget j).symm.trans (getElem?_eq_getElem hj))
    rw [← heq, ← heq']
    exact hall i j t e t' e' hij he he'

theorem assigns_storesOf (ρ : Resolution) (mimicStack : List (VmType × Term Op Leaf)) :
    assigns conv ρ (storesOf bb mimicStack) = spills conv ρ bb mimicStack := by
  unfold assigns storesOf spills
  induction mimicStack.zipIdx with
  | nil => rfl
  | cons a l ih =>
    obtain ⟨expr, i⟩ := a
    exact congrArg (_ :: ·) ih

variable (l : List (SpillStmt Op)) (ending : Ending Nat)

theorem assigns_append (ρ : Resolution) (l' : List (SpillStmt Op)) :
    assigns conv ρ (l ++ l') = assigns conv ρ l ++ assigns conv ρ l' := filterMap_append

theorem beforeEnding_storesOf (mimicStack : List (VmType × Term Op Leaf)) :
    beforeEnding (storesOf bb mimicStack ++ l) = storesOf bb mimicStack ++ beforeEnding l := by
  unfold beforeEnding
  refine takeWhile_append_of_pos fun stmt hstmt => ?_
  obtain ⟨⟨expr, i⟩, -, rfl⟩ := mem_map.mp hstmt
  rfl

/-- The stores of the block come after the statement that ends it. -/
def storesLate (ending : Ending Op) : Bool := !ending.hasBranch && ending.hasStatement

section Stmts

variable (block : BasicBlock Op) (ρ : Resolution)

theorem assigns_spilled : assigns conv ρ (spillMimicStack bb block).stmts = spills conv ρ bb block.mimicStack := by
  rw [spillMimicStack_eq]
  have hending : assigns conv ρ [(.ending : SpillStmt Op)] = [] := rfl
  split_ifs
  · rw [assigns_append, assigns_storesOf, hending, append_nil]
  · rw [assigns_append, assigns_storesOf, hending, nil_append]
  · rw [nil_append, assigns_storesOf]

theorem assigns_beforeEnding : assigns conv ρ (beforeEnding (spillMimicStack bb block).stmts) =
    if storesLate block.ending then [] else spills conv ρ bb block.mimicStack := by
  rw [spillMimicStack_eq]
  have hall l (hl : beforeEnding l = []) :
      assigns conv ρ (beforeEnding (storesOf bb block.mimicStack ++ l)) = spills conv ρ bb block.mimicStack := by
    rw [beforeEnding_storesOf, hl, append_nil, assigns_storesOf]
  by_cases hbranch : block.ending.hasBranch = true
  · rw [if_pos hbranch, if_neg (by simp [storesLate, hbranch])]
    exact hall [.ending] rfl
  · by_cases hstmt : block.ending.hasStatement = true
    · rw [if_neg hbranch, if_pos hstmt, if_pos (by simp [storesLate, hbranch, hstmt])]
      rfl
    · rw [if_neg hbranch, if_neg hstmt, if_neg (by simp [storesLate, hstmt]), nil_append]
      simpa using hall [] rfl

theorem storesLate_cases {ending : Ending Op} (h : storesLate ending = true) :
    ending = .leave ∨ ∃ d c, ending = .lookupswitchNull d c := by
  cases ending with
  | leave => exact Or.inl rfl
  | lookupswitchNull d c => exact Or.inr ⟨d, c, rfl⟩
  | fallThrough | goto_ | branch | tableswitchLow | tableswitchHigh | tableswitchJump | lookupswitchJump => cases h

end Stmts

/-! ## One block -/

section Block

variable (h : Finished cfg depth conv r) (hbb : Reachable cfg bb) (hne : (cfg.block bb).successors ≠ [])
include h hbb hne

theorem made_exit (he : (cfg.block bb).mimicStack[i]? = some (t, e)) : Made cfg conv ⟨bb, false, i, t⟩ :=
  ⟨h.all bb hbb, hne, e, he⟩

theorem nodup_spills : ((spills conv r.1 bb (cfg.block bb).mimicStack).map Prod.fst).Nodup := by
  rw [List.Nodup, pairwise_map, pairwise_spills_iff]
  intro i j t e t' e' hij he he' heq
  have htogether := (h.loc_eq_iff (made_exit h hbb hne he) (made_exit h hbb hne he')).mp heq
  exact absurd htogether.1 (Nat.ne_of_lt hij)

theorem simultaneous_spills_iff : Simultaneous (spills conv r.1 bb (cfg.block bb).mimicStack) ↔
    ∀ i j t e t' e', i < j → (cfg.block bb).mimicStack[i]? = some (t, e) →
      (cfg.block bb).mimicStack[j]? = some (t', e') → Unchanged cfg bb i e ∨ Untouched cfg bb i e' := by
  rw [Simultaneous, pairwise_spills_iff]
  have hvalid {i} {t} {e} (he : (cfg.block bb).mimicStack[i]? = some (t, e)) :=
    h.wellFormed.mimicStack_valid bb t e hbb (mem_of_getElem? he)
  constructor
  · intro hall i j t e t' e' hij he he'
    have hz := made_exit h hbb hne he
    exact (hall i j t e t' e' hij he he').imp (h.idle_iff_unchanged hz (hvalid he)).mp
      (h.notMem_iff_untouched hz (hvalid he')).mp
  · intro hall i j t e t' e' hij he he'
    have hz := made_exit h hbb hne he
    exact (hall i j t e t' e' hij he he').imp (h.idle_iff_unchanged hz (hvalid he)).mpr
      (h.notMem_iff_untouched hz (hvalid he')).mpr

theorem entryLoc_eq (hs : s ∈ (cfg.block bb).successors) (he : (cfg.block bb).mimicStack[i]? = some (t, e)) :
    ∃ n, r.1.loc ⟨bb, false, i, t⟩ = .var n ∧ conv.entryLoc r.1 s i = some (.var n) := by
  have hz := made_exit h hbb hne he
  have hi : i < depth s := by
    rw [h.wellFormed.depth_successor bb s hbb hs]
    exact (List.getElem?_eq_some_iff.mp he).1
  obtain ⟨tmp, -, hloc⟩ := h.loc_made hz
  obtain ⟨p, t', hsp, hmade, hentry⟩ := h.entryLoc_successor hbb hs hi
  have hlink : Graph.Linked (sides cfg) (p, false) (s, true) := .single (mem_sides_exit.mpr hsp)
  have hlink' : Graph.Linked (sides cfg) (bb, false) (s, true) := .single (mem_sides_exit.mpr hs)
  have htogether : Together cfg ⟨bb, false, i, t⟩ ⟨p, true, i, t'⟩ :=
    ⟨rfl, hlink'.trans (hlink.symm (sides_symm h.wellFormed))⟩
  refine ⟨tmp.tmpLow, hloc, ?_⟩
  rw [hentry, ← (h.loc_eq_iff hz hmade).mpr htogether, hloc]

omit h hbb hne in
/-- The stores that are executed before an edge is taken. -/
def edgeSpills (cfg : Cfg Op) (conv : Conversion Op) (ρ : Resolution) (bb s : Nat) : List (Loc × Term Op Loc) :=
  if (cfg.block bb).ending.jumpsTo s && storesLate (cfg.block bb).ending then []
  else spills conv ρ bb (cfg.block bb).mimicStack

theorem edgeState_eq (I : Interpretation Op V) (σ : Loc → V) :
    edgeState conv r.1 (cfg.block bb).ending (conv.stmts bb) s I σ = runAssigns I (edgeSpills cfg conv r.1 bb s) σ := by
  unfold edgeState edgeSpills
  rw [h.converted.stmts bb (h.all bb hbb) hne]
  cases (cfg.block bb).ending.jumpsTo s with
  | true => rw [if_pos rfl, assigns_beforeEnding, Bool.true_and]
  | false => rw [if_neg Bool.false_ne_true, assigns_spilled, Bool.false_and, if_neg Bool.false_ne_true]

theorem assigns_beforeEnding_stmts : assigns conv r.1 (beforeEnding (conv.stmts bb)) =
    if storesLate (cfg.block bb).ending then [] else spills conv r.1 bb (cfg.block bb).mimicStack := by
  rw [h.converted.stmts bb (h.all bb hbb) hne, assigns_beforeEnding]

/-- **Sufficiency** for one block. -/
theorem blockCorrect_of_handedOn (hon : HandedOn cfg bb) : BlockCorrect cfg conv r.1 bb := by
  have hnodup := nodup_spills h hbb hne
  have hsim := (simultaneous_spills_iff h hbb hne).mpr hon.stores
  have hvalid {i} {t} {e} (he : (cfg.block bb).mimicStack[i]? = some (t, e)) :=
    h.wellFormed.mimicStack_valid bb t e hbb (mem_of_getElem? he)
  constructor
  · intro V I σ c hc
    rw [assigns_beforeEnding_stmts h hbb hne]
    split_ifs
    · rfl
    · refine eval_runAssigns hnodup hsim fun a ha => ?_
      obtain ⟨i, t, e, he, rfl⟩ := mem_spills.mp ha
      have hz := made_exit h hbb hne he
      exact (hon.selector c hc i t e he).imp (h.idle_iff_unchanged hz (hvalid he)).mpr
        (h.notMem_iff_untouched hz (h.wellFormed.selector_valid bb c hbb hc)).mpr
  · intro V I σ s hs i t e he
    obtain ⟨n, hloc, hentry⟩ := entryLoc_eq h hbb hne hs he
    refine ⟨n, hentry, ?_⟩
    rw [edgeState_eq h hbb hne, ← hloc, edgeSpills]
    split_ifs with hlate
    · -- the default edge of a lookupswitch, before all stores
      rw [Bool.and_eq_true] at hlate
      rcases storesLate_cases hlate.2 with hleave | ⟨d, c, hlookup⟩
      · rw [hleave] at hlate
        cases hlate.1
      · have hidle := (h.idle_iff_unchanged (made_exit h hbb hne he) (hvalid he)).mpr (hon.lookupswitch d c hlookup i t e he)
        exact (congrArg (Term.eval I σ) hidle).symm
    · exact runAssigns_simultaneous hnodup hsim (mem_spills.mpr ⟨i, t, e, he, rfl⟩)

section

variable (hcorrect : BlockCorrect cfg conv r.1 bb)

include hcorrect

/-- Where an edge is taken before the stores, all of them store temporaries to themselves. -/
theorem unchanged_of_blockCorrect (hs : s ∈ (cfg.block bb).successors)
    (hnil : edgeSpills cfg conv r.1 bb s = []) (he : (cfg.block bb).mimicStack[i]? = some (t, e)) :
    Unchanged cfg bb i e := by
  obtain ⟨n, hloc, hentry⟩ := entryLoc_eq h hbb hne hs he
  obtain ⟨n', hentry', hval⟩ := hcorrect.reloaded Term.free .var s hs i t e he
  obtain rfl : n = n' := Loc.var.inj (Option.some.inj (hentry.symm.trans hentry'))
  rw [edgeState_eq h hbb hne, hnil, Term.eval_free_var, ← hloc] at hval
  exact (h.idle_iff_unchanged (made_exit h hbb hne he)
    (h.wellFormed.mimicStack_valid bb t e hbb (mem_of_getElem? he))).mp hval.symm

theorem simultaneous_of_blockCorrect (hs : s ∈ (cfg.block bb).successors)
    (hall : edgeSpills cfg conv r.1 bb s = spills conv r.1 bb (cfg.block bb).mimicStack) :
    Simultaneous (spills conv r.1 bb (cfg.block bb).mimicStack) := by
  refine simultaneous_of_free (nodup_spills h hbb hne) fun a ha => ?_
  obtain ⟨i, t, e, he, rfl⟩ := mem_spills.mp ha
  obtain ⟨n, hloc, hentry⟩ := entryLoc_eq h hbb hne hs he
  obtain ⟨n', hentry', hval⟩ := hcorrect.reloaded Term.free .var s hs i t e he
  obtain rfl : n = n' := Loc.var.inj (Option.some.inj (hentry.symm.trans hentry'))
  rw [edgeState_eq h hbb hne, hall, Term.eval_free_var, ← hloc] at hval
  exact hval

/-- **Necessity** for one block, in the free interpretation of the operators. -/
theorem handedOn_of_blockCorrect (hstack : (cfg.block bb).mimicStack ≠ []) : HandedOn cfg bb := by
  have hvalid {i} {t} {e} (he : (cfg.block bb).mimicStack[i]? = some (t, e)) :=
    h.wellFormed.mimicStack_valid bb t e hbb (mem_of_getElem? he)
  have hacyclic : ∀ c k, Cycle (sides cfg) c k → ¬ Graph.Linked (sides cfg) (bb, false) (c 0) := by
    obtain ⟨⟨t, e⟩, htop⟩ := exists_mem_of_ne_nil _ hstack
    obtain ⟨i, he⟩ := mem_iff_getElem?.mp htop
    obtain ⟨tmp, htmp, -⟩ := h.loc_made (made_exit h hbb hne he)
    exact h.resolving.acyclic _ tmp htmp
  by_cases hlookup : ∃ d c, (cfg.block bb).ending = .lookupswitchNull d c
  · obtain ⟨d, c, hlookup⟩ := hlookup
    have hnil : edgeSpills cfg conv r.1 bb d = [] := by
      rw [edgeSpills, hlookup]
      exact if_pos (by simp [Ending.jumpsTo, storesLate, Ending.hasBranch, Ending.hasStatement])
    have hall i t e (he : (cfg.block bb).mimicStack[i]? = some (t, e)) :=
      unchanged_of_blockCorrect h hbb hne hcorrect (h.wellFormed.default_mem bb d c hlookup) hnil he
    exact ⟨hacyclic, fun i j t e t' e' _ he _ => Or.inl (hall i t e he), fun _ _ i t e he => Or.inl (hall i t e he),
      fun _ _ _ => hall⟩
  · obtain ⟨s, hs⟩ := exists_mem_of_ne_nil _ hne
    have hspills : edgeSpills cfg conv r.1 bb s = spills conv r.1 bb (cfg.block bb).mimicStack := by
      refine if_neg fun hlate => ?_
      rw [Bool.and_eq_true] at hlate
      rcases storesLate_cases hlate.2 with hleave | hlookup'
      · rw [hleave] at hlate
        cases hlate.1
      · exact hlookup hlookup'
    have hsim := simultaneous_of_blockCorrect h hbb hne hcorrect hs hspills
    refine ⟨hacyclic, (simultaneous_spills_iff h hbb hne).mp hsim, fun c hc i t e he => ?_,
      fun d c hlookup' => absurd ⟨d, c, hlookup'⟩ hlookup⟩
    have hearly : storesLate (cfg.block bb).ending ≠ true := by
      intro hlate
      rcases storesLate_cases hlate with hleave | hlookup'
      · rw [hleave] at hc
        cases hc
      · exact hlookup hlookup'
    have hval := hcorrect.selector Term.free .var c hc
    rw [assigns_beforeEnding_stmts h hbb hne, if_neg hearly, Term.eval_free_var] at hval
    have hz := made_exit h hbb hne he
    exact (idle_or_notMem_of_free (nodup_spills h hbb hne) hsim hval (mem_spills.mpr ⟨i, t, e, he, rfl⟩)).imp
      (h.idle_iff_unchanged hz (hvalid he)).mp
      (h.notMem_iff_untouched hz (h.wellFormed.selector_valid bb c hbb hc)).mp

end

end Block

/-! ## All blocks -/

theorem finished (hwf : cfg.WellFormed depth) (hplain : cfg.Plain) {fuel fuel' : Nat}
    (hconv : convertBlocks cfg fuel = some conv) (hresolve : resolveBlocks cfg conv fuel' = some r) :
    Finished cfg depth conv r := by
  obtain ⟨hconverted, hall⟩ := convertBlocks_spec hconv
  obtain ⟨hresolving, hresolved⟩ := resolveBlocks_spec hwf hplain.notSelf hconverted hresolve
  exact ⟨hwf, hplain, hconverted, hall, hresolving, hresolved⟩

theorem Correct.handedOn (hcorrect : Correct cfg) (hwf : cfg.WellFormed depth) (hplain : cfg.Plain)
    (hbb : Reachable cfg bb) (hstack : (cfg.block bb).mimicStack ≠ []) (hne : (cfg.block bb).successors ≠ []) :
    HandedOn cfg bb := by
  obtain ⟨fuel, fuel', conv, r, hconv, hresolve, hall⟩ := hcorrect
  have h := finished hwf hplain hconv hresolve
  exact handedOn_of_blockCorrect h hbb hne (hall bb (h.all bb hbb) hstack) hstack

/-- `vm_type_size` -/
def vmTypeSize (w : WordSize) : VmType → Nat
  | .void => 0
  | .byte | .boolean => 1
  | .short | .char => 2
  | .int | .float => 4
  | .long | .double => 8
  | .reference | .returnAddress => w.bytes

/-- The bytes that a temporary holds. Expressions have a `tmp_high` on 32-bit machines only. -/
def Temporary.size (w : WordSize) (tmp : Temporary) : Nat :=
  vmTypeSize w tmp.lowType + if w = .four ∧ tmp.tmpHigh.isSome then vmTypeSize w .int else 0

/-- What the resolution is for: an exit slot and the entry slots of this place in the successors are one temporary, which
is wide enough for their values, and slots of another place of the block are other temporaries. -/
structure SlotsResolved (w : WordSize) (cfg : Cfg Op) (conv : Conversion Op) (ρ : Resolution) : Prop where
  resolved : ∀ bb, ∀ z ∈ conv.mimicStackExpr bb, (ρ.lookup z).isSome = true
  same : ∀ bb, ∀ s ∈ (cfg.block bb).successors, ∀ z ∈ conv.mimicStackExpr bb, ∀ z' ∈ conv.mimicStackExpr s,
    z.entry = false → z'.entry = true → z.slotNdx = z'.slotNdx → ρ.lookup z = ρ.lookup z'
  wide : ∀ bb, ∀ z ∈ conv.mimicStackExpr bb, ∀ tmp, ρ.lookup z = some tmp → vmTypeSize w z.vmType ≤ tmp.size w
  distinct : ∀ bb, ∀ z ∈ conv.mimicStackExpr bb, ∀ z' ∈ conv.mimicStackExpr bb, z.slotNdx ≠ z'.slotNdx →
    ∀ tmp tmp', ρ.lookup z = some tmp → ρ.lookup z' = some tmp' → tmp.vars.Disjoint tmp'.vars

/-- A long is given a variable of the type `J_INT`, and on a 64-bit machine nothing else. -/
theorem size_pickTemporary (w : WordSize) (t : VmType) (n : Nat) :
    vmTypeSize w t ≤ (pickTemporary t n).1.size w ↔ w = .four ∨ t ≠ .long := by
  unfold pickTemporary Temporary.size
  by_cases ht : t = .long
  · cases w <;> simp [ht, vmTypeSize]
  · simp [ht]

/-- Blocks whose exits are connected leave values of the same types in the same places, as the verifier has made sure. -/
def Cfg.TypesAgree (cfg : Cfg Op) : Prop :=
  ∀ (bb bb' i : Nat) t e t' e', Reachable cfg bb → Reachable cfg bb' → (cfg.block bb).mimicStack[i]? = some (t, e) →
    (cfg.block bb').mimicStack[i]? = some (t', e') → Graph.Linked (sides cfg) (bb, false) (bb', false) → t = t'

theorem Cfg.TypesAgree.vmType_eq (h : cfg.TypesAgree) (hconv : Converted cfg conv) (hz : Made cfg conv z)
    (hz' : Made cfg conv z') (htogether : Together cfg z z') : z.vmType = z'.vmType := by
  obtain ⟨hmem, -, e, he⟩ := hz
  obtain ⟨hmem', -, e', he'⟩ := hz'
  exact h _ _ _ _ e _ e' (hconv.reachable _ hmem) (hconv.reachable _ hmem') he (htogether.1 ▸ he') htogether.2

/-- No reachable block hands on a long. -/
def Cfg.NoLong (cfg : Cfg Op) : Prop :=
  ∀ bb, Reachable cfg bb → (cfg.block bb).successors ≠ [] → ∀ t e, (t, e) ∈ (cfg.block bb).mimicStack → t ≠ .long

theorem noLong_iff (hconv : Converted cfg conv) (hall : ∀ bb, Reachable cfg bb → bb ∈ conv.isConverted) :
    cfg.NoLong ↔ ∀ bb, ∀ z ∈ conv.mimicStackExpr bb, z.vmType ≠ .long := by
  constructor
  · intro h bb z hz
    obtain ⟨⟨hmem, hne, e, he⟩, -⟩ := (hconv.exprs bb z).mp hz
    exact h _ (hconv.reachable _ hmem) hne _ e (mem_of_getElem? he)
  · intro h bb hbb hne t e hmem
    obtain ⟨i, he⟩ := mem_iff_getElem?.mp hmem
    exact h bb ⟨bb, false, i, t⟩ ((hconv.exprs bb _).mpr ⟨⟨hall bb hbb, hne, e, he⟩, rfl⟩)

/-- A constant is on the stack while the first block chooses between the second and the third one, which the second one
goes to as well. -/
def choiceCfg (ending : Ending Nat) : Cfg Nat where
  block
    | 0 => ⟨[1, 2], [], false, ending, [(.int, .const 7)]⟩
    | 1 => ⟨[2], [0], false, .goto_, [(.int, .var (.entry 1 0))]⟩
    | 2 => ⟨[], [0, 1], false, .leave, []⟩
    | _ => ⟨[], [], false, .leave, []⟩
  bbList := [0, 1, 2]
  entryBb := 0
  nextVar := 1

def choiceDepth (bb : Nat) : Nat := if bb = 0 then 0 else 1

theorem choiceCfg_wellFormed (hselector : ending.selector = some (.var (.var 0)))
    (hdefault : ∀ d c, ending = .lookupswitchNull d c → d = 2) : (choiceCfg ending).WellFormed choiceDepth where
  entryBb_mem := by simp [choiceCfg]
  successor_mem bb s := by
    rcases bb with _ | _ | _ | bb <;> simp [choiceCfg] <;> omega
  symm bb s := by
    rcases bb with _ | _ | _ | bb <;> rcases s with _ | _ | _ | s <;> simp [choiceCfg]
  depth_entryBb := rfl
  depth_successor bb s _ := by
    rcases bb with _ | _ | _ | bb <;> simp [choiceCfg, choiceDepth] <;> omega
  mimicStack_valid bb t e _ := by
    have hreach : Reachable (choiceCfg ending) 1 := .successor .entry (by simp [choiceCfg])
    rcases bb with _ | _ | _ | bb <;> simp [choiceCfg]
    · rintro - rfl _ ⟨⟩
    · rintro - rfl x hx
      rw [mem_singleton.mp hx]
      exact ⟨hreach, by decide⟩
  selector_valid bb c _ hc x hx := by
    rcases bb with _ | _ | _ | bb
    · obtain rfl : Term.var (.var 0) = c := Option.some.inj (hselector.symm.trans hc)
      rw [mem_singleton.mp hx]
      exact Nat.one_pos
    all_goals cases hc
  default_mem bb d c := by
    rcases bb with _ | _ | _ | bb <;> simp [choiceCfg]
    intro h
    exact Or.inr (hdefault d c h)

theorem choiceCfg_plain : (choiceCfg ending).Plain where
  notSelf bb _ _ := by
    rcases bb with _ | _ | _ | bb <;> simp [choiceCfg]
  notEh bb s _ := by
    rcases s with _ | _ | _ | s <;> rfl

theorem choiceCfg_acyclic {ending : Ending Nat} {depth : Nat → Nat} (hwf : (choiceCfg ending).WellFormed depth) {bb : Nat}
    (hbb : bb < 2) (c : Nat → Nat × Bool) (k : Nat) (hc : Cycle (sides (choiceCfg ending)) c k) :
    ¬ Graph.Linked (sides (choiceCfg ending)) (bb, false) (c 0) := by
  have hwalk : walk (sides (choiceCfg ending)) 4 (0, true) (0, false) = some [(0, false), (1, true), (2, true), (1, false)] :=
    rfl
  have hwalk' : walk (sides (choiceCfg ending)) 4 (1, true) (1, false) = some [(1, false), (2, true), (0, false), (1, true)] :=
    rfl
  rcases bb with _ | _ | bb
  · exact not_linked_cycle (sides_symm hwf) hwalk (by simp [sides, neighbors, choiceCfg]) hc
  · exact not_linked_cycle (sides_symm hwf) hwalk' (by simp [sides, neighbors, choiceCfg]) hc
  · omega

theorem vmType_choiceCfg {bb : Nat} {t : VmType} {e : Term Nat Leaf} (h : (t, e) ∈ ((choiceCfg ending).block bb).mimicStack) :
    t = .int := by
  rcases bb with _ | _ | _ | bb <;> simp [choiceCfg] at h
  · exact h.1
  · exact h.1

theorem typesAgree_choiceCfg : (choiceCfg ending).TypesAgree := by
  intro bb bb' i t e t' e' _ _ he he' _
  rw [vmType_choiceCfg _ (mem_of_getElem? he), vmType_choiceCfg _ (mem_of_getElem? he')]

/-- The first block leaves an operand to the second one, which leaves it to the third one and maybe to itself. -/
def handOverCfg (t : VmType) (loop : Bool) : Cfg Nat where
  block
    | 0 => ⟨[1], [], false, .fallThrough, [(t, .const 7)]⟩
    | 1 => ⟨if loop then [2, 1] else [2], if loop then [0, 1] else [0], false, .branch 1 (.var (.var 0)),
      [(t, .var (.entry 1 0))]⟩
    | 2 => ⟨[], [1], false, .leave, []⟩
    | _ => ⟨[], [], false, .leave, []⟩
  bbList := [0, 1, 2]
  entryBb := 0
  nextVar := 1

end Jato.Jit.Mimic
