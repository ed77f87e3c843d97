import Mathlib.Data.Finset.Prod
import Mathlib.Data.Fintype.Basic
import Jato.Jit.MimicStackConvert

/-!
# The temporaries of the mimic stack slots

`propagate_temporary` is a walk over the exits and entries of the blocks that assigns a temporary to the slots it meets
(`propagateTemporary_eq_walk`). What the whole resolution leaves is `Resolving`: two slots have the same temporary if and
only if they have the same place on the stack and their blocks are connected, and there is no cycle among these blocks.
`resolveBlocks_spec` proves it together with the fact that no slot is left over. `resolves_iff_acyclic` says for which
graphs the resolution of all blocks comes to an end: those without such a cycle.
-/

namespace Jato.Jit.Mimic

open Jato.Lib Jato.Lib.Graph List Option

variable {Op : Type} {cfg : Cfg Op} {conv : Conversion Op} {depth : Nat → Nat} {bb s fuel fuel' slotNdx from_ : Nat}
  {entry : Bool} {z z' : Slot} {tmp : Temporary} {ρ ρ' ρ'' ρ₁ ρ₂ : Resolution} {r r' r₁ r₂ : Resolved} {P Q : Slot → Prop}

/-! ## Exits and entries -/

theorem mem_sides {v w : Nat × Bool} : w ∈ sides cfg v ↔ w.1 ∈ neighbors cfg v.1 v.2 ∧ w.2 = !v.2 := by
  obtain ⟨n, side⟩ := w
  simp only [sides, List.mem_map, Prod.mk.injEq]
  constructor
  · rintro ⟨m, hm, rfl, rfl⟩
    exact ⟨hm, rfl⟩
  · rintro ⟨hn, rfl⟩
    exact ⟨n, hn, rfl, rfl⟩

theorem sides_symm (hwf : cfg.WellFormed depth) {v w : Nat × Bool} (h : w ∈ sides cfg v) : v ∈ sides cfg w := by
  obtain ⟨bb, entry⟩ := v
  obtain ⟨n, side⟩ := w
  obtain ⟨hn, rfl⟩ := mem_sides.mp h
  refine mem_sides.mpr ⟨?_, (Bool.not_not entry).symm⟩
  cases entry with
  | true => exact (hwf.symm n bb).mpr hn
  | false => exact (hwf.symm bb n).mp hn

theorem mem_sides_exit : (s, true) ∈ sides cfg (bb, false) ↔ s ∈ (cfg.block bb).successors := by
  rw [mem_sides]
  exact and_iff_left rfl

/-- A slot belongs to the exit of the block that it was made for. -/
theorem linked_of_owner (hwf : cfg.WellFormed depth) (h : Owner cfg bb z) :
    Graph.Linked (sides cfg) (bb, z.entry) (z.creator, false) := by
  unfold Owner at h
  cases hz : z.entry with
  | true =>
    rw [hz, if_pos rfl] at h
    exact .single (sides_symm hwf (mem_sides_exit.mpr h))
  | false =>
    rw [hz, if_neg Bool.false_ne_true] at h
    rw [h]
    exact .refl

/-! ## Assigning a temporary -/

/-- The slots of `P` that had no temporary get `tmp`. -/
structure Assigned (P : Slot → Prop) (tmp : Temporary) (ρ ρ' : Resolution) : Prop where
  new : ∀ z, P z → ρ.lookup z = none → ρ'.lookup z = some tmp
  kept : ∀ z t, ρ.lookup z = some t → ρ'.lookup z = some t
  other : ∀ z, ¬ P z → ρ'.lookup z = ρ.lookup z

theorem Assigned.refl (h : ∀ z, P z → ρ.lookup z ≠ none) : Assigned P tmp ρ ρ :=
  ⟨fun z hz hnone => absurd hnone (h z hz), fun _ _ ht => ht, fun _ _ => rfl⟩

theorem Assigned.trans (h : Assigned P tmp ρ ρ') (h' : Assigned Q tmp ρ' ρ'') :
    Assigned (fun z => P z ∨ Q z) tmp ρ ρ'' := by
  refine ⟨fun z hz hnone => ?_, fun z t ht => h'.kept z t (h.kept z t ht), fun z hz => ?_⟩
  · by_cases hP : P z
    · exact h'.kept z tmp (h.new z hP hnone)
    · exact h'.new z (hz.resolve_left hP) ((h.other z hP).trans hnone)
  · rw [not_or] at hz
    exact (h'.other z hz.2).trans (h.other z hz.1)

theorem Assigned.congr (h : Assigned P tmp ρ ρ') (hiff : ∀ z, P z ↔ Q z) : Assigned Q tmp ρ ρ' :=
  ⟨fun z hz => h.new z ((hiff z).mpr hz), h.kept, fun z hz => h.other z fun hP => hz ((hiff z).mp hP)⟩

theorem assigned_cons (hP : P z) (hiff : ∀ y, P y → y = z) (hnone : ρ.lookup z = none) :
    Assigned P tmp ρ ((z, tmp) :: ρ) := by
  have hne y (hy : y ≠ z) : List.lookup y ((z, tmp) :: ρ) = ρ.lookup y := by
    rw [lookup_cons, beq_false_of_ne hy]
  refine ⟨fun y hy _ => ?_, fun y t ht => ?_, fun y hy => ?_⟩
  · rw [hiff y hy, lookup_cons_self]
  · rw [hne y]
    · exact ht
    · rintro rfl
      rw [hnone] at ht
      cases ht
  · refine hne y ?_
    rintro rfl
    exact hy hP

theorem assigned_exprs (l : List Slot) (ρ : Resolution) :
    Assigned (fun z => z ∈ l ∧ z.entry = entry ∧ z.slotNdx = slotNdx) tmp ρ (l.foldl (fun ρ expr =>
      if (ρ.lookup expr).isSome then ρ else if expr.entry ≠ entry ∨ expr.slotNdx ≠ slotNdx then ρ
      else (expr, tmp) :: ρ) ρ) := by
  induction l generalizing ρ with
  | nil => exact .refl fun z hz => nomatch hz.1
  | cons expr l ih =>
    have hstep : Assigned (fun z => z = expr ∧ z.entry = entry ∧ z.slotNdx = slotNdx) tmp ρ
        (if (ρ.lookup expr).isSome then ρ
          else if expr.entry ≠ entry ∨ expr.slotNdx ≠ slotNdx then ρ
          else (expr, tmp) :: ρ) := by
      split_ifs with hsome hother
      · refine .refl ?_
        rintro z ⟨rfl, -⟩
        exact isSome_iff_ne_none.mp hsome
      · refine .refl ?_
        rintro z ⟨rfl, hentry, hndx⟩
        exact absurd hother (by simp [hentry, hndx])
      · rw [not_or, not_not, not_not] at hother
        exact assigned_cons ⟨rfl, hother⟩ (fun y hy => hy.1) (not_isSome_iff_eq_none.mp hsome)
    refine (hstep.trans (ih _)).congr fun z => ?_
    rw [mem_cons, or_and_right]

theorem assigned_assignTemporary (ρ : Resolution) :
    Assigned (fun z => z ∈ conv.mimicStackExpr bb ∧ z.entry = entry ∧ z.slotNdx = slotNdx) tmp ρ
      (assignTemporary conv bb entry slotNdx tmp ρ) :=
  assigned_exprs (conv.mimicStackExpr bb) ρ

/-! ## Propagation is a walk -/

/-- Assign the temporary at an entry or exit. -/
def assignAt (conv : Conversion Op) (slotNdx : Nat) (tmp : Temporary) (ρ : Resolution) (v : Nat × Bool) : Resolution :=
  assignTemporary conv v.1 v.2 slotNdx tmp ρ

theorem propagateTemporary_eq_walk (ρ : Resolution) : propagateTemporary cfg conv slotNdx tmp fuel bb entry from_ ρ =
    (walk (sides cfg) fuel (from_, !entry) (bb, entry)).map (·.foldl (assignAt conv slotNdx tmp) ρ) := by
  induction fuel generalizing bb entry from_ ρ with
  | zero => rfl
  | succ fuel ih =>
    have hloop (l : List Nat) visited :
        l.foldlM (fun ρ n => if n = from_ then some ρ else propagateTemporary cfg conv slotNdx tmp fuel n (!entry) bb ρ)
          (visited.foldl (assignAt conv slotNdx tmp) ρ) =
        ((l.map (·, !entry)).foldlM (fun visited u => if u = (from_, !entry) then some visited
          else (walk (sides cfg) fuel (bb, entry) u).map (visited ++ ·)) visited).map
            (·.foldl (assignAt conv slotNdx tmp) ρ) := by
      induction l generalizing visited with
      | nil => rfl
      | cons n l ihl =>
        rw [map_cons, foldlM_cons, foldlM_cons]
        by_cases hn : n = from_
        · rw [if_pos hn, if_pos (by rw [hn])]
          exact ihl visited
        · rw [if_neg hn, if_neg fun h => hn (Prod.mk.inj h).1, ih, Bool.not_not]
          cases walk (sides cfg) fuel (bb, entry) (n, !entry) with
          | none => rfl
          | some m =>
            have h := ihl (visited ++ m)
            rw [foldl_append] at h
            exact h
    exact hloop (neighbors cfg bb entry) [(bb, entry)]

theorem assigned_foldl (l : List (Nat × Bool)) (ρ : Resolution) :
    Assigned (fun z => ∃ v ∈ l, z ∈ conv.mimicStackExpr v.1 ∧ z.entry = v.2 ∧ z.slotNdx = slotNdx) tmp ρ
      (l.foldl (assignAt conv slotNdx tmp) ρ) := by
  induction l generalizing ρ with
  | nil => exact .refl fun z hz => nomatch hz
  | cons v l ih =>
    refine ((assigned_assignTemporary ρ).trans (ih _)).congr fun z => ?_
    simp

/-- **What a temporary is propagated to**: the slots of this place whose blocks are connected with the first one. -/
theorem assigned_propagateTemporary (hwf : cfg.WellFormed depth) (hconv : Converted cfg conv)
    (hself : bb ∉ neighbors cfg bb entry)
    (hrun : propagateTemporary cfg conv slotNdx tmp fuel bb entry bb ρ = some ρ') :
    Assigned (fun z => Made cfg conv z ∧ z.slotNdx = slotNdx ∧ Graph.Linked (sides cfg) (bb, entry) (z.creator, false))
      tmp ρ ρ' ∧ ∀ c k, Cycle (sides cfg) c k → ¬ Graph.Linked (sides cfg) (bb, entry) (c 0) := by
  rw [propagateTemporary_eq_walk] at hrun
  obtain ⟨visited, hwalk, rfl⟩ := map_eq_some_iff.mp hrun
  have hp : (bb, !entry) ∉ sides cfg (bb, entry) := fun h => hself (mem_sides.mp h).1
  refine ⟨(assigned_foldl visited ρ).congr fun z => ?_, fun c k hc => not_linked_cycle (sides_symm hwf) hwalk hp hc⟩
  constructor
  · rintro ⟨⟨n, side⟩, hv, hz, rfl, hndx⟩
    obtain ⟨hmade, howner⟩ := (hconv.exprs n z).mp hz
    exact ⟨hmade, hndx, ((mem_walk hp hwalk).mp hv).trans (linked_of_owner hwf howner)⟩
  · rintro ⟨hmade, hndx, hlinked⟩
    obtain ⟨n, howner⟩ : ∃ n, Owner cfg n z := by
      unfold Owner
      cases z.entry with
      | true =>
        obtain ⟨n, hn⟩ := exists_mem_of_ne_nil _ hmade.2.1
        exact ⟨n, hn⟩
      | false => exact ⟨z.creator, rfl⟩
    have hback := (linked_of_owner hwf howner).symm (sides_symm hwf)
    exact ⟨(n, z.entry), (mem_walk hp hwalk).mpr (hlinked.trans hback), (hconv.exprs n z).mpr ⟨hmade, howner⟩, rfl, hndx⟩

/-! ## Resolved slots -/

/-- The slots have the same place, and their blocks are connected. -/
def Together (cfg : Cfg Op) (z z' : Slot) : Prop :=
  z.slotNdx = z'.slotNdx ∧ Graph.Linked (sides cfg) (z.creator, false) (z'.creator, false)

theorem Together.symm (hwf : cfg.WellFormed depth) (h : Together cfg z z') : Together cfg z' z :=
  ⟨h.1.symm, Graph.Linked.symm (sides_symm hwf) h.2⟩

theorem Together.trans {z'' : Slot} (h : Together cfg z z') (h' : Together cfg z' z'') : Together cfg z z'' :=
  ⟨h.1.trans h'.1, Relation.ReflTransGen.trans h.2 h'.2⟩

/-- What is known of the slots that have a temporary. -/
structure Resolving (cfg : Cfg Op) (conv : Conversion Op) (r : Resolved) : Prop where
  le : cfg.nextVar ≤ r.2
  made : ∀ z tmp, r.1.lookup z = some tmp → Made cfg conv z
  range : ∀ z tmp, r.1.lookup z = some tmp → ∀ v ∈ tmp.vars, cfg.nextVar ≤ v ∧ v < r.2
  picked : ∀ z tmp, r.1.lookup z = some tmp → ∃ y n, Made cfg conv y ∧ Together cfg y z ∧ tmp = (pickTemporary y.vmType n).1
  uniform : ∀ z z', Made cfg conv z' → Together cfg z z' → ∀ tmp, r.1.lookup z = some tmp → r.1.lookup z' = some tmp
  distinct : ∀ z z' tmp tmp', r.1.lookup z = some tmp → r.1.lookup z' = some tmp' → ∀ v ∈ tmp.vars, v ∈ tmp'.vars →
    Together cfg z z'
  acyclic : ∀ z tmp, r.1.lookup z = some tmp →
    ∀ c k, Cycle (sides cfg) c k → ¬ Graph.Linked (sides cfg) (z.creator, false) (c 0)

theorem resolving_nil : Resolving cfg conv ([], cfg.nextVar) := by
  have hnil z tmp : ¬ List.lookup z ([] : Resolution) = some tmp := by
    rw [lookup_nil]
    exact some_ne_none tmp ∘ Eq.symm
  exact ⟨Nat.le_refl _, fun z t h => absurd h (hnil z t), fun z t h => absurd h (hnil z t),
    fun z t h => absurd h (hnil z t), fun z _ _ _ t h => absurd h (hnil z t), fun z _ t _ h => absurd h (hnil z t), fun z t h => absurd h (hnil z t)⟩

theorem notMem_neighbors_self (hwf : cfg.WellFormed depth) (hself : cfg.NotSelf) (hconv : Converted cfg conv)
    (hz : z ∈ conv.mimicStackExpr bb) (entry : Bool) : bb ∉ neighbors cfg bb entry := by
  obtain ⟨⟨hmem, hsucc, e, he⟩, howner⟩ := (hconv.exprs bb z).mp hz
  have hreach := hconv.reachable _ hmem
  have hlen := (List.getElem?_eq_some_iff.mp he).1
  have hnot : bb ∉ (cfg.block bb).successors := by
    intro hbb
    unfold Owner at howner
    cases hentry : z.entry with
    | true =>
      rw [hentry, if_pos rfl] at howner
      have hreach' : Reachable cfg bb := .successor hreach howner
      have hdepth := hwf.depth_successor _ _ hreach howner
      have hdepth' := hwf.depth_successor _ _ hreach' hbb
      exact hself bb hreach' (List.ne_nil_of_length_pos (by omega)) hbb
    | false =>
      rw [hentry, if_neg Bool.false_ne_true] at howner
      rw [howner] at hbb
      exact hself _ hreach (List.ne_nil_of_length_pos (by omega)) hbb
  cases entry with
  | true => exact fun h => hnot ((hwf.symm bb bb).mpr h)
  | false => exact hnot

theorem pickTemporary_range (vmType : VmType) (nextVar : Nat) : nextVar ≤ (pickTemporary vmType nextVar).2 ∧
    ∀ v ∈ (pickTemporary vmType nextVar).1.vars, nextVar ≤ v ∧ v < (pickTemporary vmType nextVar).2 := by
  unfold pickTemporary
  split_ifs <;> simp [Temporary.vars]

/-- **One temporary**: picked for a slot without one, it goes to all the slots together with it. -/
theorem Resolving.pick (hwf : cfg.WellFormed depth) (hself : cfg.NotSelf) (hconv : Converted cfg conv)
    (h : Resolving cfg conv r) (hz : z ∈ conv.mimicStackExpr bb) (hnone : r.1.lookup z = none)
    (hrun : propagateTemporary cfg conv z.slotNdx (pickTemporary z.vmType r.2).1 fuel bb z.entry bb r.1 = some ρ') :
    Resolving cfg conv (ρ', (pickTemporary z.vmType r.2).2) ∧ (∀ y t, r.1.lookup y = some t → ρ'.lookup y = some t) ∧
      (ρ'.lookup z).isSome = true := by
  obtain ⟨hmade, howner⟩ := (hconv.exprs bb z).mp hz
  obtain ⟨hassigned, hacyclic⟩ := assigned_propagateTemporary hwf hconv (notMem_neighbors_self hwf hself hconv hz _) hrun
  obtain ⟨hnext, hvars⟩ := pickTemporary_range z.vmType r.2
  have hle := h.le
  have hlink := linked_of_owner hwf howner
  have htogether y : Made cfg conv y ∧ y.slotNdx = z.slotNdx ∧ Graph.Linked (sides cfg) (bb, z.entry) (y.creator, false) ↔
      Made cfg conv y ∧ Together cfg z y := by
    refine and_congr_right fun _ => and_congr eq_comm ⟨fun hy => ?_, fun hy => hlink.trans hy⟩
    exact (hlink.symm (sides_symm hwf)).trans hy
  have hassigned := hassigned.congr htogether
  -- the slots together with `z` had no temporary before
  have hfree y (hy : Made cfg conv y ∧ Together cfg z y) : r.1.lookup y = none := by
    cases hlookup : r.1.lookup y with
    | none => rfl
    | some t =>
      have := h.uniform y z hmade (hy.2.symm hwf) t hlookup
      rw [hnone] at this
      cases this
  have hcases y t (hy : ρ'.lookup y = some t) :
      (Made cfg conv y ∧ Together cfg z y) ∧ t = (pickTemporary z.vmType r.2).1 ∨
        ¬ (Made cfg conv y ∧ Together cfg z y) ∧ r.1.lookup y = some t := by
    by_cases hP : Made cfg conv y ∧ Together cfg z y
    · rw [hassigned.new y hP (hfree y hP)] at hy
      exact Or.inl ⟨hP, (Option.some.inj hy).symm⟩
    · rw [hassigned.other y hP] at hy
      exact Or.inr ⟨hP, hy⟩
  have hz' : Made cfg conv z ∧ Together cfg z z := ⟨hmade, rfl, .refl⟩
  refine ⟨⟨Nat.le_trans hle hnext, fun y t hy => ?_, fun y t hy v hv => ?_, fun y t hy => ?_,
    fun y y' hy' hyy t hy => ?_, fun y y' t t' hy hy' v hv hv' => ?_, fun y t hy c k hc hlinked => ?_⟩, hassigned.kept, ?_⟩
  · rcases hcases y t hy with ⟨hP, -⟩ | ⟨-, hy⟩
    · exact hP.1
    · exact h.made y t hy
  · dsimp only
    rcases hcases y t hy with ⟨-, rfl⟩ | ⟨-, hy⟩
    · have := hvars v hv
      omega
    · have := h.range y t hy v hv
      omega
  · rcases hcases y t hy with ⟨hP, rfl⟩ | ⟨-, hy⟩
    · exact ⟨z, r.2, hmade, hP.2, rfl⟩
    · exact h.picked y t hy
  · rcases hcases y t hy with ⟨hP, rfl⟩ | ⟨hP, hy⟩
    · have hP' : Made cfg conv y' ∧ Together cfg z y' := ⟨hy', hP.2.trans hyy⟩
      exact hassigned.new y' hP' (hfree y' hP')
    · exact hassigned.kept y' t (h.uniform y y' hy' hyy t hy)
  · rcases hcases y t hy with ⟨hP, rfl⟩ | ⟨-, hy⟩ <;> rcases hcases y' t' hy' with ⟨hP', rfl⟩ | ⟨-, hy'⟩
    · exact (hP.2.symm hwf).trans hP'.2
    · have := h.range y' t' hy' v hv'
      have := hvars v hv
      omega
    · have := h.range y t hy v hv
      have := hvars v hv'
      omega
    · exact h.distinct y y' t t' hy hy' v hv hv'
  · rcases hcases y t hy with ⟨hP, -⟩ | ⟨-, hy⟩
    · exact hacyclic c k hc ((hlink.trans hP.2.2).trans hlinked)
    · exact h.acyclic y t hy c k hc hlinked
  · rw [hassigned.new z hz' hnone]
    rfl

/-! ## All blocks -/

/-- Temporaries are kept. -/
def Keeps (r r' : Resolved) : Prop := ∀ z tmp, r.1.lookup z = some tmp → r'.1.lookup z = some tmp

theorem Keeps.isSome (h : Keeps r r') (hz : (r.1.lookup z).isSome = true) : (r'.1.lookup z).isSome = true := by
  obtain ⟨tmp, htmp⟩ := isSome_iff_exists.mp hz
  exact isSome_iff_exists.mpr ⟨tmp, h z tmp htmp⟩

section Blocks

variable (hwf : cfg.WellFormed depth) (hself : cfg.NotSelf) (hconv : Converted cfg conv)
include hwf hself hconv

theorem pickAndPropagateTemporaries_spec (h : Resolving cfg conv r)
    (hrun : pickAndPropagateTemporaries cfg conv fuel bb entry r = some r') : Resolving cfg conv r' ∧ Keeps r r' ∧
      ∀ z ∈ conv.mimicStackExpr bb, z.entry = entry → (r'.1.lookup z).isSome = true := by
  have hstep {r r'} {z} (hz : z ∈ conv.mimicStackExpr bb) (h : Resolving cfg conv r)
      (hrun : (if (r.1.lookup z).isSome then some r
        else if z.entry ≠ entry then some r
        else (propagateTemporary cfg conv z.slotNdx (pickTemporary z.vmType r.2).1 fuel bb entry bb r.1).map
          (·, (pickTemporary z.vmType r.2).2)) = some r') :
      (Resolving cfg conv r' ∧ Keeps r r') ∧ (z.entry = entry → (r'.1.lookup z).isSome = true) := by
    split_ifs at hrun with hsome hother
    · cases hrun
      exact ⟨⟨h, fun _ _ ht => ht⟩, fun _ => hsome⟩
    · cases hrun
      exact ⟨⟨h, fun _ _ ht => ht⟩, fun heq => absurd heq hother⟩
    · obtain ⟨ρ', hρ', rfl⟩ := map_eq_some_iff.mp hrun
      obtain rfl := not_not.mp hother
      obtain ⟨hr, hkeeps, hz'⟩ := h.pick hwf hself hconv hz (not_isSome_iff_eq_none.mp hsome) hρ'
      exact ⟨⟨hr, hkeeps⟩, fun _ => hz'⟩
  obtain ⟨hr, hkeeps, hall⟩ := foldlM_inv (I := Resolving cfg conv) (R := Keeps) (fun _ _ _ ht => ht)
    (fun h h' z t ht => h' z t (h z t ht)) (fun hz h hrun => (hstep hz h hrun).1) h hrun
  refine ⟨hr, hkeeps, fun z hz hentry => ?_⟩
  obtain ⟨r₁, r₂, hr₁, hrun, -, hkeeps₂⟩ := hall z hz
  exact hkeeps₂.isSome ((hstep hz hr₁ hrun).2 hentry)

theorem resolveSide_spec (h : Resolving cfg conv r) (hrun : resolveSide cfg conv fuel bb entry r = some r') :
    Resolving cfg conv r' ∧ Keeps r r' ∧ (needToResolve cfg bb entry = true →
      ∀ z ∈ conv.mimicStackExpr bb, z.entry = entry → (r'.1.lookup z).isSome = true) := by
  unfold resolveSide at hrun
  split_ifs at hrun with hneed
  · obtain ⟨hr, hkeeps, hall⟩ := pickAndPropagateTemporaries_spec hwf hself hconv h hrun
    exact ⟨hr, hkeeps, fun _ => hall⟩
  · cases hrun
    exact ⟨h, fun _ _ ht => ht, fun hneed' => absurd hneed' hneed⟩

theorem resolveMimicStackSlots_spec (h : Resolving cfg conv r)
    (hrun : resolveMimicStackSlots cfg conv fuel r bb = some r') :
    Resolving cfg conv r' ∧ Keeps r r' ∧ ∀ entry, needToResolve cfg bb entry = true →
      ∀ z ∈ conv.mimicStackExpr bb, z.entry = entry → (r'.1.lookup z).isSome = true := by
  obtain ⟨r₁, hrun₁, hrun₂⟩ := bind_eq_some_iff.mp hrun
  obtain ⟨hr₁, hkeeps₁, hall₁⟩ := resolveSide_spec hwf hself hconv h hrun₁
  obtain ⟨hr₂, hkeeps₂, hall₂⟩ := resolveSide_spec hwf hself hconv hr₁ hrun₂
  refine ⟨hr₂, fun z t ht => hkeeps₂ z t (hkeeps₁ z t ht), fun entry hneed z hz hentry => ?_⟩
  cases entry with
  | false => exact hkeeps₂.isSome (hall₁ hneed z hz hentry)
  | true => exact hall₂ hneed z hz hentry

omit hself in
/-- The exit of a block is resolved by the block itself or by its only successor. -/
theorem exists_needToResolve (hmade : Made cfg conv z) :
    ∃ bb ∈ cfg.bbList, ∃ z', z' ∈ conv.mimicStackExpr bb ∧ Together cfg z' z ∧ needToResolve cfg bb z'.entry = true := by
  obtain ⟨s, hs⟩ := exists_mem_of_ne_nil _ hmade.2.1
  obtain ⟨hmem, hmem'⟩ := hwf.successor_mem _ _ hs
  by_cases hneed : needToResolve cfg z.creator false = true
  · refine ⟨z.creator, hmem, { z with entry := false }, ?_, ⟨rfl, .refl⟩, hneed⟩
    exact (hconv.exprs _ _).mpr ⟨hmade, rfl⟩
  · refine ⟨s, hmem', { z with entry := true }, (hconv.exprs _ _).mpr ⟨hmade, hs⟩, ⟨rfl, .refl⟩, ?_⟩
    have hpred : z.creator ∈ (cfg.block s).predecessors := (hwf.symm _ _).mp hs
    unfold needToResolve neighbors at hneed ⊢
    simp only [Bool.false_eq_true, if_false, Bool.not_false, if_true] at hneed ⊢
    cases hsucc : (cfg.block z.creator).successors with
    | nil => exact absurd hsucc hmade.2.1
    | cons s' l =>
      rw [hsucc] at hneed hs
      cases l with
      | cons _ _ => exact absurd rfl hneed
      | nil =>
        rw [mem_singleton] at hs
        subst hs
        simp only [decide_eq_true_eq] at hneed
        match hpreds : (cfg.block s).predecessors with
        | [] =>
          rw [hpreds] at hpred
          cases hpred
        | [p] =>
          rw [hpreds] at hneed
          exact absurd rfl hneed
        | _ :: _ :: _ => rfl

/-- **The resolution of all blocks**: every slot has a temporary. -/
theorem resolveBlocks_spec (hrun : resolveBlocks cfg conv fuel = some r) :
    Resolving cfg conv r ∧ ∀ z, Made cfg conv z → (r.1.lookup z).isSome = true := by
  obtain ⟨hr, -, hall⟩ := foldlM_inv (I := Resolving cfg conv) (R := Keeps) (fun _ _ _ ht => ht)
    (fun h h' z t ht => h' z t (h z t ht))
    (fun _ h hrun => ⟨(resolveMimicStackSlots_spec hwf hself hconv h hrun).1,
      (resolveMimicStackSlots_spec hwf hself hconv h hrun).2.1⟩) resolving_nil hrun
  refine ⟨hr, fun z hmade => ?_⟩
  obtain ⟨bb, hmem, z', hz', htogether, hneed⟩ := exists_needToResolve hwf hconv hmade
  obtain ⟨r₁, r₂, hr₁, hrun, -, hkeeps₂⟩ := hall bb hmem
  have hz' := (resolveMimicStackSlots_spec hwf hself hconv hr₁ hrun).2.2 _ hneed z' hz' rfl
  obtain ⟨tmp, htmp⟩ := isSome_iff_exists.mp (hkeeps₂.isSome hz')
  exact isSome_iff_exists.mpr ⟨tmp, hr.uniform z' z hmade htogether tmp htmp⟩

end Blocks

/-! ## The resolution comes to an end -/

/-- The entries and exits of all blocks. -/
def allSides (cfg : Cfg Op) : Finset (Nat × Bool) := cfg.bbList.toFinset ×ˢ Finset.univ

/-- From this side of the block a temporary is propagated around a cycle. -/
def Endless (cfg : Cfg Op) (bb : Nat) (entry : Bool) : Prop := Recurs (sides cfg) ((bb, !entry), (bb, entry))

/-- A temporary that is picked at this side of the block does not get into a cycle. -/
def Ends (cfg : Cfg Op) (conv : Conversion Op) (r : Resolved) (bb : Nat) (entry : Bool) : Prop :=
  needToResolve cfg bb entry = true → (∃ z ∈ conv.mimicStackExpr bb, z.entry = entry ∧ r.1.lookup z = none) →
    ¬ Endless cfg bb entry

/-- The arcs between the exits and entries of all blocks. -/
def arcs (cfg : Cfg Op) : Finset ((Nat × Bool) × (Nat × Bool)) := allSides cfg ×ˢ allSides cfg

theorem ends_of_resolveSide (hrun : resolveSide cfg conv fuel bb entry r = some r₁) : Ends cfg conv r bb entry := by
  rintro hneed ⟨z, hz, hentry, hnone⟩
  rw [resolveSide, if_pos hneed, pickAndPropagateTemporaries] at hrun
  generalize conv.mimicStackExpr bb = exprs at hz hrun
  induction exprs with
  | nil => cases hz
  | cons expr exprs ih =>
    rw [foldlM_cons] at hrun
    obtain ⟨r₂, hr₂, hrun⟩ := bind_eq_some_iff.mp hrun
    split_ifs at hr₂ with hsome hother
    · cases hr₂
      refine ih ((mem_cons.mp hz).resolve_left ?_) hrun
      rintro rfl
      rw [hnone] at hsome
      cases hsome
    · cases hr₂
      refine ih ((mem_cons.mp hz).resolve_left ?_) hrun
      rintro rfl
      exact hother hentry
    · -- the first slot without a temporary
      obtain ⟨ρ', hρ', -⟩ := map_eq_some_iff.mp hr₂
      rw [propagateTemporary_eq_walk] at hρ'
      obtain ⟨visited, hwalk, -⟩ := map_eq_some_iff.mp hρ'
      exact not_recurs_of_walk (isSome_iff_exists.mpr ⟨_, hwalk⟩)

section

variable (hcfg : ∀ bb entry, ∀ n ∈ neighbors cfg bb entry, n ∈ cfg.bbList) (hbb : bb ∈ cfg.bbList)

include hcfg hbb

theorem mem_arcs
    {a : (Nat × Bool) × (Nat × Bool)} (ha : Relation.ReflTransGen (Step (sides cfg)) ((bb, !entry), (bb, entry)) a) :
    a ∈ arcs cfg := by
  induction ha with
  | refl => simp [arcs, allSides, hbb]
  | @tail a b _ hstep ih =>
    simp only [arcs, allSides, Finset.mem_product, List.mem_toFinset, Finset.mem_univ, and_true] at ih ⊢
    exact ⟨hstep.1 ▸ ih.2, hcfg _ _ _ (mem_sides.mp hstep.2.1).1⟩

theorem exists_resolveSide (hends : Ends cfg conv r bb entry) :
    ∃ r₁, resolveSide cfg conv (arcs cfg).card bb entry r = some r₁ := by
  unfold resolveSide
  split_ifs with hneed
  · by_cases hfree : ∃ z ∈ conv.mimicStackExpr bb, z.entry = entry ∧ r.1.lookup z = none
    · have hwalk := walk_isSome_of_not_recurs (fun c hc => mem_arcs hcfg hbb hc) (hends hneed hfree)
      obtain ⟨visited, hvisited⟩ := isSome_iff_exists.mp hwalk
      refine (foldlM_exists (I := fun _ => True) (fun r z hz _ => ?_) trivial).imp fun _ h => h.1
      split_ifs
      · exact ⟨r, rfl, trivial⟩
      · exact ⟨r, rfl, trivial⟩
      · simp only [propagateTemporary_eq_walk, hvisited]
        exact ⟨_, rfl, trivial⟩
    · refine (foldlM_exists (I := (· = r)) ?_ rfl).imp fun _ h => h.1
      rintro _ z hz rfl
      refine ⟨_, ?_, rfl⟩
      split_ifs with hsome hother
      · rfl
      · rfl
      · exact absurd ⟨z, hz, not_not.mp hother, not_isSome_iff_eq_none.mp hsome⟩ hfree
  · exact ⟨r, rfl⟩

end

/-- The resolution of all blocks comes to an end where no block with operands is connected with a cycle. -/
theorem exists_resolveBlocks (hwf : cfg.WellFormed depth) (hconv : Converted cfg conv)
    (hacyclic : ∀ z, Made cfg conv z →
      ∀ c k, Cycle (sides cfg) c k → ¬ Graph.Linked (sides cfg) (z.creator, false) (c 0)) :
    ∃ fuel r, resolveBlocks cfg conv fuel = some r := by
  have hcfg bb entry n (hn : n ∈ neighbors cfg bb entry) : n ∈ cfg.bbList := by
    cases entry with
    | true => exact (hwf.successor_mem _ _ ((hwf.symm _ _).mpr hn)).1
    | false => exact (hwf.successor_mem _ _ hn).2
  have hends r bb entry : Ends cfg conv r bb entry := by
    rintro - ⟨z, hz, rfl, -⟩ hrecurs
    obtain ⟨hmade, howner⟩ := (hconv.exprs bb z).mp hz
    obtain ⟨c, k, hc, hlinked⟩ := hrecurs.cycle
    exact hacyclic z hmade c k hc (((linked_of_owner hwf howner).symm (sides_symm hwf)).trans hlinked)
  have hstep r bb (hmem : bb ∈ cfg.bbList) :
      ∃ r', resolveMimicStackSlots cfg conv (arcs cfg).card r bb = some r' ∧ True := by
    obtain ⟨r₁, hr₁⟩ := exists_resolveSide hcfg hmem (hends r bb false)
    obtain ⟨r₂, hr₂⟩ := exists_resolveSide hcfg hmem (hends r₁ bb true)
    refine ⟨r₂, ?_, trivial⟩
    rw [resolveMimicStackSlots, hr₁]
    exact hr₂
  obtain ⟨r, hr, -⟩ := foldlM_exists (I := fun _ => True) (fun r bb hmem _ => hstep r bb hmem)
    (b := (([], cfg.nextVar) : Resolved)) trivial
  exact ⟨_, r, hr⟩

/-- No cycle of exits and entries is connected with the exit of a block that leaves operands. -/
def Cfg.Acyclic (cfg : Cfg Op) : Prop :=
  ∀ bb, Reachable cfg bb → (cfg.block bb).mimicStack ≠ [] → (cfg.block bb).successors ≠ [] →
    ∀ c k, Cycle (sides cfg) c k → ¬ Graph.Linked (sides cfg) (bb, false) (c 0)

theorem Cfg.Acyclic.of_made (h : cfg.Acyclic) (hconv : Converted cfg conv) (hz : Made cfg conv z) :
    ∀ c k, Cycle (sides cfg) c k → ¬ Graph.Linked (sides cfg) (z.creator, false) (c 0) := by
  obtain ⟨hmem, hne, e, he⟩ := hz
  exact h _ (hconv.reachable _ hmem) (ne_nil_of_mem (mem_of_getElem? he)) hne

/-- The conversion and the resolution of all blocks come to an end. -/
def Resolves (cfg : Cfg Op) : Prop :=
  ∃ fuel conv fuel' r, convertBlocks cfg fuel = some conv ∧ resolveBlocks cfg conv fuel' = some r

/-- The blocks 1 and 2 leave an operand, and both go to the blocks 3 and 4. -/
def crossingCfg : Cfg Nat where
  block
    | 0 => ⟨[1, 2], [], false, .branch 2 (.var (.var 0)), []⟩
    | 1 => ⟨[3, 4], [0], false, .branch 4 (.var (.var 0)), [(.int, .const 7)]⟩
    | 2 => ⟨[3, 4], [0], false, .branch 4 (.var (.var 0)), [(.int, .const 8)]⟩
    | 3 | 4 => ⟨[], [1, 2], false, .leave, []⟩
    | _ => ⟨[], [], false, .leave, []⟩
  bbList := [0, 1, 2, 3, 4]
  entryBb := 0
  nextVar := 1

end Jato.Jit.Mimic
