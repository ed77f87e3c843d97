import Jato.Jit.ControlFlowPhases
import Mathlib.Data.Nat.Find

/-!
# Correctness of the control-flow analysis

What `analyze_control_flow` is for, said over the instructions of the class file format: its blocks partition verified code
at the places where control can enter (`BlocksCorrect`), and their edges and flags are those of their last instructions
(`FlowExact`).

The first holds exactly if each handler is led by a handler (`blocksCorrect_iff`); otherwise the assertion in
`split_at_exception_handlers` fails. The second needs two more conditions (`flowExact_iff`): there is no `goto_w` with an
instruction behind it that is not its target, since `bc_is_goto` does not know `goto_w`, and no block that ends with
`athrow` is cut, since `bb_split` leaves `has_athrow` at the upper half.
-/

namespace Jato.Jit.Flow

open Jato.Lib Jato.Vm

/-! ## Blocks -/

/-- The blocks partition the code in the order of the list, and start where control can enter; edges have two ends. -/
structure BlocksCorrect (m : VerifiedMethod) (cu : CompilationUnit) : Prop where
  tiles : Tiles (fun b => (cu.block b).start) (fun b => (cu.block b).stop) 0 m.code.length cu.bbList
  boundaries : ∀ b ∈ cu.bbList, InsnStart m.code (cu.block b).start
  targets : ∀ pc < m.code.length, InsnStart m.code pc → ∀ d, JumpDest m.code pc d →
    ∃ b ∈ cu.bbList, ((cu.block b).start : Int) = d
  handlers : ∀ eh ∈ m.exceptionTable, ∃ b ∈ cu.bbList, (cu.block b).start = eh.handlerPc
  following : ∀ pc len, InsnStart m.code pc → InsnAt m.code pc len → bcEndsBasicBlock (byteAt m.code pc) = true →
    pc + len < m.code.length → ∃ b ∈ cu.bbList, (cu.block b).start = pc + len
  edges : ∀ b ∈ cu.bbList, ∀ c ∈ cu.bbList, c ∈ (cu.block b).successors ↔ b ∈ (cu.block c).predecessors

variable {cu : CompilationUnit}

theorem HandlerInv.blocksCorrect {m : VerifiedMethod} (h : HandlerInv m.toMethodCode cu)
    (hstart : ∀ eh ∈ m.exceptionTable, StartsAt cu eh.handlerPc) : BlocksCorrect m cu := by
  have hmem {q} (hq : StartsAt cu q) : ∃ b ∈ cu.bbList, (cu.block b).start = q := by
    obtain ⟨b, hb, hs⟩ := hq
    exact ⟨b, (h.flow.wellFormed.mem b).mpr hb, hs⟩
  refine ⟨h.flow.wellFormed.tiles, fun b hb => h.flow.starts b ((h.flow.wellFormed.mem b).mp hb), ?_,
    fun eh he => hmem (hstart eh he), ?_, fun b _ c _ => h.flow.wellFormed.edges b c⟩
  · intro pc hpc hs d hd
    obtain ⟨h0, hlt, -⟩ := m.dests pc hpc hs d hd
    obtain ⟨n, rfl⟩ := Int.eq_ofNat_of_zero_le h0
    obtain ⟨b, hb, heq⟩ := hmem (h.flow.dests rfl n (by simpa using hlt) ⟨pc, hpc, hs, hd⟩)
    exact ⟨b, hb, by rw [heq]⟩
  · intro pc len hs hi hends hlt
    exact hmem (h.flow.leads _ hlt (.inr ⟨pc, ⟨hs, len, hi, rfl⟩, hends⟩))

/-- **The blocks of verified code** are the right ones exactly if each handler is led by a handler. -/
theorem blocksCorrect_iff (m : VerifiedMethod) :
    (∃ cu, analyzeControlFlow m.toMethodCode = some cu ∧ BlocksCorrect m cu) ↔
      ∀ eh ∈ m.exceptionTable, LedByHandler m.toMethodCode eh.handlerPc := by
  obtain ⟨hsome, hnone⟩ := analyzeControlFlow_spec m
  constructor
  · rintro ⟨cu, hcu, -⟩ eh he
    by_contra hled
    rw [hnone ⟨eh, he, hled⟩] at hcu
    cases hcu
  · intro hall
    obtain ⟨cu, hcu, h, hstart⟩ := hsome hall
    exact ⟨cu, hcu, h.blocksCorrect hstart⟩

/-- `aconst_null; athrow`, with the `athrow` as the handler of the instruction before it. -/
def handlerInside : VerifiedMethod where
  code := [0x01, 0xbf]
  exceptionTable := [⟨0, 1, 1, 0⟩]
  nonempty := by decide
  length_lt := by decide
  complete := .next (.next .zero ⟨by decide, rfl, by decide⟩) ⟨by decide, rfl, by decide⟩
  dests := by
    intro pc hpc _ d hd
    have hno : ∀ pc < 2, bcIsBranch (byteAt [0x01, 0xbf] pc) = false := by decide
    exact absurd (bcIsBranch_of_jumpDest hd) (by simp [hno pc hpc])
  handlers := by
    intro eh he
    rw [List.mem_singleton.mp he]
    exact ⟨by decide, by decide, (.next .zero ⟨by decide, rfl, by decide⟩ : InsnStart [0x01, 0xbf] (0 + 1))⟩

theorem not_blocksCorrect_handlerInside :
    ¬ ∃ cu, analyzeControlFlow handlerInside.toMethodCode = some cu ∧ BlocksCorrect handlerInside cu := by
  have hnone : analyzeControlFlow handlerInside.toMethodCode = none := rfl
  rintro ⟨cu, hcu, -⟩
  rw [hnone] at hcu
  cases hcu

/-! ## Edges and flags -/

/-- A verified method without subroutines. -/
structure PlainMethod extends VerifiedMethod where
  noSubroutines : ∀ p < code.length, InsnStart code p →
    byteAt code p ≠ opcJsr ∧ byteAt code p ≠ opcJsrW ∧ bcIsRet code p = false

/-- Control can go from the instruction of length `len` at `p` to `q`. -/
def Reaches (code : List UInt8) (p len q : Nat) : Prop := ¬ NeverContinues code p ∧ q = p + len ∨ JumpDest code p q

/-- The edges and flags of the block `b` are those of the instruction of length `len` at `p`. -/
structure BlockExact (code : List UInt8) (cu : CompilationUnit) (b p len : Nat) : Prop where
  successors : ∀ c, c ∈ (cu.block b).successors ↔ c ∈ cu.bbList ∧ Reaches code p len (cu.block c).start
  hasBranch : (cu.block b).hasBranch = bcIsBranch (byteAt code p)
  hasReturn : (cu.block b).hasReturn = bcIsReturn (byteAt code p)
  hasAthrow : (cu.block b).hasAthrow = bcIsAthrow (byteAt code p)

/-- The analysis gives a unit whose blocks, but for those that end in a switch, have the edges and flags of their last
instructions. -/
def FlowExact (m : PlainMethod) : Prop :=
  ∃ cu, analyzeControlFlow m.toMethodCode = some cu ∧ ∀ b ∈ cu.bbList, ∃ p len, InsnStart m.code p ∧ InsnAt m.code p len ∧
    p + len = (cu.block b).stop ∧
    (byteAt m.code p ≠ opcTableswitch → byteAt m.code p ≠ opcLookupswitch → BlockExact m.code cu b p len)

/-- What follows a `goto_w` is its target, or nothing. -/
def GotoWExact (code : List UInt8) : Prop :=
  ∀ p < code.length, InsnStart code p → byteAt code p = opcGotoW → p + 5 = code.length ∨ bcTargetOff code p = 5

/-- Between a target or handler and an `athrow` behind it, an instruction ends a block. -/
def AthrowsUncut (method : MethodCode) : Prop :=
  ∀ p < method.code.length, InsnStart method.code p → byteAt method.code p = opcAthrow →
    ∀ q ≤ p, IsDest method.code q ∨ IsHandler method.exceptionTable q → ∃ l, Leads method.code l ∧ q ≤ l ∧ l ≤ p

variable {opc b p : Nat}

set_option maxRecDepth 4096 in
theorem neverContinues_of_return (h : bcIsReturn opc = true) : neverContinuesOpc opc = true := by
  have hrows : (bytecodeDef.all fun row => row.type &&& bytecodeReturn == 0 || neverContinuesOpc row.opc) = true := rfl
  simp only [bcIsReturn, hasType, bytecodeInfo, bne_iff_ne] at h
  cases hf : bytecodeDef.find? fun row => row.opc == opc with
  | none => simp [hf] at h
  | some row =>
    rw [hf] at h
    have hrow := List.all_eq_true.mp hrows row (List.mem_of_find?_eq_some hf)
    simp only [Bool.or_eq_true, beq_iff_eq] at hrow
    have hopc : row.opc = opc := by simpa using List.find?_some hf
    exact hopc ▸ hrow.resolve_left h

/-- Apart from switches, subroutines and `goto_w`, the edge to the following block is there exactly if control can go on. -/
theorem hasFallThroughEdge_iff (hts : opc ≠ opcTableswitch) (hls : opc ≠ opcLookupswitch) (hret : opc ≠ opcRet)
    (hgw : opc ≠ opcGotoW) : hasFallThroughEdge opc = true ↔ neverContinuesOpc opc = false := by
  constructor
  · intro hfall
    by_contra hnc
    simp only [neverContinuesOpc, Bool.not_eq_false, Bool.or_eq_true, beq_iff_eq, hts, hls, hret, hgw, or_false] at hnc
    rcases hnc with (((((((rfl | rfl) | rfl) | rfl) | rfl) | rfl) | rfl) | rfl) <;> revert hfall <;> decide
  · intro hnc
    have hreturn : bcIsReturn opc = false := by
      by_contra hr
      rw [neverContinues_of_return (by simpa using hr)] at hnc
      cases hnc
    simp only [neverContinuesOpc, Bool.or_eq_false_iff, beq_eq_false_iff_ne] at hnc
    have hgoto : bcIsGoto opc = false := by simp [bcIsGoto, hnc]
    have hathrow : bcIsAthrow opc = false := by simp [bcIsAthrow, hnc]
    simp only [hasFallThroughEdge, bcEndsBasicBlock, hreturn, hgoto, hathrow]
    cases bcIsBranch opc <;> rfl

section Exact

variable {code : List UInt8} {p len : Nat}

theorem neverContinues_iff (hret : bcIsRet code p = false) : NeverContinues code p ↔ neverContinuesOpc (byteAt code p) = true := by
  unfold NeverContinues
  rw [or_iff_left]
  rintro ⟨hw, hr⟩
  simp [bcIsRet, hw, hr] at hret

theorem jumpDest_iff (hts : byteAt code p ≠ opcTableswitch) (hls : byteAt code p ≠ opcLookupswitch) (d : Int) :
    JumpDest code p d ↔ isPlainBranch (byteAt code p) = true ∧ d = p + bcTargetOff code p := by
  constructor
  · intro hd
    cases hd with
    | branch hb => exact ⟨by simp [isPlainBranch, hb, hts, hls], rfl⟩
    | tableDefault ho | tableCase _ ho => exact absurd ho hts
    | lookupDefault ho | lookupCase _ ho => exact absurd ho hls
  · rintro ⟨hplain, rfl⟩
    simp only [isPlainBranch, Bool.and_eq_true, bne_iff_ne] at hplain
    exact .branch hplain.1.1 hts hls

/-- The last position up to `p` that is first or follows the end of a block. -/
theorem exists_last_leads (code : List UInt8) (p : Nat) : ∃ s ≤ p, Leads code s ∧ ∀ l, Leads code l → l ≤ p → l ≤ s := by
  classical
  refine ⟨Nat.findGreatest (Leads code) p, Nat.findGreatest_le p, Nat.findGreatest_spec (Nat.zero_le p) (.inl rfl), ?_⟩
  intro l hl hle
  exact Nat.le_findGreatest hle hl

variable {points : Nat → Prop}

/-- The edges of a block are exact, with one exception. -/
theorem FlowInv.successors_iff (h : FlowInv code true points cu)
    (hb : b < cu.nrBb) (hp : InsnStart code p) (hi : InsnAt code p len) (hend : p + len = (cu.block b).stop)
    (hts : byteAt code p ≠ opcTableswitch) (hls : byteAt code p ≠ opcLookupswitch) (hret : bcIsRet code p = false) :
    (∀ c, c ∈ (cu.block b).successors ↔ c ∈ cu.bbList ∧ Reaches code p len (cu.block c).start) ↔
      (byteAt code p = opcGotoW → p + len = code.length ∨ bcTargetOff code p = len) := by
  have hsucc c := (h.ends b hb p ⟨hp, len, hi, hend⟩).successors c
  have hnotRet : byteAt code p ≠ opcRet := by
    intro ho
    have hne : opcRet ≠ opcWide := by decide
    simp [bcIsRet, ho, hne] at hret
  have hreach q : Reaches code p len q ↔ neverContinuesOpc (byteAt code p) = false ∧ q = (cu.block b).stop ∨
      isPlainBranch (byteAt code p) = true ∧ (q : Int) = p + bcTargetOff code p := by
    rw [Reaches, neverContinues_iff hret, jumpDest_iff hts hls, hend, Bool.not_eq_true]
  simp only [hsucc, hreach, h.wellFormed.mem, true_and]
  by_cases hgw : byteAt code p = opcGotoW
  · have hplain : isPlainBranch opcGotoW = true := by decide
    have hfall : hasFallThroughEdge opcGotoW = true := by decide
    have hnever : neverContinuesOpc opcGotoW = true := by decide
    simp only [hgw, hplain, hfall, hnever, true_and, Bool.true_eq_false, false_and, false_or, forall_const]
    constructor
    · intro hall
      rw [or_iff_not_imp_left]
      intro hne
      have hle := hi.2.2
      -- the block behind the instruction is among the successors, so it has to be the target
      obtain ⟨c, hc, hs⟩ := h.wellFormed.startsAt_stop hb (by omega)
      have := ((hall c).mp ⟨hc, .inl hs⟩).2
      omega
    · rintro hor c
      refine and_congr_right fun hc => ⟨?_, .inr⟩
      rintro (hs | ht)
      · have := h.wellFormed.bounds hc
        rcases hor with hlast | hoff <;> omega
      · exact ht
  · simp only [hgw, false_imp_iff, iff_true]
    intro c
    rw [hasFallThroughEdge_iff hts hls hnotRet hgw]

theorem FlowInv.exists_block {targets : Bool}
    (h : FlowInv code targets points cu) (hcomplete : InsnStart code code.length) (hp : InsnStart code p)
    (hi : InsnAt code p len) (hends : bcEndsBasicBlock (byteAt code p) = true) :
    ∃ b < cu.nrBb, (cu.block b).start ≤ p ∧ p + len = (cu.block b).stop := by
  obtain ⟨b, hb, hle, hlt, -⟩ := h.findBb hi.1
  refine ⟨b, hb, hle, ?_⟩
  obtain ⟨q, hq⟩ := h.exists_lastInsn hcomplete hb
  have hstop := hq.insnStart.le_of_lt hp hi hlt
  have hbound := (h.wellFormed.bounds hb).2
  have hpos := hi.pos
  by_contra hne
  refine h.wellFormed.not_startsAt hb ⟨?_, Nat.lt_of_le_of_ne hstop hne⟩
    (h.leads (p + len) (by omega) (.inr ⟨p, ⟨hp, len, hi, rfl⟩, hends⟩))
  omega

end Exact

section Athrow

variable {method : MethodCode} {cu : CompilationUnit}

section

variable (h : HandlerInv method cu) (hcomplete : InsnStart method.code method.code.length)

include h hcomplete

/-- `has_athrow` is right at a block if no block that ends with `athrow` is cut. -/
theorem HandlerInv.hasAthrow_of_uncut
    (huncut : AthrowsUncut method) (hb : b < cu.nrBb) (hp : LastInsn method.code (cu.block b).stop p) :
    (cu.block b).hasAthrow = bcIsAthrow (byteAt method.code p) := by
  obtain ⟨hlt, hle⟩ := h.flow.wellFormed.bounds hb
  have hplt := hp.lt
  -- a block start up to an athrow either leads or lies behind a position that leads
  have hcut {c q} (hc : c < cu.nrBb) (hq : InsnStart method.code q) (hqn : q < method.code.length)
      (ha : byteAt method.code q = opcAthrow) (hcq : (cu.block c).start ≤ q) :
      ∃ l, Leads method.code l ∧ (cu.block c).start ≤ l ∧ l ≤ q := by
    rcases h.flow.only c hc with hl | hd | ⟨hh, -⟩
    · exact ⟨_, hl, Nat.le_refl _, hcq⟩
    · exact huncut q hqn hq ha _ hcq (.inl hd)
    · exact huncut q hqn hq ha _ hcq (.inr hh)
  rw [Bool.eq_iff_iff, h.flow.athrow b hb]
  constructor
  · rintro ⟨q, hq, hqn, ha, -, hqs, hqmax⟩
    obtain ⟨len, hi⟩ := hcomplete.complete hq hqn
    -- the athrow is not behind the block, so it ends it
    have hqlt : q < (cu.block b).stop := by
      by_contra hge
      obtain ⟨c, hc, hs⟩ := h.flow.wellFormed.startsAt_stop hb (by omega)
      obtain ⟨l, hl, hcl, hlq⟩ := hcut hc hq hqn ha (by omega)
      have := hqmax l hl hlq
      omega
    obtain ⟨c, hc, hcs, hce⟩ := h.flow.exists_block hcomplete hq hi (by rw [ha]; decide)
    have hpos := hi.pos
    obtain rfl : c = b := h.flow.wellFormed.unique hc hb ⟨hcs, by omega⟩ ⟨hqs, hqlt⟩
    rw [hp.unique ⟨hq, len, hi, hce⟩, ha]
    decide
  · intro ha
    have ha' : byteAt method.code p = opcAthrow := by simpa [bcIsAthrow] using ha
    have hbp := hp.le_of_lt (h.flow.starts b hb) hlt
    obtain ⟨s, hsp, hs, hmax⟩ := exists_last_leads method.code p
    obtain ⟨l, hl, hbl, hlp⟩ := hcut hb hp.1 (by omega) ha' hbp
    have hls := hmax l hl hlp
    -- the start of the block leads, since no block starts between it and the athrow
    have hsb : s = (cu.block b).start := by
      by_contra hne
      exact h.flow.wellFormed.not_startsAt hb ⟨by omega, by omega⟩ (h.flow.leads s (by omega) hs)
    exact ⟨p, hp.1, by omega, ha', hsb ▸ hs, hsb ▸ hsp, hsb ▸ hmax⟩

/-- If the flags are right at all blocks that end in no switch, no block that ends with `athrow` is cut. -/
theorem HandlerInv.athrowsUncut (hhandlers : ∀ eh ∈ method.exceptionTable, StartsAt cu eh.handlerPc)
    (hflags : ∀ b < cu.nrBb, ∀ p, LastInsn method.code (cu.block b).stop p → bcEndsBasicBlock (byteAt method.code p) = false →
      (cu.block b).hasAthrow = bcIsAthrow (byteAt method.code p)) : AthrowsUncut method := by
  intro p hpn hp ha q hqp hq
  by_contra hno
  obtain ⟨s, hsp, hs, hmax⟩ := exists_last_leads method.code p
  have hsq : s < q := by
    by_contra hge
    exact hno ⟨s, hs, by omega, hsp⟩
  obtain ⟨b, hb, hbs⟩ := h.flow.leads s (by omega) hs
  have hqstart : StartsAt cu q := by
    rcases hq with hd | ⟨eh, he, rfl⟩
    · exact h.flow.dests rfl q (by omega) hd
    · exact hhandlers eh he
  have hstop : (cu.block b).stop ≤ q := by
    by_contra hgt
    exact h.flow.wellFormed.not_startsAt hb ⟨by omega, by omega⟩ hqstart
  obtain ⟨p', hp'⟩ := h.flow.exists_lastInsn hcomplete hb
  -- the upper part of the block has the flag, but its last instruction ends no block
  have hends : bcEndsBasicBlock (byteAt method.code p') = false := by
    by_contra hends
    have := hmax (cu.block b).stop (.inr ⟨p', hp', by simpa using hends⟩) (by omega)
    have := (h.flow.wellFormed.bounds hb).1
    omega
  have hathrow := (h.flow.athrow b hb).mpr ⟨p, hp, hpn, ha, hbs ▸ hs, hbs ▸ hsp, hbs ▸ hmax⟩
  rw [hflags b hb p' hp' hends] at hathrow
  simp [bcEndsBasicBlock, hathrow] at hends

end

end Athrow

theorem gotoW_length {code : List UInt8} {len : Nat} (hi : InsnAt code p len) (ho : byteAt code p = opcGotoW) :
    len = 5 := by
  have hl := hi.2.1
  have hsize : (bytecodeInfo opcGotoW).size = 5 := by decide
  have hv : bcIsInvalid opcGotoW = false := by decide
  simp only [insnLength, ho, hv, hsize, Bool.false_eq_true, if_false] at hl
  rw [if_neg (by decide), if_neg (by decide), if_neg (by decide)] at hl
  exact (Option.some.inj hl).symm

theorem FlowExact.conditions {m : PlainMethod} (hflow : FlowExact m) :
    (∀ eh ∈ m.exceptionTable, LedByHandler m.toMethodCode eh.handlerPc) ∧ GotoWExact m.code ∧
      AthrowsUncut m.toMethodCode := by
  obtain ⟨hsome, hnone⟩ := analyzeControlFlow_spec m.toVerifiedMethod
  obtain ⟨cu, hcu, hall⟩ := hflow
  have hled : ∀ eh ∈ m.exceptionTable, LedByHandler m.toMethodCode eh.handlerPc := by
    intro eh he
    by_contra hled
    rw [hnone ⟨eh, he, hled⟩] at hcu
    cases hcu
  obtain ⟨cu', hcu', h, hstart⟩ := hsome hled
  obtain rfl : cu = cu' := Option.some.inj (hcu.symm.trans hcu')
  have hexact {b p} (hb : b < cu.nrBb) (hp : LastInsn m.code (cu.block b).stop p)
      (hts : byteAt m.code p ≠ opcTableswitch) (hls : byteAt m.code p ≠ opcLookupswitch) :
      ∃ len, InsnAt m.code p len ∧ p + len = (cu.block b).stop ∧ BlockExact m.code cu b p len := by
    obtain ⟨p', len, hp', hi, hend, hex⟩ := hall b ((h.flow.wellFormed.mem b).mpr hb)
    obtain rfl := hp.unique ⟨hp', len, hi, hend⟩
    exact ⟨len, hi, hend, hex hts hls⟩
  refine ⟨hled, fun p hpn hp ho => ?_, h.athrowsUncut m.complete hstart fun b hb p hp hends => ?_⟩
  · obtain ⟨len, hi⟩ := m.complete.complete hp hpn
    obtain ⟨b, hb, -, hend⟩ := h.flow.exists_block m.complete hp hi (by rw [ho]; decide)
    have hts : byteAt m.code p ≠ opcTableswitch := by rw [ho]; decide
    have hls : byteAt m.code p ≠ opcLookupswitch := by rw [ho]; decide
    obtain ⟨len', hi', hend', hex⟩ := hexact hb ⟨hp, len, hi, hend⟩ hts hls
    have hlen := gotoW_length hi' ho
    subst hlen
    exact (h.flow.successors_iff hb hp hi' hend' hts hls (m.noSubroutines p hpn hp).2.2).mp hex.successors ho
  · have hts : byteAt m.code p ≠ opcTableswitch := by
      intro ho
      rw [ho] at hends
      exact absurd hends (by decide)
    have hls : byteAt m.code p ≠ opcLookupswitch := by
      intro ho
      rw [ho] at hends
      exact absurd hends (by decide)
    obtain ⟨len, -, -, hex⟩ := hexact hb hp hts hls
    exact hex.hasAthrow

/-- **The edges and flags** of the blocks of verified code without subroutines are those of their last instructions exactly
if each handler is led by a handler, what follows a `goto_w` is its target, and no target or handler cuts the block of an
`athrow`. -/
theorem flowExact_iff (m : PlainMethod) : FlowExact m ↔
    (∀ eh ∈ m.exceptionTable, LedByHandler m.toMethodCode eh.handlerPc) ∧ GotoWExact m.code ∧
      AthrowsUncut m.toMethodCode := by
  refine ⟨FlowExact.conditions, ?_⟩
  rintro ⟨hled, hgw, huncut⟩
  obtain ⟨cu, hcu, h, -⟩ := (analyzeControlFlow_spec m.toVerifiedMethod).1 hled
  refine ⟨cu, hcu, fun b hb => ?_⟩
  rw [h.flow.wellFormed.mem] at hb
  obtain ⟨p, hp⟩ := h.flow.exists_lastInsn m.complete hb
  obtain ⟨hstart, len, hi, hend⟩ := id hp
  refine ⟨p, len, hstart, hi, hend, fun hts hls => ?_⟩
  have hends := h.flow.ends b hb p hp
  refine ⟨?_, ?_, hends.hasReturn, h.hasAthrow_of_uncut m.complete huncut hb hp⟩
  · refine (h.flow.successors_iff hb hstart hi hend hts hls (m.noSubroutines p hi.1 hstart).2.2).mpr fun ho => ?_
    have hlen := gotoW_length hi ho
    subst hlen
    exact hgw p hi.1 hstart ho
  · rw [hends.hasBranch, isPlainBranch, bne_iff_ne.mpr hts, bne_iff_ne.mpr hls, Bool.and_true, Bool.and_true]

/-- `iconst_0; ifeq 9; goto_w 10; nop; aconst_null; athrow`. -/
def longGotoCode : List UInt8 := [0x03, 0x99, 0, 8, 0xc8, 0, 0, 0, 6, 0x00, 0x01, 0xbf]

theorem longGotoCode_start : InsnStart longGotoCode 4 :=
  .next (.next .zero (⟨by decide, rfl, by decide⟩ : InsnAt longGotoCode 0 1)) (⟨by decide, rfl, by decide⟩ : InsnAt _ 1 3)

theorem longGotoCode_targets : InsnStart longGotoCode 9 ∧ InsnStart longGotoCode 10 := by
  have h9 : InsnStart longGotoCode 9 := longGotoCode_start.next (⟨by decide, rfl, by decide⟩ : InsnAt _ 4 5)
  exact ⟨h9, h9.next (⟨by decide, rfl, by decide⟩ : InsnAt _ 9 1)⟩

def longGoto : PlainMethod where
  code := longGotoCode
  exceptionTable := []
  nonempty := by decide
  length_lt := by decide
  complete := (longGotoCode_targets.2.next (⟨by decide, rfl, by decide⟩ : InsnAt _ 10 1)).next
    (⟨by decide, rfl, by decide⟩ : InsnAt _ 11 1)
  dests := by
    intro pc hpc _ d hd
    have hbranches : ∀ pc < 12, bcIsBranch (byteAt longGotoCode pc) = true → pc = 1 ∨ pc = 4 := by decide
    rcases hbranches pc hpc (bcIsBranch_of_jumpDest hd) with rfl | rfl
    · rw [((jumpDest_iff (by decide) (by decide) d).mp hd).2]
      exact ⟨by decide, by decide, longGotoCode_targets.1⟩
    · rw [((jumpDest_iff (by decide) (by decide) d).mp hd).2]
      exact ⟨by decide, by decide, longGotoCode_targets.2⟩
  handlers := fun _ he => absurd he List.not_mem_nil
  noSubroutines := by
    have hall : ∀ p < 12, byteAt longGotoCode p ≠ opcJsr ∧ byteAt longGotoCode p ≠ opcJsrW ∧
      bcIsRet longGotoCode p = false := by decide
    exact fun p hp _ => hall p hp

/-- The block of the `goto_w` has an edge to the `nop`, and the block of the `nop` the flag of the `athrow` behind it. -/
theorem not_flowExact_longGoto : ¬ FlowExact longGoto := by
  intro h
  have := h.conditions.2.1 4 (by decide) longGotoCode_start (by decide)
  revert this
  decide

end Jato.Jit.Flow
