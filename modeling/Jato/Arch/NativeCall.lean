import Jato.Arch.ArgsMap

/-!
# Native calls

`native_call_gp` of `arch/x86/call.c` for x86-64. The loop over the arguments takes from the map only whether an argument
has a register: it fills the registers and the stack in the order of the arguments, skips the second slots of longs and
doubles, and asserts that the stack stays aligned. `passes_iff` says for which methods every argument ends up in the
place that the map has for it.
-/

namespace Jato.Arch

open List

open Jato.Jit (VmType)

/-! ## The call -/

/-- The arrays `regs`, `fregs` and `stack`, up to their counts. -/
structure CallArrays where
  regs : List UInt64
  fregs : List UInt64
  stack : List UInt64

def CallArrays.place (s : CallArrays) (e : ArgsMap) (a : UInt64) : CallArrays :=
  if e.reg = none then { s with stack := s.stack ++ [a] }
  else if e.type = .double ∨ e.type = .float then { s with fregs := s.fregs ++ [a] }
  else { s with regs := s.regs ++ [a] }

/-- The loop over the map and the arguments; the flag says that the next slot is a second one. -/
def fillArrays : Bool → List (ArgsMap × UInt64) → CallArrays → CallArrays
  | _, [], s => s
  | true, _ :: l, s => fillArrays false l s
  | false, (e, a) :: l, s => fillArrays (vmTypeIsPair e.type) l (s.place e a)

def padTo (n : Nat) (l : List UInt64) : List UInt64 := l ++ List.replicate (n - l.length) 0

def x86StackAlign : Nat := 16

/-- What the called function finds, or `none` for a failed assertion or a write beyond `regs` or `fregs`. -/
def nativeCallGp (m : Method) (args : List UInt64) : Option CallArrays :=
  let s := fillArrays false ((argsMapInit m).1.zip args) ⟨[], [], []⟩
  if 6 < s.regs.length ∨ 8 < s.fregs.length then none
  else if s.stack.length * 8 % x86StackAlign ≠ 0 then none
  else some ⟨padTo 6 s.regs, padTo 8 s.fregs, s.stack⟩

/-- The register that the assembly code loads from each place of the arrays. -/
def CallArrays.reg (s : CallArrays) : MachReg → Option UInt64
  | .xDI => s.regs[0]?
  | .xSI => s.regs[1]?
  | .xDX => s.regs[2]?
  | .xCX => s.regs[3]?
  | .r8 => s.regs[4]?
  | .r9 => s.regs[5]?
  | .xmm0 => s.fregs[0]?
  | .xmm1 => s.fregs[1]?
  | .xmm2 => s.fregs[2]?
  | .xmm3 => s.fregs[3]?
  | .xmm4 => s.fregs[4]?
  | .xmm5 => s.fregs[5]?
  | .xmm6 => s.fregs[6]?
  | .xmm7 => s.fregs[7]?
  | _ => none

/-! ## What a call is for -/

/-- The place that an entry records holds a word. -/
def CallArrays.Holds (s : CallArrays) (e : ArgsMap) (a : UInt64) : Prop :=
  match e.reg with
  | some r => s.reg r = some a
  | none => 0 ≤ e.stackIndex ∧ s.stack[e.stackIndex.toNat]? = some a

/-- The environment of a JNI method is not among the arguments of a call: the trampoline adds it. -/
def Method.unpassed (m : Method) : Nat := if m.isJni then 1 else 0

/-- The call succeeds, with every argument in the place that the map records for it. -/
def Passes (m : Method) (args : List UInt64) : Prop :=
  ∃ s, nativeCallGp m args = some s ∧
    ∀ p ∈ (m.entries.drop m.unpassed).zip (firstSlots (m.allArgs.drop m.unpassed) args), s.Holds p.1 p.2

/-! ## One argument -/

variable {n : Nat} {m : Method} {es : List ArgsMap}

section

variable {t : VmType} {c c' : Counts} {e : ArgsMap} {s : CallArrays} {a : UInt64}

variable {r : MachReg} {s' : CallArrays}

theorem reg_of_argsMapAllocGpr (h : argsMapAllocGpr n = some r) : s.reg r = s.regs[n]? := by
  unfold argsMapAllocGpr at h
  split at h <;> cases h <;> rfl

theorem reg_of_argsMapAllocXmm (h : argsMapAllocXmm n = some r) : s.reg r = s.fregs[n]? := by
  unfold argsMapAllocXmm at h
  split at h <;> cases h <;> rfl

/-- The arrays hold as many words as the map has given out registers. -/
structure Filled (s : CallArrays) (c : Counts) : Prop where
  regs : s.regs.length = c.gpr
  fregs : s.fregs.length = c.xmm
  gpr_le : c.gpr ≤ 6
  xmm_le : c.xmm ≤ 8

/-- The arrays have been filled further. -/
structure Extends (s s' : CallArrays) : Prop where
  regs : s.regs <+: s'.regs
  fregs : s.fregs <+: s'.fregs

theorem Extends.refl (s : CallArrays) : Extends s s := ⟨prefix_refl _, prefix_refl _⟩

theorem Extends.trans {s s'' : CallArrays} (h : Extends s s') (h' : Extends s' s'') : Extends s s'' :=
  ⟨h.regs.trans h'.regs, h.fregs.trans h'.fregs⟩

theorem getElem?_of_prefix {α : Type} {l l' : List α} (h : l <+: l') {i : Nat} {x : α} (hi : l[i]? = some x) :
    l'[i]? = some x := by
  obtain ⟨r, rfl⟩ := h
  obtain ⟨hlt, -⟩ := List.getElem?_eq_some_iff.mp hi
  rw [List.getElem?_append_left hlt, hi]

theorem Extends.reg (h : Extends s s') (hr : s.reg r = some a) : s'.reg r = some a := by
  cases r
  all_goals first | exact getElem?_of_prefix h.regs hr | exact getElem?_of_prefix h.fregs hr | cases hr

theorem Placed.place_spec (h : Placed t c e c') (hs : Filled s c) (a : UInt64) :
    Filled (s.place e a) c' ∧ Extends s (s.place e a) ∧ (∀ r, e.reg = some r → (s.place e a).reg r = some a) ∧
      (s.place e a).stack = s.stack ++ if e.reg.isNone then [a] else [] := by
  obtain ⟨hregs, hfregs, hgpr, hxmm⟩ := hs
  cases h with
  | gpr htype hlt =>
    obtain ⟨r, hr⟩ := exists_argsMapAllocGpr hlt
    have hclass : ¬ (t = .double ∨ t = .float) := by rintro (rfl | rfl) <;> cases htype
    have hplace : s.place ⟨argsMapAllocGpr c.gpr, -1, t⟩ a = { s with regs := s.regs ++ [a] } := by
      rw [CallArrays.place, if_neg (by simp [hr]), if_neg hclass]
    rw [hplace]
    refine ⟨⟨?_, hfregs, hlt, hxmm⟩, ⟨prefix_append _ _, prefix_refl _⟩, fun r' hr' => ?_, ?_⟩
    · simp [hregs]
    · rw [reg_of_argsMapAllocGpr hr', ← hregs]
      rw [getElem?_concat_length]
    · simp [hr]
  | xmm htype hlt =>
    obtain ⟨r, hr⟩ := exists_argsMapAllocXmm hlt
    have hclass : t = .double ∨ t = .float := by cases t <;> first | exact .inl rfl | exact .inr rfl | cases htype
    have hplace : s.place ⟨argsMapAllocXmm c.xmm, -1, t⟩ a = { s with fregs := s.fregs ++ [a] } := by
      rw [CallArrays.place, if_neg (by simp [hr]), if_pos hclass]
    rw [hplace]
    refine ⟨⟨hregs, ?_, hgpr, hlt⟩, ⟨prefix_refl _, prefix_append _ _⟩, fun r' hr' => ?_, ?_⟩
    · simp [hfregs]
    · rw [reg_of_argsMapAllocXmm hr', ← hfregs]
      rw [getElem?_concat_length]
    · simp [hr]
  | stack => exact ⟨⟨hregs, hfregs, hgpr, hxmm⟩, ⟨prefix_refl _, prefix_refl _⟩, by simp, rfl⟩

end

/-! ## All arguments -/

section

variable {t : VmType} {ts : List VmType} {c : Counts} {s : CallArrays}

theorem fillArrays_argsMapLoop_cons (a : UInt64) (as : List UInt64) :
    fillArrays false ((argsMapLoop (t :: ts) c).1.zip (a :: as)) s =
      fillArrays false ((argsMapLoop ts (countsAfter t c)).1.zip (if vmTypeIsPair t then as.drop 1 else as))
        (s.place (argsMapArg t c).1 a) := by
  rw [argsMapLoop_cons, zip_cons_cons, fillArrays, (placed_argsMapArg t c).type_eq]
  split_ifs with hpair
  · rw [hpair]
    cases as with
    | nil =>
      rw [zip_nil_right, drop_nil, zip_nil_right]
      rfl
    | cons a' as => rfl
  · rw [eq_false_of_ne_true hpair]
    rfl

/-- The words of the arguments without a register. -/
def stackWords (es : List ArgsMap) (ws : List UInt64) : List UInt64 :=
  ((es.zip ws).filter (·.1.reg.isNone)).map Prod.snd

theorem stackWords_cons (e : ArgsMap) (es : List ArgsMap) (w : UInt64) (ws : List UInt64) :
    stackWords (e :: es) (w :: ws) = (if e.reg.isNone then [w] else []) ++ stackWords es ws := by
  unfold stackWords
  rw [zip_cons_cons, filter_cons]
  split_ifs <;> rfl

theorem fillArrays_spec (ts : List VmType) (args : List UInt64) (hs : Filled s c) :
    let s' := fillArrays false ((argsMapLoop ts c).1.zip args) s
    s'.regs.length ≤ 6 ∧ s'.fregs.length ≤ 8 ∧ Extends s s' ∧
      s'.stack = s.stack ++ stackWords (argEntries ts c) (firstSlots ts args) ∧
      ∀ p ∈ (argEntries ts c).zip (firstSlots ts args), ∀ r, p.1.reg = some r → s'.reg r = some p.2 := by
  have hregs : s.regs.length ≤ 6 := hs.regs ▸ hs.gpr_le
  have hfregs : s.fregs.length ≤ 8 := hs.fregs ▸ hs.xmm_le
  induction ts generalizing c s args with
  | nil => exact ⟨hregs, hfregs, .refl _, (append_nil _).symm, fun _ hp => absurd hp not_mem_nil⟩
  | cons t ts ih =>
    cases args with
    | nil =>
      have hnil : (argEntries (t :: ts) c).zip (firstSlots (t :: ts) ([] : List UInt64)) = [] := zip_nil_right
      rw [zip_nil_right, stackWords, hnil]
      exact ⟨hregs, hfregs, .refl _, (append_nil _).symm, fun _ hp => absurd hp not_mem_nil⟩
    | cons a as =>
      obtain ⟨hfilled, hextends, hreg, hstack⟩ := (placed_argsMapArg t c).place_spec hs a
      obtain ⟨hregs, hfregs, hextends', hstack', hholds⟩ :=
        ih (if vmTypeIsPair t then as.drop 1 else as) hfilled (hfilled.regs ▸ hfilled.gpr_le) (hfilled.fregs ▸ hfilled.xmm_le)
      rw [fillArrays_argsMapLoop_cons]
      refine ⟨hregs, hfregs, hextends.trans hextends', ?_, ?_⟩
      · rw [hstack', hstack, append_assoc, argEntries_cons, firstSlots, stackWords_cons]
      · rw [argEntries_cons, firstSlots, zip_cons_cons]
        rintro p (_ | ⟨_, hp⟩) r hr
        · exact hextends'.reg (hreg r hr)
        · exact hholds p hp r hr

end

/-! ## Calls -/

/-- For methods without an environment, the registers are right, and the stack holds the words in the order of the
arguments. -/
theorem passes_iff_stackWords (hjni : m.isJni = false) (args : List UInt64) : Passes m args ↔
    2 ∣ (stackWords m.entries (firstSlots m.allArgs args)).length ∧
    ∀ p ∈ m.entries.zip (firstSlots m.allArgs args), p.1.reg = none → 0 ≤ p.1.stackIndex ∧
      (stackWords m.entries (firstSlots m.allArgs args))[p.1.stackIndex.toNat]? = some p.2 := by
  have hfilled : Filled ⟨[], [], []⟩ ⟨0, 0, 0⟩ := ⟨rfl, rfl, Nat.zero_le _, Nat.zero_le _⟩
  obtain ⟨hregs, hfregs, -, hstack, hholds⟩ := fillArrays_spec m.allArgs args hfilled
  have hunpassed : m.unpassed = 0 := by rw [Method.unpassed, hjni]; rfl
  have hmap := congrArg Prod.fst (argsMapInit_eq m)
  unfold Passes nativeCallGp
  rw [hunpassed, drop_zero, drop_zero, hmap]
  rw [← m.entries_eq] at hstack hholds
  generalize fillArrays false ((argsMapLoop m.allArgs ⟨0, 0, 0⟩).1.zip args) ⟨[], [], []⟩ = s at *
  rw [nil_append] at hstack
  rw [if_neg (by omega), ← hstack]
  have hpad : Extends s ⟨padTo 6 s.regs, padTo 8 s.fregs, s.stack⟩ := ⟨prefix_append _ _, prefix_append _ _⟩
  have halign : s.stack.length * 8 % x86StackAlign ≠ 0 ↔ ¬ 2 ∣ s.stack.length := by
    unfold x86StackAlign
    omega
  constructor
  · rintro ⟨s', hs', hall⟩
    split_ifs at hs' with heven
    cases hs'
    refine ⟨not_not.mp (mt halign.mpr heven), fun p hp hnone => ?_⟩
    have := hall p hp
    rwa [CallArrays.Holds, hnone] at this
  · rintro ⟨heven, hall⟩
    refine ⟨_, if_neg (mt halign.mp (not_not.mpr heven)), fun p hp => ?_⟩
    unfold CallArrays.Holds
    split
    · rename_i r hr
      exact hpad.reg (hholds p hp r hr)
    · rename_i hnone
      exact hall p hp hnone

/-! ## Words on the stack -/

variable {ws : List UInt64}

theorem length_stackWords (h : ws.length = es.length) : (stackWords es ws).length = (stackIndices es).length := by
  induction es generalizing ws with
  | nil => rfl
  | cons e es ih =>
    cases ws with
    | nil => cases h
    | cons w ws =>
      rw [stackWords_cons, stackIndices_cons, length_append, ih (Nat.succ.inj h)]
      split_ifs
      · rw [length_singleton, length_cons, add_comm]
      · exact zero_add _

theorem exists_stackWords_eq (es : List ArgsMap) (vs : List UInt64) (h : vs.length = (stackIndices es).length) :
    ∃ ws, ws.length = es.length ∧ stackWords es ws = vs := by
  induction es generalizing vs with
  | nil => exact ⟨[], rfl, (eq_nil_of_length_eq_zero h).symm⟩
  | cons e es ih =>
    rw [stackIndices_cons] at h
    by_cases hnone : e.reg.isNone
    · rw [if_pos hnone] at h
      cases vs with
      | nil => cases h
      | cons v vs =>
        obtain ⟨ws, hlen, hws⟩ := ih vs (Nat.succ.inj h)
        refine ⟨v :: ws, congrArg (· + 1) hlen, ?_⟩
        rw [stackWords_cons, if_pos hnone, hws, singleton_append]
    · rw [if_neg hnone] at h
      obtain ⟨ws, hlen, hws⟩ := ih vs h
      refine ⟨0 :: ws, congrArg (· + 1) hlen, ?_⟩
      rw [stackWords_cons, if_neg hnone, hws, nil_append]

theorem exists_firstSlots_eq (ts : List VmType) (h : ws.length = ts.length) :
    ∃ args, args.length = countArguments ts ∧ firstSlots ts args = ws := by
  induction ts generalizing ws with
  | nil => exact ⟨[], rfl, (eq_nil_of_length_eq_zero h).symm⟩
  | cons t ts ih =>
    cases ws with
    | nil => cases h
    | cons w ws =>
      obtain ⟨args, hlen, hargs⟩ := ih (Nat.succ.inj h)
      by_cases hpair : vmTypeIsPair t
      · refine ⟨w :: 0 :: args, ?_, ?_⟩
        · rw [countArguments, if_pos hpair, length_cons, length_cons, hlen]
          omega
        · rw [firstSlots, if_pos hpair, drop_one, tail_cons, hargs]
      · refine ⟨w :: args, ?_, ?_⟩
        · rw [countArguments, if_neg hpair, length_cons, hlen]
          omega
        · rw [firstSlots, if_neg hpair, hargs]

theorem length_firstSlots {ts : List VmType} {args : List UInt64} (h : args.length = countArguments ts) :
    (firstSlots ts args).length = ts.length := by
  induction ts generalizing args with
  | nil => rfl
  | cons t ts ih =>
    rw [countArguments] at h
    cases args with
    | nil => split_ifs at h <;> simp only [length_nil] at h <;> omega
    | cons a as =>
      rw [firstSlots, length_cons, length_cons, ih]
      split_ifs at * <;> simp only [length_cons, length_drop] at * <;> omega

theorem length_argEntries (ts : List VmType) (c : Counts) : (argEntries ts c).length = ts.length := by
  induction ts generalizing c with
  | nil => rfl
  | cons t ts ih => rw [argEntries_cons, length_cons, ih, length_cons]

theorem stackIndices_eq_map (h : ws.length = es.length) :
    stackIndices es = ((es.zip ws).filter (·.1.reg.isNone)).map (·.1.stackIndex) := by
  induction es generalizing ws with
  | nil => rfl
  | cons e es ih =>
    cases ws with
    | nil => cases h
    | cons w ws =>
      rw [stackIndices_cons, zip_cons_cons, filter_cons, ih (Nat.succ.inj h)]
      split_ifs <;> rfl

theorem consecutive_iff_getElem? {xs : List Int} :
    Consecutive n xs ↔ ∀ (j : Nat) (x : Int), xs[j]? = some x → x = (n + j : Nat) := by
  induction xs generalizing n with
  | nil => exact iff_of_true trivial nofun
  | cons x xs ih =>
    rw [Consecutive, ih]
    constructor
    · rintro ⟨rfl, h⟩ (_ | j) y hy
      · cases hy
        rfl
      · rw [h j y hy]
        omega
    · intro h
      refine ⟨h 0 x rfl, fun j y hy => ?_⟩
      rw [h (j + 1) y hy]
      omega

/-- Every word is found at the index of its entry exactly if the indices are those of the stack. -/
theorem forall_stackWords_iff (es : List ArgsMap) :
    (∀ ws, ws.length = es.length → ∀ p ∈ es.zip ws, p.1.reg = none → 0 ≤ p.1.stackIndex ∧
      (stackWords es ws)[p.1.stackIndex.toNat]? = some p.2) ↔ Consecutive 0 (stackIndices es) := by
  rw [consecutive_iff_getElem?]
  constructor
  · intro h j x hx
    obtain ⟨hlt, -⟩ := List.getElem?_eq_some_iff.mp hx
    -- all words but the one in question are zero
    obtain ⟨ws, hlen, hws⟩ := exists_stackWords_eq es ((List.replicate (stackIndices es).length 0).set j 1)
      (by rw [List.length_set, List.length_replicate])
    rw [stackIndices_eq_map hlen, List.getElem?_map, Option.map_eq_some_iff] at hx
    obtain ⟨p, hp, rfl⟩ := hx
    obtain ⟨hmem, hnone⟩ := List.mem_filter.mp (List.mem_of_getElem? hp)
    obtain ⟨hpos, hfound⟩ := h ws hlen p hmem (Option.isNone_iff_eq_none.mp hnone)
    have hword : (stackWords es ws)[j]? = some p.2 := by rw [stackWords, List.getElem?_map, hp]; rfl
    rw [hws, List.getElem?_set_self (by rw [List.length_replicate]; exact hlt), Option.some.injEq] at hword
    have hj : p.1.stackIndex.toNat = j := by
      by_contra hne
      rw [hws, List.getElem?_set_ne (Ne.symm hne), ← hword] at hfound
      exact absurd (List.eq_of_mem_replicate (List.mem_of_getElem? hfound)) (by decide)
    omega
  · intro h ws hlen p hp hnone
    have hmem : p ∈ (es.zip ws).filter (·.1.reg.isNone) :=
      List.mem_filter.mpr ⟨hp, Option.isNone_iff_eq_none.mpr hnone⟩
    obtain ⟨j, hj⟩ := List.mem_iff_getElem?.mp hmem
    have hindex : p.1.stackIndex = j := by
      have := h j p.1.stackIndex (by rw [stackIndices_eq_map hlen, List.getElem?_map, hj]; rfl)
      rwa [zero_add] at this
    rw [hindex]
    refine ⟨Int.natCast_nonneg _, ?_⟩
    rw [Int.toNat_natCast, stackWords, List.getElem?_map, hj]
    rfl

/-! ## JNI methods -/

theorem fillArrays_regs (b : Bool) (l : List (ArgsMap × UInt64)) (s : CallArrays) :
    ∃ ws, (fillArrays b l s).regs = s.regs ++ ws ∧ ∀ w ∈ ws, w ∈ l.map Prod.snd := by
  induction l generalizing b s with
  | nil => exact ⟨[], by cases b <;> exact (append_nil _).symm, nofun⟩
  | cons p l ih =>
    cases b with
    | true =>
      obtain ⟨ws, hws, hmem⟩ := ih false s
      exact ⟨ws, hws, fun w hw => mem_cons_of_mem _ (hmem w hw)⟩
    | false =>
      obtain ⟨ws, hws, hmem⟩ := ih (vmTypeIsPair p.1.type) (s.place p.1 p.2)
      rw [fillArrays, hws]
      by_cases hreg : (s.place p.1 p.2).regs = s.regs
      · exact ⟨ws, by rw [hreg], fun w hw => mem_cons_of_mem _ (hmem w hw)⟩
      · have hplace : (s.place p.1 p.2).regs = s.regs ++ [p.2] := by
          unfold CallArrays.place at hreg ⊢
          split_ifs at hreg ⊢ <;> first | rfl | exact absurd rfl hreg
        refine ⟨p.2 :: ws, by rw [hplace, append_assoc, singleton_append], ?_⟩
        rintro w (_ | ⟨_, hw⟩)
        · exact mem_cons_self
        · exact mem_cons_of_mem _ (hmem w hw)

/-- The first argument of a JNI method goes to the register of the environment. -/
theorem exists_not_passes (hjni : m.isJni = true) : ∃ args, args.length = m.argsCount ∧ ¬ Passes m args := by
  have hallArgs : m.allArgs = .reference :: .reference :: m.args := by
    obtain ⟨_ | _, _ | _, args⟩ := m <;> first | rfl | cases hjni
  have hcount : m.argsCount = countArguments m.args + 1 := by
    obtain ⟨_ | _, _ | _, args⟩ := m <;> first | rfl | cases hjni
  refine ⟨1 :: List.replicate (countArguments m.args) 0, by rw [length_cons, length_replicate, hcount], ?_⟩
  rintro ⟨s, hs, hall⟩
  have hmap : (argsMapInit m).1 = ⟨some .xDI, -1, .reference⟩ :: ⟨some .xSI, -1, .reference⟩ ::
      (argsMapLoop m.args ⟨2, 0, 0⟩).1 := by
    rw [congrArg Prod.fst (argsMapInit_eq m), hallArgs, argsMapLoop_cons, argsMapLoop_cons]
    rfl
  have hsecond : s.reg .xSI = some 1 := by
    refine hall (⟨some .xSI, -1, .reference⟩, 1) ?_
    rw [Method.unpassed, if_pos hjni, m.entries_eq, hallArgs, argEntries_cons, argEntries_cons]
    exact mem_cons_self
  simp only [nativeCallGp] at hs
  split_ifs at hs
  cases hs
  rw [hmap, zip_cons_cons] at hsecond
  obtain ⟨ws, hws, hmem⟩ := fillArrays_regs false
    ((⟨some .xSI, -1, .reference⟩ :: (argsMapLoop m.args ⟨2, 0, 0⟩).1).zip (List.replicate (countArguments m.args) 0))
    ⟨[1], [], []⟩
  change (padTo 6 (fillArrays false _ ⟨[1], [], []⟩).regs)[1]? = some 1 at hsecond
  rw [hws, padTo, append_assoc] at hsecond
  -- everything behind the first word is zero
  rcases mem_append.mp (mem_of_getElem? (l := ws ++ _) (i := 0) hsecond) with h | h
  · obtain ⟨p, hp, hp₁⟩ := mem_map.mp (hmem 1 h)
    have := eq_of_mem_replicate (of_mem_zip hp).2
    rw [hp₁] at this
    exact absurd this (by decide)
  · exact absurd (eq_of_mem_replicate h) (by decide)

/-! ## Methods -/

/-- **Native calls** pass every argument in its place, whatever its value, exactly for the methods that are not JNI
methods, have an even number of stack arguments, and have no long or double before one of these. -/
theorem passes_iff (m : Method) : (∀ args, args.length = m.argsCount → Passes m args) ↔
    m.isJni = false ∧ 2 ∣ getStackArgsCount m ∧
    ∀ l t r, m.allArgs = l ++ t :: r → OnStack l t → ∀ t' ∈ l, ¬ vmTypeIsPair t' := by
  rw [← m.consecutive_entries_iff, getStackArgsCount_eq]
  by_cases hjni : m.isJni = true
  · obtain ⟨args, hlen, hnot⟩ := exists_not_passes hjni
    exact iff_of_false (fun h => hnot (h args hlen)) fun h => absurd (hjni.symm.trans h.1) (by decide)
  · have hjni := eq_false_of_ne_true hjni
    have hcount : countArguments m.allArgs = m.argsCount := by rw [m.countArguments_allArgs, hjni]; rfl
    have hlength : m.allArgs.length = m.entries.length := by rw [m.entries_eq, length_argEntries]
    rw [and_iff_right hjni, ← forall_stackWords_iff]
    simp only [passes_iff_stackWords hjni]
    constructor
    · intro h
      constructor
      · have hargs : (List.replicate m.argsCount (0 : UInt64)).length = m.argsCount := length_replicate
        have heven := (h _ hargs).1
        rw [length_stackWords ((length_firstSlots (hargs.trans hcount.symm)).trans hlength)] at heven
        exact Int.natCast_dvd_natCast.mpr heven
      · intro ws hws
        obtain ⟨args, hargs, rfl⟩ := exists_firstSlots_eq m.allArgs (hws.trans hlength.symm)
        exact (h args (hargs.trans hcount)).2
    · rintro ⟨heven, hstack⟩ args hargs
      have hws := (length_firstSlots (hargs.trans hcount.symm)).trans hlength
      rw [length_stackWords hws]
      exact ⟨Int.natCast_dvd_natCast.mp heven, hstack _ hws⟩

/-- `static void f(int, int, int, int, int, int, int)`. -/
def sevenInts : Method := ⟨true, false, List.replicate 7 .int⟩

/-- One word on the stack is not aligned. -/
theorem not_passes_sevenInts : ¬ Passes sevenInts [1, 2, 3, 4, 5, 6, 7] := by
  rintro ⟨s, hs, -⟩
  have hassert : nativeCallGp sevenInts [1, 2, 3, 4, 5, 6, 7] = none := by rfl
  rw [hassert] at hs
  cases hs

end Jato.Arch
