import Jato.Arch.Encode
import Jato.Jit.Interval
import Mathlib.Tactic.IntervalCases

/-!
# Argument maps

`arch/x86/args.c` for x86-64 with `get_stack_args_count`. The map has an entry for each argument slot: a long or double
takes two slots, and its second entry repeats the register. A JNI method has two hidden arguments, an instance method
one. Every long and double also takes a stack index that no argument gets, so the indices behind it are too high:
`argsMapCorrect_iff` says for which signatures the indices are those of the words on the stack.
-/

namespace Jato.Arch

open List

open Jato.Jit (VmType)

/-! ## The map -/

/-- `struct vm_args_map`, with `none` for `MACH_REG_UNASSIGNED`. -/
structure ArgsMap where
  reg : Option MachReg
  stackIndex : Int
  type : VmType
deriving DecidableEq

/-- The parts of a `struct vm_method` that the map depends on. -/
structure Method where
  isStatic : Bool
  isJni : Bool
  args : List VmType

def vmTypeIsPair (t : VmType) : Bool := t = .long || t = .double

def countArguments : List VmType → Nat
  | [] => 0
  | t :: ts => (if vmTypeIsPair t then 2 else 1) + countArguments ts

/-- `args_count` after `vm_method_do_init`. -/
def Method.argsCount (m : Method) : Nat :=
  countArguments m.args + (if m.isStatic then 0 else 1) + (if m.isJni && m.isStatic then 1 else 0)

def argsMapAllocGpr : Nat → Option MachReg
  | 0 => some .xDI
  | 1 => some .xSI
  | 2 => some .xDX
  | 3 => some .xCX
  | 4 => some .r8
  | 5 => some .r9
  | _ => none

def argsMapAllocXmm : Nat → Option MachReg
  | 0 => some .xmm0
  | 1 => some .xmm1
  | 2 => some .xmm2
  | 3 => some .xmm3
  | 4 => some .xmm4
  | 5 => some .xmm5
  | 6 => some .xmm6
  | 7 => some .xmm7
  | _ => none

/-- The counters of `args_map_init`. -/
structure Counts where
  gpr : Nat
  xmm : Nat
  stack : Nat

def argsMapAssign (t : VmType) (c : Counts) : ArgsMap × Counts :=
  if c.gpr < 6 then (⟨argsMapAllocGpr c.gpr, -1, t⟩, { c with gpr := c.gpr + 1 })
  else (⟨none, c.stack, t⟩, { c with stack := c.stack + 1 })

/-- The counter is also increased for a register. -/
def argsMapDupSlot (orig : ArgsMap) (c : Counts) : ArgsMap × Counts :=
  if orig.stackIndex = -1 then (⟨orig.reg, -1, orig.type⟩, { c with stack := c.stack + 1 })
  else (⟨orig.reg, c.stack, orig.type⟩, { c with stack := c.stack + 1 + 1 })

/-- The `switch` on the type of an argument. -/
def argsMapArg (t : VmType) (c : Counts) : ArgsMap × Counts :=
  match t with
  | .byte | .char | .int | .long | .short | .boolean | .reference => argsMapAssign t c
  | .float | .double =>
    if c.xmm < 8 then (⟨argsMapAllocXmm c.xmm, -1, t⟩, { c with xmm := c.xmm + 1 })
    else (⟨none, c.stack, t⟩, { c with stack := c.stack + 1 })
  | _ => (⟨none, c.stack, t⟩, { c with stack := c.stack + 1 })

/-- The scan of the parameters, with the number of longs and doubles. -/
def argsMapLoop : List VmType → Counts → List ArgsMap × Counts × Nat
  | [], c => ([], c, 0)
  | t :: ts, c =>
    let (e, c) := argsMapArg t c
    if vmTypeIsPair t then
      let (dup, c) := argsMapDupSlot e c
      let (es, c, pairs) := argsMapLoop ts c
      (e :: dup :: es, c, pairs + 1)
    else
      let (es, c, pairs) := argsMapLoop ts c
      (e :: es, c, pairs)

/-- The entries of the hidden arguments. -/
def argsMapHidden : List VmType → Counts → List ArgsMap × Counts
  | [], c => ([], c)
  | t :: ts, c =>
    let (e, c) := argsMapAssign t c
    let (es, c) := argsMapHidden ts c
    (e :: es, c)

/-- The class of a static JNI method, the environment of a JNI method, and the receiver. -/
def Method.hiddenArgs (m : Method) : List VmType :=
  (if m.isJni then (if m.isStatic then [.reference] else []) ++ [.reference] else []) ++
    (if m.isStatic then [] else [.reference])

/-- The map and `reg_args_count`. -/
def argsMapInit (m : Method) : List ArgsMap × Nat :=
  let (hidden, c) := argsMapHidden m.hiddenArgs ⟨0, 0, 0⟩
  let (es, c, pairs) := argsMapLoop m.args c
  (hidden ++ es, pairs + (c.gpr + c.xmm))

def getStackArgsCount (m : Method) : Int :=
  (m.argsCount : Int) + (if m.isJni then 1 else 0) - (argsMapInit m).2

/-! ## Correct maps -/

/-- Of a list with one element for each slot, those for the arguments. -/
def firstSlots {α : Type} : List VmType → List α → List α
  | [], _ => []
  | _, [] => []
  | t :: ts, a :: as => a :: firstSlots ts (if vmTypeIsPair t then as.drop 1 else as)

/-- All arguments of the machine function. -/
def Method.allArgs (m : Method) : List VmType := m.hiddenArgs ++ m.args

/-- The entries of the arguments. -/
def Method.entries (m : Method) : List ArgsMap := firstSlots m.allArgs (argsMapInit m).1

/-- The stack indices of the arguments that are passed on the stack, in the order of declaration. -/
def stackIndices (es : List ArgsMap) : List Int := (es.filter (·.reg.isNone)).map (·.stackIndex)

/-- The argument registers, in the order in which they are given out. -/
def gprs : List MachReg := [.xDI, .xSI, .xDX, .xCX, .r8, .r9]

def xmms : List MachReg := [.xmm0, .xmm1, .xmm2, .xmm3, .xmm4, .xmm5, .xmm6, .xmm7]

/-- Every argument has an argument register of its own or a stack index, and the stack indices are those below the number of stack
arguments, in the order of declaration. -/
structure ArgsMapCorrect (m : Method) : Prop where
  regs : (m.entries.filterMap (·.reg)).Nodup ∧ ∀ r ∈ m.entries.filterMap (·.reg), r ∈ gprs ∨ r ∈ xmms
  place : ∀ e ∈ m.entries, e.reg.isNone ↔ 0 ≤ e.stackIndex
  stack : stackIndices m.entries = (List.range (getStackArgsCount m).toNat).map (↑)

def isGprType : VmType → Bool
  | .byte | .char | .int | .long | .short | .boolean | .reference => true
  | _ => false

def isXmmType : VmType → Bool
  | .float | .double => true
  | _ => false

/-- The arguments in front of one of type `t` leave no register for it. -/
def OnStack (before : List VmType) (t : VmType) : Prop :=
  if isGprType t then 6 ≤ before.countP isGprType
  else if isXmmType t then 8 ≤ before.countP isXmmType
  else True

/-! ## One argument -/

/-- The counters after an argument and its second slot. -/
def countsAfter (t : VmType) (c : Counts) : Counts :=
  if vmTypeIsPair t then (argsMapDupSlot (argsMapArg t c).1 (argsMapArg t c).2).2 else (argsMapArg t c).2

/-- Where an argument goes, and what it does to the counters. -/
inductive Placed (t : VmType) (c : Counts) : ArgsMap → Counts → Prop
  | gpr (htype : isGprType t) (hlt : c.gpr < 6) : Placed t c ⟨argsMapAllocGpr c.gpr, -1, t⟩
      ⟨c.gpr + 1, c.xmm, c.stack + if vmTypeIsPair t then 1 else 0⟩
  | xmm (htype : isXmmType t) (hlt : c.xmm < 8) : Placed t c ⟨argsMapAllocXmm c.xmm, -1, t⟩
      ⟨c.gpr, c.xmm + 1, c.stack + if vmTypeIsPair t then 1 else 0⟩
  | stack (hgpr : isGprType t → 6 ≤ c.gpr) (hxmm : isXmmType t → 8 ≤ c.xmm) : Placed t c ⟨none, c.stack, t⟩
      ⟨c.gpr, c.xmm, c.stack + if vmTypeIsPair t then 3 else 1⟩

theorem placed_argsMapArg (t : VmType) (c : Counts) : Placed t c (argsMapArg t c).1 (countsAfter t c) := by
  have hstack : (c.stack : Int) ≠ -1 := by omega
  by_cases hgpr : c.gpr < 6 <;> by_cases hxmm : c.xmm < 8 <;> cases t
  all_goals
    simp only [argsMapArg, argsMapAssign, countsAfter, argsMapDupSlot, hgpr, hxmm, hstack, vmTypeIsPair, decide_true,
      decide_false, Bool.or_false, Bool.or_true, reduceCtorEq, if_true, if_false, Bool.false_eq_true]
    first
      | exact .gpr rfl hgpr
      | exact .xmm rfl hxmm
      | exact .stack (fun h => by first | omega | cases h) (fun h => by first | omega | cases h)

theorem exists_argsMapAllocGpr {n : Nat} (h : n < 6) : ∃ r, argsMapAllocGpr n = some r := by
  interval_cases n <;> exact ⟨_, rfl⟩

theorem exists_argsMapAllocXmm {n : Nat} (h : n < 8) : ∃ r, argsMapAllocXmm n = some r := by
  interval_cases n <;> exact ⟨_, rfl⟩

/-- The registers that are taken after some arguments. -/
structure Tracks (c : Counts) (before : List VmType) : Prop where
  gpr : c.gpr = min 6 (before.countP isGprType)
  xmm : c.xmm = min 8 (before.countP isXmmType)

theorem isXmmType_eq_false {t : VmType} (h : isGprType t) : isXmmType t = false := by
  cases t <;> first | rfl | cases h

theorem isGprType_eq_false {t : VmType} (h : isXmmType t) : isGprType t = false := by
  cases t <;> first | rfl | cases h

namespace Placed

variable {t : VmType} {c c' : Counts} {e : ArgsMap} {before : List VmType}

section

variable (h : Placed t c e c')

include h

theorem tracks (hc : Tracks c before) : Tracks c' (before ++ [t]) := by
  obtain ⟨hgpr, hxmm⟩ := hc
  have hcount p : (before ++ [t]).countP p = before.countP p + if p t then 1 else 0 := by
    rw [countP_append, countP_singleton]
  cases h with
  | gpr htype hlt =>
    refine ⟨?_, ?_⟩ <;> simp only [hcount, htype, isXmmType_eq_false htype, if_true, Bool.false_eq_true, if_false] <;> omega
  | xmm htype hlt =>
    refine ⟨?_, ?_⟩ <;> simp only [hcount, htype, isGprType_eq_false htype, if_true, Bool.false_eq_true, if_false] <;> omega
  | stack hg hx =>
    refine ⟨?_, ?_⟩ <;> simp only [hcount] <;> split_ifs with htype <;> first | have := hg htype; omega | have := hx htype; omega | omega

theorem isNone_iff (hc : Tracks c before) : e.reg.isNone ↔ OnStack before t := by
  obtain ⟨hgpr, hxmm⟩ := hc
  unfold OnStack
  cases h with
  | gpr htype hlt =>
    obtain ⟨r, hr⟩ := exists_argsMapAllocGpr hlt
    rw [if_pos htype, hr]
    exact iff_of_false (by simp) (by omega)
  | xmm htype hlt =>
    obtain ⟨r, hr⟩ := exists_argsMapAllocXmm hlt
    rw [isGprType_eq_false htype, if_neg (by simp), if_pos htype, hr]
    exact iff_of_false (by simp) (by omega)
  | stack hg hx =>
    refine iff_of_true rfl ?_
    split_ifs with htype htype
    · have := hg htype
      omega
    · have := hx htype
      omega

theorem place : e.reg.isNone ↔ 0 ≤ e.stackIndex := by
  cases h with
  | gpr htype hlt =>
    obtain ⟨r, hr⟩ := exists_argsMapAllocGpr hlt
    rw [hr]
    exact iff_of_false (by simp) (by simp)
  | xmm htype hlt =>
    obtain ⟨r, hr⟩ := exists_argsMapAllocXmm hlt
    rw [hr]
    exact iff_of_false (by simp) (by simp)
  | stack => exact iff_of_true rfl (Int.natCast_nonneg _)

theorem type_eq : e.type = t := by
  cases h <;> rfl

theorem stack_cases : e.reg.isNone ∧ e.stackIndex = c.stack ∧ c'.stack = c.stack + (if vmTypeIsPair t then 3 else 1) ∨
      ¬ e.reg.isNone ∧ c'.stack = c.stack + if vmTypeIsPair t then 1 else 0 := by
  have hplace := h.place
  cases h with
  | gpr | xmm => exact .inr ⟨fun hnone => absurd (hplace.mp hnone) nofun, rfl⟩
  | stack => exact .inl ⟨rfl, rfl, rfl⟩

theorem sum_eq : c'.gpr + c'.xmm + (if e.reg.isNone then 1 else 0) = c.gpr + c.xmm + 1 := by
  have hplace := h.place
  cases h with
  | gpr | xmm =>
    rw [if_neg fun hnone => absurd (hplace.mp hnone) (by simp)]
    simp only
    omega
  | stack => rfl

end

end Placed

/-! ## All arguments -/

section

variable {t : VmType} {ts before : List VmType} {c : Counts}

theorem argsMapLoop_cons : argsMapLoop (t :: ts) c =
    ((argsMapArg t c).1 :: ((if vmTypeIsPair t then [(argsMapDupSlot (argsMapArg t c).1 (argsMapArg t c).2).1] else []) ++
        (argsMapLoop ts (countsAfter t c)).1),
      (argsMapLoop ts (countsAfter t c)).2.1, (argsMapLoop ts (countsAfter t c)).2.2 + if vmTypeIsPair t then 1 else 0) := by
  rw [argsMapLoop, countsAfter]
  split_ifs <;> rfl

theorem firstSlots_argsMapLoop_cons : firstSlots (t :: ts) (argsMapLoop (t :: ts) c).1 =
    (argsMapArg t c).1 :: firstSlots ts (argsMapLoop ts (countsAfter t c)).1 := by
  rw [argsMapLoop_cons, firstSlots]
  split_ifs <;> rfl

/-- The entries of arguments, with the counters before them. -/
def argEntries (ts : List VmType) (c : Counts) : List ArgsMap := firstSlots ts (argsMapLoop ts c).1

theorem argEntries_cons : argEntries (t :: ts) c = (argsMapArg t c).1 :: argEntries ts (countsAfter t c) :=
  firstSlots_argsMapLoop_cons

theorem stackIndices_cons {e : ArgsMap} {es : List ArgsMap} : stackIndices (e :: es) =
    if e.reg.isNone then e.stackIndex :: stackIndices es else stackIndices es := by
  unfold stackIndices
  rw [filter_cons]
  split_ifs <;> rfl

/-- The integers from `n` on. -/
def Consecutive : Nat → List Int → Prop
  | _, [] => True
  | n, x :: xs => x = n ∧ Consecutive (n + 1) xs

theorem consecutive_iff {n : Nat} {xs : List Int} : Consecutive n xs ↔ xs = (List.range' n xs.length).map (↑) := by
  induction xs generalizing n with
  | nil => exact iff_of_true trivial rfl
  | cons x xs ih => rw [Consecutive, ih, length_cons, range'_succ, map_cons, cons_eq_cons]

theorem forall_eq_append_cons {α : Type} {a : α} {as : List α} {P : List α → α → Prop} :
    (∀ l x r, a :: as = l ++ x :: r → P l x) ↔ P [] a ∧ ∀ l x r, as = l ++ x :: r → P (a :: l) x := by
  constructor
  · exact fun h => ⟨h [] a as rfl, fun l x r heq => h (a :: l) x r (by rw [heq, cons_append])⟩
  · rintro ⟨hhead, htail⟩ l x r heq
    cases l with
    | nil =>
      cases heq
      exact hhead
    | cons b l =>
      cases heq
      exact htail l x r rfl

/-- The stack indices count on from `n` exactly if no stack argument has a long or double in front of it. -/
theorem consecutive_argEntries_iff (ts : List VmType) {n : Nat} (hc : Tracks c before) (hn : n ≤ c.stack) :
    Consecutive n (stackIndices (argEntries ts c)) ↔ ∀ l t r, ts = l ++ t :: r → OnStack (before ++ l) t →
      c.stack = n ∧ ∀ t' ∈ l, ¬ vmTypeIsPair t' := by
  induction ts generalizing c before n with
  | nil =>
    refine iff_of_true trivial fun l t r h => ?_
    cases l <;> cases h
  | cons t ts ih =>
    have hplaced := placed_argsMapArg t c
    have hnone := hplaced.isNone_iff hc
    have happ l : before ++ [t] ++ l = before ++ t :: l := (append_cons before t l).symm
    have ih n (hn : n ≤ (countsAfter t c).stack) := ih (hplaced.tracks hc) hn
    simp only [happ] at ih
    rw [forall_eq_append_cons, argEntries_cons, append_nil, ← hnone]
    simp only [forall_mem_cons]
    rcases hplaced.stack_cases with ⟨hstack, hindex, hnext⟩ | ⟨hreg, hnext⟩
    · have hmore (hn : c.stack = n) : (countsAfter t c).stack = n + 1 ↔ ¬ vmTypeIsPair t := by
        split_ifs at hnext with hpair
        · exact iff_of_false (by omega) (not_not.mpr hpair)
        · exact iff_of_true (by omega) hpair
      rw [stackIndices_cons, if_pos hstack, hindex, Consecutive, ih (n + 1) (by split_ifs at hnext <;> omega), Int.natCast_inj]
      constructor
      · rintro ⟨hn, h⟩
        refine ⟨fun _ => ⟨hn, by simp⟩, fun l t' r hts hon => ?_⟩
        obtain ⟨hafter, hl⟩ := h l t' r hts hon
        exact ⟨hn, (hmore hn).mp hafter, hl⟩
      · rintro ⟨hhead, h⟩
        obtain ⟨hn, -⟩ := hhead hstack
        refine ⟨hn, fun l t' r hts hon => ?_⟩
        obtain ⟨-, hpair, hl⟩ := h l t' r hts hon
        exact ⟨(hmore hn).mpr hpair, hl⟩
    · have hmore : (countsAfter t c).stack = n ↔ c.stack = n ∧ ¬ vmTypeIsPair t := by
        split_ifs at hnext with hpair
        · exact iff_of_false (by omega) fun h => h.2 hpair
        · rw [and_iff_left hpair, hnext, Nat.add_zero]
      rw [stackIndices_cons, if_neg hreg, ih n (by omega), hmore]
      constructor
      · intro h
        refine ⟨fun hnone => absurd hnone hreg, fun l t' r hts hon => ?_⟩
        obtain ⟨⟨hn, hpair⟩, hl⟩ := h l t' r hts hon
        exact ⟨hn, hpair, hl⟩
      · rintro ⟨-, h⟩ l t' r hts hon
        obtain ⟨hn, hpair, hl⟩ := h l t' r hts hon
        exact ⟨⟨hn, hpair⟩, hl⟩

/-- Every argument is either counted by a register or on the stack; a second slot is counted with the registers. -/
theorem length_stackIndices_argEntries (ts : List VmType) (c : Counts) : countArguments ts + c.gpr + c.xmm =
    (stackIndices (argEntries ts c)).length + (argsMapLoop ts c).2.2 + (argsMapLoop ts c).2.1.gpr +
      (argsMapLoop ts c).2.1.xmm := by
  induction ts generalizing c with
  | nil => simp [countArguments, argEntries, firstSlots, stackIndices, argsMapLoop]
  | cons t ts ih =>
    have hplaced := placed_argsMapArg t c
    have ih := ih (countsAfter t c)
    rw [argEntries_cons, argsMapLoop_cons, countArguments, stackIndices_cons]
    have hsum := hplaced.sum_eq
    split_ifs at * <;> simp only [length_cons] <;> omega

theorem place_argEntries {e : ArgsMap} (he : e ∈ argEntries ts c) : e.reg.isNone ↔ 0 ≤ e.stackIndex := by
  induction ts generalizing c with
  | nil => cases he
  | cons t ts ih =>
    rw [argEntries_cons, mem_cons] at he
    rcases he with rfl | he
    · exact (placed_argsMapArg t c).place
    · exact ih he

end

/-! ## Registers -/

theorem argsMapAllocGpr_eq : ∀ n, argsMapAllocGpr n = gprs[n]?
  | 0 | 1 | 2 | 3 | 4 | 5 => rfl
  | _ + 6 => rfl

theorem argsMapAllocXmm_eq : ∀ n, argsMapAllocXmm n = xmms[n]?
  | 0 | 1 | 2 | 3 | 4 | 5 | 6 | 7 => rfl
  | _ + 8 => rfl

theorem drop_eq_cons_of_getElem? {α : Type} {l : List α} {i : Nat} {a : α} (h : l[i]? = some a) :
    l.drop i = a :: l.drop (i + 1) := by
  obtain ⟨hlt, rfl⟩ := List.getElem?_eq_some_iff.mp h
  exact List.drop_eq_getElem_cons hlt

theorem disjoint_gprs_xmms {r : MachReg} (hgpr : r ∈ gprs) : r ∉ xmms := by
  have : ∀ r ∈ gprs, r ∉ xmms := by decide
  exact this r hgpr

theorem regs_argEntries (ts : List VmType) (c : Counts) : ((argEntries ts c).filterMap (·.reg)).Nodup ∧
    ∀ r ∈ (argEntries ts c).filterMap (·.reg), r ∈ gprs.drop c.gpr ∨ r ∈ xmms.drop c.xmm := by
  induction ts generalizing c with
  | nil => exact ⟨nodup_nil, nofun⟩
  | cons t ts ih =>
    have hplaced := placed_argsMapArg t c
    obtain ⟨hnodup, hmem⟩ := ih (countsAfter t c)
    rw [argEntries_cons]
    generalize (argsMapArg t c).1 = e at *
    generalize countsAfter t c = c' at *
    cases hplaced with
    | gpr htype hlt =>
      obtain ⟨r, hr⟩ := exists_argsMapAllocGpr hlt
      have hdrop := drop_eq_cons_of_getElem? ((argsMapAllocGpr_eq _).symm.trans hr)
      have hnew : (r :: gprs.drop (c.gpr + 1)).Nodup := hdrop ▸ List.Nodup.sublist (drop_sublist _ _) (by decide)
      have hgpr : r ∈ gprs := mem_of_mem_drop (hdrop ▸ mem_cons_self)
      simp only [filterMap_cons, hr]
      rw [hdrop]
      refine ⟨nodup_cons.mpr ⟨fun h => ?_, hnodup⟩, ?_⟩
      · rcases hmem r h with h | h
        · exact (nodup_cons.mp hnew).1 h
        · exact disjoint_gprs_xmms hgpr (mem_of_mem_drop h)
      · rintro r' (_ | ⟨_, h⟩)
        · exact .inl mem_cons_self
        · exact (hmem r' h).imp_left (mem_cons_of_mem _)
    | xmm htype hlt =>
      obtain ⟨r, hr⟩ := exists_argsMapAllocXmm hlt
      have hdrop := drop_eq_cons_of_getElem? ((argsMapAllocXmm_eq _).symm.trans hr)
      have hnew : (r :: xmms.drop (c.xmm + 1)).Nodup := hdrop ▸ List.Nodup.sublist (drop_sublist _ _) (by decide)
      have hxmm : r ∈ xmms := mem_of_mem_drop (hdrop ▸ mem_cons_self)
      simp only [filterMap_cons, hr]
      rw [hdrop]
      refine ⟨nodup_cons.mpr ⟨fun h => ?_, hnodup⟩, ?_⟩
      · rcases hmem r h with h | h
        · exact disjoint_gprs_xmms (mem_of_mem_drop h) hxmm
        · exact (nodup_cons.mp hnew).1 h
      · rintro r' (_ | ⟨_, h⟩)
        · exact .inr mem_cons_self
        · exact (hmem r' h).imp_right (mem_cons_of_mem _)
    | stack =>
      exact ⟨hnodup, hmem⟩

/-! ## Methods -/

theorem argsMapLoop_references {hs : List VmType} (h : ∀ t ∈ hs, t = .reference) (ts : List VmType) (c : Counts) :
    argsMapLoop (hs ++ ts) c = ((argsMapHidden hs c).1 ++ (argsMapLoop ts (argsMapHidden hs c).2).1,
      (argsMapLoop ts (argsMapHidden hs c).2).2) := by
  induction hs generalizing c with
  | nil => rfl
  | cons t hs ih =>
    obtain ⟨rfl, hall⟩ := forall_mem_cons.mp h
    rw [cons_append, argsMapLoop_cons, ih hall]
    rfl

variable (m : Method)

theorem Method.hiddenArgs_eq : ∀ t ∈ m.hiddenArgs, t = .reference := by
  obtain ⟨_ | _, _ | _, args⟩ := m <;> simp [Method.hiddenArgs]

theorem argsMapInit_eq : argsMapInit m = ((argsMapLoop m.allArgs ⟨0, 0, 0⟩).1,
    (argsMapLoop m.allArgs ⟨0, 0, 0⟩).2.2 +
      ((argsMapLoop m.allArgs ⟨0, 0, 0⟩).2.1.gpr + (argsMapLoop m.allArgs ⟨0, 0, 0⟩).2.1.xmm)) := by
  rw [Method.allArgs, argsMapLoop_references m.hiddenArgs_eq]
  rfl

theorem Method.entries_eq : m.entries = argEntries m.allArgs ⟨0, 0, 0⟩ := by
  rw [Method.entries, argsMapInit_eq, argEntries]

theorem Method.countArguments_allArgs :
    countArguments m.allArgs = m.argsCount + if m.isJni then 1 else 0 := by
  obtain ⟨_ | _, _ | _, args⟩ := m <;>
    simp [Method.argsCount, Method.allArgs, Method.hiddenArgs, countArguments, vmTypeIsPair] <;> omega

/-- The number of stack arguments is that of the arguments without a register. -/
theorem getStackArgsCount_eq (m : Method) : getStackArgsCount m = (stackIndices m.entries).length := by
  have hlength := length_stackIndices_argEntries m.allArgs ⟨0, 0, 0⟩
  have hreg := congrArg Prod.snd (argsMapInit_eq m)
  rw [m.countArguments_allArgs] at hlength
  rw [getStackArgsCount, Method.entries_eq, hreg]
  simp only at *
  split_ifs at * <;> omega

theorem Method.consecutive_entries_iff (m : Method) : Consecutive 0 (stackIndices m.entries) ↔
    ∀ l t r, m.allArgs = l ++ t :: r → OnStack l t → ∀ t' ∈ l, ¬ vmTypeIsPair t' := by
  have htracks : Tracks ⟨0, 0, 0⟩ [] := ⟨rfl, rfl⟩
  rw [m.entries_eq, consecutive_argEntries_iff m.allArgs htracks (Nat.le_refl 0)]
  constructor
  · exact fun h l t r hargs hon => (h l t r hargs hon).2
  · exact fun h l t r hargs hon => ⟨rfl, h l t r hargs hon⟩

/-- **Argument maps** are right exactly if no long or double comes before an argument that is passed on the stack. -/
theorem argsMapCorrect_iff (m : Method) : ArgsMapCorrect m ↔
    ∀ l t r, m.allArgs = l ++ t :: r → OnStack l t → ∀ t' ∈ l, ¬ vmTypeIsPair t' := by
  have hstack : stackIndices m.entries = (List.range (getStackArgsCount m).toNat).map (↑) ↔
      Consecutive 0 (stackIndices m.entries) := by
    rw [consecutive_iff, getStackArgsCount_eq, Int.toNat_natCast, range_eq_range']
  rw [← m.consecutive_entries_iff, ← hstack]
  constructor
  · exact fun h => h.stack
  · intro h
    refine ⟨?_, fun e he => ?_, h⟩
    · rw [m.entries_eq]
      exact regs_argEntries _ _
    · rw [m.entries_eq] at he
      exact place_argEntries he

/-- `static void f(long, int, int, int, int, int, int)`. -/
def longThenInts : Method := ⟨true, false, [.long, .int, .int, .int, .int, .int, .int]⟩

/-- The only stack argument has the index one. -/
theorem not_argsMapCorrect_longThenInts : ¬ ArgsMapCorrect longThenInts := by
  intro h
  exact absurd h.stack (by decide)

end Jato.Arch
