import Jato.Jit.ConvertRows

/-!
# Converted basic blocks compute what the bytecode computes

A basic block of stack, local variable, arithmetic, conversion and field bytecodes that runs to its end is converted,
and its statements, followed by the expressions left on the mimic stack, give the locals, the heap and the operands that
the virtual machine ends with (`doConvertBbToIr_correct`). The operands at the start of the block are those its
predecessors left in the entry slots, or the exception of a handler.
-/

namespace Jato.Jit

open Jato.Vm
open Jato.Lib (Runs runWhile runWhile_sim runWhile_fuel)

variable {F D H Φ : Type} {w : Platform F D H Φ} {code : List UInt8} {start st : TreeState F D H} {wide : Bool}
  {opc n : Nat} {ctx : ParseContext D Φ} {fr fr' : Frame F D H}

/-! ## One instruction -/

theorem Sim.opcode (h : Sim w code start wide opc ctx st fr) {Q : Unit → ParseContext D Φ → Prop}
    {conv : Convert D Φ Unit} (hc : converters w (convertInstruction w n) (readU8 code fr.pc) = some conv)
    (hf : ∀ ctx', Sim w code start wide (readU8 code fr.pc) ctx' st { fr with pc := fr.pc + 1 } → Runs conv ctx' Q) :
    Runs (convertInstruction w (n + 1)) ctx Q := by
  have hread : readU8 ctx.code ctx.pos = readU8 code fr.pc := by rw [h.code_eq, h.pos_eq]
  unfold convertInstruction
  refine .bind (.of_eq rfl (.bind (.of_eq rfl ?_)))
  rw [hread, hc]
  exact hf _ { h.advance 1 with opc_eq := rfl }

theorem convertInstruction_sim (h : Sim w code start false opc ctx st fr) (hstep : step w code fr = some fr') :
    Runs (convertInstruction w (n + 2)) ctx fun _ ctx' => ∃ opc' st', Sim w code start false opc' ctx' st' fr' := by
  obtain ⟨⟨insn, next⟩, hfetch, hexec⟩ := Option.bind_eq_some_iff.mp hstep
  unfold fetch at hfetch
  split at hfetch
  · -- the converter of `wide` converts the next instruction with the flag set
    rename_i hwide
    obtain ⟨d, hd, hfetch⟩ := Option.bind_eq_some_iff.mp hfetch
    obtain ⟨form, hform, hfetch⟩ := Option.bind_eq_some_iff.mp hfetch
    cases hfetch
    have hc : converters w (convertInstruction w (n + 1)) (readU8 code fr.pc) =
        some (convertWide (convertInstruction w (n + 1))) := by
      rw [hwide]
      rfl
    refine h.opcode hc fun ctx₁ h₁ => .bind (.of_eq rfl ?_)
    have h₂ : Sim w code start true _ { ctx₁ with isWide := true } st { fr with pc := fr.pc + 1 } :=
      { h₁ with wide_eq := rfl }
    obtain ⟨conv, hconv, hrow⟩ := converters_row w (convertInstruction w n) hd
    refine .seq (h₂.opcode hconv fun ctx₃ h₃ => hrow.wide form hform h₃ hexec) ?_
    rintro _ ctx₄ ⟨st', h₄⟩
    exact .of_eq rfl ⟨_, st', { h₄ with wide_eq := rfl }⟩
  · obtain ⟨d, hd, hfetch⟩ := Option.bind_eq_some_iff.mp hfetch
    cases hfetch
    obtain ⟨conv, hconv, hrow⟩ := converters_row w (convertInstruction w (n + 1)) hd
    refine h.opcode hconv fun ctx₁ h₁ => (hrow.narrow h₁ hexec).mono ?_
    rintro _ ctx' ⟨st', h'⟩
    exact ⟨_, st', h'⟩

/-! ## The block -/

/-- The state in which a block is entered: the operands are in the entry slots, with the types that the predecessors
left them with, or the only operand is the exception of a handler. -/
structure Entered (start : TreeState F D H) (isEh : Bool) (resolved : Option (List VmType)) (fr : Frame F D H) :
    Prop where
  locals_eq : start.locals = fr.locals
  heap_eq : start.heap = fr.heap
  reloaded : ∀ types, resolved = some types →
    types = fr.stack.map Value.vmType ∧ ∀ i, start.entrySlots i = fr.stack[i]?
  handler : resolved = none → fr.stack = if isEh then [.ref start.exception] else []

theorem Entered.operands {isEh : Bool} {resolved : Option (List VmType)} (h : Entered start isEh resolved fr) :
    List.Forall₂ (Operand w start n) (entryMimicStack isEh resolved) fr.stack := by
  cases resolved with
  | some types =>
    obtain ⟨rfl, hslots⟩ := h.reloaded types rfl
    refine List.forall₂_iff_get.mpr ⟨by simp [entryMimicStack], fun i hi hi' => ?_⟩
    simp only [entryMimicStack, List.get_eq_getElem, List.getElem_mapIdx, List.getElem_map]
    refine ⟨⟨rfl, fun heap => ?_⟩, rfl⟩
    simp [eval, hslots, List.getElem?_eq_getElem hi']
  | none =>
    rw [h.handler rfl]
    cases isEh with
    | true => exact .cons ⟨⟨trivial, fun _ => rfl⟩, rfl⟩ .nil
    | false => exact .nil

/-- **Basic blocks are converted faithfully**: the statements of a block that runs to its end, and then the expressions
on its mimic stack, have the locals, the heap and the operands of the operand-stack semantics. -/
theorem doConvertBbToIr_correct (w : Platform F D H Φ) {stop nextVar : Nat} {isEh is32Bit : Bool}
    {resolved : Option (List VmType)} (hentry : Entered start isEh resolved fr)
    (hrun : runBlock w code stop n fr = some fr') :
    ∃ ctx st, doConvertBbToIr w code fr.pc stop isEh resolved nextVar is32Bit = some ctx ∧
      execStatements w ctx.stmtList start = some st ∧ st.locals = fr'.locals ∧ st.heap = fr'.heap ∧
      List.Forall₂ (fun e v => eval w st e st.heap = some (v, st.heap)) ctx.mimicStack fr'.stack := by
  have hrun' : runBlock w code stop (stop - fr.pc) fr = some fr' := by
    refine runWhile_fuel (m := fun fr => stop - fr.pc) (fun hlt hs => ?_) n (Nat.le_refl _) hrun
    have hpc := step_lt hs
    have hstop := of_decide_eq_true hlt
    omega
  have hsim : Sim w code start false 0 ⟨code, fr.pc, 0, false, entryMimicStack isEh resolved, [], nextVar, is32Bit⟩
      start fr :=
    ⟨rfl, rfl, rfl, rfl, rfl, hentry.locals_eq, hentry.heap_eq, hentry.operands⟩
  obtain ⟨ctx, hconv, opc, st, h⟩ := runWhile_sim (R := fun fr ctx => ∃ opc st, Sim w code start false opc ctx st fr)
    (q := fun ctx => ctx.pos < stop) (g := fun ctx => (convertInstruction w (code.length + 2) ctx).map (·.2))
    (fun ⟨_, _, h⟩ => by rw [h.pos_eq])
    (fun ⟨_, _, h⟩ hs => by
      obtain ⟨_, ctx', hc, hsim'⟩ := convertInstruction_sim h hs
      exact ⟨ctx', by rw [hc]; rfl, hsim'⟩)
    _ ⟨0, start, hsim⟩ hrun'
  exact ⟨ctx, st, hconv, h.executed, h.locals_eq, h.heap_eq, h.operands.imp fun _ _ ho => ho.eval _⟩

/-- A machine without floating point, constants and fields. -/
def integerPlatform : Platform Unit Unit Unit Empty where
  fop _ _ _ := ()
  dop _ _ _ := ()
  fneg _ := ()
  dneg _ := ()
  fcompare _ _ := none
  dcompare _ _ := none
  i2f _ := ()
  i2d _ := ()
  l2f _ := ()
  l2d _ := ()
  f2i _ := 0
  f2l _ := 0
  f2d _ := ()
  d2i _ := 0
  d2l _ := 0
  d2f _ := ()
  d2f_f2d _ := rfl
  d2f_i2d _ _ := rfl
  constant _ := none
  resolveField _ := none
  fieldType := nofun
  getStatic := nofun
  putStatic := nofun
  getField := nofun
  putField := nofun
  getStatic_vmType {φ} := φ.elim
  getField_vmType {φ} := φ.elim

/-- `dup2_x1; l2i; iadd; istore_1`, entered with a long over an int. -/
def dup2X1Code : List UInt8 := [0x5d, 0x88, 0x60, 0x3c]

def dup2X1Entry : Frame Unit Unit Unit := ⟨0, fun _ => none, (), [.long 5, .int 3]⟩

def dup2X1Start : TreeState Unit Unit Unit := ⟨fun _ => none, (), fun _ => none, fun i => dup2X1Entry.stack[i]?, 0⟩

theorem doConvertBbToIr_correct_dup2X1 : Entered dup2X1Start false (some [.long, .int]) dup2X1Entry ∧
    ∃ fr', runBlock integerPlatform dup2X1Code 4 4 dup2X1Entry = some fr' ∧
    ∃ ctx st, doConvertBbToIr integerPlatform dup2X1Code dup2X1Entry.pc 4 false (some [.long, .int]) 0 true = some ctx ∧
      execStatements integerPlatform ctx.stmtList dup2X1Start = some st ∧ st.locals = fr'.locals ∧
      st.heap = fr'.heap ∧ List.Forall₂
        (fun e v => eval integerPlatform st e st.heap = some (v, st.heap)) ctx.mimicStack fr'.stack := by
  have hentry : Entered dup2X1Start false (some [.long, .int]) dup2X1Entry :=
    ⟨rfl, rfl, fun _ h => ⟨by cases h; rfl, fun _ => rfl⟩, nofun⟩
  have hsome : (runBlock integerPlatform dup2X1Code 4 4 dup2X1Entry).isSome := by decide +kernel
  obtain ⟨fr', hrun⟩ := Option.isSome_iff_exists.mp hsome
  exact ⟨hentry, fr', hrun, doConvertBbToIr_correct integerPlatform hentry hrun⟩

end Jato.Jit
