import Jato.Jit.Interval
import Jato.Vm.Bytecode

/-!
# The verifier's transition between two blocks

`transition_verifier_state` of `vm/verifier.c`: the final state of a block is compared with the initial state of the
next one. A state is partial. Its stack lists the known slots from the top, a two-slot value being two slots, and a
variable may be `UNKNOWN`. `Describes` says which concrete stacks and variables a state stands for.

The stack is compared as it should be (`transitionVerifierStack_iff`). The operand of a variable is compared also where
it means nothing, when the variable is `UNKNOWN` in the current state or `UNDEFINED` in the next one. It then holds
whatever was left there: `transitionVerifierState_exact` says for which states the outcome is right all the same.

The slots of a stack never have the type `VM_TYPE_MAX`, which marks the head of the list.
-/

namespace Jato.Vm

open Jato.Jit (VmType)

structure VerifierOperand where
  vmType : VmType
  /-- it is not the first slot of a multi-slot operand -/
  isFragment : Bool
deriving DecidableEq, Repr

inductive VerifierLocalVarState
  | defined
  | undefined
  | unknown
deriving DecidableEq, Repr

/-- `struct verifier_local_var`: the operand is there in every state. -/
structure VerifierLocalVar where
  state : VerifierLocalVarState
  op : VerifierOperand
deriving DecidableEq, Repr

/-- `struct verifier_state` of a method with `nbVars` variables. -/
structure VerifierState (nbVars : Nat) where
  vars : List VerifierLocalVar
  stack : List VerifierOperand
  length_vars : vars.length = nbVars

/-! ## The comparison -/

def cmpVerifierOp (op1 op2 : VerifierOperand) : Except VrfErr Unit :=
  if op1.vmType ≠ op2.vmType then .error .typeChecking
  else if op1.isFragment ≠ op2.isFragment then .error .typeChecking
  else .ok ()

/-- The loop over the current stack, which stops at the bottom of the next one. -/
def cmpVerifierStack : List VerifierOperand → List VerifierOperand → Except VrfErr Unit
  | [], _ => .ok ()
  | _ :: _, [] => .ok ()
  | cp :: stc, np :: stn => do
    cmpVerifierOp cp np
    cmpVerifierStack stc stn

def transitionVerifierStack (stc stn : List VerifierOperand) : Except VrfErr Unit :=
  if stc.length < stn.length then .error .typeChecking else cmpVerifierStack stc stn

/-- One turn of the loop over the variables. -/
def cmpVerifierVar (varc varn : VerifierLocalVar) : Except VrfErr Unit :=
  if varn.state = .unknown then .ok ()
  else if varn.state = .defined ∧ varc.state = .undefined then .error .typeChecking
  else cmpVerifierOp varc.op varn.op

def transitionVerifierLocalVar : List VerifierLocalVar → List VerifierLocalVar → Except VrfErr Unit
  | varc :: varsc, varn :: varsn => do
    cmpVerifierVar varc varn
    transitionVerifierLocalVar varsc varsn
  | _, _ => .ok ()

def transitionVerifierState {nbVars : Nat} (sc sn : VerifierState nbVars) : Except VrfErr Unit := do
  transitionVerifierStack sc.stack sn.stack
  transitionVerifierLocalVar sc.vars sn.vars

/-! ## What a state describes -/

/-- A concrete stack and concrete variables; a variable that was not set holds nothing. -/
structure TypedFrame where
  stack : List VerifierOperand
  vars : List (Option VerifierOperand)

/-- The contents that a variable stands for. -/
def VerifierLocalVar.Holds (v : VerifierLocalVar) (x : Option VerifierOperand) : Prop :=
  match v.state with
  | .defined => x = some v.op
  | .undefined => x = none
  | .unknown => True

/-- The known slots are on top of the stack, and each variable has contents that it may have. -/
def VerifierState.Describes {nbVars : Nat} (s : VerifierState nbVars) (f : TypedFrame) : Prop :=
  s.stack <+: f.stack ∧ List.Forall₂ VerifierLocalVar.Holds s.vars f.vars

/-! ## How two variables compare -/

/-- Accepted, though the next state asks for contents that the current one does not promise: the operand of the
`UNKNOWN` or of the `UNDEFINED` side happens to be the same. -/
def Stale (p : VerifierLocalVar × VerifierLocalVar) : Prop :=
  p.1.op = p.2.op ∧ (p.2.state = .defined ∧ p.1.state = .unknown ∨ p.2.state = .undefined ∧ p.1.state ≠ .undefined)

/-- Rejected, though neither state has a value: the operands that were left there differ. -/
def Spurious (p : VerifierLocalVar × VerifierLocalVar) : Prop :=
  p.2.state = .undefined ∧ p.1.state = .undefined ∧ p.1.op ≠ p.2.op

/-- Rejected, and the current state does not promise what the next one asks for. -/
def Mismatch (p : VerifierLocalVar × VerifierLocalVar) : Prop :=
  p.2.state = .defined ∧ (p.1.state = .undefined ∨ p.1.op ≠ p.2.op) ∨
    p.2.state = .undefined ∧ p.1.state ≠ .undefined ∧ p.1.op ≠ p.2.op

theorem cmpVerifierOp_iff {op1 op2 : VerifierOperand} : cmpVerifierOp op1 op2 = .ok () ↔ op1 = op2 := by
  obtain ⟨t1, f1⟩ := op1
  obtain ⟨t2, f2⟩ := op2
  unfold cmpVerifierOp
  by_cases ht : t1 = t2 <;> by_cases hf : f1 = f2 <;> simp [ht, hf]

theorem exceptSeq_ok_iff {ε : Type} {x y : Except ε Unit} : (do x; y) = .ok () ↔ x = .ok () ∧ y = .ok () := by
  cases x <;> simp [bind, Except.bind]

variable {c n : VerifierLocalVar} {stc stn : List VerifierOperand} {varsc varsn : List VerifierLocalVar}

/-- A variable is accepted unless it is one of the two kinds that are rejected. -/
theorem cmpVerifierVar_iff : cmpVerifierVar c n = .ok () ↔ ¬ Spurious (c, n) ∧ ¬ Mismatch (c, n) := by
  unfold cmpVerifierVar Spurious Mismatch
  rcases hn : n.state with _ | _ | _ <;> rcases hc : c.state with _ | _ | _ <;> simp [cmpVerifierOp_iff]

/-- Every content of the current variable suits the next one unless it is stale or a mismatch. -/
theorem holds_imp_iff : (∀ x, c.Holds x → n.Holds x) ↔ ¬ Stale (c, n) ∧ ¬ Mismatch (c, n) := by
  have hsome : (∀ x : Option VerifierOperand, x = some n.op) ↔ False := iff_false_intro fun h => nomatch h none
  have hnone : (∀ x : Option VerifierOperand, x = none) ↔ False := iff_false_intro fun h => nomatch h (some n.op)
  unfold VerifierLocalVar.Holds Stale Mismatch
  rcases hn : n.state with _ | _ | _ <;> rcases hc : c.state with _ | _ | _ <;> simp [hsome, hnone]

theorem VerifierLocalVar.exists_holds (v : VerifierLocalVar) : ∃ x, v.Holds x := by
  unfold VerifierLocalVar.Holds
  rcases v.state with _ | _ | _ <;> simp

/-! ## The two parts of a transition -/

theorem cmpVerifierStack_iff (hlen : stn.length ≤ stc.length) : cmpVerifierStack stc stn = .ok () ↔ stn <+: stc := by
  induction stc generalizing stn with
  | nil => simp [cmpVerifierStack, List.length_eq_zero_iff.1 (Nat.le_zero.1 hlen)]
  | cons cp stc ih =>
    cases stn with
    | nil => simp [cmpVerifierStack]
    | cons np stn =>
      rw [cmpVerifierStack, exceptSeq_ok_iff, cmpVerifierOp_iff, ih (by simpa using hlen), List.cons_prefix_cons,
        eq_comm]

/-- The stacks agree when the next one asks for slots on top of the current one. -/
theorem transitionVerifierStack_iff : transitionVerifierStack stc stn = .ok () ↔ stn <+: stc := by
  unfold transitionVerifierStack
  split
  · next hlt => exact iff_of_false (by simp) fun h => absurd h.length_le (by omega)
  · next hle => exact cmpVerifierStack_iff (by omega)

theorem transitionVerifierLocalVar_iff :
    transitionVerifierLocalVar varsc varsn = .ok () ↔ ∀ p ∈ varsc.zip varsn, ¬ Spurious p ∧ ¬ Mismatch p := by
  induction varsc generalizing varsn with
  | nil => simp [transitionVerifierLocalVar]
  | cons varc varsc ih =>
    cases varsn with
    | nil => simp [transitionVerifierLocalVar]
    | cons varn varsn =>
      rw [transitionVerifierLocalVar, exceptSeq_ok_iff, cmpVerifierVar_iff, ih]
      simp

theorem exists_forall₂_holds (vars : List VerifierLocalVar) : ∃ xs, List.Forall₂ VerifierLocalVar.Holds vars xs := by
  induction vars with
  | nil => exact ⟨[], .nil⟩
  | cons v vars ih =>
    obtain ⟨x, hx⟩ := v.exists_holds
    obtain ⟨xs, hxs⟩ := ih
    exact ⟨x :: xs, .cons hx hxs⟩

/-- The variables can be looked at one by one, since each has some content. -/
theorem forall₂_holds_imp_iff (hlen : varsc.length = varsn.length) :
    (∀ xs, List.Forall₂ VerifierLocalVar.Holds varsc xs → List.Forall₂ VerifierLocalVar.Holds varsn xs) ↔
      ∀ p ∈ varsc.zip varsn, ¬ Stale p ∧ ¬ Mismatch p := by
  induction varsc generalizing varsn with
  | nil => simp [List.length_eq_zero_iff.1 hlen.symm]
  | cons c varsc ih =>
    cases varsn with
    | nil => simp at hlen
    | cons n varsn =>
      rw [List.zip_cons_cons, List.forall_mem_cons, ← holds_imp_iff, ← ih (by simpa using hlen)]
      constructor
      · intro h
        obtain ⟨x, hx⟩ := c.exists_holds
        obtain ⟨xs, hxs⟩ := exists_forall₂_holds varsc
        exact ⟨fun y hy => (List.forall₂_cons.1 (h _ (.cons hy hxs))).1,
          fun ys hys => (List.forall₂_cons.1 (h _ (.cons hx hys))).2⟩
      · rintro ⟨hhead, htail⟩ xs hxs
        cases hxs with
        | cons hx hxs => exact .cons (hhead _ hx) (htail _ hxs)

variable {nbVars : Nat} {sc sn : VerifierState nbVars}

theorem transitionVerifierState_iff : transitionVerifierState sc sn = .ok () ↔
      sn.stack <+: sc.stack ∧ ∀ p ∈ sc.vars.zip sn.vars, ¬ Spurious p ∧ ¬ Mismatch p := by
  rw [transitionVerifierState, exceptSeq_ok_iff, transitionVerifierStack_iff, transitionVerifierLocalVar_iff]

/-- Every described frame satisfies the requirement exactly when the stacks agree and no variable is stale or a
mismatch. -/
theorem describes_imp_iff : (∀ f, sc.Describes f → sn.Describes f) ↔
      sn.stack <+: sc.stack ∧ ∀ p ∈ sc.vars.zip sn.vars, ¬ Stale p ∧ ¬ Mismatch p := by
  rw [← forall₂_holds_imp_iff (sc.length_vars.trans sn.length_vars.symm)]
  constructor
  · intro h
    obtain ⟨xs, hxs⟩ := exists_forall₂_holds sc.vars
    exact ⟨(h ⟨sc.stack, xs⟩ ⟨List.prefix_rfl, hxs⟩).1,
      fun ys hys => (h ⟨sc.stack, ys⟩ ⟨List.prefix_rfl, hys⟩).2⟩
  · rintro ⟨hstack, hvars⟩ f ⟨hf, hxs⟩
    exact ⟨hstack.trans hf, hvars _ hxs⟩

/-- **When the transition is decided rightly.** It is accepted exactly when every frame of the current state suits the
next one, if and only if the stacks disagree, or a variable is rejected for a good reason, or no operand without
meaning decides, or there are variables wrongly accepted and variables wrongly rejected at once. -/
theorem transitionVerifierState_exact (sc sn : VerifierState nbVars) :
    (transitionVerifierState sc sn = .ok () ↔ ∀ f, sc.Describes f → sn.Describes f) ↔
      ¬ sn.stack <+: sc.stack ∨ (∃ p ∈ sc.vars.zip sn.vars, Mismatch p) ∨
        ((∃ p ∈ sc.vars.zip sn.vars, Stale p) ↔ ∃ p ∈ sc.vars.zip sn.vars, Spurious p) := by
  rw [transitionVerifierState_iff, describes_imp_iff]
  by_cases hstack : sn.stack <+: sc.stack
  · by_cases hmis : ∃ p ∈ sc.vars.zip sn.vars, Mismatch p
    · obtain ⟨p, hp, hmis'⟩ := hmis
      refine iff_of_true (iff_of_false ?_ ?_) (.inr (.inl ⟨p, hp, hmis'⟩))
      · exact fun h => (h.2 p hp).2 hmis'
      · exact fun h => (h.2 p hp).2 hmis'
    · have hno : ∀ P : VerifierLocalVar × VerifierLocalVar → Prop,
          (∀ p ∈ sc.vars.zip sn.vars, ¬ P p ∧ ¬ Mismatch p) ↔ ¬ ∃ p ∈ sc.vars.zip sn.vars, P p := by
        intro P
        push Not at hmis ⊢
        exact forall₂_congr fun p hp => and_iff_left (hmis p hp)
      simp only [hstack, hmis, true_and, not_true, false_or, hno, not_iff_not]
      exact iff_comm
  · simp [hstack]

/-- The current block leaves the variable alone, the next one loads an `int` from it. The transition is accepted when
the memory of the unknown variable happens to say `int`. -/
theorem transitionVerifierState_unknown_accepted :
    ∃ sc sn : VerifierState 1, sc.vars = [⟨.unknown, ⟨.int, false⟩⟩] ∧ sn.vars = [⟨.defined, ⟨.int, false⟩⟩] ∧
      transitionVerifierState sc sn = .ok () ∧ ¬ ∀ f, sc.Describes f → sn.Describes f := by
  refine ⟨⟨[⟨.unknown, ⟨.int, false⟩⟩], [], rfl⟩, ⟨[⟨.defined, ⟨.int, false⟩⟩], [], rfl⟩, rfl, rfl, by decide, ?_⟩
  rw [describes_imp_iff]
  simp [Stale]

end Jato.Vm
