import Jato.Jit.Convert
import Mathlib.Data.List.Forall2

/-!
# The converters follow the operand-stack semantics

`Sim` relates a parse context in the middle of a basic block to a frame of the virtual machine: the statements made so
far, executed from the start of the block, end in a state with the locals and the heap of the frame, and the expressions
on the mimic stack are stable and have the values on the operand stack. Every converter keeps it (`Follows`): one that
pops, pushes or copies operands (`StackFollows`), and one that reads or writes a local variable or a field.
-/

namespace Jato.Jit

open Jato.Vm
open Jato.Lib (Runs)

variable {F D H Φ : Type} {w : Platform F D H Φ} {code : List UInt8} {start st st' : TreeState F D H} {wide : Bool}
  {opc n m : Nat} {ctx ctx' : ParseContext D Φ} {fr fr' : Frame F D H} {e : Expr D Φ} {v : Value F D}

/-! ## Operands -/

/-- The expression has the value `v` now and at every later point of the block. -/
structure Denotes (w : Platform F D H Φ) (st : TreeState F D H) (n : Nat) (e : Expr D Φ) (v : Value F D) : Prop where
  stable : e.Stable n
  eval : ∀ h, eval w st e h = some (v, h)

/-- An expression on the mimic stack: it has the type of the operand as well. -/
structure Operand (w : Platform F D H Φ) (st : TreeState F D H) (n : Nat) (e : Expr D Φ) (v : Value F D) : Prop
    extends Denotes w st n e v where
  vmType : e.vmType = v.vmType

/-- The state `st'` with `m` variables comes later in the block than `st` with `n`. -/
structure Later (st : TreeState F D H) (n : Nat) (st' : TreeState F D H) (m : Nat) : Prop where
  le : n ≤ m
  agree : Agree n st st'

theorem Denotes.later (h : Denotes w st n e v) (hl : Later st n st' m) : Denotes w st' m e v :=
  ⟨h.stable.mono hl.le, fun h' => eval_stable hl.agree h.stable (h.eval h') h'⟩

theorem Operand.later (h : Operand w st n e v) (hl : Later st n st' m) : Operand w st' m e v :=
  ⟨h.toDenotes.later hl, h.vmType⟩

theorem Later.refl (st : TreeState F D H) (n : Nat) : Later st n st n := ⟨le_refl n, Agree.refl n st⟩

theorem Later.trans {st₁ st₂ st₃ : TreeState F D H} {n₁ n₂ n₃ : Nat} (h : Later st₁ n₁ st₂ n₂)
    (h' : Later st₂ n₂ st₃ n₃) : Later st₁ n₁ st₃ n₃ where
  le := le_trans h.le h'.le
  agree.temps k hk := (h'.agree.temps k (lt_of_lt_of_le hk h.le)).trans (h.agree.temps k hk)
  agree.entrySlots := h'.agree.entrySlots.trans h.agree.entrySlots
  agree.exception := h'.agree.exception.trans h.agree.exception

variable {vs : List (Value F D)} {es : List (Expr D Φ)}

theorem operands_later (hl : Later st n st' m)
    (h : List.Forall₂ (Operand w st n) es vs) : List.Forall₂ (Operand w st' m) es vs :=
  h.imp fun _ _ ho => ho.later hl

/-- The expression becomes an operand when it is pushed. -/
def Pushable (w : Platform F D H Φ) (st : TreeState F D H) (n : Nat) (e : Expr D Φ) (v : Value F D) : Prop :=
  Operand w st n (e.setVmType (mimicStackType e.vmType)) v

theorem Operand.pushable (h : Operand w st n e v) : Pushable w st n e v := by
  have ht : mimicStackType e.vmType = e.vmType := by rw [h.vmType, Value.mimicStackType_vmType]
  rw [Pushable, ht, Expr.setVmType_self]
  exact h

/-! ## The relation between contexts and frames -/

/-- The context stands at the program counter of the frame, and its statements and expressions describe the frame. -/
structure Sim (w : Platform F D H Φ) (code : List UInt8) (start : TreeState F D H) (wide : Bool) (opc : Nat)
    (ctx : ParseContext D Φ) (st : TreeState F D H) (fr : Frame F D H) : Prop where
  code_eq : ctx.code = code
  pos_eq : ctx.pos = fr.pc
  wide_eq : ctx.isWide = wide
  opc_eq : ctx.opc = opc
  executed : execStatements w ctx.stmtList start = some st
  locals_eq : st.locals = fr.locals
  heap_eq : st.heap = fr.heap
  operands : List.Forall₂ (Operand w st ctx.nextVar) ctx.mimicStack fr.stack

/-- The context after `convert_expression`. -/
def ParseContext.push (ctx : ParseContext D Φ) (e : Expr D Φ) : ParseContext D Φ :=
  { ctx with mimicStack := e.setVmType (mimicStackType e.vmType) :: ctx.mimicStack }

theorem temporaryExpr_eq (t : VmType) (ctx : ParseContext D Φ) : ∃ high m, ctx.nextVar < m ∧
    temporaryExpr t ctx = some (.temporary t ctx.nextVar high, { ctx with nextVar := m }) := by
  unfold temporaryExpr
  split
  · exact ⟨_, _, by omega, rfl⟩
  · exact ⟨_, _, by omega, rfl⟩

namespace Sim

variable {α : Type} {Q : α → ParseContext D Φ → Prop} {s : List (Value F D)} (h : Sim w code start wide opc ctx st fr)

include h

variable {f : Expr D Φ → Convert D Φ α}

theorem pop (hs : fr.stack = v :: s) (hf : ∀ e es, Operand w st ctx.nextVar e v →
      Sim w code start wide opc { ctx with mimicStack := es } st { fr with stack := s } →
      Runs (f e) { ctx with mimicStack := es } Q) : Runs (stackPop >>= f) ctx Q := by
  have hops := h.operands
  rw [hs] at hops
  obtain ⟨e, es, he, hes, hm⟩ := List.forall₂_cons_right_iff.mp hops
  have hpop : stackPop ctx = some (e, { ctx with mimicStack := es }) := by simp only [stackPop, hm]
  exact .bind (.of_eq hpop (hf e es he { h with operands := hes }))

theorem peek (hs : fr.stack = v :: s)
    (hf : ∀ e, Operand w st ctx.nextVar e v → Runs (f e) ctx Q) : Runs (stackPeek >>= f) ctx Q := by
  have hops := h.operands
  rw [hs] at hops
  obtain ⟨e, es, he, hes, hm⟩ := List.forall₂_cons_right_iff.mp hops
  have hpeek : stackPeek ctx = some (e, ctx) := by simp only [stackPeek, hm]
  exact .bind (.of_eq hpeek (hf e he))

theorem push (he : Pushable w st ctx.nextVar e v) :
    Sim w code start wide opc (ctx.push e) st { fr with stack := v :: fr.stack } :=
  { h with operands := .cons he h.operands }

theorem statement {stmt : Statement D Φ}
    (hx : execStatement w st stmt = some st') (hl : Later st ctx.nextVar st' m) :
    Sim w code start wide opc { ctx with stmtList := ctx.stmtList ++ [stmt], nextVar := m } st'
      { fr with locals := st'.locals, heap := st'.heap } where
  __ := h
  executed := by
    rw [execStatements, List.foldlM_append, ← execStatements, h.executed]
    simp only [Option.bind_eq_bind, Option.bind_some, List.foldlM_cons, List.foldlM_nil, hx]
    rfl
  locals_eq := rfl
  heap_eq := rfl
  operands := operands_later hl h.operands

/-- **Copying**: `dup_expr` evaluates the expression now and keeps its value in a temporary. -/
theorem dupExpr {heap : H} (he : eval w st e fr.heap = some (v, heap))
    (hf : ∀ temp ctx' st', Later st ctx.nextVar st' ctx'.nextVar →
      Sim w code start wide opc ctx' st' { fr with heap := heap } →
      (∀ t, Denotes w st' ctx'.nextVar (temp.setVmType t) v) → temp.isPure = true → temp.vmType = e.vmType →
      Runs (f temp) ctx' Q) :
    Runs (Jit.dupExpr e >>= f) ctx Q := by
  obtain ⟨high, m, hlt, htmp⟩ := temporaryExpr_eq e.vmType ctx
  let st' : TreeState F D H := { st with heap := heap, temps := Function.update st.temps ctx.nextVar (some v) }
  have hx : execStatement w st (.store (.temporary e.vmType ctx.nextVar high) e) = some st' := by
    simp [execStatement, h.heap_eq, he, st']
  have hl : Later st ctx.nextVar st' m :=
    ⟨le_of_lt hlt, fun k hk => Function.update_of_ne (Nat.ne_of_lt hk) _ _, rfl, rfl⟩
  have hd : ∀ t, Denotes w st' m (.temporary t ctx.nextVar high) v := fun t =>
    ⟨hlt, fun _ => by simp [eval, st']⟩
  have hdup : Jit.dupExpr e ctx = some (.temporary e.vmType ctx.nextVar high, { ctx with
      stmtList := ctx.stmtList ++ [.store (.temporary e.vmType ctx.nextVar high) e], nextVar := m }) := by
    show (temporaryExpr e.vmType ctx).bind _ = _
    rw [htmp]
    rfl
  have hsim := h.statement hx hl
  rw [show st'.locals = fr.locals from h.locals_eq] at hsim
  exact .bind (.of_eq hdup (hf _ _ st' hl hsim hd rfl rfl))

section

variable (he : Operand w st ctx.nextVar e v) {f : Expr D Φ → Convert D Φ α}
  (hf : ∀ e' ctx' st', Later st ctx.nextVar st' ctx'.nextVar → Sim w code start wide opc ctx' st' fr →
    Operand w st' ctx'.nextVar e' v → e'.isPure = true → Runs (f e') ctx' Q)

include he hf

theorem dupOperand : Runs (Jit.dupExpr e >>= f) ctx Q := by
  refine h.dupExpr (he.eval fr.heap) fun temp ctx' st' hl hsim hd hpure ht => ?_
  refine hf temp ctx' st' hl hsim ⟨?_, ht.trans he.vmType⟩ hpure
  rw [← temp.setVmType_self]
  exact hd _

theorem getPureExpr : Runs (Jit.getPureExpr e >>= f) ctx Q := by
  unfold Jit.getPureExpr
  split
  · rename_i hpure
    exact .bind (.pure (hf e ctx st (.refl st _) h he hpure))
  · exact h.dupOperand he hf

theorem copy (hpure : e.isPure = true) : Runs (exprGet e >>= fun e => Jit.dupExpr e >>= f) ctx Q := by
  have hget : exprGet e ctx = some (e, ctx) := if_pos hpure
  exact .bind (.of_eq hget (h.dupOperand he hf))

end

theorem convertExpressions
    (hes : List.Forall₂ (Operand w st ctx.nextVar) es vs) {f : Unit → Convert D Φ α}
    (hf : ∀ ctx', ctx'.nextVar = ctx.nextVar →
      Sim w code start wide opc ctx' st { fr with stack := vs.reverse ++ fr.stack } → Runs (f ()) ctx' Q) :
    Runs (Jit.convertExpressions es >>= f) ctx Q := by
  induction es generalizing ctx fr vs with
  | nil =>
    cases hes
    exact .bind (.pure (hf ctx rfl h))
  | cons e es ih =>
    obtain ⟨v, vs, he, hrest, rfl⟩ := List.forall₂_cons_left_iff.mp hes
    unfold Jit.convertExpressions
    rw [bind_assoc]
    refine .bind (.of_eq rfl ?_)
    refine ih (h.push he.pushable) hrest fun ctx' hn hsim => hf ctx' hn ?_
    rw [List.reverse_cons, List.append_assoc]
    exact hsim

end Sim

/-! ## Operand stack -/

/-- The converter does to the mimic stack what `f` does to the operand stack. -/
def StackFollows (w : Platform F D H Φ) (opc : Nat) (f : StackOp F D) (conv : Convert D Φ Unit) : Prop :=
  ∀ {code start ctx st fr s}, Sim w code start false opc ctx st fr → f fr.stack = some s →
    Runs conv ctx fun _ ctx' => ∃ st', Sim w code start false opc ctx' st' { fr with stack := s }

/-- The same from the state `st` with `n` variables on, in which the operands popped so far have their values. -/
def FollowsAt (w : Platform F D H Φ) (opc : Nat) (st : TreeState F D H) (n : Nat) (f : StackOp F D)
    (conv : Convert D Φ Unit) : Prop :=
  ∀ code start ctx fr s, ctx.nextVar = n → Sim w code start false opc ctx st fr → f fr.stack = some s →
    Runs conv ctx fun _ ctx' => ∃ st', Sim w code start false opc ctx' st' { fr with stack := s }

section Ostack

variable {f g : StackOp F D} {conv conv' : Convert D Φ Unit} {vs : List (Value F D)} {under : List (Expr D Φ)}
  {e₁ e₂ : Expr D Φ} {v₁ v₂ : Value F D} {c c' : Prop} [Decidable c] [Decidable c']

theorem follows (h : ∀ st n, FollowsAt w opc st n f conv) : StackFollows w opc f conv :=
  fun hsim hs => h _ _ _ _ _ _ _ rfl hsim hs

namespace FollowsAt

theorem pop {k : Expr D Φ → Convert D Φ Unit} (hnil : f [] = none)
    (hk : ∀ e v, Operand w st n e v → FollowsAt w opc st n (fun s => f (v :: s)) (k e)) :
    FollowsAt w opc st n f (stackPop >>= k) := by
  rintro code start ctx ⟨pc, locals, heap, _ | ⟨v, stk⟩⟩ s rfl h hs
  · cases hnil.symm.trans hs
  · exact h.pop rfl fun e es he hsim => hk e v he _ _ _ ⟨pc, locals, heap, stk⟩ _ rfl hsim hs

theorem guard (h : FollowsAt w opc st n f conv) : FollowsAt w opc st n (fun s => if c then none else f s) conv := by
  intro _ _ _ _ _ hn hsim hs
  split_ifs at hs
  exact h _ _ _ _ _ hn hsim hs

theorem ite (hc : c' ↔ c) (ht : FollowsAt w opc st n f conv) (he : FollowsAt w opc st n g conv') :
    FollowsAt w opc st n (fun s => if c then f s else g s) (if c' then conv else conv') := by
  by_cases h : c
  · simpa only [if_pos h, if_pos (hc.mpr h)] using ht
  · simpa only [if_neg h, if_neg (mt hc.mp h)] using he

theorem done : FollowsAt w opc st n some (pure () : Convert D Φ Unit) := by
  intro _ _ _ _ _ _ h hs
  cases hs
  exact .pure ⟨st, h⟩

theorem result {o : Option (Value F D)} (he : ∀ v, o = some v → Operand w st n e v) :
    FollowsAt w opc st n (fun s => o.map (· :: s)) (convertExpression e) := by
  rintro _ _ ctx _ _ rfl h hs
  obtain ⟨v, hv, rfl⟩ := Option.map_eq_some_iff.mp hs
  exact .of_eq rfl ⟨st, h.push (he v hv).pushable⟩

theorem push (he : Operand w st n e v) : FollowsAt w opc st n (push v) (convertExpression e) :=
  result (o := some v) fun _ hv => Option.some.inj hv ▸ he

theorem dupUnder (h₁ : Operand w st n e v) (hu : List.Forall₂ (Operand w st n) under vs)
    (hf : ∀ s, f s = some (v :: (vs.reverse ++ v :: s))) : FollowsAt w opc st n f (dupUnder under e) := by
  rintro _ _ ctx fr _ rfl h hs
  cases (hf _).symm.trans hs
  refine h.getPureExpr h₁ fun dup ctx₁ st₁ hl₁ h₁ hdup hpure => ?_
  refine .bind (.of_eq rfl ?_)
  refine (h₁.push hdup.pushable).convertExpressions (operands_later hl₁ hu) fun ctx₂ hn₂ h₂ => ?_
  have hdup₂ : Operand w st₁ ctx₂.nextVar dup v := by
    rw [hn₂]
    exact hdup
  refine h₂.copy hdup₂ (fun copy ctx₃ st₃ _ h₃ hcopy _ => ?_) hpure
  exact .of_eq rfl ⟨st₃, h₃.push hcopy.pushable⟩

theorem dup2Under (h₁ : Operand w st n e₁ v₁) (h₂ : Operand w st n e₂ v₂)
    (hu : List.Forall₂ (Operand w st n) under vs) (hf : ∀ s, f s = some (v₁ :: v₂ :: (vs.reverse ++ v₁ :: v₂ :: s))) :
    FollowsAt w opc st n f (dup2Under under e₁ e₂) := by
  rintro _ _ ctx fr _ rfl h hs
  cases (hf _).symm.trans hs
  refine h.getPureExpr h₁ fun dup ctx₁ st₁ hl₁ h₁ hdup hpure => ?_
  refine h₁.getPureExpr (h₂.later hl₁) fun dup2 ctx₂ st₂ hl₂ h₂ hdup2 hpure2 => ?_
  have hdup := hdup.later hl₂
  refine .bind (.of_eq rfl (.bind (.of_eq rfl ?_)))
  refine ((h₂.push hdup2.pushable).push hdup.pushable).convertExpressions (operands_later (hl₁.trans hl₂) hu)
    fun ctx₃ hn₃ h₃ => ?_
  have hl₃ : Later st₂ ctx₂.nextVar st₂ ctx₃.nextVar := ⟨le_of_eq hn₃.symm, .refl _ _⟩
  refine h₃.copy (hdup2.later hl₃) (fun copy2 ctx₄ st₄ hl₄ h₄ hcopy2 _ => ?_) hpure2
  refine .bind (.of_eq rfl ?_)
  refine (h₄.push hcopy2.pushable).copy ((hdup.later hl₃).later hl₄) (fun copy ctx₅ st₅ _ h₅ hcopy _ => ?_) hpure
  exact .of_eq rfl ⟨st₅, h₅.push hcopy.pushable⟩

end FollowsAt

theorem Operand.pair_iff (h : Operand w st n e v) : e.vmType = .long ∨ e.vmType = .double ↔ v.isPair := by
  rw [h.vmType]
  exact v.vmType_pair_iff

theorem nop_follows : StackFollows w opc some convertNop := follows fun _ _ => .done

theorem pop_follows : StackFollows w opc pop convertPop := follows fun _ _ => .pop rfl fun _ _ _ => .guard .done

theorem pop2_follows : StackFollows w opc pop2 convertPop2 := by
  refine follows fun st n => .pop rfl fun e₁ v₁ h₁ => .ite ?_ .done ?_
  · rw [h₁.vmType, Value.vmTypeIsPair_vmType]
  rintro code start ctx ⟨pc, locals, heap, _ | ⟨v₂, stk⟩⟩ s rfl hsim hs
  · cases hs
  refine hsim.peek rfl fun e₂ h₂ => ?_
  simp only at hs
  split at hs
  · cases hs
  rename_i hp₂
  cases hs
  rw [h₂.vmType, Value.vmTypeIsPair_vmType, if_neg hp₂]
  exact hsim.pop rfl fun e es _ hsim => .pure ⟨st, hsim⟩

theorem dup_follows : StackFollows w opc dup convertDup :=
  follows fun _ _ => .pop rfl fun _ _ h => .guard (.dupUnder h .nil fun _ => rfl)

theorem dupX1_follows : StackFollows w opc dupX1 convertDupX1 :=
  follows fun _ _ => .pop rfl fun _ _ h₁ => .pop rfl fun _ _ h₂ =>
    .guard (.dupUnder h₁ (.cons h₂ .nil) fun _ => rfl)

theorem dupX2_follows : StackFollows w opc dupX2 convertDupX2 := by
  refine follows fun _ _ => .pop rfl fun _ _ h₁ => .pop rfl fun _ _ h₂ => .guard (.ite ?_ ?_ ?_)
  · rw [h₂.vmType, Value.vmTypeSlotSize_vmType]
  · exact .dupUnder h₁ (.cons h₂ .nil) fun _ => rfl
  · exact .pop rfl fun _ _ h₃ => .guard (.dupUnder h₁ (.cons h₃ (.cons h₂ .nil)) fun _ => rfl)

theorem dup2_follows : StackFollows w opc dup2 convertDup2 := by
  refine follows fun _ _ => .pop rfl fun _ _ h₁ => .ite h₁.pair_iff ?_ ?_
  · exact .dupUnder h₁ .nil fun _ => rfl
  · exact .pop rfl fun _ _ h₂ => .guard (.dup2Under h₁ h₂ .nil fun _ => rfl)

theorem dup2X1_follows : StackFollows w opc dup2X1 convertDup2X1 := by
  refine follows fun _ _ => .pop rfl fun _ _ h₁ => .pop rfl fun _ _ h₂ => .guard (.ite h₁.pair_iff ?_ ?_)
  · exact .dupUnder h₁ (.cons h₂ .nil) fun _ => rfl
  · exact .pop rfl fun _ _ h₃ => .guard (.dup2Under h₁ h₂ (.cons h₃ .nil) fun _ => rfl)

theorem dup2X2_follows : StackFollows w opc dup2X2 convertDup2X2 := by
  refine follows fun _ _ => .pop rfl fun _ _ h₁ => .pop rfl fun _ _ h₂ => .ite h₁.pair_iff (.ite h₂.pair_iff ?_ ?_)
    (.guard (.pop rfl fun _ _ h₃ => .ite h₃.pair_iff ?_ ?_))
  · -- form 4: both values take two slots
    exact .dupUnder h₁ (.cons h₂ .nil) fun _ => rfl
  · -- form 2: a two-slot value over two others
    exact .pop rfl fun _ _ h₃ => .guard (.dupUnder h₁ (.cons h₃ (.cons h₂ .nil)) fun _ => rfl)
  · -- form 3: two values over a two-slot one
    exact .dup2Under h₁ h₂ (.cons h₃ .nil) fun _ => rfl
  · -- form 1: four values of one slot
    exact .pop rfl fun _ _ h₄ => .guard (.dup2Under h₁ h₂ (.cons h₄ (.cons h₃ .nil)) fun _ => rfl)

theorem swap_follows : StackFollows w opc swap convertSwap := by
  refine follows fun st _ => .pop rfl fun e₁ v₁ h₁ => .pop rfl fun e₂ v₂ h₂ => .guard ?_
  rintro _ _ ctx _ _ rfl hsim hs
  cases hs
  refine .bind (.of_eq rfl (.of_eq rfl ⟨st, ?_⟩))
  exact (hsim.push h₁.pushable).push h₂.pushable

end Ostack

end Jato.Jit
