import Jato.Vm.OperandStack

/-!
# Expressions and statements of the tree representation

`jit/expression.c`, `jit/statement.c`: the expressions and the store statement that the conversion of straight-line
bytecode makes, and what they mean on a state with temporaries. The value of a *stable* expression depends on
temporaries that are already assigned, on the operands the block starts with and on the exception it handles, and on
nothing that a later statement of the block changes (`eval_stable`).
-/

namespace Jato.Jit

open Jato.Vm

variable {F D H Φ : Type}

/-! ## Expressions -/

/-- `enum binary_operator`, without the operators of conditional branches. -/
inductive BinaryOperator
  | add
  | sub
  | mul
  | mul64
  | div
  | div64
  | rem
  | rem64
  | shl
  | shl64
  | shr
  | shr64
  | ushr
  | ushr64
  | and
  | or
  | xor
  | cmp
  | cmpl
  | cmpg
  | fadd
  | fsub
  | fmul
  | fdiv
  | frem
  | dadd
  | dsub
  | dmul
  | ddiv
  | drem

inductive UnaryOperator
  | neg
  | fneg
  | dneg

/-- The expression types `EXPR_CONVERSION` to `EXPR_CONVERSION_FROM_DOUBLE`. -/
inductive ConversionType
  | conversion
  | floatToDouble
  | doubleToFloat
  | toFloat
  | fromFloat
  | toDouble
  | fromDouble

/-- `struct expression`. A long temporary of a 32-bit machine is a pair of variables. The float variants of the
expression types follow from the `vmType`. -/
inductive Expr (D Φ : Type)
  | value (vmType : VmType) (value : BitVec 64)
  | fvalue (vmType : VmType) (fvalue : D)
  | localVar (vmType : VmType) (localIndex : Nat)
  | temporary (vmType : VmType) (tmpLow : Nat) (tmpHigh : Option Nat)
  | mimicStackSlot (vmType : VmType) (entry : Bool) (slotNdx : Nat)
  | exceptionRef (vmType : VmType)
  | classField (vmType : VmType) (field : Φ)
  | instanceField (vmType : VmType) (field : Φ) (objectref : Expr D Φ)
  | nullCheck (vmType : VmType) (ref : Expr D Φ)
  | binop (vmType : VmType) (op : BinaryOperator) (left right : Expr D Φ)
  | unaryOp (vmType : VmType) (op : UnaryOperator) (expression : Expr D Φ)
  | conversion (type : ConversionType) (vmType : VmType) (fromExpression : Expr D Φ)
  | truncation (vmType : VmType) (toType : VmType) (fromExpression : Expr D Φ)

namespace Expr

def vmType : Expr D Φ → VmType
  | value t _ | fvalue t _ | localVar t _ | temporary t _ _ | mimicStackSlot t _ _ | exceptionRef t | classField t _
  | instanceField t _ _ | nullCheck t _ | binop t _ _ _ | unaryOp t _ _ | conversion _ t _ | truncation t _ _ => t

def setVmType (t : VmType) : Expr D Φ → Expr D Φ
  | value _ x => value t x
  | fvalue _ x => fvalue t x
  | localVar _ i => localVar t i
  | temporary _ low high => temporary t low high
  | mimicStackSlot _ entry i => mimicStackSlot t entry i
  | exceptionRef _ => exceptionRef t
  | classField _ φ => classField t φ
  | instanceField _ φ o => instanceField t φ o
  | nullCheck _ e => nullCheck t e
  | binop _ op l r => binop t op l r
  | unaryOp _ op e => unaryOp t op e
  | conversion k _ e => conversion k t e
  | truncation _ toType e => truncation t toType e

@[simp] theorem vmType_setVmType (t : VmType) (e : Expr D Φ) : (e.setVmType t).vmType = t := by cases e <;> rfl

theorem setVmType_self (e : Expr D Φ) : e.setVmType e.vmType = e := by cases e <;> rfl

/-- `expr_is_pure`: whether the expression can be connected to many nodes of the tree. -/
def isPure : Expr D Φ → Bool
  | value .. | fvalue .. | localVar .. | temporary .. | mimicStackSlot .. | exceptionRef .. | classField .. => true
  | instanceField .. | nullCheck .. | binop .. | unaryOp .. | conversion .. | truncation .. => false

end Expr

def exceptionRefExpr : Expr D Φ := .exceptionRef .reference

def truncationExpr (toType : VmType) (e : Expr D Φ) : Expr D Φ := .truncation .int toType e

/-- `struct statement`; the bytecodes of the model make stores only. -/
inductive Statement (D Φ : Type)
  | store (dest src : Expr D Φ)

/-! ## Evaluation -/

def evalInt (op : BinaryOperator) (a b : BitVec 32) : Option (Value F D) :=
  match op with
  | .add => some (.int (a + b))
  | .sub => some (.int (a - b))
  | .mul => some (.int (a * b))
  | .div => if b = 0 then none else some (.int (a.sdiv b))
  | .rem => if b = 0 then none else some (.int (a.srem b))
  | .shl => some (.int (a <<< (b.toNat % 32)))
  | .shr => some (.int (a.sshiftRight (b.toNat % 32)))
  | .ushr => some (.int (a >>> (b.toNat % 32)))
  | .and => some (.int (a &&& b))
  | .or => some (.int (a ||| b))
  | .xor => some (.int (a ^^^ b))
  | _ => none

def evalLong (op : BinaryOperator) (a b : BitVec 64) : Option (Value F D) :=
  match op with
  | .add => some (.long (a + b))
  | .sub => some (.long (a - b))
  | .mul64 => some (.long (a * b))
  | .div64 => if b = 0 then none else some (.long (a.sdiv b))
  | .rem64 => if b = 0 then none else some (.long (a.srem b))
  | .and => some (.long (a &&& b))
  | .or => some (.long (a ||| b))
  | .xor => some (.long (a ^^^ b))
  | .cmp => some (.int (orderingValue (compare a.toInt b.toInt)))
  | _ => none

def evalShift64 (op : BinaryOperator) (a : BitVec 64) (b : BitVec 32) : Option (Value F D) :=
  match op with
  | .shl64 => some (.long (a <<< (b.toNat % 64)))
  | .shr64 => some (.long (a.sshiftRight (b.toNat % 64)))
  | .ushr64 => some (.long (a >>> (b.toNat % 64)))
  | _ => none

def evalFloat (A : FloatArith F D) (op : BinaryOperator) (a b : F) : Option (Value F D) :=
  match op with
  | .fadd => some (.float (A.fop .add a b))
  | .fsub => some (.float (A.fop .sub a b))
  | .fmul => some (.float (A.fop .mul a b))
  | .fdiv => some (.float (A.fop .div a b))
  | .frem => some (.float (A.fop .rem a b))
  | .cmpl => some (.int (((A.fcompare a b).map orderingValue).getD (-1)))
  | .cmpg => some (.int (((A.fcompare a b).map orderingValue).getD 1))
  | _ => none

def evalDouble (A : FloatArith F D) (op : BinaryOperator) (a b : D) : Option (Value F D) :=
  match op with
  | .dadd => some (.double (A.dop .add a b))
  | .dsub => some (.double (A.dop .sub a b))
  | .dmul => some (.double (A.dop .mul a b))
  | .ddiv => some (.double (A.dop .div a b))
  | .drem => some (.double (A.dop .rem a b))
  | .cmpl => some (.int (((A.dcompare a b).map orderingValue).getD (-1)))
  | .cmpg => some (.int (((A.dcompare a b).map orderingValue).getD 1))
  | _ => none

/-- The value of a binary operator; an operator has none on operands of types it is not for. -/
def evalBinop (A : FloatArith F D) (op : BinaryOperator) : Value F D → Value F D → Option (Value F D)
  | .int a, .int b => evalInt op a b
  | .long a, .long b => evalLong op a b
  | .long a, .int b => evalShift64 op a b
  | .float a, .float b => evalFloat A op a b
  | .double a, .double b => evalDouble A op a b
  | _, _ => none

def evalUnaryOp (A : FloatArith F D) : UnaryOperator → Value F D → Option (Value F D)
  | .neg, .int a => some (.int (-a))
  | .neg, .long a => some (.long (-a))
  | .fneg, .float a => some (.float (A.fneg a))
  | .dneg, .double a => some (.double (A.dneg a))
  | _, _ => none

/-- The type of the value of a binary operator whose left operand has the type `t`. -/
def binopType (t : VmType) : BinaryOperator → VmType
  | .cmp | .cmpl | .cmpg => .int
  | _ => t

/-- The value of a conversion to the type `t`. -/
def evalConversion (A : FloatArith F D) : ConversionType → VmType → Value F D → Option (Value F D)
  | .conversion, .long, .int a => some (.long (a.signExtend 64))
  | .conversion, .int, .long a => some (.int (a.setWidth 32))
  | .floatToDouble, .double, .float a => some (.double (A.f2d a))
  | .doubleToFloat, .float, .double a => some (.float (A.d2f a))
  | .toFloat, .float, .int a => some (.float (A.i2f a))
  | .toFloat, .float, .long a => some (.float (A.l2f a))
  | .fromFloat, .int, .float a => some (.int (A.f2i a))
  | .fromFloat, .long, .float a => some (.long (A.f2l a))
  | .toDouble, .double, .int a => some (.double (A.i2d a))
  | .toDouble, .double, .long a => some (.double (A.l2d a))
  | .fromDouble, .int, .double a => some (.int (A.d2i a))
  | .fromDouble, .long, .double a => some (.long (A.d2l a))
  | _, _, _ => none

def evalTruncation : VmType → Value F D → Option (Value F D)
  | .byte, .int a => some (.int ((a.setWidth 8).signExtend 32))
  | .char, .int a => some (.int ((a.setWidth 16).setWidth 32))
  | .short, .int a => some (.int ((a.setWidth 16).signExtend 32))
  | _, _ => none

theorem evalInt_vmType {a b : BitVec 32} (h : evalInt op a b = some v) : v.vmType = binopType .int op := by
  cases op <;> simp only [evalInt] at h <;> first | cases h; rfl | cases h | (split at h <;> cases h; rfl)

theorem evalLong_vmType {a b : BitVec 64} (h : evalLong op a b = some v) : v.vmType = binopType .long op := by
  cases op <;> simp only [evalLong] at h <;> first | cases h; rfl | cases h | (split at h <;> cases h; rfl)

theorem evalShift64_vmType {a : BitVec 64} {b : BitVec 32}
    (h : evalShift64 op a b = some v) : v.vmType = binopType .long op := by
  cases op <;> cases h <;> rfl

theorem evalFloat_vmType {a b : F} (h : evalFloat A op a b = some v) : v.vmType = binopType .float op := by
  cases op <;> cases h <;> rfl

theorem evalDouble_vmType {a b : D} (h : evalDouble A op a b = some v) : v.vmType = binopType .double op := by
  cases op <;> cases h <;> rfl

theorem evalBinop_vmType {l r v : Value F D} (h : evalBinop A op l r = some v) : v.vmType = binopType l.vmType op := by
  unfold evalBinop at h
  split at h
  · exact evalInt_vmType h
  · exact evalLong_vmType h
  · exact evalShift64_vmType h
  · exact evalFloat_vmType h
  · exact evalDouble_vmType h
  · cases h

theorem evalUnaryOp_vmType {op : UnaryOperator} {a v : Value F D}
    (h : evalUnaryOp A op a = some v) : v.vmType = a.vmType := by
  unfold evalUnaryOp at h
  split at h <;> cases h <;> rfl

theorem evalConversion_vmType {k : ConversionType} {t : VmType} {a v : Value F D}
    (h : evalConversion A k t a = some v) : v.vmType = t := by
  unfold evalConversion at h
  split at h <;> cases h <;> rfl

def evalValue (x : BitVec 64) : VmType → Option (Value F D)
  | .int => some (.int (x.setWidth 32))
  | .long => some (.long x)
  | .reference => some (.ref x)
  | _ => none

def evalFvalue (A : FloatArith F D) (x : D) : VmType → Option (Value F D)
  | .float => some (.float (A.d2f x))
  | .double => some (.double x)
  | _ => none

/-- What a block runs on: the frame without its operand stack, the temporaries, the operands that the predecessors left
in the entry slots, and the exception that a handler block starts with. A pair of variables is one temporary, under the
variable of its low half. -/
structure TreeState (F D H : Type) where
  locals : Locals F D
  heap : H
  temps : Nat → Option (Value F D)
  entrySlots : Nat → Option (Value F D)
  exception : BitVec 64

/-- The object that a field is accessed in. -/
def refOf : Value F D → Option (BitVec 64)
  | .ref r => some r
  | _ => none

/-- The value of an expression. Reading a static field may change the heap, so the heap is passed on; exit slots are
written by the spill code at the end of a block and never read in it. -/
def eval (w : Platform F D H Φ) (st : TreeState F D H) : Expr D Φ → H → Option (Value F D × H)
  | .value t x, h => (evalValue x t).map (·, h)
  | .fvalue t x, h => (evalFvalue w.toFloatArith x t).map (·, h)
  | .localVar t i, h => (getLocal st.locals t i).map (·, h)
  | .temporary _ low _, h => (st.temps low).map (·, h)
  | .mimicStackSlot _ entry i, h => if entry then (st.entrySlots i).map (·, h) else none
  | .exceptionRef _, h => some (.ref st.exception, h)
  | .classField _ φ, h => w.getStatic φ h
  | .instanceField _ φ o, h => do
    let (v, h) ← eval w st o h
    let r ← refOf v
    (w.getField φ r h).map (·, h)
  | .nullCheck _ e, h => do
    let (v, h) ← eval w st e h
    let r ← refOf v
    if r = 0 then none else some (.ref r, h)
  | .binop _ op l r, h => do
    let (a, h) ← eval w st l h
    let (b, h) ← eval w st r h
    (evalBinop w.toFloatArith op a b).map (·, h)
  | .unaryOp _ op e, h => do
    let (a, h) ← eval w st e h
    (evalUnaryOp w.toFloatArith op a).map (·, h)
  | .conversion k t e, h => do
    let (a, h) ← eval w st e h
    (evalConversion w.toFloatArith k t a).map (·, h)
  | .truncation _ toType e, h => do
    let (a, h) ← eval w st e h
    (evalTruncation toType a).map (·, h)

/-- Execute a statement: evaluate the source and write it to the destination. -/
def execStatement (w : Platform F D H Φ) (st : TreeState F D H) : Statement D Φ → Option (TreeState F D H)
  | .store dest src => do
    let (v, h) ← eval w st src st.heap
    match dest with
    | .localVar _ i => some { st with heap := h, locals := setLocal st.locals i v }
    | .temporary _ low _ => some { st with heap := h, temps := Function.update st.temps low (some v) }
    | .classField _ φ => (w.putStatic φ v h).map fun h => { st with heap := h }
    | .instanceField _ φ o => do
      let (u, h) ← eval w st o h
      let r ← refOf u
      (w.putField φ r v h).map fun h => { st with heap := h }
    | _ => none

def execStatements (w : Platform F D H Φ) (stmts : List (Statement D Φ)) (st : TreeState F D H) :
    Option (TreeState F D H) :=
  stmts.foldlM (execStatement w) st

/-! ## Stable expressions -/

/-- No statement that comes later in the block changes the value of the expression, the temporaries from `n` on being
those that are still free. -/
def Expr.Stable (n : Nat) : Expr D Φ → Prop
  | .value .. | .fvalue .. | .exceptionRef .. => True
  | .temporary _ low _ => low < n
  | .mimicStackSlot _ entry _ => entry = true
  | .localVar .. | .classField .. | .instanceField .. | .nullCheck .. => False
  | .binop _ _ l r => l.Stable n ∧ r.Stable n
  | .unaryOp _ _ e | .conversion _ _ e | .truncation _ _ e => e.Stable n

/-- The two states differ in locals, heap and the temporaries from `n` on only. -/
structure Agree (n : Nat) (st st' : TreeState F D H) : Prop where
  temps : ∀ k < n, st'.temps k = st.temps k
  entrySlots : st'.entrySlots = st.entrySlots
  exception : st'.exception = st.exception

variable {w : Platform F D H Φ} {st st' : TreeState F D H} {n m : Nat} {e : Expr D Φ} {v : Value F D}

theorem Agree.refl (n : Nat) (st : TreeState F D H) : Agree n st st := ⟨fun _ _ => rfl, rfl, rfl⟩

theorem Expr.Stable.mono (hnm : n ≤ m) : ∀ {e : Expr D Φ}, e.Stable n → e.Stable m
  | .value .., _ | .fvalue .., _ | .exceptionRef .., _ => trivial
  | .temporary .., h => Nat.lt_of_lt_of_le h hnm
  | .mimicStackSlot .., h => h
  | .binop _ _ _ _, h => ⟨mono hnm h.1, mono hnm h.2⟩
  | .unaryOp _ _ e, h | .conversion _ _ e, h | .truncation _ _ e, h => mono (e := e) hnm h

/-- **Stability**: a stable expression has the same value in every state that agrees on the assigned temporaries, and
its evaluation leaves the heap alone. -/
theorem eval_stable (hag : Agree n st st') {h h₁ : H} (hs : e.Stable n) (he : eval w st e h = some (v, h₁)) (h' : H) :
    eval w st' e h' = some (v, h') := by
  induction e generalizing v h h₁ h' with
  | value | fvalue =>
    obtain ⟨x, hx, hp⟩ := Option.map_eq_some_iff.mp he
    cases hp
    simp [eval, hx]
  | exceptionRef =>
    cases he
    simp [eval, hag.exception]
  | temporary t low high =>
    obtain ⟨x, hx, hp⟩ := Option.map_eq_some_iff.mp he
    cases hp
    simp [eval, hag.temps low hs, hx]
  | mimicStackSlot t entry i =>
    cases hs
    obtain ⟨x, hx, hp⟩ := Option.map_eq_some_iff.mp he
    cases hp
    simp [eval, hag.entrySlots, hx]
  | localVar | classField | instanceField | nullCheck => exact hs.elim
  | binop t op l r ihl ihr =>
    obtain ⟨⟨a, _⟩, ha, he⟩ := Option.bind_eq_some_iff.mp he
    obtain ⟨⟨b, _⟩, hb, he⟩ := Option.bind_eq_some_iff.mp he
    obtain ⟨x, hx, hp⟩ := Option.map_eq_some_iff.mp he
    cases hp
    simp [eval, ihl hs.1 ha, ihr hs.2 hb, hx]
  | unaryOp t op e ih | conversion k t e ih | truncation t toType e ih =>
    obtain ⟨⟨a, _⟩, ha, he⟩ := Option.bind_eq_some_iff.mp he
    obtain ⟨x, hx, hp⟩ := Option.map_eq_some_iff.mp he
    cases hp
    simp [eval, ih hs ha, hx]

end Jato.Jit
