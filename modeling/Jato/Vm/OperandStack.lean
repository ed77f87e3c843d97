import Jato.Jit.Interval
import Jato.Lib.StateOption
import Jato.Vm.Bytecode

/-!
# The operand-stack semantics of the virtual machine

What the stack, local variable, arithmetic, conversion and field bytecodes mean, on frames with locals, a heap and an
operand stack of one-slot and two-slot values. A step has no result when the instruction raises an exception or is
applied to values of other types than its own. Floating-point arithmetic, the constant pool, the resolution of fields
and the heap are parameters (`Platform`); integers are two's complement words.
-/

namespace Jato.Vm

open Option

open Jato.Jit (VmType)
open Jato.Lib (runWhile)

variable {F D H Φ : Type}

/-! ## Types and values -/

/-- Byte, char and short are always pushed as ints. -/
def mimicStackType : VmType → VmType
  | .boolean | .byte | .char | .short => .int
  | t => t

def vmTypeIsPair (t : VmType) : Bool := t == .long || t == .double

def vmTypeSlotSize (t : VmType) : Nat := if t = .double ∨ t = .long then 2 else 1

/-- The value of a local variable or of an operand; a reference is an address, and `null` is `0`. -/
inductive Value (F D : Type)
  | int (x : BitVec 32)
  | long (x : BitVec 64)
  | float (x : F)
  | double (x : D)
  | ref (x : BitVec 64)

namespace Value

def vmType : Value F D → VmType
  | int _ => .int
  | long _ => .long
  | float _ => .float
  | double _ => .double
  | ref _ => .reference

/-- Whether the value takes two slots. -/
def isPair : Value F D → Bool
  | long _ | double _ => true
  | _ => false

variable (v : Value F D)

@[simp] theorem vmTypeIsPair_vmType : vmTypeIsPair v.vmType = v.isPair := by cases v <;> rfl

@[simp] theorem vmTypeSlotSize_vmType : vmTypeSlotSize v.vmType = 2 ↔ v.isPair = true := by
  cases v <;> simp [vmTypeSlotSize, vmType, isPair]

@[simp] theorem vmType_pair_iff : (v.vmType = .long ∨ v.vmType = .double) ↔ v.isPair = true := by
  cases v <;> simp [vmType, isPair]

@[simp] theorem mimicStackType_vmType : mimicStackType v.vmType = v.vmType := by cases v <;> rfl

end Value

/-! ## What the code is run on -/

inductive FloatOp
  | add
  | sub
  | mul
  | div
  | rem

/-- Single and double precision arithmetic. A comparison with a NaN has no result; the laws are that a single survives
the way to double and back, and that the small integers are exact in both. -/
structure FloatArith (F D : Type) where
  fop : FloatOp → F → F → F
  dop : FloatOp → D → D → D
  fneg : F → F
  dneg : D → D
  fcompare : F → F → Option Ordering
  dcompare : D → D → Option Ordering
  i2f : BitVec 32 → F
  i2d : BitVec 32 → D
  l2f : BitVec 64 → F
  l2d : BitVec 64 → D
  f2i : F → BitVec 32
  f2l : F → BitVec 64
  f2d : F → D
  d2i : D → BitVec 32
  d2l : D → BitVec 64
  d2f : D → F
  d2f_f2d : ∀ x, d2f (f2d x) = x
  d2f_i2d : ∀ n < 3, d2f (i2d n) = i2f n

/-- The class of the method and the heap. Access to a static field may run the initializer of its class, and so change
the heap; no result is an exception. A field of a small type is read as an int. -/
structure Platform (F D H Φ : Type) extends FloatArith F D where
  constant : Nat → Option (Value F D)
  resolveField : Nat → Option Φ
  fieldType : Φ → VmType
  getStatic : Φ → H → Option (Value F D × H)
  putStatic : Φ → Value F D → H → Option H
  getField : Φ → BitVec 64 → H → Option (Value F D)
  putField : Φ → BitVec 64 → Value F D → H → Option H
  getStatic_vmType : ∀ {φ h v h'}, getStatic φ h = some (v, h') → v.vmType = mimicStackType (fieldType φ)
  getField_vmType : ∀ {φ r h v}, getField φ r h = some v → v.vmType = mimicStackType (fieldType φ)

abbrev Locals (F D : Type) := Nat → Option (Value F D)

/-- Write a local variable. A two-slot value makes the next variable unusable, and a value written over the second slot
of another makes that one unusable. -/
def setLocal (l : Locals F D) (i : Nat) (v : Value F D) : Locals F D := fun k =>
  if k = i then some v
  else if k = i + 1 ∧ v.isPair then none
  else if k + 1 = i ∧ (l k).any Value.isPair then none
  else l k

def getLocal (l : Locals F D) (t : VmType) (i : Nat) : Option (Value F D) := (l i).filter (·.vmType == t)

structure Frame (F D H : Type) where
  pc : Nat
  locals : Locals F D
  heap : H
  stack : List (Value F D)

/-! ## The operand stack -/

/-- An operation on the operand stack; the head of the list is the top. -/
abbrev StackOp (F D : Type) := List (Value F D) → Option (List (Value F D))

def push (v : Value F D) : StackOp F D := fun s => some (v :: s)

def pushInt (x : Int) : StackOp F D := push (.int (BitVec.ofInt 32 x))

def loadConstant (w : Platform F D H Φ) (i : Nat) : StackOp F D := fun s => (w.constant i).map (· :: s)

def unary (f : Value F D → Option (Value F D)) : StackOp F D
  | v :: s => (f v).map (· :: s)
  | _ => none

def binary (f : Value F D → Value F D → Option (Value F D)) : StackOp F D
  | r :: l :: s => (f l r).map (· :: s)
  | _ => none

def pop : StackOp F D
  | v :: s => if v.isPair then none else some s
  | _ => none

def pop2 : StackOp F D
  | v₁ :: s =>
    if v₁.isPair then some s
    else
      match s with
      | v₂ :: s => if v₂.isPair then none else some s
      | _ => none
  | _ => none

def dup : StackOp F D
  | v :: s => if v.isPair then none else some (v :: v :: s)
  | _ => none

def dupX1 : StackOp F D
  | v₁ :: v₂ :: s => if v₁.isPair || v₂.isPair then none else some (v₁ :: v₂ :: v₁ :: s)
  | _ => none

def dupX2 : StackOp F D
  | v₁ :: v₂ :: s =>
    if v₁.isPair then none
    else if v₂.isPair then some (v₁ :: v₂ :: v₁ :: s)
    else
      match s with
      | v₃ :: s => if v₃.isPair then none else some (v₁ :: v₂ :: v₃ :: v₁ :: s)
      | _ => none
  | _ => none

def dup2 : StackOp F D
  | v₁ :: s =>
    if v₁.isPair then some (v₁ :: v₁ :: s)
    else
      match s with
      | v₂ :: s => if v₂.isPair then none else some (v₁ :: v₂ :: v₁ :: v₂ :: s)
      | _ => none
  | _ => none

def dup2X1 : StackOp F D
  | v₁ :: v₂ :: s =>
    if v₂.isPair then none
    else if v₁.isPair then some (v₁ :: v₂ :: v₁ :: s)
    else
      match s with
      | v₃ :: s => if v₃.isPair then none else some (v₁ :: v₂ :: v₃ :: v₁ :: v₂ :: s)
      | _ => none
  | _ => none

def dup2X2 : StackOp F D
  | v₁ :: v₂ :: s =>
    if v₁.isPair then
      if v₂.isPair then some (v₁ :: v₂ :: v₁ :: s)
      else
        match s with
        | v₃ :: s => if v₃.isPair then none else some (v₁ :: v₂ :: v₃ :: v₁ :: s)
        | _ => none
    else if v₂.isPair then none
    else
      match s with
      | v₃ :: s =>
        if v₃.isPair then some (v₁ :: v₂ :: v₃ :: v₁ :: v₂ :: s)
        else
          match s with
          | v₄ :: s => if v₄.isPair then none else some (v₁ :: v₂ :: v₃ :: v₄ :: v₁ :: v₂ :: s)
          | _ => none
      | _ => none
  | _ => none

def swap : StackOp F D
  | v₁ :: v₂ :: s => if v₁.isPair || v₂.isPair then none else some (v₂ :: v₁ :: s)
  | _ => none

/-! ## Arithmetic and conversions -/

def intOf : Value F D → Option (BitVec 32)
  | .int a => some a
  | _ => none

def longOf : Value F D → Option (BitVec 64)
  | .long a => some a
  | _ => none

def floatOf : Value F D → Option F
  | .float a => some a
  | _ => none

def doubleOf : Value F D → Option D
  | .double a => some a
  | _ => none

/-- Apply `f` to an operand of the type that `p` selects. -/
def on₁ {α : Type} (p : Value F D → Option α) (f : α → Value F D) (v : Value F D) : Option (Value F D) := (p v).map f

/-- Apply `f` to operands of the types that `p` and `q` select. -/
def on₂ {α β : Type} (p : Value F D → Option α) (q : Value F D → Option β) (f : α → β → Option (Value F D))
    (l r : Value F D) : Option (Value F D) :=
  (p l).bind fun a => (q r).bind (f a)

def intOp (f : BitVec 32 → BitVec 32 → BitVec 32) : Value F D → Value F D → Option (Value F D) :=
  on₂ intOf intOf fun a b => some (.int (f a b))

def longOp (f : BitVec 64 → BitVec 64 → BitVec 64) : Value F D → Value F D → Option (Value F D) :=
  on₂ longOf longOf fun a b => some (.long (f a b))

/-- Division and remainder raise an exception when the divisor is zero. -/
def intDiv (f : BitVec 32 → BitVec 32 → BitVec 32) : Value F D → Value F D → Option (Value F D) :=
  on₂ intOf intOf fun a b => if b = 0 then none else some (.int (f a b))

def longDiv (f : BitVec 64 → BitVec 64 → BitVec 64) : Value F D → Value F D → Option (Value F D) :=
  on₂ longOf longOf fun a b => if b = 0 then none else some (.long (f a b))

/-- The low five bits of the second operand are the distance. -/
def intShift (f : BitVec 32 → Nat → BitVec 32) : Value F D → Value F D → Option (Value F D) :=
  on₂ intOf intOf fun a b => some (.int (f a (b.toNat % 32)))

/-- The low six bits of the second operand, an int, are the distance. -/
def longShift (f : BitVec 64 → Nat → BitVec 64) : Value F D → Value F D → Option (Value F D) :=
  on₂ longOf intOf fun a b => some (.long (f a (b.toNat % 64)))

def floatOp (A : FloatArith F D) (op : FloatOp) : Value F D → Value F D → Option (Value F D) :=
  on₂ floatOf floatOf fun a b => some (.float (A.fop op a b))

def doubleOp (A : FloatArith F D) (op : FloatOp) : Value F D → Value F D → Option (Value F D) :=
  on₂ doubleOf doubleOf fun a b => some (.double (A.dop op a b))

def orderingValue : Ordering → BitVec 32
  | .lt => -1
  | .eq => 0
  | .gt => 1

def lcmp : Value F D → Value F D → Option (Value F D) :=
  on₂ longOf longOf fun a b => some (.int (orderingValue (compare a.toInt b.toInt)))

/-- The comparison of floating-point values; `nan` is the result for a NaN. -/
def fcmp (A : FloatArith F D) (nan : BitVec 32) : Value F D → Value F D → Option (Value F D) :=
  on₂ floatOf floatOf fun a b => some (.int (((A.fcompare a b).map orderingValue).getD nan))

def dcmp (A : FloatArith F D) (nan : BitVec 32) : Value F D → Value F D → Option (Value F D) :=
  on₂ doubleOf doubleOf fun a b => some (.int (((A.dcompare a b).map orderingValue).getD nan))

/-! ## Instructions -/

inductive Insn (F D : Type)
  | stack (f : StackOp F D)
  | load (t : VmType) (i : Nat)
  | store (t : VmType) (i : Nat)
  | iinc (i : Nat) (c : BitVec 32)
  | getstatic (i : Nat)
  | putstatic (i : Nat)
  | getfield (i : Nat)
  | putfield (i : Nat)

def exec (w : Platform F D H Φ) : Insn F D → Frame F D H → Option (Frame F D H)
  | .stack f, fr => (f fr.stack).map fun s => { fr with stack := s }
  | .load t i, fr => (getLocal fr.locals t i).map fun v => { fr with stack := v :: fr.stack }
  | .store t i, fr =>
    match fr.stack with
    | v :: s => if v.vmType = t then some { fr with locals := setLocal fr.locals i v, stack := s } else none
    | [] => none
  | .iinc i c, fr =>
    match getLocal fr.locals .int i with
    | some (.int x) => some { fr with locals := setLocal fr.locals i (.int (x + c)) }
    | _ => none
  | .getstatic i, fr => do
    let φ ← w.resolveField i
    let (v, h) ← w.getStatic φ fr.heap
    some { fr with heap := h, stack := v :: fr.stack }
  | .putstatic i, fr =>
    match fr.stack with
    | v :: s => do
      let φ ← w.resolveField i
      let h ← w.putStatic φ v fr.heap
      some { fr with heap := h, stack := s }
    | [] => none
  | .getfield i, fr =>
    match fr.stack with
    | .ref r :: s =>
      if r = 0 then none
      else do
        let φ ← w.resolveField i
        let v ← w.getField φ r fr.heap
        some { fr with stack := v :: s }
    | _ => none
  | .putfield i, fr =>
    match fr.stack with
    | v :: .ref r :: s =>
      if r = 0 then none
      else do
        let φ ← w.resolveField i
        let h ← w.putField φ r v fr.heap
        some { fr with heap := h, stack := s }
    | _ => none

/-! ## Decoding -/

/-- How an instruction is read: the number of operand bytes, and the instruction they make. -/
structure Form (F D : Type) where
  size : Nat
  insn : List UInt8 → Nat → Insn F D

/-- The forms of an opcode by itself and after `wide`. -/
structure Decoder (F D : Type) where
  narrow : Form F D
  wide : Option (Form F D)

def plain (i : Insn F D) : Decoder F D := ⟨⟨0, fun _ _ => i⟩, none⟩

def operands (size : Nat) (insn : List UInt8 → Nat → Insn F D) : Decoder F D := ⟨⟨size, insn⟩, none⟩

/-- A local variable index in one byte, or two after `wide`. -/
def indexed (insn : Nat → Insn F D) : Decoder F D :=
  ⟨⟨1, fun code p => insn (readU8 code p)⟩, some ⟨2, fun code p => insn (readU16 code p)⟩⟩

def iincDecoder : Decoder F D :=
  ⟨⟨2, fun code p => .iinc (readU8 code p) (BitVec.ofInt 32 (readS8 code (p + 1)))⟩,
    some ⟨4, fun code p => .iinc (readU16 code p) (BitVec.ofInt 32 (readS16 code (p + 2)))⟩⟩

/-- The four opcodes from `base` on that have a local variable index in the opcode. -/
def nForms (base : Nat) (insn : Nat → Insn F D) : List (Nat × Decoder F D) :=
  [(base, plain (insn 0)), (base + 1, plain (insn 1)), (base + 2, plain (insn 2)), (base + 3, plain (insn 3))]

variable (w : Platform F D H Φ)

/-- The constants `x` that are part of an opcode. -/
def iconst (x : Int) : Decoder F D := plain (.stack (pushInt x))

def lconst (x : Int) : Decoder F D := plain (.stack (push (.long (BitVec.ofInt 64 x))))

def fconst (x : Int) : Decoder F D := plain (.stack (push (.float (w.i2f (BitVec.ofInt 32 x)))))

def dconst (x : Int) : Decoder F D := plain (.stack (push (.double (w.i2d (BitVec.ofInt 32 x)))))

def constantRows : List (Nat × Decoder F D) :=
  [(opcNop, plain (.stack some)), (opcAconstNull, plain (.stack (push (.ref 0)))), (opcIconstM1, iconst (-1)),
   (opcIconst0, iconst 0), (opcIconst1, iconst 1), (opcIconst2, iconst 2), (opcIconst3, iconst 3),
   (opcIconst4, iconst 4), (opcIconst5, iconst 5), (opcLconst0, lconst 0), (opcLconst1, lconst 1),
   (opcFconst0, fconst w 0), (opcFconst1, fconst w 1), (opcFconst2, fconst w 2), (opcDconst0, dconst w 0),
   (opcDconst1, dconst w 1),
   (opcBipush, operands 1 fun code p => .stack (pushInt (readS8 code p))),
   (opcSipush, operands 2 fun code p => .stack (pushInt (readS16 code p))),
   (opcLdc, operands 1 fun code p => .stack (loadConstant w (readU8 code p))),
   (opcLdcW, operands 2 fun code p => .stack (loadConstant w (readU16 code p))),
   (opcLdc2W, operands 2 fun code p => .stack (loadConstant w (readU16 code p)))]

def loadRows : List (Nat × Decoder F D) :=
  [(opcIload, indexed (.load .int)), (opcLload, indexed (.load .long)), (opcFload, indexed (.load .float)),
   (opcDload, indexed (.load .double)), (opcAload, indexed (.load .reference))] ++
  nForms opcIload0 (.load .int) ++ nForms opcLload0 (.load .long) ++ nForms opcFload0 (.load .float) ++
  nForms opcDload0 (.load .double) ++ nForms opcAload0 (.load .reference)

def storeRows : List (Nat × Decoder F D) :=
  [(opcIstore, indexed (.store .int)), (opcLstore, indexed (.store .long)), (opcFstore, indexed (.store .float)),
   (opcDstore, indexed (.store .double)), (opcAstore, indexed (.store .reference)), (opcIinc, iincDecoder)] ++
  nForms opcIstore0 (.store .int) ++ nForms opcLstore0 (.store .long) ++ nForms opcFstore0 (.store .float) ++
  nForms opcDstore0 (.store .double) ++ nForms opcAstore0 (.store .reference)

def ostackRows : List (Nat × Decoder F D) :=
  [(opcPop, plain (.stack pop)), (opcPop2, plain (.stack pop2)), (opcDup, plain (.stack dup)),
   (opcDupX1, plain (.stack dupX1)), (opcDupX2, plain (.stack dupX2)), (opcDup2, plain (.stack dup2)),
   (opcDup2X1, plain (.stack dup2X1)), (opcDup2X2, plain (.stack dup2X2)), (opcSwap, plain (.stack swap))]

def binaryOf (f : Value F D → Value F D → Option (Value F D)) : Decoder F D := plain (.stack (binary f))

def unaryOf (f : Value F D → Option (Value F D)) : Decoder F D := plain (.stack (unary f))

def arithmeticRows : List (Nat × Decoder F D) :=
  [(opcIadd, binaryOf (intOp (· + ·))), (opcLadd, binaryOf (longOp (· + ·))),
   (opcFadd, binaryOf (floatOp w.toFloatArith .add)), (opcDadd, binaryOf (doubleOp w.toFloatArith .add)),
   (opcIsub, binaryOf (intOp (· - ·))), (opcLsub, binaryOf (longOp (· - ·))),
   (opcFsub, binaryOf (floatOp w.toFloatArith .sub)), (opcDsub, binaryOf (doubleOp w.toFloatArith .sub)),
   (opcImul, binaryOf (intOp (· * ·))), (opcLmul, binaryOf (longOp (· * ·))),
   (opcFmul, binaryOf (floatOp w.toFloatArith .mul)), (opcDmul, binaryOf (doubleOp w.toFloatArith .mul)),
   (opcIdiv, binaryOf (intDiv BitVec.sdiv)), (opcLdiv, binaryOf (longDiv BitVec.sdiv)),
   (opcFdiv, binaryOf (floatOp w.toFloatArith .div)), (opcDdiv, binaryOf (doubleOp w.toFloatArith .div)),
   (opcIrem, binaryOf (intDiv BitVec.srem)), (opcLrem, binaryOf (longDiv BitVec.srem)),
   (opcFrem, binaryOf (floatOp w.toFloatArith .rem)), (opcDrem, binaryOf (doubleOp w.toFloatArith .rem)),
   (opcIneg, unaryOf (on₁ intOf fun a => .int (-a))), (opcLneg, unaryOf (on₁ longOf fun a => .long (-a))),
   (opcFneg, unaryOf (on₁ floatOf fun a => .float (w.fneg a))), (opcDneg, unaryOf (on₁ doubleOf fun a => .double (w.dneg a))),
   (opcIshl, binaryOf (intShift (· <<< ·))), (opcLshl, binaryOf (longShift (· <<< ·))),
   (opcIshr, binaryOf (intShift BitVec.sshiftRight)), (opcLshr, binaryOf (longShift BitVec.sshiftRight)),
   (opcIushr, binaryOf (intShift (· >>> ·))), (opcLushr, binaryOf (longShift (· >>> ·))),
   (opcIand, binaryOf (intOp (· &&& ·))), (opcLand, binaryOf (longOp (· &&& ·))),
   (opcIor, binaryOf (intOp (· ||| ·))), (opcLor, binaryOf (longOp (· ||| ·))),
   (opcIxor, binaryOf (intOp (· ^^^ ·))), (opcLxor, binaryOf (longOp (· ^^^ ·))),
   (opcLcmp, binaryOf lcmp), (opcFcmpl, binaryOf (fcmp w.toFloatArith (-1))),
   (opcFcmpg, binaryOf (fcmp w.toFloatArith 1)), (opcDcmpl, binaryOf (dcmp w.toFloatArith (-1))),
   (opcDcmpg, binaryOf (dcmp w.toFloatArith 1))]

def conversionRows : List (Nat × Decoder F D) :=
  [(opcI2l, unaryOf (on₁ intOf fun a => .long (a.signExtend 64))), (opcI2f, unaryOf (on₁ intOf fun a => .float (w.i2f a))),
   (opcI2d, unaryOf (on₁ intOf fun a => .double (w.i2d a))), (opcL2i, unaryOf (on₁ longOf fun a => .int (a.setWidth 32))),
   (opcL2f, unaryOf (on₁ longOf fun a => .float (w.l2f a))), (opcL2d, unaryOf (on₁ longOf fun a => .double (w.l2d a))),
   (opcF2i, unaryOf (on₁ floatOf fun a => .int (w.f2i a))), (opcF2l, unaryOf (on₁ floatOf fun a => .long (w.f2l a))),
   (opcF2d, unaryOf (on₁ floatOf fun a => .double (w.f2d a))), (opcD2i, unaryOf (on₁ doubleOf fun a => .int (w.d2i a))),
   (opcD2l, unaryOf (on₁ doubleOf fun a => .long (w.d2l a))), (opcD2f, unaryOf (on₁ doubleOf fun a => .float (w.d2f a))),
   (opcI2b, unaryOf (on₁ intOf fun a => .int ((a.setWidth 8).signExtend 32))),
   (opcI2c, unaryOf (on₁ intOf fun a => .int ((a.setWidth 16).setWidth 32))),
   (opcI2s, unaryOf (on₁ intOf fun a => .int ((a.setWidth 16).signExtend 32)))]

def fieldRows : List (Nat × Decoder F D) :=
  [(opcGetstatic, operands 2 fun code p => .getstatic (readU16 code p)),
   (opcPutstatic, operands 2 fun code p => .putstatic (readU16 code p)),
   (opcGetfield, operands 2 fun code p => .getfield (readU16 code p)),
   (opcPutfield, operands 2 fun code p => .putfield (readU16 code p))]

/-- The bytecodes of the semantics. -/
def decoderRows : List (Nat × Decoder F D) :=
  constantRows w ++ loadRows ++ storeRows ++ ostackRows ++ arithmeticRows w ++ conversionRows w ++ fieldRows

def decoder (opc : Nat) : Option (Decoder F D) := ((decoderRows w).find? (·.1 == opc)).map (·.2)

/-- The instruction at `pc` and the position after it. -/
def fetch (code : List UInt8) (pc : Nat) : Option (Insn F D × Nat) :=
  if readU8 code pc = opcWide then do
    let d ← decoder w (readU8 code (pc + 1))
    let form ← d.wide
    some (form.insn code (pc + 2), pc + 2 + form.size)
  else do
    let d ← decoder w (readU8 code pc)
    some (d.narrow.insn code (pc + 1), pc + 1 + d.narrow.size)

/-- Execute the instruction at the program counter. -/
def step (code : List UInt8) (fr : Frame F D H) : Option (Frame F D H) := do
  let (insn, next) ← fetch w code fr.pc
  exec w insn { fr with pc := next }

/-- Run a basic block that ends at `stop`, in at most `n` steps. -/
def runBlock (code : List UInt8) (stop n : Nat) (fr : Frame F D H) : Option (Frame F D H) :=
  runWhile (fun fr => fr.pc < stop) (step w code) n fr

variable {w}

theorem decoder_mem {opc : Nat} {d : Decoder F D} (h : decoder w opc = some d) : (opc, d) ∈ decoderRows w := by
  obtain ⟨⟨k, e⟩, hfind, rfl⟩ := map_eq_some_iff.mp h
  obtain rfl : k = opc := by simpa using List.find?_some hfind
  exact List.mem_of_find?_eq_some hfind

variable {fr' fr : Frame F D H} {insn : Insn F D} {code : List UInt8}

theorem exec_pc (h : exec w insn fr = some fr') : fr'.pc = fr.pc := by
  cases insn with
  | stack | load =>
    obtain ⟨_, _, rfl⟩ := map_eq_some_iff.mp h
    rfl
  | store =>
    simp only [exec] at h
    split at h
    · split at h <;> cases h
      rfl
    · cases h
  | iinc =>
    simp only [exec] at h
    split at h <;> cases h
    rfl
  | getstatic =>
    obtain ⟨_, _, h⟩ := bind_eq_some_iff.mp h
    obtain ⟨_, _, h⟩ := bind_eq_some_iff.mp h
    cases h
    rfl
  | putstatic =>
    simp only [exec] at h
    split at h
    · obtain ⟨_, _, h⟩ := bind_eq_some_iff.mp h
      obtain ⟨_, _, h⟩ := bind_eq_some_iff.mp h
      cases h
      rfl
    · cases h
  | getfield | putfield =>
    simp only [exec] at h
    split at h
    · split at h
      · cases h
      · obtain ⟨_, _, h⟩ := bind_eq_some_iff.mp h
        obtain ⟨_, _, h⟩ := bind_eq_some_iff.mp h
        cases h
        rfl
    · cases h

theorem fetch_lt {pc next : Nat} (h : fetch w code pc = some (insn, next)) : pc < next := by
  unfold fetch at h
  split at h
  · obtain ⟨_, _, h⟩ := bind_eq_some_iff.mp h
    obtain ⟨_, _, h⟩ := bind_eq_some_iff.mp h
    cases h
    omega
  · obtain ⟨_, _, h⟩ := bind_eq_some_iff.mp h
    cases h
    omega

/-- Every step moves on, so a block takes no more steps than it has bytes. -/
theorem step_lt (h : step w code fr = some fr') : fr.pc < fr'.pc := by
  obtain ⟨⟨insn, next⟩, hfetch, hexec⟩ := bind_eq_some_iff.mp h
  rw [exec_pc hexec]
  exact fetch_lt hfetch

end Jato.Vm
