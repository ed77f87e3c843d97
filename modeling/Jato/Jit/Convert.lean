import Jato.Jit.Expression

/-!
# From bytecode to trees

`jit/bytecode-to-ir.c` and the converters of `jit/load-store-bc.c`, `jit/ostack-bc.c`, `jit/arithmetic-bc.c`,
`jit/typeconv-bc.c`, `jit/object-bc.c` and `jit/wide-bc.c` for the stack, local variable, arithmetic, conversion and
field bytecodes. The operands of the block are expressions on the mimic stack, and a converter that must fix the value
of an expression stores it in a temporary. A converter fails on an empty stack, a failed assertion or a failed lookup.
-/

namespace Jato.Jit

open Jato.Vm
open Jato.Lib (runWhile)

variable {F D H Φ : Type}

/-! ## The parse context -/

/-- `struct parse_context` with the parts of the basic block and the compilation unit that the converters use:
`nextVar` is the number of the next variable of `get_var`, and `is32Bit` is `CONFIG_32_BIT`. -/
structure ParseContext (D Φ : Type) where
  code : List UInt8
  pos : Nat
  opc : Nat
  isWide : Bool
  mimicStack : List (Expr D Φ)
  stmtList : List (Statement D Φ)
  nextVar : Nat
  is32Bit : Bool

abbrev Convert (D Φ : Type) := StateT (ParseContext D Φ) Option

def bytecodeReadU8 : Convert D Φ Nat := fun ctx =>
  some (readU8 ctx.code ctx.pos, { ctx with pos := ctx.pos + 1 })

def bytecodeReadS8 : Convert D Φ Int := fun ctx =>
  some (readS8 ctx.code ctx.pos, { ctx with pos := ctx.pos + 1 })

def bytecodeReadU16 : Convert D Φ Nat := fun ctx =>
  some (readU16 ctx.code ctx.pos, { ctx with pos := ctx.pos + 2 })

def bytecodeReadS16 : Convert D Φ Int := fun ctx =>
  some (readS16 ctx.code ctx.pos, { ctx with pos := ctx.pos + 2 })

def stackPop : Convert D Φ (Expr D Φ) := fun ctx =>
  match ctx.mimicStack with
  | e :: s => some (e, { ctx with mimicStack := s })
  | [] => none

def stackPeek : Convert D Φ (Expr D Φ) := fun ctx =>
  match ctx.mimicStack with
  | e :: _ => some (e, ctx)
  | [] => none

/-- Push an expression. The type is patched in place, which a store to the same temporary does not look at. -/
def convertExpression (e : Expr D Φ) : Convert D Φ Unit := fun ctx =>
  some ((), { ctx with mimicStack := e.setVmType (mimicStackType e.vmType) :: ctx.mimicStack })

def convertStatement (stmt : Statement D Φ) : Convert D Φ Unit := fun ctx =>
  some ((), { ctx with stmtList := ctx.stmtList ++ [stmt] })

/-- A new temporary; a long takes two variables on a 32-bit machine, the low half first. -/
def temporaryExpr (vmType : VmType) : Convert D Φ (Expr D Φ) := fun ctx =>
  if vmType = .long ∧ ctx.is32Bit then
    some (.temporary vmType ctx.nextVar (some (ctx.nextVar + 1)), { ctx with nextVar := ctx.nextVar + 2 })
  else some (.temporary vmType ctx.nextVar none, { ctx with nextVar := ctx.nextVar + 1 })

/-- Another reference to an expression, which has to be pure. -/
def exprGet (e : Expr D Φ) : Convert D Φ (Expr D Φ) := fun ctx => if e.isPure then some (e, ctx) else none

def dupExpr (e : Expr D Φ) : Convert D Φ (Expr D Φ) := do
  let dest ← temporaryExpr e.vmType
  convertStatement (.store dest e)
  return dest

def getPureExpr (e : Expr D Φ) : Convert D Φ (Expr D Φ) := if e.isPure then return e else dupExpr e

/-! ## Operand stack -/

def convertNop : Convert D Φ Unit := return ()

def convertPop : Convert D Φ Unit := do
  let _ ← stackPop
  return ()

def convertPop2 : Convert D Φ Unit := do
  let e ← stackPop
  if vmTypeIsPair e.vmType then return ()
  else
    let another ← stackPeek
    if vmTypeIsPair another.vmType then return ()
    else convertPop

/-- `convert_expression` for each of the expressions, from the bottom of the stack up. -/
def convertExpressions : List (Expr D Φ) → Convert D Φ Unit
  | [] => return ()
  | e :: es => do
    convertExpression e
    convertExpressions es

/-- The common part of `dup`, `dup_x1` and `dup_x2`: push the value, those that it goes under, and a copy. -/
def dupUnder (under : List (Expr D Φ)) (value1 : Expr D Φ) : Convert D Φ Unit := do
  let dup ← getPureExpr value1
  convertExpression dup
  convertExpressions under
  let copy ← dupExpr (← exprGet dup)
  convertExpression copy

/-- The common part of `dup2`, `dup2_x1` and `dup2_x2`. -/
def dup2Under (under : List (Expr D Φ)) (value1 value2 : Expr D Φ) : Convert D Φ Unit := do
  let dup ← getPureExpr value1
  let dup2 ← getPureExpr value2
  convertExpression dup2
  convertExpression dup
  convertExpressions under
  let copy2 ← dupExpr (← exprGet dup2)
  convertExpression copy2
  let copy ← dupExpr (← exprGet dup)
  convertExpression copy

def doConvertDup (value : Expr D Φ) : Convert D Φ Unit := dupUnder [] value

def doConvertDupX1 (value1 value2 : Expr D Φ) : Convert D Φ Unit := dupUnder [value2] value1

def doConvertDupX2 (value1 value2 value3 : Expr D Φ) : Convert D Φ Unit := dupUnder [value3, value2] value1

def doConvertDup2 (value1 value2 : Expr D Φ) : Convert D Φ Unit := dup2Under [] value1 value2

def doConvertDup2X1 (value1 value2 value3 : Expr D Φ) : Convert D Φ Unit := dup2Under [value3] value1 value2

def doConvertDup2X2 (value1 value2 value3 value4 : Expr D Φ) : Convert D Φ Unit :=
  dup2Under [value4, value3] value1 value2

def convertDup : Convert D Φ Unit := do
  let value ← stackPop
  doConvertDup value

def convertDupX1 : Convert D Φ Unit := do
  let value1 ← stackPop
  let value2 ← stackPop
  doConvertDupX1 value1 value2

def convertDupX2 : Convert D Φ Unit := do
  let value1 ← stackPop
  let value2 ← stackPop
  if vmTypeSlotSize value2.vmType = 2 then doConvertDupX1 value1 value2
  else
    let value3 ← stackPop
    doConvertDupX2 value1 value2 value3

def convertDup2 : Convert D Φ Unit := do
  let value ← stackPop
  if value.vmType = .long ∨ value.vmType = .double then doConvertDup value
  else
    let value2 ← stackPop
    doConvertDup2 value value2

def convertDup2X1 : Convert D Φ Unit := do
  let value1 ← stackPop
  let value2 ← stackPop
  if value1.vmType = .long ∨ value1.vmType = .double then doConvertDupX1 value1 value2
  else
    let value3 ← stackPop
    doConvertDup2X1 value1 value2 value3

def convertDup2X2 : Convert D Φ Unit := do
  let value1 ← stackPop
  let value2 ← stackPop
  if value1.vmType = .long ∨ value1.vmType = .double then
    if value2.vmType = .long ∨ value2.vmType = .double then doConvertDupX1 value1 value2
    else
      let value3 ← stackPop
      doConvertDupX2 value1 value2 value3
  else
    let value3 ← stackPop
    if value3.vmType = .long ∨ value3.vmType = .double then doConvertDup2X1 value1 value2 value3
    else
      let value4 ← stackPop
      doConvertDup2X2 value1 value2 value3 value4

def convertSwap : Convert D Φ Unit := do
  let v1 ← stackPop
  let v2 ← stackPop
  convertExpression v1
  convertExpression v2

/-! ## Constants and local variables -/

def getOpc : Convert D Φ Nat := fun ctx => some (ctx.opc, ctx)

def doConvertConst (value : BitVec 64) (vmType : VmType) : Convert D Φ Unit := convertExpression (.value vmType value)

def convertAconstNull : Convert D Φ Unit := doConvertConst 0 .reference

def convertIconstN : Convert D Φ Unit := do
  let opc ← getOpc
  doConvertConst (BitVec.ofInt 64 (opc - opcIconst0)) .int

def convertLconstN : Convert D Φ Unit := do
  let opc ← getOpc
  doConvertConst (BitVec.ofInt 64 (opc - opcLconst0)) .long

def convertBipush : Convert D Φ Unit := do
  let value ← bytecodeReadS8
  doConvertConst (BitVec.ofInt 64 value) .int

def convertSipush : Convert D Φ Unit := do
  let value ← bytecodeReadS16
  doConvertConst (BitVec.ofInt 64 value) .int

def doConvertFconst (value : D) (vmType : VmType) : Convert D Φ Unit := convertExpression (.fvalue vmType value)

def convertLoad (index : Nat) (type : VmType) : Convert D Φ Unit := do
  let dup ← dupExpr (.localVar type index)
  convertExpression dup

def convertStore (index : Nat) (type : VmType) : Convert D Φ Unit := do
  let src ← stackPop
  convertStatement (.store (.localVar type index) src)

def readIndex : Convert D Φ Nat := fun ctx => if ctx.isWide then bytecodeReadU16 ctx else bytecodeReadU8 ctx

/-- The load with its index in the operands, and the one with its index in the opcode. -/
def convertLoadIndex (type : VmType) : Convert D Φ Unit := do
  let idx ← readIndex
  convertLoad idx type

def convertLoadN (base : Nat) (type : VmType) : Convert D Φ Unit := do
  let opc ← getOpc
  convertLoad (opc - base) type

def convertStoreIndex (type : VmType) : Convert D Φ Unit := do
  let idx ← readIndex
  convertStore idx type

def convertStoreN (base : Nat) (type : VmType) : Convert D Φ Unit := do
  let opc ← getOpc
  convertStore (opc - base) type

def convertIload : Convert D Φ Unit := convertLoadIndex .int

def convertLload : Convert D Φ Unit := convertLoadIndex .long

def convertFload : Convert D Φ Unit := convertLoadIndex .float

def convertDload : Convert D Φ Unit := convertLoadIndex .double

def convertAload : Convert D Φ Unit := convertLoadIndex .reference

def convertIloadN : Convert D Φ Unit := convertLoadN opcIload0 .int

def convertLloadN : Convert D Φ Unit := convertLoadN opcLload0 .long

def convertFloadN : Convert D Φ Unit := convertLoadN opcFload0 .float

def convertDloadN : Convert D Φ Unit := convertLoadN opcDload0 .double

def convertAloadN : Convert D Φ Unit := convertLoadN opcAload0 .reference

def convertIstore : Convert D Φ Unit := convertStoreIndex .int

def convertLstore : Convert D Φ Unit := convertStoreIndex .long

def convertFstore : Convert D Φ Unit := convertStoreIndex .float

def convertDstore : Convert D Φ Unit := convertStoreIndex .double

def convertAstore : Convert D Φ Unit := convertStoreIndex .reference

def convertIstoreN : Convert D Φ Unit := convertStoreN opcIstore0 .int

def convertLstoreN : Convert D Φ Unit := convertStoreN opcLstore0 .long

def convertFstoreN : Convert D Φ Unit := convertStoreN opcFstore0 .float

def convertDstoreN : Convert D Φ Unit := convertStoreN opcDstore0 .double

def convertAstoreN : Convert D Φ Unit := convertStoreN opcAstore0 .reference

/-! ## Arithmetic -/

def convertBinop (vmType : VmType) (op : BinaryOperator) : Convert D Φ Unit := do
  let right ← stackPop
  let left ← stackPop
  convertExpression (.binop vmType op left right)

def convertUnaryOp (vmType : VmType) (op : UnaryOperator) : Convert D Φ Unit := do
  let expression ← stackPop
  convertExpression (.unaryOp vmType op expression)

def convertIadd : Convert D Φ Unit := convertBinop .int .add

def convertLadd : Convert D Φ Unit := convertBinop .long .add

def convertFadd : Convert D Φ Unit := convertBinop .float .fadd

def convertDadd : Convert D Φ Unit := convertBinop .double .dadd

def convertIsub : Convert D Φ Unit := convertBinop .int .sub

def convertLsub : Convert D Φ Unit := convertBinop .long .sub

def convertFsub : Convert D Φ Unit := convertBinop .float .fsub

def convertDsub : Convert D Φ Unit := convertBinop .double .dsub

def convertImul : Convert D Φ Unit := convertBinop .int .mul

def convertLmul : Convert D Φ Unit := convertBinop .long .mul64

def convertFmul : Convert D Φ Unit := convertBinop .float .fmul

def convertDmul : Convert D Φ Unit := convertBinop .double .dmul

def convertIdiv : Convert D Φ Unit := convertBinop .int .div

def convertLdiv : Convert D Φ Unit := convertBinop .long .div64

def convertFdiv : Convert D Φ Unit := convertBinop .float .fdiv

def convertDdiv : Convert D Φ Unit := convertBinop .double .ddiv

def convertIrem : Convert D Φ Unit := convertBinop .int .rem

def convertLrem : Convert D Φ Unit := convertBinop .long .rem64

def convertFrem : Convert D Φ Unit := convertBinop .float .frem

def convertDrem : Convert D Φ Unit := convertBinop .double .drem

def convertIneg : Convert D Φ Unit := convertUnaryOp .int .neg

def convertLneg : Convert D Φ Unit := convertUnaryOp .long .neg

def convertFneg : Convert D Φ Unit := convertUnaryOp .float .fneg

def convertDneg : Convert D Φ Unit := convertUnaryOp .double .dneg

def convertIshl : Convert D Φ Unit := convertBinop .int .shl

def convertLshl : Convert D Φ Unit := convertBinop .long .shl64

def convertIshr : Convert D Φ Unit := convertBinop .int .shr

def convertLshr : Convert D Φ Unit := convertBinop .long .shr64

def convertIushr : Convert D Φ Unit := convertBinop .int .ushr

def convertLushr : Convert D Φ Unit := convertBinop .long .ushr64

def convertIand : Convert D Φ Unit := convertBinop .int .and

def convertLand : Convert D Φ Unit := convertBinop .long .and

def convertIor : Convert D Φ Unit := convertBinop .int .or

def convertLor : Convert D Φ Unit := convertBinop .long .or

def convertIxor : Convert D Φ Unit := convertBinop .int .xor

def convertLxor : Convert D Φ Unit := convertBinop .long .xor

def convertLcmp : Convert D Φ Unit := convertBinop .int .cmp

def convertXcmpl : Convert D Φ Unit := convertBinop .int .cmpl

def convertXcmpg : Convert D Φ Unit := convertBinop .int .cmpg

/-- The index and the constant of `iinc`, in twice the bytes after `wide`. -/
def readIinc : Convert D Φ (Nat × Int) := fun ctx =>
  if ctx.isWide then
    some ((readU16 ctx.code ctx.pos, readS16 ctx.code (ctx.pos + 2)), { ctx with pos := ctx.pos + 4 })
  else some ((readU8 ctx.code ctx.pos, readS8 ctx.code (ctx.pos + 1)), { ctx with pos := ctx.pos + 2 })

def convertIinc : Convert D Φ Unit := do
  let (index, const) ← readIinc
  let local_ := .localVar .int index
  convertStatement (.store local_ (.binop .int .add local_ (.value .int (BitVec.ofInt 64 const))))

/-! ## Conversions -/

/-- The expression type of a conversion between two types. -/
def conversionType (fromType toType : VmType) : ConversionType :=
  if fromType = .double ∧ toType = .float then .doubleToFloat
  else if fromType = .float ∧ toType = .double then .floatToDouble
  else if toType = .float then .toFloat
  else if fromType = .float then .fromFloat
  else if toType = .double then .toDouble
  else if fromType = .double then .fromDouble
  else .conversion

def convertConversion (toType : VmType) : Convert D Φ Unit := do
  let e ← stackPop
  convertExpression (.conversion (conversionType e.vmType toType) toType e)

def convertTruncation (toType : VmType) : Convert D Φ Unit := do
  let e ← stackPop
  if e.vmType = .int then convertExpression (truncationExpr toType e) else failure

def convertI2l : Convert D Φ Unit := convertConversion .long

def convertI2f : Convert D Φ Unit := convertConversion .float

def convertI2d : Convert D Φ Unit := convertConversion .double

def convertL2i : Convert D Φ Unit := convertConversion .int

def convertL2f : Convert D Φ Unit := convertConversion .float

def convertL2d : Convert D Φ Unit := convertConversion .double

def convertF2i : Convert D Φ Unit := convertConversion .int

def convertF2l : Convert D Φ Unit := convertConversion .long

def convertF2d : Convert D Φ Unit := convertConversion .double

def convertD2i : Convert D Φ Unit := convertConversion .int

def convertD2l : Convert D Φ Unit := convertConversion .long

def convertD2f : Convert D Φ Unit := convertConversion .float

def convertI2b : Convert D Φ Unit := convertTruncation .byte

def convertI2c : Convert D Φ Unit := convertTruncation .char

def convertI2s : Convert D Φ Unit := convertTruncation .short

/-! ## Constants of the pool, and fields -/

section Resolved

variable (w : Platform F D H Φ)

def convertFconstN : Convert D Φ Unit := do
  let opc ← getOpc
  doConvertFconst (w.i2d (BitVec.ofInt 32 (opc - opcFconst0))) .float

def convertDconstN : Convert D Φ Unit := do
  let opc ← getOpc
  doConvertFconst (w.i2d (BitVec.ofInt 32 (opc - opcDconst0))) .double

/-- The expression for a constant: an integer is sign-extended, a single is held as a double. -/
def constantExpr : Value F D → Expr D Φ
  | .int x => .value .int (x.signExtend 64)
  | .long x => .value .long x
  | .float x => .fvalue .float (w.f2d x)
  | .double x => .fvalue .double x
  | .ref x => .value .reference x

def doConvertLdc (cpIdx : Nat) : Convert D Φ Unit :=
  match w.constant cpIdx with
  | some c => convertExpression (constantExpr w c)
  | none => failure

def convertLdc : Convert D Φ Unit := do
  let idx ← bytecodeReadU8
  doConvertLdc w idx

def convertLdcW : Convert D Φ Unit := do
  let idx ← bytecodeReadU16
  doConvertLdc w idx

def convertLdc2W : Convert D Φ Unit := do
  let idx ← bytecodeReadU16
  doConvertLdc w idx

def lookupField : Convert D Φ Φ := do
  let index ← bytecodeReadU16
  match w.resolveField index with
  | some fb => return fb
  | none => failure

/-- `null_check_expr`, which is for references only. -/
def nullCheckExpr (ref : Expr D Φ) : Convert D Φ (Expr D Φ) :=
  if ref.vmType = .reference then return .nullCheck .reference ref else failure

def convertGetstatic : Convert D Φ Unit := do
  let fb ← lookupField w
  let dup ← dupExpr (.classField (w.fieldType fb) fb)
  convertExpression dup

def convertPutstatic : Convert D Φ Unit := do
  let fb ← lookupField w
  let src ← stackPop
  convertStatement (.store (.classField (w.fieldType fb) fb) src)

def convertGetfield : Convert D Φ Unit := do
  let fb ← lookupField w
  let ref ← stackPop
  let objectref ← nullCheckExpr ref
  let dup ← dupExpr (.instanceField (w.fieldType fb) fb objectref)
  convertExpression dup

def convertPutfield : Convert D Φ Unit := do
  let fb ← lookupField w
  let src ← stackPop
  let ref ← stackPop
  let objectref ← nullCheckExpr ref
  convertStatement (.store (.instanceField (w.fieldType fb) fb objectref) src)

/-! ## Instructions and basic blocks -/

def setWide (b : Bool) : Convert D Φ Unit := fun ctx => some ((), { ctx with isWide := b })

def convertWide (convertInstruction : Convert D Φ Unit) : Convert D Φ Unit := do
  setWide true
  convertInstruction
  setWide false

/-- The array `converters` as the rows of `vm/bytecode-def.h`, without the bytecodes that the model leaves out. -/
def converterRows (convertInstruction : Convert D Φ Unit) : List (Nat × Convert D Φ Unit) :=
  [(opcAconstNull, convertAconstNull), (opcAload, convertAload), (opcAload0, convertAloadN),
   (opcAload1, convertAloadN), (opcAload2, convertAloadN), (opcAload3, convertAloadN), (opcAstore, convertAstore),
   (opcAstore0, convertAstoreN), (opcAstore1, convertAstoreN), (opcAstore2, convertAstoreN),
   (opcAstore3, convertAstoreN), (opcBipush, convertBipush), (opcD2f, convertD2f), (opcD2i, convertD2i),
   (opcD2l, convertD2l), (opcDadd, convertDadd), (opcDcmpg, convertXcmpg), (opcDcmpl, convertXcmpl),
   (opcDconst0, convertDconstN w), (opcDconst1, convertDconstN w), (opcDdiv, convertDdiv),
   (opcDload, convertDload), (opcDload0, convertDloadN), (opcDload1, convertDloadN), (opcDload2, convertDloadN),
   (opcDload3, convertDloadN), (opcDmul, convertDmul), (opcDneg, convertDneg), (opcDrem, convertDrem),
   (opcDstore, convertDstore), (opcDstore0, convertDstoreN), (opcDstore1, convertDstoreN),
   (opcDstore2, convertDstoreN), (opcDstore3, convertDstoreN), (opcDsub, convertDsub), (opcDup, convertDup),
   (opcDup2, convertDup2), (opcDup2X1, convertDup2X1), (opcDup2X2, convertDup2X2), (opcDupX1, convertDupX1),
   (opcDupX2, convertDupX2), (opcF2d, convertF2d), (opcF2i, convertF2i), (opcF2l, convertF2l),
   (opcFadd, convertFadd), (opcFcmpg, convertXcmpg), (opcFcmpl, convertXcmpl), (opcFconst0, convertFconstN w),
   (opcFconst1, convertFconstN w), (opcFconst2, convertFconstN w), (opcFdiv, convertFdiv),
   (opcFload, convertFload), (opcFload0, convertFloadN), (opcFload1, convertFloadN), (opcFload2, convertFloadN),
   (opcFload3, convertFloadN), (opcFmul, convertFmul), (opcFneg, convertFneg), (opcFrem, convertFrem),
   (opcFstore, convertFstore), (opcFstore0, convertFstoreN), (opcFstore1, convertFstoreN),
   (opcFstore2, convertFstoreN), (opcFstore3, convertFstoreN), (opcFsub, convertFsub),
   (opcGetfield, convertGetfield w), (opcGetstatic, convertGetstatic w), (opcI2b, convertI2b),
   (opcI2c, convertI2c), (opcI2d, convertI2d), (opcI2f, convertI2f), (opcI2l, convertI2l), (opcI2s, convertI2s),
   (opcIadd, convertIadd), (opcIand, convertIand), (opcIconst0, convertIconstN), (opcIconst1, convertIconstN),
   (opcIconst2, convertIconstN), (opcIconst3, convertIconstN), (opcIconst4, convertIconstN),
   (opcIconst5, convertIconstN), (opcIconstM1, convertIconstN), (opcIdiv, convertIdiv), (opcIinc, convertIinc),
   (opcIload, convertIload), (opcIload0, convertIloadN), (opcIload1, convertIloadN), (opcIload2, convertIloadN),
   (opcIload3, convertIloadN), (opcImul, convertImul), (opcIneg, convertIneg), (opcIor, convertIor),
   (opcIrem, convertIrem), (opcIshl, convertIshl), (opcIshr, convertIshr), (opcIstore, convertIstore),
   (opcIstore0, convertIstoreN), (opcIstore1, convertIstoreN), (opcIstore2, convertIstoreN),
   (opcIstore3, convertIstoreN), (opcIsub, convertIsub), (opcIushr, convertIushr), (opcIxor, convertIxor),
   (opcL2d, convertL2d), (opcL2f, convertL2f), (opcL2i, convertL2i), (opcLadd, convertLadd),
   (opcLand, convertLand), (opcLcmp, convertLcmp), (opcLconst0, convertLconstN), (opcLconst1, convertLconstN),
   (opcLdc, convertLdc w), (opcLdc2W, convertLdc2W w), (opcLdcW, convertLdcW w), (opcLdiv, convertLdiv),
   (opcLload, convertLload), (opcLload0, convertLloadN), (opcLload1, convertLloadN), (opcLload2, convertLloadN),
   (opcLload3, convertLloadN), (opcLmul, convertLmul), (opcLneg, convertLneg), (opcLor, convertLor),
   (opcLrem, convertLrem), (opcLshl, convertLshl), (opcLshr, convertLshr), (opcLstore, convertLstore),
   (opcLstore0, convertLstoreN), (opcLstore1, convertLstoreN), (opcLstore2, convertLstoreN),
   (opcLstore3, convertLstoreN), (opcLsub, convertLsub), (opcLushr, convertLushr), (opcLxor, convertLxor),
   (opcNop, convertNop), (opcPop, convertPop), (opcPop2, convertPop2), (opcPutfield, convertPutfield w),
   (opcPutstatic, convertPutstatic w), (opcSipush, convertSipush), (opcSwap, convertSwap),
   (opcWide, convertWide convertInstruction)]

def converters (convertInstruction : Convert D Φ Unit) (opc : Nat) : Option (Convert D Φ Unit) :=
  ((converterRows w convertInstruction).find? (·.1 == opc)).map (·.2)

def setOpc (opc : Nat) : Convert D Φ Unit := fun ctx => some ((), { ctx with opc := opc })

/-- Convert the instruction at the position of the buffer. The fuel is the number of `wide`s that may follow each
other. -/
def convertInstruction : Nat → Convert D Φ Unit
  | 0 => failure
  | fuel + 1 => do
    let opc ← bytecodeReadU8
    setOpc opc
    (converters w (convertInstruction fuel) opc).getD failure

/-- The mimic stack that a block starts with: the entry slots of the operands that its predecessors leave, slot `0` on
top, or the exception in a handler that no predecessor has been converted for. -/
def entryMimicStack (isEh : Bool) : Option (List VmType) → List (Expr D Φ)
  | some types => types.mapIdx fun i t => .mimicStackSlot t true i
  | none => if isEh then [exceptionRefExpr] else []

/-- `do_convert_bb_to_ir` for the block from `start` to `stop`. -/
def doConvertBbToIr (code : List UInt8) (start stop : Nat) (isEh : Bool) (resolved : Option (List VmType))
    (nextVar : Nat) (is32Bit : Bool) : Option (ParseContext D Φ) :=
  runWhile (fun ctx => ctx.pos < stop) (fun ctx => (convertInstruction w (code.length + 2) ctx).map (·.2)) (stop - start)
    ⟨code, start, 0, false, entryMimicStack isEh resolved, [], nextVar, is32Bit⟩

end Resolved

end Jato.Jit
