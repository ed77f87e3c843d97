import Jato.Vm.Opcodes
import Mathlib.Algebra.Order.Ring.Nat

/-!
# Reading bytecode

`vm/bytecode.c`: big-endian operands, instruction sizes, branch offsets and local variable indices. A method body is
the list of its bytes; the callers below only read inside it. Sizes are computed in C `int`s, which wrap (`toS32`).
-/

namespace Jato.Vm

/-- The byte at `i`. -/
def byteAt (code : List UInt8) (i : Nat) : Nat := (code.getD i 0).toNat

theorem byteAt_lt (code : List UInt8) (i : Nat) : byteAt code i < 256 := (code.getD i 0).toNat_lt

/-- The value of a C `int` that holds `x`. -/
def toS32 (x : Int) : Int := x.bmod (2 ^ 32)

def readU8 (code : List UInt8) (p : Nat) : Nat := byteAt code p

def readU16 (code : List UInt8) (p : Nat) : Nat := byteAt code p * 2 ^ 8 + byteAt code (p + 1)

def readU32 (code : List UInt8) (p : Nat) : Nat :=
  byteAt code p * 2 ^ 24 + byteAt code (p + 1) * 2 ^ 16 + byteAt code (p + 2) * 2 ^ 8 + byteAt code (p + 3)

def readS8 (code : List UInt8) (p : Nat) : Int := (readU8 code p : Int).bmod (2 ^ 8)

def readS16 (code : List UInt8) (p : Nat) : Int := (readU16 code p : Int).bmod (2 ^ 16)

def readS32 (code : List UInt8) (p : Nat) : Int := toS32 (readU32 code p)

/-! ## Sizes -/

def getTableswitchPadding (pc : Nat) : Nat := 3 - pc % 4

/-- The errors of the verifier. -/
inductive VrfErr
  | typeChecking
  | malformedBc
  | wrongLocalIndex
  | wrongConstantPoolIndex
  | invalidBranch
  | fallingOff
  | invalidExceptionHandler
deriving DecidableEq, Repr

/-- The size of the instruction at `pc` before the test that it ends inside the code. -/
def bcInsnSizeRaw (code : List UInt8) (pc : Nat) : Except VrfErr Int :=
  let opc := byteAt code pc
  let padding := getTableswitchPadding pc
  if (bytecodeInfo opc).size ≠ 0 then .ok (bytecodeInfo opc).size
  else if opc = opcTableswitch then
    if code.length ≤ pc + 1 + padding + 12 then .error .malformedBc
    else
      -- the default target stands between the padding and `low`
      let low := readS32 code (pc + 1 + padding + 4)
      let high := readS32 code (pc + 1 + padding + 8)
      if high < low then .error .malformedBc
      else .ok (toS32 (1 + padding + 12 + (high - low + 1) * 4))
  else if opc = opcLookupswitch then
    if code.length ≤ pc + 1 + padding + 8 then .error .malformedBc
    else
      let npairs := readS32 code (pc + 1 + padding + 4)
      if npairs < 0 then .error .malformedBc
      else .ok (toS32 (1 + padding + 8 + npairs * 2 * 4))
  else if opc = opcWide then
    if code.length ≤ pc + 1 + 1 then .error .malformedBc
    else if byteAt code (pc + 1) = opcIinc then .ok 6 else .ok 4
  else .error .malformedBc

/-- The size of the instruction at `pc`, or an error when the code ends in the middle of it. -/
def bcInsnSizeSafe (code : List UInt8) (pc : Nat) : Except VrfErr Nat :=
  if code.length ≤ pc then .error .malformedBc
  else if bcIsInvalid (byteAt code pc) then .error .malformedBc
  else
    match bcInsnSizeRaw code pc with
    | .error e => .error e
    | .ok size =>
      if size < 0 then .error .malformedBc
      else if code.length < pc + size.toNat then .error .malformedBc
      else .ok size.toNat

/-! ## Branches and local variables -/

/-- Whether `ret` or `wide ret` stands at `p`. -/
def bcIsRet (code : List UInt8) (p : Nat) : Bool :=
  if byteAt code p = opcWide then byteAt code (p + 1) == opcRet else byteAt code p == opcRet

def bcIsUnconditionnalBranch (code : List UInt8) (p : Nat) : Bool :=
  bcIsReturn (byteAt code p) || bcIsGoto (byteAt code p) || bcIsJsr (byteAt code p) || bcIsRet code p ||
    bcIsAthrow (byteAt code p)

/-- The branch offset of the instruction at `p`. -/
def bcTargetOff (code : List UInt8) (p : Nat) : Int :=
  if bcIsWide (byteAt code p) then readS32 code (p + 1) else readS16 code (p + 1)

/-- The local variable index of the load or store at `pc`: in the opcode, or in the byte that follows. -/
def getLocalVarIndex (code : List UInt8) (pc : Nat) : Nat :=
  let opc := byteAt code pc
  if opcIload0 ≤ opc ∧ opc < opcLload0 then opc - opcIload0
  else if opcLload0 ≤ opc ∧ opc < opcFload0 then opc - opcLload0
  else if opcFload0 ≤ opc ∧ opc < opcDload0 then opc - opcFload0
  else if opcDload0 ≤ opc ∧ opc < opcAload0 then opc - opcDload0
  else if opcAload0 ≤ opc ∧ opc < opcIaload then opc - opcAload0
  else if opcIstore0 ≤ opc ∧ opc < opcLstore0 then opc - opcIstore0
  else if opcLstore0 ≤ opc ∧ opc < opcFstore0 then opc - opcLstore0
  else if opcFstore0 ≤ opc ∧ opc < opcDstore0 then opc - opcFstore0
  else if opcDstore0 ≤ opc ∧ opc < opcAstore0 then opc - opcDstore0
  else if opcAstore0 ≤ opc ∧ opc < opcIastore then opc - opcAstore0
  else readU8 code (pc + 1)

end Jato.Vm
