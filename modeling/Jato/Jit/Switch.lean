import Jato.Jit.ControlFlow
import Jato.Lib.Bsearch

/-!
# Conversion of switches

`convert_tableswitch` and `convert_lookupswitch` of `jit/switch-bc.c`, with the tables of `jit/statement.c` and their
backpatching in `jit/emit.c`. The block that ends with the switch gets one or two empty blocks behind it, and a switch
becomes a statement in each of them: tests that branch to the default block, and a jump through a table.

`control` is where control goes when these statements are executed for a key in a 32-bit register. Whether an edge needs a
resolution block (`needs`) is up to register allocation; such a block ends with a jump to the block the edge leads to.
-/

namespace Jato.Jit.Switch

open Jato.Lib Jato.Vm Jato.Jit.Flow

/-! ## Reading the instruction -/

def defaultTarget (code : List UInt8) (pc : Nat) : Int := pc + readS32 code (switchBody pc)

/-- The number of entries of the tableswitch, a `uint32_t`. -/
def tableCount (code : List UInt8) (pc : Nat) : Nat :=
  (readU32 code (switchBody pc + 8) + (2 ^ 32 - readU32 code (switchBody pc + 4)) + 1) % 2 ^ 32

def tableTarget (code : List UInt8) (pc i : Nat) : Int := pc + readS32 code (switchBody pc + 12 + 4 * i)

def tableTargets (code : List UInt8) (pc : Nat) : List Int := (List.range (tableCount code pc)).map (tableTarget code pc)

/-- `read_lookupswitch_match`. -/
def lookupMatch (code : List UInt8) (pc i : Nat) : Int := readS32 code (switchBody pc + 8 + 8 * i)

/-- `read_lookupswitch_target`, from the start of the code. -/
def lookupTarget (code : List UInt8) (pc i : Nat) : Int := pc + readS32 code (switchBody pc + 8 + 8 * i + 4)

def lookupTargets (code : List UInt8) (pc : Nat) : List Int :=
  (List.range (readU32 code (switchBody pc + 4))).map (lookupTarget code pc)

/-! ## Tables and statements -/

/-- `struct tableswitch`, with the bounds as `uint32_t`. -/
structure Tableswitch where
  low : Nat
  high : Nat
  src : Nat
  bbLookupTable : List Nat

/-- A pair; the key is the field `match`. -/
structure LookupswitchPair where
  key : Int
  bbTarget : Nat
deriving DecidableEq, Repr

structure Lookupswitch where
  src : Nat
  pairs : List LookupswitchPair

/-- The statements of a converted switch. The result of `bsearch` is kept in a temporary that two statements read. -/
inductive SwitchStmt
  | ifLesser (target : Nat) (right : Int)
  | ifGreater (target : Nat) (right : Int)
  | ifNull (target : Nat) (table : Lookupswitch)
  | tableswitch (table : Tableswitch)
  | lookupswitchJump (table : Lookupswitch)

/-- The unit after the conversion and the statements with their blocks. -/
structure Converted where
  cu : Flow.CompilationUnit
  stmts : List (Nat × SwitchStmt)

/-! ## Conversion -/

/-- `find_bb` for a sum of offsets, which is an `unsigned long`. -/
def findBbAt (cu : Flow.CompilationUnit) (off : Int) : Option Nat := if off < 0 then none else findBb cu off.toNat

/-- Edges from `bb` to the blocks of the targets, each once. -/
def addTargets (bb : Nat) (cu : Flow.CompilationUnit) (offs : List Int) : Option Flow.CompilationUnit :=
  offs.foldlM (fun cu off => do
    let targetBb ← findBbAt cu off
    if bbSuccessorsContains cu bb targetBb then return cu
    return bbAddSuccessor cu bb targetBb) cu

def setHasBranch (cu : Flow.CompilationUnit) (bb : Nat) : Flow.CompilationUnit := cu.updateBlock bb fun b => { b with hasBranch := true }

def allocTableswitch (code : List UInt8) (pc : Nat) (cu : Flow.CompilationUnit) (bb : Nat) : Option Tableswitch := do
  let bbLookupTable ← (tableTargets code pc).mapM (findBbAt cu)
  return ⟨readU32 code (switchBody pc + 4), readU32 code (switchBody pc + 8), bb, bbLookupTable⟩

/-- The branch flags of the three blocks, and the edges of the two tests. -/
def tableEdges (cu : Flow.CompilationUnit) (bb b1 b2 defaultBb : Nat) : Flow.CompilationUnit :=
  let cu := setHasBranch (setHasBranch (setHasBranch cu bb) b1) b2
  let cu := bbAddSuccessor (bbAddSuccessor cu bb defaultBb) bb b1
  bbAddSuccessor (bbAddSuccessor cu b1 defaultBb) b1 b2

/-- The statements of a tableswitch; the bounds are compared as `int32_t`. -/
def tableStmts (bb b1 b2 defaultBb : Nat) (table : Tableswitch) : List (Nat × SwitchStmt) :=
  [(bb, .ifLesser defaultBb (toS32 table.low)), (b1, .ifGreater defaultBb (toS32 table.high)), (b2, .tableswitch table)]

def convertTableswitch (code : List UInt8) (pc : Nat) (cu : Flow.CompilationUnit) (bb : Nat) : Option Converted := do
  let defaultBb ← findBbAt cu (defaultTarget code pc)
  let (cu, b1) ← bbSplit cu bb (cu.block bb).stop
  let (cu, b2) ← bbSplit cu b1 (cu.block bb).stop
  let cu ← addTargets b2 (tableEdges cu bb b1 b2 defaultBb) (tableTargets code pc)
  let table ← allocTableswitch code pc cu b2
  return ⟨cu, tableStmts bb b1 b2 defaultBb table⟩

def allocLookupswitch (code : List UInt8) (pc : Nat) (cu : Flow.CompilationUnit) (bb : Nat) : Option Lookupswitch := do
  let pairs ← (List.range (readU32 code (switchBody pc + 4))).mapM fun i =>
    (findBbAt cu (lookupTarget code pc i)).map fun bbTarget => (⟨lookupMatch code pc i, bbTarget⟩ : LookupswitchPair)
  return ⟨bb, pairs⟩

/-- The branch flag of the second block, and the edges of the test. -/
def lookupEdges (cu : Flow.CompilationUnit) (bb b1 defaultBb : Nat) : Flow.CompilationUnit :=
  bbAddSuccessor (bbAddSuccessor (setHasBranch cu b1) bb defaultBb) bb b1

def convertLookupswitch (code : List UInt8) (pc : Nat) (cu : Flow.CompilationUnit) (bb : Nat) : Option Converted := do
  let defaultBb ← findBbAt cu (defaultTarget code pc)
  let (cu, b1) ← bbSplit cu bb (cu.block bb).stop
  let cu ← addTargets b1 (lookupEdges cu bb b1 defaultBb) (lookupTargets code pc)
  let table ← allocLookupswitch code pc cu b1
  return ⟨cu, [(bb, .ifNull defaultBb table), (b1, .lookupswitchJump table)]⟩

/-- The conversion of the switch at `pc`, the last instruction of the block `bb`. -/
def convertSwitch (code : List UInt8) (pc : Nat) (cu : Flow.CompilationUnit) (bb : Nat) : Option Converted :=
  if byteAt code pc = opcTableswitch then convertTableswitch code pc cu bb else convertLookupswitch code pc cu bb

/-! ## Execution -/

/-- Native code addresses: of a block, or of the resolution block for an edge of a block. -/
inductive Address
  | native (bb : Nat)
  | resolution (src idx : Nat)

def bbLookupSuccessorIndex (cu : Flow.CompilationUnit) (src target : Nat) : Option Nat :=
  (cu.block src).successors.findIdx? (· == target)

/-- The address that a jump from `src` to `target` is patched with; an edge that is not there would be index `-1`. -/
def patchedTarget (cu : Flow.CompilationUnit) (needs : Nat → Nat → Bool) (src target : Nat) : Option Address :=
  (bbLookupSuccessorIndex cu src target).map fun idx => if needs src idx then .resolution src idx else .native target

/-- The block that control gets to from an address. -/
def landing (cu : Flow.CompilationUnit) : Address → Option Nat
  | .native bb => some bb
  | .resolution src idx => (cu.block src).successors[idx]?

/-- The lookup table after `backpatch_tableswitch`, which counts its entries in an `int`. -/
def backpatchTableswitch (cu : Flow.CompilationUnit) (needs : Nat → Nat → Bool) (table : Tableswitch) : List (Option Address) :=
  table.bbLookupTable.mapIdx fun i target =>
    if i < toS32 ((table.high : Int) - table.low + 1) then patchedTarget cu needs table.src target else none

/-- The targets after `backpatch_lookupswitch`. -/
def backpatchLookupswitch (cu : Flow.CompilationUnit) (needs : Nat → Nat → Bool) (table : Lookupswitch) : List (Option Address) :=
  table.pairs.map fun pair => patchedTarget cu needs table.src pair.bbTarget

/-- The difference of two `int32_t`, which wraps. -/
def lookupswitchPairComp (key : Int) (pair : LookupswitchPair) : Int := toS32 (key - pair.key)

section Execution

variable (bs : Bsearch) (cu : Flow.CompilationUnit) (needs : Nat → Nat → Bool) (key : BitVec 32)

/-- The call of `bsearch` with the key and the pairs. -/
def search (table : Lookupswitch) : Option Nat := bs.find (lookupswitchPairComp key.toInt) table.pairs

/-- What a statement at the end of block `bb` does: where control goes if it jumps, or `none` if it falls through. -/
def exec (bb : Nat) : SwitchStmt → Option (Option Nat)
  | .ifLesser target right =>
    if key.toInt < right then some ((patchedTarget cu needs bb target).bind (landing cu)) else none
  | .ifGreater target right =>
    if right < key.toInt then some ((patchedTarget cu needs bb target).bind (landing cu)) else none
  | .ifNull target table =>
    if search bs key table = none then some ((patchedTarget cu needs bb target).bind (landing cu)) else none
  | .tableswitch table =>
    -- `sub` of the low bound from the register, and a jump through the table
    let index := (key - BitVec.ofNat 32 table.low).toNat
    some (((backpatchTableswitch cu needs table)[index]?.join).bind (landing cu))
  | .lookupswitchJump table =>
    some ((((search bs key table).bind fun i => (backpatchLookupswitch cu needs table)[i]?).join).bind (landing cu))

/-- The block behind `bb` in the order of the list, which is the order of the native code. -/
def nextBb (bb : Nat) : List Nat → Option Nat
  | b :: c :: bs => if b = bb then some c else nextBb bb (c :: bs)
  | _ => none

/-- Execution of the statements from the first one on; a statement that falls through continues with the block behind. -/
def control : List (Nat × SwitchStmt) → Option Nat
  | [] => none
  | (bb, stmt) :: rest =>
    match exec bs cu needs key bb stmt with
    | some target => target
    | none => if nextBb bb cu.bbList = rest.head?.map Prod.fst then control rest else none

end Execution

end Jato.Jit.Switch
