import Jato.Jit.Interval
import Jato.Lib.Assignment
import Jato.Lib.TreeWalk

/-!
# Operands that cross basic blocks

`jit/bytecode-to-ir.c`: the expressions that are left on the mimic stack at the end of a block are spilled to exit slots,
and the blocks that follow start with a mimic stack of entry slots. When all the blocks are converted, the slots are made
temporaries, the same one for an exit slot and for the entry slots that read it. A block is given by what the conversion
of its instructions leaves: the mimic stack and the statement that ends the block. The switches have been split into the
blocks that `jit/switch-bc.c` makes of them.

`Correct` says what the spilled operands are for: every successor reads the values that were on the operand stack.
-/

namespace Jato.Jit.Mimic

open Jato.Lib

variable {Op V : Type}

/-! ## Blocks -/

/-- What an expression reads: an operand that the block `bb` starts with, or a variable of the converters. -/
inductive Leaf
  | entry (bb slotNdx : Nat)
  | var (n : Nat)
deriving DecidableEq

/-- The statement at the end of a block. A tableswitch compares its index with both bounds, in two blocks, before it
jumps in a third one. A lookupswitch searches its key and compares the result with null before it jumps. -/
inductive Ending (Op : Type)
  | fallThrough
  | leave
  | goto_
  | branch (target : Nat) (cond : Term Op Leaf)
  | tableswitchLow (defaultBb : Nat) (cond : Term Op Leaf)
  | tableswitchHigh (defaultBb : Nat) (cond : Term Op Leaf)
  | tableswitchJump (index : Term Op Leaf)
  | lookupswitchNull (defaultBb : Nat) (cond : Term Op Leaf)
  | lookupswitchJump (target : Term Op Leaf)

namespace Ending

/-- `bb->has_branch`: set by `split_after_branches` for branches and by `convert_tableswitch` for all of its blocks, and
by `convert_lookupswitch` for the block that jumps only. -/
def hasBranch : Ending Op → Bool
  | goto_ | branch .. | tableswitchLow .. | tableswitchHigh .. | tableswitchJump _ | lookupswitchJump _ => true
  | fallThrough | leave | lookupswitchNull .. => false

/-- The block ends with a statement that can leave it. -/
def hasStatement : Ending Op → Bool
  | fallThrough => false
  | _ => true

/-- The condition or selector that the statement evaluates. -/
def selector : Ending Op → Option (Term Op Leaf)
  | branch _ c | tableswitchLow _ c | tableswitchHigh _ c | tableswitchJump c | lookupswitchNull _ c
  | lookupswitchJump c => some c
  | fallThrough | leave | goto_ => none

/-- The edge to `s` is taken by the statement, and not after the end of the block. -/
def jumpsTo (s : Nat) : Ending Op → Bool
  | goto_ | tableswitchJump _ | lookupswitchJump _ => true
  | branch t _ | tableswitchLow t _ | tableswitchHigh t _ | lookupswitchNull t _ => t = s
  | fallThrough | leave => false

end Ending

/-- `struct basic_block`, with the mimic stack at the end of its instructions, the top first. -/
structure BasicBlock (Op : Type) where
  successors : List Nat
  predecessors : List Nat
  isEh : Bool
  ending : Ending Op
  mimicStack : List (VmType × Term Op Leaf)

/-- `struct compilation_unit`: `nextVar` is the number of the next variable when the instructions are converted. -/
structure Cfg (Op : Type) where
  block : Nat → BasicBlock Op
  bbList : List Nat
  entryBb : Nat
  nextVar : Nat

/-! ## Spilling -/

/-- An expression of the type `EXPR_MIMIC_STACK_SLOT`, made when the block `creator` is spilled. -/
structure Slot where
  creator : Nat
  entry : Bool
  slotNdx : Nat
  vmType : VmType
deriving DecidableEq

/-- The statements behind the instructions of a block: the spill stores, and the statement that ends it. -/
inductive SpillStmt (Op : Type)
  | store (dest : Slot) (src : Term Op Leaf)
  | ending

/-- What `spill_mimic_stack` has made: the statements of the block, its exit slots and the reload stack. -/
structure Spilled (Op : Type) where
  stmts : List (SpillStmt Op)
  exitSlots : List Slot
  reloadStack : List Slot

def spillExpression (bb : Nat) (hasBranch : Bool) (spilled : Spilled Op) (expr : VmType × Term Op Leaf) (slotNdx : Nat) :
    Spilled Op :=
  let exitTmp : Slot := ⟨bb, false, slotNdx, expr.1⟩
  let entryTmp : Slot := ⟨bb, true, slotNdx, expr.1⟩
  let store := .store exitTmp expr.2
  { stmts :=
      if hasBranch then spilled.stmts.dropLast ++ [store] ++ spilled.stmts.getLast?.toList else spilled.stmts ++ [store]
    exitSlots := spilled.exitSlots ++ [exitTmp]
    reloadStack := spilled.reloadStack ++ [entryTmp] }

/-- Pop the expressions one after the other, the top one into slot `0`. -/
def spillMimicStack (bb : Nat) (block : BasicBlock Op) : Spilled Op :=
  block.mimicStack.zipIdx.foldl
    (fun spilled (expr, slotNdx) => spillExpression bb block.ending.hasBranch spilled expr slotNdx)
    ⟨if block.ending.hasStatement then [.ending] else [], [], []⟩

/-! ## Conversion -/

/-- What a block starts with on its mimic stack. -/
inductive EntryOperand
  | slot (slot : Slot)
  | exceptionRef

/-- The blocks during the conversion: `entry` is the mimic stack that a block starts with, once it is resolved. -/
structure Conversion (Op : Type) where
  isConverted : List Nat
  entry : Nat → Option (List EntryOperand)
  mimicStackExpr : Nat → List Slot
  stmts : Nat → List (SpillStmt Op)

/-- The mimic stack of a block that no predecessor has been converted for. -/
def defaultEntry (block : BasicBlock Op) : List EntryOperand := if block.isEh then [.exceptionRef] else []

/-- A mimic stack of another size than before is an error that the caller does not look at. -/
def reloadMimicStack (reload : List Slot) (conv : Conversion Op) (bb : Nat) : Conversion Op :=
  { conv with
    mimicStackExpr := Function.update conv.mimicStackExpr bb (conv.mimicStackExpr bb ++ reload)
    entry := if (conv.entry bb).isSome then conv.entry else Function.update conv.entry bb (some (reload.map .slot)) }

/-- `do_convert_bb_to_ir`, as far as it is about the mimic stack of the entry. -/
def doConvertBb (cfg : Cfg Op) (bb : Nat) (conv : Conversion Op) : Conversion Op :=
  { conv with
    isConverted := bb :: conv.isConverted
    entry := Function.update conv.entry bb (some ((conv.entry bb).getD (defaultEntry (cfg.block bb)))) }

/-- The part of `convert_bb_to_ir` that spills the mimic stack and reloads it in the successors. -/
def spillAndReload (cfg : Cfg Op) (bb : Nat) (conv : Conversion Op) : Conversion Op :=
  let spilled := spillMimicStack bb (cfg.block bb)
  let conv := { conv with
    mimicStackExpr := Function.update conv.mimicStackExpr bb (conv.mimicStackExpr bb ++ spilled.exitSlots)
    stmts := Function.update conv.stmts bb spilled.stmts }
  (cfg.block bb).successors.foldl (reloadMimicStack spilled.reloadStack) conv

def convertBbToIr (cfg : Cfg Op) : Nat → Nat → Conversion Op → Option (Conversion Op)
  | 0, _, _ => none
  | fuel + 1, bb, conv =>
    if bb ∈ conv.isConverted then some conv
    else
      let conv := doConvertBb cfg bb conv
      if (cfg.block bb).successors = [] then some conv
      else (cfg.block bb).successors.foldlM (fun conv s => convertBbToIr cfg fuel s conv) (spillAndReload cfg bb conv)

def Conversion.initial : Conversion Op := ⟨[], fun _ => none, fun _ => [], fun _ => []⟩

def convertBlocks (cfg : Cfg Op) (fuel : Nat) : Option (Conversion Op) := do
  let conv ← convertBbToIr cfg fuel cfg.entryBb .initial
  (cfg.bbList.filter fun bb => (cfg.block bb).isEh).foldlM (fun conv bb => convertBbToIr cfg fuel bb conv) conv

/-! ## Temporaries -/

/-- The variables of a temporary; the high half is for longs. The variable `tmpLow` has the type `lowType`. -/
structure Temporary where
  tmpLow : Nat
  tmpHigh : Option Nat
  lowType : VmType

def Temporary.vars (tmp : Temporary) : List Nat := tmp.tmpLow :: tmp.tmpHigh.toList

/-- The slots that have been made temporaries. -/
abbrev Resolution := List (Slot × Temporary)

def assignTemporary (conv : Conversion Op) (bb : Nat) (entry : Bool) (slotNdx : Nat) (tmp : Temporary) (ρ : Resolution) :
    Resolution :=
  (conv.mimicStackExpr bb).foldl (fun ρ expr =>
    if (ρ.lookup expr).isSome then ρ
    else if expr.entry ≠ entry ∨ expr.slotNdx ≠ slotNdx then ρ
    else (expr, tmp) :: ρ) ρ

/-- The predecessors of an entry, the successors of an exit. -/
def neighbors (cfg : Cfg Op) (bb : Nat) (entry : Bool) : List Nat :=
  if entry then (cfg.block bb).predecessors else (cfg.block bb).successors

def propagateTemporary (cfg : Cfg Op) (conv : Conversion Op) (slotNdx : Nat) (tmp : Temporary) :
    Nat → Nat → Bool → Nat → Resolution → Option Resolution
  | 0, _, _, _, _ => none
  | fuel + 1, bb, entry, from_, ρ =>
    (neighbors cfg bb entry).foldlM
      (fun ρ n => if n = from_ then some ρ else propagateTemporary cfg conv slotNdx tmp fuel n (!entry) bb ρ)
      (assignTemporary conv bb entry slotNdx tmp ρ)

/-- The resolution and the number of the next variable. -/
abbrev Resolved := Resolution × Nat

def pickTemporary (vmType : VmType) (nextVar : Nat) : Temporary × Nat :=
  if vmType = .long then (⟨nextVar + 1, some nextVar, .int⟩, nextVar + 2)
  else (⟨nextVar, none, vmType⟩, nextVar + 1)

def pickAndPropagateTemporaries (cfg : Cfg Op) (conv : Conversion Op) (fuel bb : Nat) (entry : Bool) (r : Resolved) :
    Option Resolved :=
  (conv.mimicStackExpr bb).foldlM (fun r expr =>
    if (r.1.lookup expr).isSome then some r
    else if expr.entry ≠ entry then some r
    else
      let (tmp, nextVar) := pickTemporary expr.vmType r.2
      (propagateTemporary cfg conv expr.slotNdx tmp fuel bb entry bb r.1).map (·, nextVar)) r

/-- Two or more neighbors, or one neighbor that has no other one. -/
def needToResolve (cfg : Cfg Op) (bb : Nat) (entry : Bool) : Bool :=
  match neighbors cfg bb entry with
  | [] => false
  | [n] => (neighbors cfg n (!entry)).length = 1
  | _ => true

def resolveSide (cfg : Cfg Op) (conv : Conversion Op) (fuel bb : Nat) (entry : Bool) (r : Resolved) : Option Resolved :=
  if needToResolve cfg bb entry then pickAndPropagateTemporaries cfg conv fuel bb entry r else some r

def resolveMimicStackSlots (cfg : Cfg Op) (conv : Conversion Op) (fuel : Nat) (r : Resolved) (bb : Nat) : Option Resolved := do
  let r ← resolveSide cfg conv fuel bb false r
  resolveSide cfg conv fuel bb true r

def resolveBlocks (cfg : Cfg Op) (conv : Conversion Op) (fuel : Nat) : Option Resolved :=
  cfg.bbList.foldlM (resolveMimicStackSlots cfg conv fuel) ([], cfg.nextVar)

/-! ## What the converted blocks do -/

/-- Where a value is kept. A slot that has not been resolved is a place of its own. -/
inductive Loc
  | slot (slot : Slot)
  | var (n : Nat)
  | exceptionRef
deriving DecidableEq

def Resolution.loc (ρ : Resolution) (slot : Slot) : Loc :=
  match ρ.lookup slot with
  | some tmp => .var tmp.tmpLow
  | none => .slot slot

def EntryOperand.loc (ρ : Resolution) : EntryOperand → Loc
  | .slot z => ρ.loc z
  | .exceptionRef => .exceptionRef

/-- The place of an operand that a block starts with. -/
def Conversion.entryLoc (conv : Conversion Op) (ρ : Resolution) (bb slotNdx : Nat) : Option Loc :=
  (conv.entry bb).bind fun operands => (operands[slotNdx]?).map (EntryOperand.loc ρ)

def Conversion.leafLoc (conv : Conversion Op) (ρ : Resolution) : Leaf → Loc
  | .entry bb slotNdx => (conv.entryLoc ρ bb slotNdx).getD .exceptionRef
  | .var n => .var n

/-- The assignments of the spill stores, in their order. -/
def assigns (conv : Conversion Op) (ρ : Resolution) (stmts : List (SpillStmt Op)) : List (Loc × Term Op Loc) :=
  stmts.filterMap fun
    | .store dest src => some (ρ.loc dest, src.map (conv.leafLoc ρ))
    | .ending => none

/-- The statements in front of the one that ends the block. -/
def beforeEnding (stmts : List (SpillStmt Op)) : List (SpillStmt Op) :=
  stmts.takeWhile fun
    | .store .. => true
    | .ending => false

/-- The state in which the edge to `s` is taken. -/
def edgeState (conv : Conversion Op) (ρ : Resolution) (ending : Ending Op) (stmts : List (SpillStmt Op)) (s : Nat)
    (I : Interpretation Op V) (σ : Loc → V) : Loc → V :=
  runAssigns I (assigns conv ρ (if ending.jumpsTo s then beforeEnding stmts else stmts)) σ

/-- From every state at the end of the instructions of `bb`: the condition or selector has the value it had there, and
each successor finds the values of the mimic stack in its entry slots. -/
structure BlockCorrect (cfg : Cfg Op) (conv : Conversion Op) (ρ : Resolution) (bb : Nat) : Prop where
  selector : ∀ {V : Type} (I : Interpretation Op V) (σ : Loc → V) (c : Term Op Leaf),
    (cfg.block bb).ending.selector = some c →
    (c.map (conv.leafLoc ρ)).eval I (runAssigns I (assigns conv ρ (beforeEnding (conv.stmts bb))) σ) =
      (c.map (conv.leafLoc ρ)).eval I σ
  reloaded : ∀ {V : Type} (I : Interpretation Op V) (σ : Loc → V), ∀ s ∈ (cfg.block bb).successors,
    ∀ i t e, (cfg.block bb).mimicStack[i]? = some (t, e) →
    ∃ n, conv.entryLoc ρ s i = some (.var n) ∧
      edgeState conv ρ (cfg.block bb).ending (conv.stmts bb) s I σ (.var n) = (e.map (conv.leafLoc ρ)).eval I σ

/-- The conversion comes to an end, and every block that leaves operands hands them on. -/
def Correct (cfg : Cfg Op) : Prop :=
  ∃ fuel fuel' conv r, convertBlocks cfg fuel = some conv ∧ resolveBlocks cfg conv fuel' = some r ∧
    ∀ bb ∈ conv.isConverted, (cfg.block bb).mimicStack ≠ [] → BlockCorrect cfg conv r.1 bb

/-! ## Well-formed graphs -/

/-- The blocks that are converted. -/
inductive Reachable (cfg : Cfg Op) : Nat → Prop
  | entry : Reachable cfg cfg.entryBb
  | handler {bb : Nat} : bb ∈ cfg.bbList → (cfg.block bb).isEh = true → Reachable cfg bb
  | successor {bb s : Nat} : Reachable cfg bb → s ∈ (cfg.block bb).successors → Reachable cfg s

/-- The leaf names an operand or a variable that exists. -/
def Leaf.Valid (cfg : Cfg Op) (depth : Nat → Nat) : Leaf → Prop
  | .entry bb slotNdx => Reachable cfg bb ∧ slotNdx < depth bb
  | .var n => n < cfg.nextVar

/-- What the analysis of the control flow and the verifier have made sure of: the lists of successors and predecessors
agree, and a block starts with the same number of operands on all paths. -/
structure Cfg.WellFormed (cfg : Cfg Op) (depth : Nat → Nat) : Prop where
  entryBb_mem : cfg.entryBb ∈ cfg.bbList
  successor_mem : ∀ bb s, s ∈ (cfg.block bb).successors → bb ∈ cfg.bbList ∧ s ∈ cfg.bbList
  symm : ∀ bb s, s ∈ (cfg.block bb).successors ↔ bb ∈ (cfg.block s).predecessors
  depth_entryBb : depth cfg.entryBb = 0
  depth_successor : ∀ bb s, Reachable cfg bb → s ∈ (cfg.block bb).successors → depth s = (cfg.block bb).mimicStack.length
  mimicStack_valid : ∀ bb t e, Reachable cfg bb → (t, e) ∈ (cfg.block bb).mimicStack → ∀ x ∈ e.vars, x.Valid cfg depth
  selector_valid : ∀ bb c, Reachable cfg bb → (cfg.block bb).ending.selector = some c → ∀ x ∈ c.vars, x.Valid cfg depth
  default_mem : ∀ bb d c, (cfg.block bb).ending = .lookupswitchNull d c → d ∈ (cfg.block bb).successors

/-- No block that leaves operands is its own successor. -/
def Cfg.NotSelf (cfg : Cfg Op) : Prop :=
  ∀ bb, Reachable cfg bb → (cfg.block bb).mimicStack ≠ [] → bb ∉ (cfg.block bb).successors

/-- No block that leaves operands is its own successor, and no block comes before an exception handler. -/
structure Cfg.Plain (cfg : Cfg Op) : Prop where
  notSelf : cfg.NotSelf
  notEh : ∀ bb s, s ∈ (cfg.block bb).successors → (cfg.block s).isEh = false

/-! ## The graph of exits and entries -/

/-- The entry (`true`) or exit (`false`) of a block is next to the exits of its predecessors or the entries of its
successors. -/
def sides (cfg : Cfg Op) (v : Nat × Bool) : List (Nat × Bool) := (neighbors cfg v.1 v.2).map (·, !v.2)

/-- The exit of `bb` has the temporaries of the entry of `m`. -/
def Shares (cfg : Cfg Op) (bb m : Nat) : Prop := Graph.Linked (sides cfg) (bb, false) (m, true)

/-- The store of `e` to slot `i` of the exit stores a temporary to itself. -/
def Unchanged (cfg : Cfg Op) (bb i : Nat) (e : Term Op Leaf) : Prop := ∃ m, e = .var (.entry m i) ∧ Shares cfg bb m

/-- The term does not read the temporary of slot `i` of the exit. -/
def Untouched (cfg : Cfg Op) (bb i : Nat) (e : Term Op Leaf) : Prop := ∀ m, .entry m i ∈ e.vars → ¬ Shares cfg bb m

/-- When the operands of a block are handed on. -/
structure HandedOn (cfg : Cfg Op) (bb : Nat) : Prop where
  acyclic : ∀ c k, Graph.Cycle (sides cfg) c k → ¬ Graph.Linked (sides cfg) (bb, false) (c 0)
  stores : ∀ i j t e t' e', i < j → (cfg.block bb).mimicStack[i]? = some (t, e) →
    (cfg.block bb).mimicStack[j]? = some (t', e') → Unchanged cfg bb i e ∨ Untouched cfg bb i e'
  selector : ∀ c, (cfg.block bb).ending.selector = some c →
    ∀ i t e, (cfg.block bb).mimicStack[i]? = some (t, e) → Unchanged cfg bb i e ∨ Untouched cfg bb i c
  lookupswitch : ∀ d c, (cfg.block bb).ending = .lookupswitchNull d c →
    ∀ i t e, (cfg.block bb).mimicStack[i]? = some (t, e) → Unchanged cfg bb i e

end Jato.Jit.Mimic
