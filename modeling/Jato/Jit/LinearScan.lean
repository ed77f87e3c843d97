import Jato.Lib.Pqueue
import Jato.Jit.Interval

/-!
# Linear scan register allocation

`jit/linear-scan.c`. The unhandled intervals are taken from a priority queue by their start; `scanStep` is one iteration
of the loop of `allocate_registers`, made of the update of the active and inactive lists (`scanPrepare`) and the
allocation for the current interval (`allocateReg`). Lists have their head first, where the source adds elements.

The machine is a parameter (`Arch`). `none` is a failed assertion, a call of `error`, or fuel that has run out.
-/

namespace Jato.Jit

open Jato.Lib

/-- What the allocator uses of `arch/registers.h`. Registers from `nrRegisters` on are not allocated. -/
structure Arch where
  nrRegisters : Nat
  nrFixedRegisters : Nat
  regSupportsType : Nat → VmType → Bool
  regDefaultType : Nat → VmType
  callerSaveRegs : List Nat

/-- `MACH_REG_UNASSIGNED`. -/
def machRegUnassigned : Nat := 127

/-- The register number of an interval. -/
def LiveInterval.regNumber (it : LiveInterval) : Nat := it.reg.getD machRegUnassigned

/-! ## Positions of registers -/

/-- The minimum of all positions set is used. -/
def setFreePos (freeUntilPos : List Nat) (reg pos : Nat) : List Nat :=
  if freeUntilPos.length ≤ reg then freeUntilPos
  else if freeUntilPos.getD reg 0 < pos then freeUntilPos
  else freeUntilPos.set reg pos

def setUsePos (usePos : List Nat) (reg pos : Nat) : Option (List Nat) := do
  guard (reg < usePos.length)
  return setFreePos usePos reg pos

/-- Set the position of a register in `block_pos` and in `use_pos`, the first and second list. -/
def setBlockPos (positions : List Nat × List Nat) (reg pos : Nat) : Option (List Nat × List Nat) := do
  guard (reg < positions.1.length)
  return (setFreePos positions.1 reg pos, setFreePos positions.2 reg pos)

/-- One iteration of the loop of `pick_register`, on the greatest position so far and its register. -/
def pickStep (arch : Arch) (freeUntilPos : List Nat) (type : VmType) (best : Nat × Option Nat) (i : Nat) :
    Nat × Option Nat :=
  if !arch.regSupportsType i type then best
  else if best.1 ≤ freeUntilPos.getD i 0 then (freeUntilPos.getD i 0, some i)
  else best

/-- The register that is used the latest. -/
def pickRegister (arch : Arch) (freeUntilPos : List Nat) (type : VmType) : Option Nat :=
  ((List.range arch.nrRegisters).foldl (pickStep arch freeUntilPos type) (0, none)).2

/-! ## Spilling -/

/-- The loop over the children of `new`: those that are reloaded from `it` are reloaded from `new`. -/
def updateSpillParents (it new : Nat) : Nat → Option Nat → Intervals → Option Intervals
  | _, none, store => some store
  | 0, some _, _ => none
  | fuel + 1, some child, store =>
    let c := store.at child
    let store := if c.needReload ∧ c.spillParent = some it then store.put child { c with spillParent := some new } else store
    updateSpillParents it new fuel c.nextChild store

/-- Trim the new interval `new` if it does not start with a use position. -/
def trimInterval (store : Intervals) (new nextPos : Nat) : Option (Intervals × Nat) :=
  if intervalStart (store.at new) < nextPos then do
    let store ← splitIntervalAt store new nextPos
    return (store, store.length - 1)
  else some (store, new)

/-- The flags that `spill_interval` sets on `it` and `new`. -/
def markSpilled (store : Intervals) (it new nextPos : Nat) : Intervals :=
  let n := store.at new
  let n := if (store.at it).needSpill then { n with needSpill := true } else n
  -- a write must not be reloaded before
  let n := if nextPos % 2 = 0 then { n with needReload := true, spillParent := some it } else n
  let store := store.put new n
  store.put it { store.at it with needSpill := true }

def spillInterval (store : Intervals) (it pos : Nat) (unhandled : Pqueue Nat) : Option (Intervals × Pqueue Nat) := do
  let store ← splitIntervalAt store it pos
  let new := store.length - 1
  if (store.at new).usePositions = [] then return (store, unhandled)
  let nextPos := nextUsePos (store.at new) 0
  let (store, new) ← trimInterval store new nextPos
  let store ← updateSpillParents it new store.length (store.at new).nextChild store
  let store := markSpilled store it new nextPos
  return (store, unhandled.insert (intervalStart (store.at new)) new)

/-- `__spill_interval_intersecting`. -/
def spillIntervalIntersecting (current reg : Nat) (s : Intervals × Pqueue Nat) (it : Nat) :
    Option (Intervals × Pqueue Nat) :=
  if (s.1.at it).reg ≠ some reg then some s
  else if !intervalsIntersect (s.1.at it) (s.1.at current) then some s
  else do
    let start ← intervalIntersectionStart (s.1.at current) (s.1.at it)
    if start = intervalStart (s.1.at it) then return s
    spillInterval s.1 it start s.2

def spillAllIntervalsIntersecting (current reg : Nat) (active inactive : List Nat) (s : Intervals × Pqueue Nat) :
    Option (Intervals × Pqueue Nat) := do
  let s ← active.foldlM (spillIntervalIntersecting current reg) s
  inactive.foldlM (spillIntervalIntersecting current reg) s

/-! ## Allocation -/

/-- The store with the register `reg` for the interval `i`. -/
def withReg (store : Intervals) (i reg : Nat) : Intervals := store.put i { store.at i with reg := some reg }

/-- The state of the loop of `allocate_registers`. -/
structure ScanState where
  store : Intervals
  active : List Nat
  inactive : List Nat
  unhandled : Pqueue Nat

/-- One iteration over the inactive list in `try_to_allocate_free_reg`. -/
def freePosInactive (arch : Arch) (store : Intervals) (current : Nat) (freeUntilPos : List Nat) (it : Nat) :
    Option (List Nat) :=
  if !arch.regSupportsType (store.at it).regNumber (store.at current).vmType then some freeUntilPos
  else if intervalsIntersect (store.at it) (store.at current) then do
    let pos ← intervalIntersectionStart (store.at it) (store.at current)
    return setFreePos freeUntilPos (store.at it).regNumber pos
  else some freeUntilPos

def freeUntilPositions (arch : Arch) (s : ScanState) (current : Nat) : Option (List Nat) :=
  let freeUntilPos := List.replicate arch.nrRegisters longMax
  let freeUntilPos := s.active.foldl (fun f it => setFreePos f (s.store.at it).regNumber 0) freeUntilPos
  s.inactive.foldlM (freePosInactive arch s.store current) freeUntilPos

def tryToAllocateFreeReg (arch : Arch) (s : ScanState) (current : Nat) : Option ScanState := do
  let freeUntilPos ← freeUntilPositions arch s current
  let reg ← pickRegister arch freeUntilPos (s.store.at current).vmType
  let pos := freeUntilPos.getD reg 0
  -- no register available without spilling
  if pos = 0 then return s
  if intervalEnd (s.store.at current) ≤ pos then
    return { s with store := withReg s.store current reg }
  let (store, unhandled) ← spillInterval s.store current pos s.unhandled
  return { s with store := withReg store current reg, unhandled := unhandled }

/-- The positions of the intervals without a fixed register in `allocate_blocked_reg`. -/
def usePosInactive (arch : Arch) (store : Intervals) (current : Nat) (usePos : List Nat) (it : Nat) :
    Option (List Nat) :=
  if (store.at it).fixedReg then some usePos
  else if !arch.regSupportsType (store.at it).regNumber (store.at current).vmType then some usePos
  else if intervalsIntersect (store.at it) (store.at current) then
    setUsePos usePos (store.at it).regNumber (nextUsePos (store.at it) (intervalStart (store.at current)))
  else some usePos

def usePosActive (store : Intervals) (current : Nat) (usePos : List Nat) (it : Nat) : Option (List Nat) :=
  if (store.at it).fixedReg then some usePos
  else setUsePos usePos (store.at it).regNumber (nextUsePos (store.at it) (intervalStart (store.at current)))

/-- The positions of the intervals with a fixed register in `allocate_blocked_reg`. -/
def blockPosInactive (arch : Arch) (store : Intervals) (current : Nat) (positions : List Nat × List Nat) (it : Nat) :
    Option (List Nat × List Nat) :=
  if !(store.at it).fixedReg then some positions
  else if !arch.regSupportsType (store.at it).regNumber (store.at current).vmType then some positions
  else if intervalsIntersect (store.at it) (store.at current) then do
    let pos ← intervalIntersectionStart (store.at it) (store.at current)
    setBlockPos positions (store.at it).regNumber pos
  else some positions

def blockPosActive (store : Intervals) (positions : List Nat × List Nat) (it : Nat) :
    Option (List Nat × List Nat) :=
  if !(store.at it).fixedReg then some positions else setBlockPos positions (store.at it).regNumber 0

/-- `block_pos` and `use_pos` of `allocate_blocked_reg`. -/
def blockedPositions (arch : Arch) (s : ScanState) (current : Nat) : Option (List Nat × List Nat) := do
  let usePos := List.replicate arch.nrRegisters longMax
  let blockPos := List.replicate arch.nrRegisters longMax
  let usePos ← s.active.foldlM (usePosActive s.store current) usePos
  let usePos ← s.inactive.foldlM (usePosInactive arch s.store current) usePos
  let positions ← s.active.foldlM (blockPosActive s.store) (blockPos, usePos)
  s.inactive.foldlM (blockPosInactive arch s.store current) positions

/-- The register that `allocate_blocked_reg` gives to `current`, with its position in `block_pos`; `none` inside when
`current` itself is spilled. -/
def blockedReg (arch : Arch) (s : ScanState) (current : Nat) : Option (Option (Nat × Nat)) := do
  let positions ← blockedPositions arch s current
  let reg ← pickRegister arch positions.2 (s.store.at current).vmType
  if positions.2.getD reg 0 < nextUsePos (s.store.at current) 0 then return none
  return some (reg, positions.1.getD reg 0)

/-- Spill what is left of `current` where its register is blocked. -/
def spillBlocked (store : Intervals) (current blockPos : Nat) (unhandled : Pqueue Nat) :
    Option (Intervals × Pqueue Nat) :=
  if blockPos < intervalEnd (store.at current) then spillInterval store current blockPos unhandled
  else some (store, unhandled)

def allocateBlockedReg (arch : Arch) (s : ScanState) (current : Nat) : Option ScanState := do
  match ← blockedReg arch s current with
  | none =>
    let pos := nextUsePos (s.store.at current) (intervalStart (s.store.at current))
    let (store, unhandled) ← spillInterval s.store current pos s.unhandled
    return { s with store := store, unhandled := unhandled }
  | some (reg, blockPos) =>
    let r ← spillBlocked (withReg s.store current reg) current blockPos s.unhandled
    let (store, unhandled) ← spillAllIntervalsIntersecting current reg s.active s.inactive r
    return { s with store := store, unhandled := unhandled }

/-! ## The loop -/

/-- The loop over one of the two lists. An interval that ends is removed; one for which `interval_covers` is `stays`
remains, and any other moves to the other list. The result has the store, the list and the other list after the loop. -/
def updateList (stays : Bool) (position : Nat) : List Nat → Intervals → List Nat → Intervals × List Nat × List Nat
  | [], store, other => (store, [], other)
  | it :: rest, store, other =>
    if intervalEnd (store.at it) ≤ position then updateList stays position rest store other
    else
      let store := store.put it (intervalExpireRangesBefore (store.at it) position)
      if intervalCovers (store.at it) position = stays then
        let r := updateList stays position rest store other
        (r.1, it :: r.2.1, r.2.2)
      else updateList stays position rest store (it :: other)

/-- The loop over the active list. -/
def updateActive := updateList true

/-- The loop over the inactive list. -/
def updateInactive := updateList false

/-- Take the next interval and update the lists for its start. -/
def scanPrepare (s : ScanState) : Option (Nat × ScanState) := do
  let (current, unhandled) ← s.unhandled.removeTop
  let position := intervalStart (s.store.at current)
  let a := updateActive position s.active s.store s.inactive
  let i := updateInactive position a.2.2 a.1 a.2.1
  return (current, ⟨i.1, i.2.2, i.2.1, unhandled⟩)

/-- An interval without a register gets a blocked one. -/
def allocateUnassigned (arch : Arch) (s : ScanState) (current : Nat) : Option ScanState :=
  if (s.store.at current).reg = none then allocateBlockedReg arch s current else some s

/-- An interval with a register becomes active. -/
def activate (s : ScanState) (current : Nat) : ScanState :=
  if (s.store.at current).reg = none then s else { s with active := current :: s.active }

/-- Allocate a register for `current`. -/
def allocateReg (arch : Arch) (s : ScanState) (current : Nat) : Option ScanState := do
  guard (!(s.store.at current).fixedReg)
  let s ← tryToAllocateFreeReg arch s current
  let s ← allocateUnassigned arch s current
  return activate s current

def scanStep (arch : Arch) (s : ScanState) : Option ScanState := do
  let (current, s) ← scanPrepare s
  allocateReg arch s current

def scanLoop (arch : Arch) : Nat → ScanState → Option ScanState
  | 0, _ => none
  | fuel + 1, s => if s.unhandled = [] then some s else (scanStep arch s).bind (scanLoop arch fuel)

/-- Put the interval of one variable on its list. -/
def scanInsert (arch : Arch) (s : ScanState) (i : Nat) : ScanState :=
  let it := s.store.at i
  if it.ranges = [] then s
  else if it.fixedReg then
    if it.regNumber < arch.nrRegisters then { s with inactive := i :: s.inactive } else s
  else { s with unhandled := s.unhandled.insert (intervalStart it) i }

/-- The state before the loop; `vars` are the intervals of the variables, in the order of their list. -/
def scanInit (arch : Arch) (store : Intervals) (vars : List Nat) : ScanState :=
  vars.foldl (scanInsert arch) ⟨store, [], [], []⟩

/-- The loop that restores the expired ranges of an interval and its children. -/
def restoreChildren : Nat → Option Nat → Intervals → Option Intervals
  | _, none, store => some store
  | 0, some _, _ => none
  | fuel + 1, some i, store =>
    restoreChildren fuel (store.at i).nextChild (store.put i (intervalRestoreExpiredRanges (store.at i)))

/-- The intervals after register allocation. -/
def allocateRegisters (arch : Arch) (fuel : Nat) (store : Intervals) (vars : List Nat) : Option Intervals := do
  let s ← scanLoop arch fuel (scanInit arch store vars)
  vars.foldlM (fun store i => restoreChildren store.length (some i) store) s.store

end Jato.Jit
