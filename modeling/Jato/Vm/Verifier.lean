import Jato.Lib.Bitset
import Jato.Vm.Bytecode

/-!
# The first pass of the verifier

`verifier_first_pass` of `vm/verifier.c` and what it calls. The pass decodes the code once (`firstPassLoop`), marking
the instruction starts in a bit set and collecting the jump destinations in an ordered list, then checks the exception
table, compares the destinations with the marks and looks at the last instruction.

The decoding loop runs on fuel: with a switch size that wraps to `0` the C loop does not end. `none` is a pass that has
not returned; allocation does not fail. `unsigned long` has 64 bits.
-/

namespace Jato.Vm

open Jato.Lib

/-! ## The method -/

/-- The tags of the constant pool that the pass looks for; any other is `other`. -/
inductive ConstantTag
  | integer
  | float
  | long
  | double
  | cls
  | string
  | other
deriving DecidableEq, Repr

/-- `struct cafebabe_code_attribute_exception`. -/
structure ExceptionEntry where
  startPc : Nat
  endPc : Nat
  handlerPc : Nat
  catchType : Nat
deriving DecidableEq, Repr

/-- What the pass reads of a method: its code attribute, whose length is a `uint32_t`, and its constant pool. -/
structure VerifierContext where
  code : List UInt8
  maxLocals : Nat
  exceptionTable : List ExceptionEntry
  constantPool : List ConstantTag
  codeLength_lt : code.length < 2 ^ 32

/-! ## Jump destinations -/

def validDest (offset : Int) (pc codeSize : Nat) : Except VrfErr Unit :=
  if (pc : Int) + offset < 0 then .error .invalidBranch
  else if (codeSize : Int) ≤ pc + offset then .error .invalidBranch
  else .ok ()

/-- Insert a destination into the ordered list, once. -/
def addJumpDestination : List Nat → Nat → List Nat
  | [], dest => [dest]
  | cur :: rest, dest =>
    if cur < dest then cur :: addJumpDestination rest dest
    else if dest = cur then cur :: rest
    else dest :: cur :: rest

/-- Check the destination `offset` bytes from `pc` and register it. -/
def registerDest (code : List UInt8) (pc : Nat) (jd : List Nat) (offset : Int) : Except VrfErr (List Nat) := do
  validDest offset pc code.length
  return addJumpDestination jd (pc + offset).toNat

/-- The loop over the offsets of a switch: every `step` bytes from `pc` up to `endPc`, relative to `basePc`. -/
def addEntryDestinations (code : List UInt8) (basePc endPc step : Nat) :
    Nat → Nat → List Nat → Except VrfErr (List Nat)
  | 0, _, jd => .ok jd
  | fuel + 1, pc, jd =>
    if pc < endPc then do
      let jd ← registerDest code basePc jd (readS32 code pc)
      addEntryDestinations code basePc endPc step fuel (pc + step) jd
    else .ok jd

/-- `x` as a C `int`, added to the `unsigned long` `pc`. -/
def addInt (x : Int) (pc : Nat) : Nat := ((toS32 x + pc) % 2 ^ 64).toNat

/-- Register the default of the switch at `basePc`, then its entries from `pc` up to `endPc`. -/
def addSwitchDestinations (code : List UInt8) (jd : List Nat) (basePc : Nat) (dflt : Int) (pc endPc step : Nat) :
    Except VrfErr (List Nat) := do
  let jd ← registerDest code basePc jd dflt
  addEntryDestinations code basePc endPc step (endPc - pc) pc jd

def addTableswitchDestinations (code : List UInt8) (jd : List Nat) (pc : Nat) : Except VrfErr (List Nat) :=
  let basePc := pc
  let pc := pc + 1 + getTableswitchPadding pc
  let dflt := readS32 code pc
  let low := readS32 code (pc + 4)
  let high := readS32 code (pc + 8)
  let pc := pc + 12
  let endPc := addInt ((high - low) * 4) pc
  addSwitchDestinations code jd basePc dflt pc endPc 4

def addLookupswitchDestinations (code : List UInt8) (jd : List Nat) (pc : Nat) : Except VrfErr (List Nat) :=
  let basePc := pc
  let pc := pc + 1 + getTableswitchPadding pc
  let dflt := readS32 code pc
  let npairs := readS32 code (pc + 4)
  let pc := pc + 8
  let endPc := addInt (npairs * 4 * 2) pc
  -- the offsets stand after the matches
  let pc := pc + 4
  addSwitchDestinations code jd basePc dflt pc endPc 8

/-! ## One instruction -/

def verifyConstantTag (vrf : VerifierContext) (tag : ConstantTag) (index : Nat) : Except VrfErr Unit :=
  match vrf.constantPool[index]? with
  | none => .error .wrongConstantPoolIndex
  | some t => if t ≠ tag then .error .typeChecking else .ok ()

/-- The constant at `index` has one of `tags`; otherwise the error of the last one. -/
def verifyConstantTags (vrf : VerifierContext) (index : Nat) : List ConstantTag → Except VrfErr Unit
  | [] => .ok ()
  | [tag] => verifyConstantTag vrf tag index
  | tag :: tags =>
    match verifyConstantTag vrf tag index with
    | .ok () => .ok ()
    | .error _ => verifyConstantTags vrf index tags

/-- The tags that an `ldc` instruction may refer to. -/
def ldcTags (opc : Nat) : List ConstantTag :=
  if opc = opcLdc2W then [.double, .long] else [.integer, .float, .string, .cls]

/-- The checks of the instruction at `pc`; returns the destinations collected so far. Whether the destinations of a
branch are checked at all depends on the first instruction of the code being `ret`. -/
def firstPassInsn (vrf : VerifierContext) (jd : List Nat) (pc : Nat) : Except VrfErr (List Nat) :=
  let opc := byteAt vrf.code pc
  if bcIsBranch opc then
    if bcIsRet vrf.code 0 then .ok jd
    else if opc = opcTableswitch then addTableswitchDestinations vrf.code jd pc
    else if opc = opcLookupswitch then addLookupswitchDestinations vrf.code jd pc
    else registerDest vrf.code pc jd (bcTargetOff vrf.code pc)
  else if bcUsesLocalVar opc then
    if getLocalVarIndex vrf.code pc < vrf.maxLocals then .ok jd else .error .wrongLocalIndex
  else if bcIsLdc opc then do
    let index := if opc = opcLdc then readU8 vrf.code (pc + 1) else readU16 vrf.code (pc + 1)
    verifyConstantTags vrf index (ldcTags opc)
    return jd
  else .ok jd

/-! ## The whole pass -/

/-- The variables of the decoding loop. -/
structure FirstPassState where
  pc : Nat
  insnMap : Bitset
  jmpDests : List Nat
  lastInsn : Nat

def firstPassInit (vrf : VerifierContext) : FirstPassState := ⟨0, allocBitset vrf.code.length, [], 0⟩

def firstPassLoop (vrf : VerifierContext) : Nat → FirstPassState → Option (Except VrfErr FirstPassState)
  | 0, _ => none
  | fuel + 1, s =>
    if s.pc < vrf.code.length then
      match bcInsnSizeSafe vrf.code s.pc with
      | .error e => some (.error e)
      | .ok size =>
        match firstPassInsn vrf s.jmpDests s.pc with
        | .error e => some (.error e)
        | .ok jd => firstPassLoop vrf fuel ⟨s.pc + size, setBit s.insnMap s.pc, jd, s.pc⟩
    else some (.ok s)

/-- The `do … while` loop of `verify_exception_table` over the entries from the `i`-th on, of `n`. -/
def verifyExceptionEntries (codeLength n : Nat) : Nat → List ExceptionEntry → List Nat → Except VrfErr (List Nat)
  | _, [], jd => .ok jd
  | i, ex :: rest, jd =>
    if ex.endPc < ex.startPc then .error .invalidExceptionHandler
    else if codeLength < ex.endPc then .error .invalidExceptionHandler
    else
      let jd := addJumpDestination jd ex.handlerPc
      if i + 1 < n then verifyExceptionEntries codeLength n (i + 1) rest jd else .ok jd

def verifyExceptionTable (vrf : VerifierContext) (jd : List Nat) : Except VrfErr (List Nat) :=
  if vrf.exceptionTable.length = 0 then .ok jd
  else verifyExceptionEntries vrf.code.length vrf.exceptionTable.length 1 vrf.exceptionTable jd

/-- Look for a branch to `dest` from `pc` on: whether there is one, and the value of `pc` after the search. The size
of an instruction is not an error here, since the code was decoded before; the model then has no result. -/
def findBranchTo (vrf : VerifierContext) (dest : Nat) : Nat → Nat → Option (Bool × Nat)
  | 0, _ => none
  | fuel + 1, pc =>
    if pc < vrf.code.length then
      match bcInsnSizeSafe vrf.code pc with
      | .error _ => none
      | .ok size =>
        if bcIsBranch (byteAt vrf.code pc) ∧ ¬bcIsRet vrf.code 0 ∧
            (pc : Int) + bcTargetOff vrf.code pc = dest then some (true, pc)
        else findBranchTo vrf dest fuel (pc + size)
    else some (false, pc)

/-- Compare the destinations with the instruction starts. A destination that no branch is found for leaves its error
to the checks that follow, together with the `pc` of the search. -/
def checkJumpDests (behind : Nat → Bool) (vrf : VerifierContext) (fuel : Nat) (insnMap : Bitset) :
    List Nat → Option VrfErr × Nat → Option (Except VrfErr (Option VrfErr × Nat))
  | [], r => some (.ok r)
  | dest :: rest, (err, pc) =>
    if testBit behind insnMap dest then checkJumpDests behind vrf fuel insnMap rest (err, pc)
    else
      match findBranchTo vrf dest fuel 0 with
      | none => none
      | some (true, _) => some (.error .invalidBranch)
      | some (false, pc) => checkJumpDests behind vrf fuel insnMap rest (some .invalidBranch, pc)

/-- The checks on the end of the code, after the error so far. -/
def checkEnd (vrf : VerifierContext) (lastInsn pc : Nat) (err : Option VrfErr) : Except VrfErr Unit :=
  let err := if pc ≠ vrf.code.length then some .malformedBc else err
  let err := if bcIsUnconditionnalBranch vrf.code lastInsn then err else some .fallingOff
  match err with
  | some e => .error e
  | none => .ok ()

/-- The pass, with `fuel` for each loop over the code. -/
def verifierFirstPass (behind : Nat → Bool) (fuel : Nat) (vrf : VerifierContext) : Option (Except VrfErr Unit) :=
  match firstPassLoop vrf fuel (firstPassInit vrf) with
  | none => none
  | some (.error e) => some (.error e)
  | some (.ok s) =>
    match verifyExceptionTable vrf s.jmpDests with
    | .error e => some (.error e)
    | .ok jd =>
      match checkJumpDests behind vrf fuel s.insnMap jd (none, s.pc) with
      | none => none
      | some (.error e) => some (.error e)
      | some (.ok (err, pc)) => some (checkEnd vrf s.lastInsn pc err)

/-- The pass returns success. -/
def Accepted (behind : Nat → Bool) (vrf : VerifierContext) : Prop :=
  ∃ fuel, verifierFirstPass behind fuel vrf = some (.ok ())

/-! ## More fuel -/

section Fuel

variable {behind : Nat → Bool} {vrf : VerifierContext} {fuel fuel' : Nat}

theorem firstPassLoop_mono : ∀ {fuel fuel' : Nat} {s : FirstPassState} {r : Except VrfErr FirstPassState},
    fuel ≤ fuel' → firstPassLoop vrf fuel s = some r → firstPassLoop vrf fuel' s = some r
  | 0, _, _, _, _, h => by cases h
  | fuel + 1, 0, _, _, hle, _ => by omega
  | fuel + 1, fuel' + 1, s, r, hle, h => by
    rw [firstPassLoop] at h ⊢
    split
    · rename_i hlt
      rw [if_pos hlt] at h
      cases hsize : bcInsnSizeSafe vrf.code s.pc with
      | error e => simpa only [hsize] using h
      | ok size =>
        cases hinsn : firstPassInsn vrf s.jmpDests s.pc with
        | error e => simpa only [hsize, hinsn] using h
        | ok jd =>
          simp only [hsize, hinsn] at h ⊢
          exact firstPassLoop_mono (Nat.le_of_succ_le_succ hle) h
    · rename_i hlt
      rwa [if_neg hlt] at h

theorem findBranchTo_mono {dest : Nat} : ∀ {fuel fuel' pc : Nat} {r : Bool × Nat}, fuel ≤ fuel' →
    findBranchTo vrf dest fuel pc = some r → findBranchTo vrf dest fuel' pc = some r
  | 0, _, _, _, _, h => by cases h
  | fuel + 1, 0, _, _, hle, _ => by omega
  | fuel + 1, fuel' + 1, pc, r, hle, h => by
    rw [findBranchTo] at h ⊢
    split
    · rename_i hlt
      rw [if_pos hlt] at h
      cases hsize : bcInsnSizeSafe vrf.code pc with
      | error e => simpa only [hsize] using h
      | ok size =>
        simp only [hsize] at h ⊢
        split
        · rename_i hbranch
          rwa [if_pos hbranch] at h
        · rename_i hbranch
          rw [if_neg hbranch] at h
          exact findBranchTo_mono (Nat.le_of_succ_le_succ hle) h
    · rename_i hlt
      rwa [if_neg hlt] at h

theorem checkJumpDests_mono {m : Bitset} {r : Except VrfErr (Option VrfErr × Nat)} (hle : fuel ≤ fuel') :
    ∀ {jd : List Nat} {acc : Option VrfErr × Nat}, checkJumpDests behind vrf fuel m jd acc = some r →
      checkJumpDests behind vrf fuel' m jd acc = some r
  | [], _, h => h
  | dest :: rest, (err, pc), h => by
    rw [checkJumpDests] at h ⊢
    split
    · rename_i ht
      rw [if_pos ht] at h
      exact checkJumpDests_mono hle h
    · rename_i ht
      rw [if_neg ht] at h
      cases hfind : findBranchTo vrf dest fuel 0 with
      | none =>
        rw [hfind] at h
        cases h
      | some found =>
        obtain ⟨found, pc'⟩ := found
        rw [hfind] at h
        rw [findBranchTo_mono hle hfind]
        cases found with
        | true => exact h
        | false => exact checkJumpDests_mono hle h

/-- A pass that has ended does not depend on the fuel. -/
theorem verifierFirstPass_mono {r : Except VrfErr Unit} (hle : fuel ≤ fuel')
    (h : verifierFirstPass behind fuel vrf = some r) : verifierFirstPass behind fuel' vrf = some r := by
  unfold verifierFirstPass at h ⊢
  cases hloop : firstPassLoop vrf fuel (firstPassInit vrf) with
  | none =>
    rw [hloop] at h
    cases h
  | some looped =>
    rw [hloop] at h
    rw [firstPassLoop_mono hle hloop]
    cases looped with
    | error e => exact h
    | ok s =>
      cases hex : verifyExceptionTable vrf s.jmpDests with
      | error e => simpa only [hex] using h
      | ok jd =>
        simp only [hex] at h ⊢
        cases hjd : checkJumpDests behind vrf fuel s.insnMap jd (none, s.pc) with
        | none =>
          rw [hjd] at h
          cases h
        | some checked =>
          rw [hjd] at h
          rw [checkJumpDests_mono hle hjd]
          exact h

theorem Accepted.eq_ok {r : Except VrfErr Unit} (h : Accepted behind vrf) (hr : verifierFirstPass behind fuel vrf = some r) :
    r = .ok () := by
  obtain ⟨fuel', h⟩ := h
  have hmax := verifierFirstPass_mono (Nat.le_max_left fuel' fuel) h
  rw [verifierFirstPass_mono (Nat.le_max_right fuel' fuel) hr] at hmax
  exact Option.some.inj hmax

end Fuel

end Jato.Vm
