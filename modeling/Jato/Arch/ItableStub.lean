import Jato.Jit.Emit
import Jato.Lib.Run

/-!
# Conflict resolution stubs

`emit_itable_resolver_stub` of `arch/x86/emit_64.c` emits a binary search over the interface methods that share a slot
of an itable. The stub gets the address of the called interface method in `%rax`, compares it with the addresses of a
table that is sorted by them, and jumps through an entry of the virtual method table.

The comparisons take immediate operands of at most 32 bits. `leads_emitItableResolverStub` says what the stub does for
every value of `%rax` and every table; `search_eq_some` that this finds the entry of a method if the addresses of the
table fit, and `search_spec` that nothing is found for an address that does not.
-/

namespace Jato.Arch.ItableStub

open Jato.Lib List
open BitVec (ofInt ofNat)
open Jato.Lib.X86 (Byte imm32Bytes takeImm8 takeImm32 word_of_bytes takeImm32_imm32Bytes takeImm8_ofInt)
open Jato.Jit.Emit (maxTextSize drop_of_eq_append lt_length_of_drop length_imm32Bytes)

/-! ## The processor -/

inductive Cond
  | below
  | above
  | equal
deriving DecidableEq

/-- The instructions of a stub, with `%rax` compared and `%rcx` moved, added to and jumped through. -/
inductive Insn
  | mov (imm : BitVec 64)
  | cmp (imm : Int)
  | add (imm : Int)
  | jcc (cond : Cond) (rel : Int)
  | jmp (rel : Int)
  | jmpMem
deriving DecidableEq

def takeImm64 : List Byte → Option (BitVec 64 × List Byte)
  | b0 :: b1 :: b2 :: b3 :: b4 :: b5 :: b6 :: b7 :: rest =>
    some ((b7 ++ b6 ++ b5 ++ b4 ++ b3 ++ b2 ++ b1 ++ b0 : BitVec 64), rest)
  | _ => none

def decode : List Byte → Option (Insn × List Byte)
  | 0x48#8 :: 0xb9#8 :: rest => (takeImm64 rest).map (Prod.map .mov id)
  | 0x48#8 :: 0x83#8 :: 0xf8#8 :: rest => (takeImm8 rest).map (Prod.map .cmp id)
  | 0x48#8 :: 0x81#8 :: 0xf8#8 :: rest => (takeImm32 rest).map (Prod.map .cmp id)
  | 0x48#8 :: 0x83#8 :: 0xc1#8 :: rest => (takeImm8 rest).map (Prod.map .add id)
  | 0x48#8 :: 0x81#8 :: 0xc1#8 :: rest => (takeImm32 rest).map (Prod.map .add id)
  | 0x0f#8 :: 0x82#8 :: rest => (takeImm32 rest).map (Prod.map (.jcc .below) id)
  | 0x0f#8 :: 0x87#8 :: rest => (takeImm32 rest).map (Prod.map (.jcc .above) id)
  | 0x0f#8 :: 0x84#8 :: rest => (takeImm32 rest).map (Prod.map (.jcc .equal) id)
  | 0xe9#8 :: rest => (takeImm32 rest).map (Prod.map .jmp id)
  | 0xff#8 :: 0x21#8 :: rest => some (.jmpMem, rest)
  | _ => none

/-- `compared` has the operands of the last comparison. -/
structure State where
  pc : Nat
  rax : BitVec 64
  rcx : BitVec 64
  compared : Option (BitVec 64 × BitVec 64)

/-- A stub is left through a cell of memory, or by a direct jump to an offset from its start. -/
inductive Outcome
  | indirect (cell : BitVec 64)
  | jump (target : Int)
deriving DecidableEq

def Cond.holds (x y : BitVec 64) : Cond → Bool
  | .below => x < y
  | .above => y < x
  | .equal => x = y

/-- One instruction, where `next` is the offset behind it. Immediate operands are extended with their sign. -/
def exec (s : State) (next : Nat) : Insn → Option (State ⊕ Outcome)
  | .mov imm => some (.inl { s with pc := next, rcx := imm })
  | .cmp imm => some (.inl { s with pc := next, compared := some (s.rax, BitVec.ofInt 64 imm) })
  | .add imm => some (.inl { s with pc := next, rcx := s.rcx + BitVec.ofInt 64 imm, compared := none })
  | .jcc cond rel =>
    match s.compared with
    | none => none
    | some (x, y) =>
      if cond.holds x y then
        if 0 ≤ next + rel then some (.inl { s with pc := (next + rel).toNat }) else none
      else some (.inl { s with pc := next })
  | .jmp rel => some (.inr (.jump (next + rel)))
  | .jmpMem => some (.inr (.indirect s.rcx))

def step (code : List Byte) (s : State) : Option (State ⊕ Outcome) :=
  match decode (code.drop s.pc) with
  | some (insn, rest) => exec s (code.length - rest.length) insn
  | none => none

/-! ## The emitter -/

/-- What the emitter reads of an itable entry: the address of the interface method, and the virtual index of the method
of the class. -/
structure Entry where
  iMethod : BitVec 64
  virtualIndex : Nat
deriving DecidableEq

def isImm8 (imm : Int) : Bool := -128 ≤ imm ∧ imm ≤ 127

def emitImm (imm : Int) : List Byte := if isImm8 imm then [BitVec.ofInt 8 imm] else imm32Bytes imm

def emitAluImmReg (modRm : Byte) (imm : Int) : List Byte :=
  [0x48#8, if isImm8 imm then 0x83#8 else 0x81#8, modRm] ++ emitImm imm

/-- `__emit_cmp_imm_reg` for `%rax`. -/
def emitCmpImmReg : Int → List Byte := emitAluImmReg 0xf8#8

/-- `__emit_add_imm_reg` for `%rcx`. -/
def emitAddImmReg : Int → List Byte := emitAluImmReg 0xc1#8

def emitImm64 (imm : BitVec 64) : List Byte :=
  [imm.extractLsb' 0 8, imm.extractLsb' 8 8, imm.extractLsb' 16 8, imm.extractLsb' 24 8,
    imm.extractLsb' 32 8, imm.extractLsb' 40 8, imm.extractLsb' 48 8, imm.extractLsb' 56 8]

/-- The displacement that `fixup_branch_target` writes at an offset. -/
def fixupBranchTarget (targetP target : Nat) : List Byte := imm32Bytes (target - targetP - 4)

/-- A branch with its placeholder filled in: `opc` is the second byte of its opcode. -/
def emitBranch (opc : Byte) (off target : Nat) : List Byte := [0x0f#8, opc] ++ fixupBranchTarget (off + 2) target

/-- `__emit_jmp` at an offset to one from the start of the stub. -/
def emitJmp (target : Int) (off : Nat) : List Byte := 0xe9#8 :: imm32Bytes (target - off - 5)

section

variable (table : Nat → Entry) (stubError : Int)

/-- The check that the entry is the right one, and the jump through the virtual method table. -/
def emitFound (off : Nat) (e : Entry) : List Byte :=
  let je := off + (emitCmpImmReg e.iMethod.toInt).length
  emitCmpImmReg e.iMethod.toInt ++ (emitBranch 0x84#8 je (je + 11) ++ (emitJmp stubError (je + 6) ++
    (emitAddImmReg (8 * e.virtualIndex) ++ [0xff#8, 0x21#8])))

/-- `emit_itable_bsearch` at an offset. -/
def emitItableBsearch (off a b : Nat) : List Byte :=
  let m := a + (b - a) / 2
  let cmp := if 1 ≤ b - a then emitCmpImmReg (table m).iMethod.toInt else []
  let jb := off + cmp.length
  let ja := if 0 < m - a then jb + 6 else jb
  let found := if 0 < b - m then ja + 6 else ja
  let left := found + (emitFound stubError found (table m)).length
  let leftCode := if 0 < m - a then emitItableBsearch left a (m - 1) else []
  let right := left + leftCode.length
  let rightCode := if 0 < b - m then emitItableBsearch right (m + 1) b else []
  cmp ++ ((if 0 < m - a then emitBranch 0x82#8 jb left else []) ++
    ((if 0 < b - m then emitBranch 0x87#8 ja right else []) ++
      (emitFound stubError found (table m) ++ (leftCode ++ rightCode))))
termination_by b - a

def emitItableResolverStub (nativePtr : BitVec 64) (nrEntries : Nat) : List Byte :=
  let mov := [0x48#8, 0xb9#8] ++ emitImm64 nativePtr
  mov ++ emitItableBsearch table stubError mov.length 0 (nrEntries - 1)

end

/-! ## What a stub searches for -/

/-- What the processor compares with for an immediate operand. -/
def immValue (address : BitVec 64) : BitVec 64 := BitVec.ofInt 64 (address.toInt.bmod (2 ^ 32))

def search (table : Nat → Entry) (x : BitVec 64) (a b : Nat) : Option Nat :=
  let m := a + (b - a) / 2
  if 0 < m - a ∧ x < immValue (table m).iMethod then search table x a (m - 1)
  else if 0 < b - m ∧ immValue (table m).iMethod < x then search table x (m + 1) b
  else if x = immValue (table m).iMethod then some m
  else none
termination_by b - a

/-! ## Decoding -/

variable {off target : Nat}

section

variable (rest : List Byte)

theorem takeImm32_bmod (v : Int) : takeImm32 (imm32Bytes v ++ rest) = some (v.bmod (2 ^ 32), rest) := by
  simp [imm32Bytes, takeImm32, word_of_bytes]

theorem bmod_of_isImm8 {v : Int} (h : isImm8 v) : v.bmod (2 ^ 32) = v := by
  have hrange := of_decide_eq_true h
  exact Int.bmod_eq_of_le (by omega) (by omega)

theorem decode_cmp (imm : Int) : decode (emitCmpImmReg imm ++ rest) = some (.cmp (imm.bmod (2 ^ 32)), rest) := by
  rw [emitCmpImmReg, emitAluImmReg, emitImm]
  split_ifs with h
  · calc _ = (takeImm8 ([ofInt 8 imm] ++ rest)).map (Prod.map Insn.cmp id) := rfl
      _ = _ := by
        rw [singleton_append, takeImm8_ofInt (of_decide_eq_true h), bmod_of_isImm8 h]
        rfl
  · calc _ = (takeImm32 (imm32Bytes imm ++ rest)).map (Prod.map Insn.cmp id) := rfl
      _ = _ := by
        rw [takeImm32_bmod]
        rfl

theorem decode_add {imm : Int} (h : -2 ^ 31 ≤ imm ∧ imm < 2 ^ 31) :
    decode (emitAddImmReg imm ++ rest) = some (.add imm, rest) := by
  rw [emitAddImmReg, emitAluImmReg, emitImm]
  split_ifs with h8
  · calc _ = (takeImm8 ([ofInt 8 imm] ++ rest)).map (Prod.map Insn.add id) := rfl
      _ = _ := by
        rw [singleton_append, takeImm8_ofInt (of_decide_eq_true h8)]
        rfl
  · calc _ = (takeImm32 (imm32Bytes imm ++ rest)).map (Prod.map Insn.add id) := rfl
      _ = _ := by
        rw [takeImm32_imm32Bytes h]
        rfl

def Cond.opc : Cond → Byte
  | .below => 0x82#8
  | .above => 0x87#8
  | .equal => 0x84#8

theorem decode_branch (cond : Cond) (hoff : off ≤ maxTextSize) (htarget : target ≤ maxTextSize) :
    decode (emitBranch cond.opc off target ++ rest) = some (.jcc cond (target - off - 6), rest) := by
  have hdecode : decode (emitBranch cond.opc off target ++ rest) =
      (takeImm32 (fixupBranchTarget (off + 2) target ++ rest)).map (Prod.map (.jcc cond) id) := by
    cases cond <;> rfl
  have hrange : -2 ^ 31 ≤ (target : Int) - ↑(off + 2) - 4 ∧ (target : Int) - ↑(off + 2) - 4 < 2 ^ 31 := by
    unfold maxTextSize at hoff htarget
    omega
  rw [hdecode, fixupBranchTarget, takeImm32_imm32Bytes hrange, Option.map_some, Prod.map_apply]
  congr 3
  omega

theorem decode_jmp (target : Int) (off : Nat) :
    decode (emitJmp target off ++ rest) = some (.jmp ((target - off - 5).bmod (2 ^ 32)), rest) := by
  calc _ = (takeImm32 (imm32Bytes (target - off - 5) ++ rest)).map (Prod.map Insn.jmp id) := rfl
    _ = _ := by
      rw [takeImm32_bmod]
      rfl

theorem qword_of_bytes (v : BitVec 64) :
    (v.extractLsb' 56 8 ++ v.extractLsb' 48 8 ++ v.extractLsb' 40 8 ++ v.extractLsb' 32 8 ++ v.extractLsb' 24 8 ++
      v.extractLsb' 16 8 ++ v.extractLsb' 8 8 ++ v.extractLsb' 0 8 : BitVec 64) = v := by
  ext i hi
  simp only [BitVec.getElem_append, BitVec.getElem_extractLsb']
  split_ifs <;> (rw [BitVec.getLsbD_eq_getElem (by omega)]; congr 1; omega)

theorem decode_mov (imm : BitVec 64) : decode ([0x48#8, 0xb9#8] ++ emitImm64 imm ++ rest) = some (.mov imm, rest) := by
  calc _ = (takeImm64 (emitImm64 imm ++ rest)).map (Prod.map Insn.mov id) := rfl
    _ = _ := by
      simp only [emitImm64, cons_append, nil_append, takeImm64, qword_of_bytes]
      rfl

end

/-! ## Steps -/

section

variable {code bytes rest : List Byte} {s : State} {off target : Nat}

theorem drop_add_length (h : code.drop off = bytes ++ rest) : code.drop (off + bytes.length) = rest := by
  rw [← drop_drop]
  exact drop_of_eq_append h rfl

theorem step_eq {insn : Insn} (r v : BitVec 64) (compared : Option (BitVec 64 × BitVec 64))
    (hcode : code.drop off = bytes ++ rest) (hbytes : bytes ≠ []) (hdecode : decode (bytes ++ rest) = some (insn, rest)) :
    step code ⟨off, r, v, compared⟩ = exec ⟨off, r, v, compared⟩ (off + bytes.length) insn := by
  have hlt := lt_length_of_drop hcode hbytes
  have hlen := congrArg List.length hcode
  rw [length_drop, length_append] at hlen
  have hnext : code.length - rest.length = off + bytes.length := by omega
  simp [step, hcode, hdecode, hnext]

theorem emitAluImmReg_ne (modRm : Byte) (imm : Int) : emitAluImmReg modRm imm ≠ [] := nofun

@[simp] theorem length_emitBranch (opc : Byte) (off target : Nat) : (emitBranch opc off target).length = 6 := rfl

@[simp] theorem length_emitJmp (target : Int) (off : Nat) : (emitJmp target off).length = 5 := rfl

theorem emitBranch_ne (opc : Byte) (off target : Nat) : emitBranch opc off target ≠ [] := nofun

theorem step_branch (cond : Cond) (x y r v : BitVec 64) (hcode : code.drop off = emitBranch cond.opc off target ++ rest)
    (hsize : code.length ≤ maxTextSize) (htarget : target ≤ code.length) : step code ⟨off, r, v, some (x, y)⟩ =
      some (.inl ⟨if cond.holds x y then target else off + 6, r, v, some (x, y)⟩) := by
  have hlt := lt_length_of_drop hcode (emitBranch_ne _ _ _)
  have hdecode := decode_branch rest cond (hlt.le.trans hsize) (htarget.trans hsize)
  have heq : ((off + 6 : Nat) : Int) + (target - off - 6) = target := by omega
  rw [step_eq _ _ _ hcode (emitBranch_ne _ _ _) hdecode, exec, length_emitBranch]
  simp only [heq, if_pos (Int.natCast_nonneg target), Int.toNat_natCast]
  split_ifs <;> rfl

end

/-! ## Searching -/

section

variable {table : Nat → Entry} {stubError : Int} {code rest : List Byte} {x y v : BitVec 64}

/-- The stub goes on through the entry with the index, or leaves with a jump if there is none. -/
def Finds (table : Nat → Entry) (code : List Byte) (s : State) : Option Nat → Prop
  | some i => Leads (step code) s (.indirect (s.rcx + BitVec.ofNat 64 (8 * (table i).virtualIndex)))
  | none => ∃ target, Leads (step code) s (.jump target)

variable {r : Option Nat} {address : BitVec 64} {m a b i : Nat} {bytes : List Byte}

theorem Finds.next {s s' : State} (hstep : step code s = some (.inl s')) (hrcx : s'.rcx = s.rcx)
    (h : Finds table code s' r) : Finds table code s r := by
  cases r with
  | none =>
    obtain ⟨target, h⟩ := h
    exact ⟨target, h.next hstep⟩
  | some i =>
    rw [Finds, hrcx] at h
    exact h.next hstep

theorem step_cmp (x v : BitVec 64) (compared : Option (BitVec 64 × BitVec 64))
    (hcode : code.drop off = emitCmpImmReg address.toInt ++ rest) : step code ⟨off, x, v, compared⟩ =
      some (.inl ⟨off + (emitCmpImmReg address.toInt).length, x, v, some (x, immValue address)⟩) :=
  step_eq x v compared hcode (emitAluImmReg_ne _ _) (decode_cmp rest _)

variable (x v) in
theorem finds_emitFound (hsize : code.length ≤ maxTextSize) (hindex : 8 * (table m).virtualIndex < 2 ^ 31)
    (hcode : code.drop off = emitFound stubError off (table m) ++ rest) (compared : Option (BitVec 64 × BitVec 64)) :
    Finds table code ⟨off, x, v, compared⟩ (if x = immValue (table m).iMethod then some m else none) := by
  rw [emitFound, append_assoc] at hcode
  have hcmp := step_cmp x v compared hcode
  have hje := drop_add_length hcode
  generalize off + (emitCmpImmReg (table m).iMethod.toInt).length = je at hcmp hje
  rw [append_assoc] at hje
  have hjmp := drop_add_length hje
  rw [append_assoc] at hjmp
  have hadd := drop_add_length hjmp
  rw [append_assoc, length_emitBranch, length_emitJmp] at hadd
  have hlt := lt_length_of_drop hadd (emitAluImmReg_ne _ _)
  refine Finds.next hcmp rfl (Finds.next (step_branch .equal _ _ _ _ hje hsize hlt.le) rfl ?_)
  by_cases hx : x = immValue (table m).iMethod
  · have hholds : Cond.equal.holds x (immValue (table m).iMethod) = true := decide_eq_true hx
    rw [if_pos hx, if_pos hholds]
    have hrange : -2 ^ 31 ≤ (8 * (table m).virtualIndex : Int) ∧ (8 * (table m).virtualIndex : Int) < 2 ^ 31 := by omega
    have hdecode := decode_add ([0xff#8, 0x21#8] ++ rest) hrange
    have himm : ofInt 64 (8 * (table m).virtualIndex) = ofNat 64 (8 * (table m).virtualIndex) :=
      BitVec.ofInt_natCast 64 (8 * (table m).virtualIndex)
    refine Leads.next (step_eq _ _ _ hadd (emitAluImmReg_ne _ _) hdecode) (Leads.done ?_)
    rw [step_eq _ _ _ (drop_add_length hadd) (by simp) rfl, himm]
    rfl
  · have hholds : ¬ Cond.equal.holds x (immValue (table m).iMethod) = true := by
      rw [Cond.holds, decide_eq_true_eq]
      exact hx
    rw [if_neg hx, if_neg hholds]
    exact ⟨_, Leads.done (step_eq _ _ _ hjmp (by rintro ⟨⟩) (decode_jmp _ _ _))⟩

theorem add_length_branch (side : Prop) [Decidable side] (opc : Byte) (off target : Nat) :
    off + (if side then emitBranch opc off target else []).length = if side then off + 6 else off := by
  split_ifs <;> rfl

theorem emitFound_ne (stubError : Int) (off : Nat) (e : Entry) : emitFound stubError off e ≠ [] := nofun

theorem add_length_le (h : code.drop off = bytes ++ rest) (hoff : off ≤ code.length) :
    off + bytes.length ≤ code.length := by
  have hlen := congrArg List.length h
  rw [length_drop, length_append] at hlen
  omega

theorem Finds.branch {side : Prop} [Decidable side] (cond : Cond)
    (hcode : code.drop off = (if side then emitBranch cond.opc off target else []) ++ rest)
    (hsize : code.length ≤ maxTextSize) (htarget : target ≤ code.length)
    (htaken : side ∧ cond.holds x y → Finds table code ⟨target, x, v, some (x, y)⟩ r)
    (hnot : ¬ (side ∧ cond.holds x y) → Finds table code ⟨if side then off + 6 else off, x, v, some (x, y)⟩ r) :
    Finds table code ⟨off, x, v, some (x, y)⟩ r := by
  by_cases hside : side
  · rw [if_pos hside] at hcode hnot
    refine Finds.next (step_branch cond x y x v hcode hsize htarget) rfl ?_
    by_cases hholds : cond.holds x y
    · rw [if_pos hholds]
      exact htaken ⟨hside, hholds⟩
    · rw [if_neg hholds]
      exact hnot fun h => hholds h.2
  · rw [if_neg hside] at hnot
    exact hnot fun h => hside h.1

variable (table stubError) in
/-- The parts of the code for at least two entries, with their offsets. -/
theorem emitItableBsearch_eq (off : Nat) (hone : 1 ≤ b - a) (hm : m = a + (b - a) / 2) :
    ∃ jb ja found left right, jb = off + (emitCmpImmReg (table m).iMethod.toInt).length ∧
      (ja = if 0 < m - a then jb + 6 else jb) ∧ (found = if 0 < b - m then ja + 6 else ja) ∧
      left = found + (emitFound stubError found (table m)).length ∧
      right = left + (if 0 < m - a then emitItableBsearch table stubError left a (m - 1) else []).length ∧
      emitItableBsearch table stubError off a b = emitCmpImmReg (table m).iMethod.toInt ++
        ((if 0 < m - a then emitBranch 0x82#8 jb left else []) ++
          ((if 0 < b - m then emitBranch 0x87#8 ja right else []) ++ (emitFound stubError found (table m) ++
              ((if 0 < m - a then emitItableBsearch table stubError left a (m - 1) else []) ++
                (if 0 < b - m then emitItableBsearch table stubError right (m + 1) b else []))))) := by
  refine ⟨_, _, _, _, _, rfl, rfl, rfl, rfl, rfl, ?_⟩
  rw [emitItableBsearch]
  simp [← hm, if_pos hone]

variable (x v) in
/-- **The search** that the emitted code does. -/
theorem finds_emitItableBsearch (hsize : code.length ≤ maxTextSize) (hindex : ∀ i, 8 * (table i).virtualIndex < 2 ^ 31)
    (hle : a ≤ b) (hcode : code.drop off = emitItableBsearch table stubError off a b ++ rest)
    (compared : Option (BitVec 64 × BitVec 64)) : Finds table code ⟨off, x, v, compared⟩ (search table x a b) := by
  -- the induction is on the number of entries
  induction hn : b - a using Nat.strong_induction_on generalizing off a b rest compared with
  | _ n ih =>
    rw [search]
    obtain ⟨m, hm⟩ : ∃ m, m = a + (b - a) / 2 := ⟨_, rfl⟩
    simp only [← hm]
    by_cases hone : 1 ≤ b - a
    · obtain ⟨jb, ja, found, left, right, hjbEq, hjaEq, hfoundEq, hleftEq, hrightEq, hemit⟩ :=
        emitItableBsearch_eq table stubError off hone hm
      rw [hemit] at hcode
      simp only [append_assoc] at hcode
      have hjb := drop_add_length hcode
      rw [← hjbEq] at hjb
      have hja := drop_add_length hjb
      rw [add_length_branch, ← hjaEq] at hja
      have hfound := drop_add_length hja
      rw [add_length_branch, ← hfoundEq] at hfound
      have hleft := drop_add_length hfound
      have hleftLe := add_length_le hfound (lt_length_of_drop hfound (emitFound_ne _ _ _)).le
      rw [← hleftEq] at hleft hleftLe
      have hright := drop_add_length hleft
      have hrightLe := add_length_le hleft hleftLe
      rw [← hrightEq] at hright hrightLe
      have hcmp := step_cmp x v compared hcode
      rw [← hjbEq] at hcmp
      refine Finds.next hcmp rfl (Finds.branch .below hjb hsize hleftLe ?_ ?_)
      · rintro ⟨hside, hlt⟩
        rw [if_pos hside] at hleft
        rw [if_pos ⟨hside, of_decide_eq_true hlt⟩]
        exact ih (m - 1 - a) (by omega) (by omega) hleft _ rfl
      · intro hnotBelow
        rw [← hjaEq, if_neg fun h => hnotBelow ⟨h.1, decide_eq_true h.2⟩]
        refine Finds.branch .above hja hsize hrightLe ?_ ?_
        · rintro ⟨hside, hlt⟩
          rw [if_pos hside] at hright
          rw [if_pos ⟨hside, of_decide_eq_true hlt⟩]
          exact ih (b - (m + 1)) (by omega) (by omega) hright _ rfl
        · intro hnotAbove
          rw [← hfoundEq, if_neg fun h => hnotAbove ⟨h.1, decide_eq_true h.2⟩]
          exact finds_emitFound x v hsize (hindex m) hfound _
    · have hleft : ¬ 0 < m - a := by omega
      have hright : ¬ 0 < b - m := by omega
      rw [emitItableBsearch] at hcode
      simp only [← hm, if_neg hone, if_neg hleft, if_neg hright, nil_append, append_nil, length_nil,
        add_zero] at hcode
      simp only [if_neg fun h => hleft (And.left h), if_neg fun h => hright (And.left h)]
      exact finds_emitFound x v hsize (hindex m) hcode compared

variable (x) in
/-- **The stub** searches from its start, with the virtual method table of the class in `%rcx`. -/
theorem leads_emitItableResolverStub {nativePtr : BitVec 64} {nrEntries : Nat}
    (hsize : (emitItableResolverStub table stubError nativePtr nrEntries).length ≤ maxTextSize)
    (hindex : ∀ i, 8 * (table i).virtualIndex < 2 ^ 31) (rcx : BitVec 64) :
    match search table x 0 (nrEntries - 1) with
    | some i => Leads (step (emitItableResolverStub table stubError nativePtr nrEntries)) ⟨0, x, rcx, none⟩
        (.indirect (nativePtr + ofNat 64 (8 * (table i).virtualIndex)))
    | none => ∃ target, Leads (step (emitItableResolverStub table stubError nativePtr nrEntries)) ⟨0, x, rcx, none⟩
        (.jump target) := by
  obtain ⟨code, hcode⟩ : ∃ code, code = emitItableResolverStub table stubError nativePtr nrEntries := ⟨_, rfl⟩
  rw [← hcode] at hsize ⊢
  have hmov : code.drop 0 = ([0x48#8, 0xb9#8] ++ emitImm64 nativePtr) ++
      (emitItableBsearch table stubError 10 0 (nrEntries - 1)) := hcode
  have hstep : step code ⟨0, x, rcx, none⟩ = some (.inl ⟨10, x, nativePtr, none⟩) :=
    step_eq x rcx none hmov (by simp) (decode_mov _ nativePtr)
  have hsearch := drop_add_length hmov
  rw [← append_nil (emitItableBsearch _ _ _ _ _)] at hsearch
  have hfinds := finds_emitItableBsearch x nativePtr hsize hindex (Nat.zero_le _) hsearch none
  cases hr : search table x 0 (nrEntries - 1) with
  | none =>
    rw [hr] at hfinds
    obtain ⟨target, hfinds⟩ := hfinds
    exact ⟨target, hfinds.next hstep⟩
  | some i =>
    rw [hr] at hfinds
    exact Leads.next hstep hfinds

/-- The address is the sign extension of its low 32 bits. -/
def FitsImm32 (address : BitVec 64) : Prop := -2 ^ 31 ≤ address.toInt ∧ address.toInt < 2 ^ 31

instance (address : BitVec 64) : Decidable (FitsImm32 address) := inferInstanceAs (Decidable (_ ∧ _))

theorem immValue_of_fits (h : FitsImm32 address) : immValue address = address := by
  unfold FitsImm32 at h
  rw [immValue, Int.bmod_eq_of_le (by omega) (by omega), BitVec.ofInt_toInt]

theorem fits_immValue (address : BitVec 64) : FitsImm32 (immValue address) := by
  have hlow : -(2 ^ 32 : Nat) / 2 ≤ address.toInt.bmod (2 ^ 32) := Int.le_bmod (by decide)
  have hhigh : address.toInt.bmod (2 ^ 32) < ((2 ^ 32 : Nat) + 1) / 2 := Int.bmod_lt (by decide)
  have hvalue : (immValue address).toInt = address.toInt.bmod (2 ^ 32) := by
    rw [immValue, BitVec.toInt_ofInt]
    exact Int.bmod_eq_of_le (by omega) (by omega)
  rw [FitsImm32, hvalue]
  omega

theorem search_spec (h : search table x a b = some i) (hle : a ≤ b) :
    a ≤ i ∧ i ≤ b ∧ immValue (table i).iMethod = x := by
  fun_induction search table x a b with
  | case1 a b m hm ih =>
    obtain ⟨hai, hib, hi⟩ := ih h (by omega)
    exact ⟨hai, by omega, hi⟩
  | case2 a b m hm hm' ih =>
    obtain ⟨hai, hib, hi⟩ := ih h (by omega)
    exact ⟨by omega, hib, hi⟩
  | case3 a b m hm hm' heq =>
    obtain rfl := Option.some.inj h
    exact ⟨by omega, by omega, heq.symm⟩
  | case4 => cases h

theorem search_eq_some (hai : a ≤ i) (hib : i ≤ b) (hfits : ∀ j, a ≤ j → j ≤ b → FitsImm32 (table j).iMethod)
    (hsorted : ∀ j k, a ≤ j → j < k → k ≤ b → (table j).iMethod < (table k).iMethod) :
    search table (table i).iMethod a b = some i := by
  induction hn : b - a using Nat.strong_induction_on generalizing a b with
  | _ n ih =>
    obtain ⟨m, hm⟩ : ∃ m, m = a + (b - a) / 2 := ⟨_, rfl⟩
    rw [search]
    simp only [← hm, immValue_of_fits (hfits m (by omega) (by omega))]
    rcases Nat.lt_trichotomy i m with hlt | rfl | hlt
    · have hbelow := hsorted i m hai hlt (by omega)
      rw [if_pos ⟨by omega, hbelow⟩]
      exact ih (m - 1 - a) (by omega) hai (by omega) (fun j hj hj' => hfits j hj (by omega))
        (fun j k hj hjk hk => hsorted j k hj hjk (by omega)) rfl
    · rw [if_neg fun h => BitVec.lt_irrefl _ h.2, if_neg fun h => BitVec.lt_irrefl _ h.2, if_pos rfl]
    · have habove := hsorted m i (by omega) hlt hib
      rw [if_neg fun h => BitVec.lt_asymm habove h.2, if_pos ⟨by omega, habove⟩]
      exact ih (b - (m + 1)) (by omega) (by omega) hib (fun j hj hj' => hfits j (by omega) hj')
        (fun j k hj hjk hk => hsorted j k (by omega) hjk hk) rfl

theorem length_emitAluImmReg_le (modRm : Byte) (imm : Int) : (emitAluImmReg modRm imm).length ≤ 7 := by
  unfold emitAluImmReg emitImm
  split_ifs
  · exact Nat.le_of_ble_eq_true rfl
  · exact le_refl 7

theorem length_ite_le {side : Prop} [Decidable side] {n : Nat} (h : side → bytes.length ≤ n) :
    (if side then bytes else []).length ≤ n := by
  split_ifs with hside
  · exact h hside
  · exact Nat.zero_le n

variable (table stubError) in
theorem length_emitItableBsearch_le (off a b : Nat) (hle : a ≤ b) :
    (emitItableBsearch table stubError off a b).length ≤ 46 * (b - a + 1) := by
  induction hn : b - a using Nat.strong_induction_on generalizing off a b with
  | _ n ih =>
    obtain ⟨m, hm⟩ : ∃ m, m = a + (b - a) / 2 := ⟨_, rfl⟩
    have hcmp := length_emitAluImmReg_le 0xf8#8 (table m).iMethod.toInt
    have hadd := length_emitAluImmReg_le 0xc1#8 (8 * (table m).virtualIndex)
    have hfound off : (emitFound stubError off (table m)).length ≤ 27 := by
      simp only [emitFound, length_append, length_emitBranch, length_emitJmp, emitCmpImmReg, emitAddImmReg,
        length_cons, length_nil]
      omega
    have hleft off (h : 0 < m - a) : (emitItableBsearch table stubError off a (m - 1)).length ≤ 46 * (m - a) := by
      have := ih (m - 1 - a) (by omega) off a (m - 1) (by omega) rfl
      omega
    have hright off (h : 0 < b - m) : (emitItableBsearch table stubError off (m + 1) b).length ≤ 46 * (b - m) := by
      have := ih (b - (m + 1)) (by omega) off (m + 1) b (by omega) rfl
      omega
    rw [emitItableBsearch]
    simp only [← hm, length_append]
    calc _ ≤ 7 + (6 + (6 + (27 + (46 * (m - a) + 46 * (b - m))))) := by
          refine Nat.add_le_add ?_ (Nat.add_le_add ?_ (Nat.add_le_add ?_ (Nat.add_le_add (hfound _) (Nat.add_le_add ?_ ?_))))
          · exact length_ite_le fun _ => hcmp
          · exact length_ite_le fun _ => le_refl 6
          · exact length_ite_le fun _ => le_refl 6
          · exact length_ite_le (hleft _)
          · exact length_ite_le (hright _)
      _ ≤ 46 * (n + 1) := by omega

end

end Jato.Arch.ItableStub
