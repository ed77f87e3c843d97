import Mathlib.Algebra.Order.Ring.Nat

/-!
# Emulated arithmetic

The integer routines of `jit/emulate.c` that compiled code calls for divisions, remainders, shifts and comparisons of
long values. A quotient that is not representable and a shift by the width of the operand or more are undefined (the
first one traps on x86). Where the C standard leaves the rest to the compiler (right shifts of negative values) or
undefined (left shifts of them), the operations have the values that GCC gives them. `emulate_eq_jvm_iff` says for
which operands the routines return what the Java virtual machine specifies.
-/

namespace Jato.Jit.Emulate

open BitVec (ofInt intMin ofInt_toInt toInt_srem toNat_inj)

/-! ## The operations of C -/

/-- The end of a call: a value, the signal of an `ArithmeticException`, or undefined behaviour. -/
inductive Outcome
  | value (v : Int)
  | arithmeticException
  | undefined
deriving DecidableEq

section Width

variable {w : Nat}

/-- The value is one of the signed type of `w` bits. -/
def Fits (w : Nat) (v : Int) : Prop := -2 ^ (w - 1) ≤ v ∧ v < 2 ^ (w - 1)

instance : DecidablePred (Fits w) := fun _ => inferInstanceAs (Decidable (_ ∧ _))

def cDiv (a b : BitVec w) : Outcome :=
  if Fits w (a.toInt.tdiv b.toInt) then .value (a.toInt.tdiv b.toInt) else .undefined

/-- The remainder is defined where the quotient is. -/
def cRem (a b : BitVec w) : Outcome :=
  if Fits w (a.toInt.tdiv b.toInt) then .value (a.toInt.tmod b.toInt) else .undefined

def cShl (a : BitVec w) (n : Nat) : Outcome := if n < w then .value (a <<< n).toInt else .undefined

/-- The shift of a signed value. -/
def cShr (a : BitVec w) (n : Nat) : Outcome := if n < w then .value (a.sshiftRight n).toInt else .undefined

/-- The shift of an unsigned value, converted to the signed type. -/
def cUshr (a : BitVec w) (n : Nat) : Outcome := if n < w then .value (a >>> n).toInt else .undefined

/-! ## The routines -/

def emulateDiv (value1 value2 : BitVec w) : Outcome :=
  if value2 = 0 then .arithmeticException else cDiv value1 value2

def emulateRem (value1 value2 : BitVec w) : Outcome :=
  if value2 = 0 then .arithmeticException else cRem value1 value2

end Width

def emulateLcmp (value1 value2 : BitVec 64) : Outcome :=
  if value1.toInt < value2.toInt then .value (-1)
  else if value2.toInt < value1.toInt then .value 1
  else .value 0

def emulateIdiv (value1 value2 : BitVec 32) : Outcome := emulateDiv value1 value2

def emulateIrem (value1 value2 : BitVec 32) : Outcome := emulateRem value1 value2

def emulateLdiv (value1 value2 : BitVec 64) : Outcome := emulateDiv value1 value2

def emulateLrem (value1 value2 : BitVec 64) : Outcome := emulateRem value1 value2

/-- The shift count of all six shifts. -/
def shiftCount (value2 : BitVec 32) : Nat := (value2 &&& 0x3f).toNat

def emulateIshl (value1 value2 : BitVec 32) : Outcome := cShl value1 (shiftCount value2)

def emulateIshr (value1 value2 : BitVec 32) : Outcome := cShr value1 (shiftCount value2)

def emulateIushr (value1 value2 : BitVec 32) : Outcome := cUshr value1 (shiftCount value2)

def emulateLshl (value1 : BitVec 64) (value2 : BitVec 32) : Outcome := cShl value1 (shiftCount value2)

def emulateLshr (value1 : BitVec 64) (value2 : BitVec 32) : Outcome := cShr value1 (shiftCount value2)

def emulateLushr (value1 : BitVec 64) (value2 : BitVec 32) : Outcome := cUshr value1 (shiftCount value2)

/-- A call of one of the routines. -/
inductive Call
  | idiv (value1 value2 : BitVec 32)
  | irem (value1 value2 : BitVec 32)
  | ldiv (value1 value2 : BitVec 64)
  | lrem (value1 value2 : BitVec 64)
  | ishl (value1 value2 : BitVec 32)
  | ishr (value1 value2 : BitVec 32)
  | iushr (value1 value2 : BitVec 32)
  | lshl (value1 : BitVec 64) (value2 : BitVec 32)
  | lshr (value1 : BitVec 64) (value2 : BitVec 32)
  | lushr (value1 : BitVec 64) (value2 : BitVec 32)
  | lcmp (value1 value2 : BitVec 64)

def emulate : Call → Outcome
  | .idiv a b => emulateIdiv a b
  | .irem a b => emulateIrem a b
  | .ldiv a b => emulateLdiv a b
  | .lrem a b => emulateLrem a b
  | .ishl a b => emulateIshl a b
  | .ishr a b => emulateIshr a b
  | .iushr a b => emulateIushr a b
  | .lshl a b => emulateLshl a b
  | .lshr a b => emulateLshr a b
  | .lushr a b => emulateLushr a b
  | .lcmp a b => emulateLcmp a b

/-! ## What the virtual machine specifies -/

/-- A value that does not fit wraps around. -/
def wrap (w : Nat) (v : Int) : Outcome := .value (BitVec.ofInt w v).toInt

def jvmDiv {w : Nat} (a b : BitVec w) : Outcome :=
  if b.toInt = 0 then .arithmeticException else wrap w (a.toInt.tdiv b.toInt)

/-- The remainder is what the quotient leaves: `a - (a / b) * b`. -/
def jvmRem {w : Nat} (a b : BitVec w) : Outcome :=
  if b.toInt = 0 then .arithmeticException else wrap w (a.toInt - a.toInt.tdiv b.toInt * b.toInt)

/-- The low five bits of the count, or six for a long value. -/
def jvmCount (w : Nat) (b : BitVec 32) : Nat := b.toNat % w

def jvm : Call → Outcome
  | .idiv a b => jvmDiv a b
  | .irem a b => jvmRem a b
  | .ldiv a b => jvmDiv a b
  | .lrem a b => jvmRem a b
  | .ishl a b => wrap 32 (a.toInt * 2 ^ jvmCount 32 b)
  | .ishr a b => wrap 32 (a.toInt / 2 ^ jvmCount 32 b)
  | .iushr a b => wrap 32 (a.toNat / 2 ^ jvmCount 32 b)
  | .lshl a b => wrap 64 (a.toInt * 2 ^ jvmCount 64 b)
  | .lshr a b => wrap 64 (a.toInt / 2 ^ jvmCount 64 b)
  | .lushr a b => wrap 64 (a.toNat / 2 ^ jvmCount 64 b)
  | .lcmp a b => .value (if b.toInt < a.toInt then 1 else if a.toInt = b.toInt then 0 else -1)

/-- The operands avoid the two cases that C does not define: the most negative value divided by minus one, and a shift
of an `int` whose count has bit 5 set. -/
def Call.Defined : Call → Prop
  | .idiv a b | .irem a b => ¬(a = BitVec.intMin 32 ∧ b = -1)
  | .ldiv a b | .lrem a b => ¬(a = BitVec.intMin 64 ∧ b = -1)
  | .ishl _ b | .ishr _ b | .iushr _ b => b.getLsbD 5 = false
  | .lshl _ _ | .lshr _ _ | .lushr _ _ | .lcmp _ _ => True

/-! ## Division -/

section Division

variable {w : Nat} {a b : BitVec w}

/-- A quotient of signed values is representable in all but one case. -/
theorem fits_tdiv_iff (hw : 1 < w) : Fits w (a.toInt.tdiv b.toInt) ↔ ¬(a = intMin w ∧ b = -1) := by
  constructor
  · rintro ⟨-, hlt⟩ ⟨rfl, rfl⟩
    have hone : (-1 : BitVec w).toInt = -1 := by
      have hall : (-1 : BitVec w) = BitVec.allOnes w := BitVec.neg_one_eq_allOnes
      rw [hall, BitVec.toInt_allOnes, if_pos (by omega)]
    rw [BitVec.toInt_intMin_of_pos (by omega), hone, Int.tdiv_neg, Int.tdiv_one, Int.neg_neg] at hlt
    exact Int.lt_irrefl _ hlt
  · intro h
    rw [← BitVec.toInt_sdiv_of_ne_or_ne a b (not_and_or.mp h)]
    exact ⟨BitVec.le_toInt _, BitVec.toInt_lt⟩

theorem wrap_toInt : wrap w a.toInt = .value a.toInt := by rw [wrap, ofInt_toInt]

theorem toInt_eq_zero_iff : b.toInt = 0 ↔ b = 0 := by
  rw [← BitVec.toInt_inj]
  exact Iff.of_eq (congrArg (b.toInt = ·) BitVec.toInt_zero.symm)

theorem fits_tdiv_zero (hb : b = 0) : Fits w (a.toInt.tdiv b.toInt) := by
  have hpos : (0 : Int) < 2 ^ (w - 1) := Int.pow_pos (by decide)
  rw [toInt_eq_zero_iff.mpr hb, Int.tdiv_zero]
  exact ⟨Int.neg_nonpos_of_nonneg (Int.le_of_lt hpos), hpos⟩

theorem emulateDiv_eq_jvmDiv_iff (hw : 1 < w) : emulateDiv a b = jvmDiv a b ↔ ¬(a = intMin w ∧ b = -1) := by
  rw [← fits_tdiv_iff hw, emulateDiv, jvmDiv]
  by_cases hb : b = 0
  · rw [if_pos hb, if_pos (toInt_eq_zero_iff.mpr hb)]
    exact iff_of_true rfl (fits_tdiv_zero hb)
  · rw [if_neg hb, if_neg (mt toInt_eq_zero_iff.mp hb), cDiv]
    by_cases hfits : Fits w (a.toInt.tdiv b.toInt)
    · have hdiv := BitVec.toInt_sdiv_of_ne_or_ne a b (not_and_or.mp ((fits_tdiv_iff hw).mp hfits))
      rw [if_pos hfits, ← hdiv, wrap_toInt]
      exact iff_of_true rfl (hdiv ▸ hfits)
    · rw [if_neg hfits]
      exact iff_of_false (by rintro ⟨⟩) hfits

theorem emulateRem_eq_jvmRem_iff (hw : 1 < w) : emulateRem a b = jvmRem a b ↔ ¬(a = intMin w ∧ b = -1) := by
  rw [← fits_tdiv_iff hw, emulateRem, jvmRem]
  by_cases hb : b = 0
  · rw [if_pos hb, if_pos (toInt_eq_zero_iff.mpr hb)]
    exact iff_of_true rfl (fits_tdiv_zero hb)
  · rw [if_neg hb, if_neg (mt toInt_eq_zero_iff.mp hb), cRem]
    by_cases hfits : Fits w (a.toInt.tdiv b.toInt)
    · have hrem : a.toInt - a.toInt.tdiv b.toInt * b.toInt = (a.srem b).toInt := by
        rw [toInt_srem, Int.tmod_def, Int.mul_comm]
      rw [if_pos hfits, hrem, wrap_toInt, toInt_srem]
      exact iff_of_true rfl hfits
    · rw [if_neg hfits]
      exact iff_of_false (by rintro ⟨⟩) hfits

end Division

/-! ## Shifts -/

variable {b : BitVec 32}

section Shifts

variable {w : Nat} {a : BitVec w} {n : Nat}

theorem cShl_eq (h : n < w) : cShl a n = wrap w (a.toInt * 2 ^ n) := by
  have hmul : ofInt w (a.toInt * 2 ^ n) = a <<< n := by
    rw [BitVec.ofInt_mul, ofInt_toInt, BitVec.shiftLeft_eq_mul_twoPow]
    congr 1
    rw [← toNat_inj, BitVec.toNat_twoPow]
    norm_cast
  rw [cShl, if_pos h, wrap, hmul]

theorem cShr_eq (h : n < w) : cShr a n = wrap w (a.toInt / 2 ^ n) := by
  have hdiv : a.toInt / 2 ^ n = (a.sshiftRight n).toInt := by
    rw [BitVec.toInt_sshiftRight, Int.shiftRight_eq_div_pow]
    norm_cast
  rw [cShr, if_pos h, hdiv, wrap_toInt]

theorem cUshr_eq (h : n < w) : cUshr a n = wrap w (a.toNat / 2 ^ n) := by
  have hdiv : ofInt w (a.toNat / 2 ^ n) = a >>> n := by
    rw [← toNat_inj, BitVec.toNat_ushiftRight, Nat.shiftRight_eq_div_pow]
    have hlt : a.toNat / 2 ^ n < 2 ^ w := Nat.lt_of_le_of_lt (Nat.div_le_self _ _) a.isLt
    have hcast : ((a.toNat : Int) / 2 ^ n) = ((a.toNat / 2 ^ n : Nat) : Int) := by norm_cast
    rw [hcast, BitVec.ofInt_natCast, BitVec.toNat_ofNat, Nat.mod_eq_of_lt hlt]
  rw [cUshr, if_pos h, wrap, hdiv]

theorem shiftCount_eq (b : BitVec 32) : shiftCount b = b.toNat % 64 := by
  rw [shiftCount, BitVec.toNat_and]
  exact Nat.and_two_pow_sub_one_eq_mod b.toNat 6

theorem shiftCount_lt_iff (b : BitVec 32) : shiftCount b < 32 ↔ b.getLsbD 5 = false := by
  rw [shiftCount_eq, BitVec.getLsbD, Nat.testBit_eq_decide_div_mod_eq, decide_eq_false_iff_not]
  omega

theorem shiftCount_eq_jvmCount (h : shiftCount b < 32) : shiftCount b = jvmCount 32 b := by
  rw [shiftCount_eq] at h ⊢
  rw [jvmCount]
  omega

variable {f : Nat → Outcome} {g : Nat → Int}

/-- A shift of an `int` that is right where its count is small enough, and undefined elsewhere. -/
theorem intShift_eq_iff (hlt : ∀ n < 32, f n = wrap 32 (g n)) (hge : ∀ n, ¬n < 32 → f n = .undefined) :
    f (shiftCount b) = wrap 32 (g (jvmCount 32 b)) ↔ b.getLsbD 5 = false := by
  rw [← shiftCount_lt_iff]
  by_cases h : shiftCount b < 32
  · rw [hlt _ h, shiftCount_eq_jvmCount h]
    exact iff_of_true rfl (shiftCount_eq_jvmCount h ▸ h)
  · rw [hge _ h]
    exact iff_of_false (by rintro ⟨⟩) h

theorem longShift_eq (hlt : ∀ n < 64, f n = wrap 64 (g n)) : f (shiftCount b) = wrap 64 (g (jvmCount 64 b)) := by
  have hcount := shiftCount_eq b
  rw [hcount]
  exact hlt _ (Nat.mod_lt _ (by decide))

end Shifts

theorem emulateLcmp_eq (a b : BitVec 64) :
    emulateLcmp a b = .value (if b.toInt < a.toInt then 1 else if a.toInt = b.toInt then 0 else -1) := by
  rw [emulateLcmp]
  rcases Int.lt_trichotomy a.toInt b.toInt with h | h | h
  · rw [if_pos h, if_neg (by omega), if_neg (by omega)]
  · rw [if_neg (by omega), if_neg (by omega), if_neg (by omega), if_pos h]
  · rw [if_neg (by omega), if_pos h, if_pos h]

/-! ## The result -/

/-- **The emulated routines** end as the virtual machine specifies exactly when C defines what they do. -/
theorem emulate_eq_jvm_iff (c : Call) : emulate c = jvm c ↔ c.Defined := by
  cases c with
  | idiv a b | ldiv a b => exact emulateDiv_eq_jvmDiv_iff (by decide)
  | irem a b | lrem a b => exact emulateRem_eq_jvmRem_iff (by decide)
  | ishl a b => exact intShift_eq_iff (fun _ h => cShl_eq h) (fun _ h => if_neg h)
  | ishr a b => exact intShift_eq_iff (fun _ h => cShr_eq h) (fun _ h => if_neg h)
  | iushr a b => exact intShift_eq_iff (fun _ h => cUshr_eq h) (fun _ h => if_neg h)
  | lshl a b => exact iff_of_true (longShift_eq fun _ h => cShl_eq h) trivial
  | lshr a b => exact iff_of_true (longShift_eq fun _ h => cShr_eq h) trivial
  | lushr a b => exact iff_of_true (longShift_eq fun _ h => cUshr_eq h) trivial
  | lcmp a b => exact iff_of_true (emulateLcmp_eq a b) trivial

/-- The most negative `int` divided by minus one, and one shifted left by 32. -/
theorem emulate_ne_jvm : emulate (.idiv (BitVec.intMin 32) (-1)) = .undefined ∧
    jvm (.idiv (BitVec.intMin 32) (-1)) = .value (-2147483648) ∧
    emulate (.ishl 1 32) = .undefined ∧ jvm (.ishl 1 32) = .value 1 := by decide

end Jato.Jit.Emulate
