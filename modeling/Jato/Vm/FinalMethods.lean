import Jato.Vm.Miranda
import Jato.Vm.Verifier

/-!
# Overriding final methods

`vm_method_verify` of `vm/verifier.c` asks `vm_method_overrides_final` about every method that has code. The method that
is looked for in `vm_method_get_overridden` is one of the direct superclass, so a final method further up the chain of
superclasses is not seen. `rejectsFinalOverrides_iff` says for which classes overriding a final method is found, among
those with code that `verifier_first_pass` accepts; the others are rejected for their code.
-/

namespace Jato.Vm.Final

open Jato.Vm.Miranda List

/-! ## Methods and classes -/

structure Method extends MethodInfo where
  context : VerifierContext

namespace Method

variable (m : Method)

def hasFlag (flag : BitVec 16) : Bool := m.accessFlags &&& flag ≠ 0

def isPublic : Bool := m.hasFlag 0x0001

def isPrivate : Bool := m.hasFlag 0x0002

def isProtected : Bool := m.hasFlag 0x0004

def isStatic : Bool := m.hasFlag 0x0008

def isFinal : Bool := m.hasFlag 0x0010

def isNative : Bool := m.hasFlag 0x0100

def isConstructor : Bool := (ofLex m.signature).1 = "<init>"

def isVirtual : Bool := !m.isConstructor && !m.isStatic && !m.isPrivate

/-- There is something to verify. -/
def hasCode : Bool := !m.isAbstract && !m.isNative && m.context.code.length ≠ 0

end Method

/-- A class with the methods of its class file and the ones that it got for its interfaces. Signatures may occur more
than once. -/
structure VmClass where
  name : String
  methods : List Method
  extraMethods : List Method

def VmClass.table (c : VmClass) : List Method := c.methods ++ c.extraMethods

/-! ## The check -/

def vmMethodGetOverridden (super : Option VmClass) (vmm : Method) : Option Method :=
  match super with
  | none => none
  | some super => super.table.find? fun m => m.signature = vmm.signature

inductive VerifyError
  | overridesFinal
  | firstPass (e : VrfErr)

def inJavaPackage (name : String) : Bool := "java/".toList.isPrefixOf name.toList

def vmMethodOverridesFinal (cls : VmClass) (super : Option VmClass) (vmm : Method) : Except VerifyError Unit :=
  if inJavaPackage cls.name then .ok ()
  else
    match vmMethodGetOverridden super vmm with
    | none => .ok ()
    | some overridden => if overridden.isFinal then .error .overridesFinal else .ok ()

section Verify

variable (behind : Nat → Bool) (fuel : Nat)

/-- The verification of a method, with fuel for `verifier_first_pass`. Neither check returns `E_NOT_IMPLEMENTED`. -/
def vmMethodVerify (cls : VmClass) (super : Option VmClass) (vmm : Method) : Option (Except VerifyError Unit) :=
  if !vmm.hasCode then some (.ok ())
  else
    match vmMethodOverridesFinal cls super vmm with
    | .error e => some (.error e)
    | .ok () => (verifierFirstPass behind fuel vmm.context).map (·.mapError .firstPass)

/-- The loop of `vm_class_link` over the methods of the class file; a class that is not verified is not linked. -/
def verifyMethods (cls : VmClass) (super : Option VmClass) : List Method → Option (Except VerifyError Unit)
  | [] => some (.ok ())
  | m :: ms =>
    match vmMethodVerify behind fuel cls super m with
    | none => none
    | some (.error e) => some (.error e)
    | some (.ok ()) => verifyMethods cls super ms

end Verify

/-- Verification rejects the class, whose superclasses are `supers`. -/
def Rejected (behind : Nat → Bool) (cls : VmClass) (supers : List VmClass) : Prop :=
  ∃ fuel e, verifyMethods behind fuel cls supers.head? cls.methods = some (.error e)

/-! ## Overriding -/

/-- The name of a class up to its last slash. -/
def packageOf (name : String) : List Char := (name.toList.reverse.dropWhile (· ≠ '/')).reverse

/-- A method of class `i` of the chain overrides one of a superclass `j`: it has the same signature and the method can
be accessed from its class, or it overrides a method that does. -/
inductive Overrides (chain : List VmClass) : Nat → Method → Nat → Method → Prop
  | direct {i j : Nat} {c a : VmClass} {m m' : Method} : i < j → chain[i]? = some c → m ∈ c.methods →
      chain[j]? = some a → m' ∈ a.methods → m.signature = m'.signature → m.isVirtual → m'.isVirtual →
      m'.isPublic ∨ m'.isProtected ∨ packageOf c.name = packageOf a.name → Overrides chain i m j m'
  | trans {i j k : Nat} {m m' m'' : Method} : Overrides chain i m k m'' → Overrides chain k m'' j m' →
      Overrides chain i m j m'

/-- A method of the class overrides a method that is declared final in one of its superclasses. -/
def OverridesFinal (cls : VmClass) (supers : List VmClass) : Prop :=
  ∃ m j m', Overrides (cls :: supers) 0 m j m' ∧ m'.isFinal

/-- The method has the signature of a method in the table of the class, and the first such method is final. -/
def FirstIsFinal (c : VmClass) (m : Method) : Prop :=
  ∃ front m' rest, c.table = front ++ m' :: rest ∧ (∀ x ∈ front, x.signature ≠ m.signature) ∧
    m'.signature = m.signature ∧ m'.isFinal

/-- A method with code has the signature of a final method of the direct superclass, the first one with it there. -/
def RedeclaresFinal (cls : VmClass) (supers : List VmClass) : Prop :=
  ∃ m ∈ cls.methods, m.hasCode ∧ ∃ super, supers.head? = some super ∧ FirstIsFinal super m

/-! ## What is rejected -/

section Rejected

variable {behind : Nat → Bool} {fuel : Nat} {cls : VmClass} {super : Option VmClass} {supers : List VmClass} {m : Method}

theorem firstIsFinal_iff {c : VmClass} : FirstIsFinal c m ↔
    ∃ m', c.table.find? (fun x => x.signature = m.signature) = some m' ∧ m'.isFinal := by
  constructor
  · rintro ⟨front, m', rest, htable, hfront, hsig, hfinal⟩
    refine ⟨m', find?_eq_some_iff_append.mpr ⟨by simpa using hsig, front, rest, htable, fun x hx => ?_⟩, hfinal⟩
    simpa using hfront x hx
  · rintro ⟨m', hfind, hfinal⟩
    obtain ⟨hsig, front, rest, htable, hfront⟩ := find?_eq_some_iff_append.mp hfind
    exact ⟨front, m', rest, htable, fun x hx => by simpa using hfront x hx, by simpa using hsig, hfinal⟩

theorem vmMethodOverridesFinal_eq_error (hjava : inJavaPackage cls.name = false) :
    (∃ e, vmMethodOverridesFinal cls super m = .error e) ↔ ∃ c, super = some c ∧ FirstIsFinal c m := by
  rw [vmMethodOverridesFinal, hjava, if_neg Bool.false_ne_true]
  cases super with
  | none => simp [vmMethodGetOverridden]
  | some c =>
    simp only [vmMethodGetOverridden, Option.some.injEq, exists_eq_left', firstIsFinal_iff]
    cases c.table.find? (fun x => x.signature = m.signature) with
    | none => simp
    | some m' => cases hfinal : m'.isFinal <;> simp [hfinal]

section Code

variable (hjava : inJavaPackage cls.name = false)
include hjava

theorem eq_error_of_vmMethodVerify {e : VerifyError} (hcode : m.hasCode → Accepted behind m.context)
    (h : vmMethodVerify behind fuel cls super m = some (.error e)) :
    m.hasCode ∧ ∃ c, super = some c ∧ FirstIsFinal c m := by
  rw [vmMethodVerify] at h
  cases hm : m.hasCode with
  | false => simp [hm] at h
  | true =>
    rw [← vmMethodOverridesFinal_eq_error hjava]
    cases hfinal : vmMethodOverridesFinal cls super m with
    | error e => exact ⟨rfl, e, rfl⟩
    | ok _ =>
      simp only [hm, hfinal, Bool.not_true, Bool.false_eq_true, if_false] at h
      obtain ⟨r, hr, hmap⟩ := Option.map_eq_some_iff.mp h
      rw [(hcode hm).eq_ok hr] at hmap
      cases hmap

omit hjava in
/-- With enough fuel, every method is either found to override a final one or verified. -/
theorem vmMethodVerify_eq (hpass : m.hasCode → verifierFirstPass behind fuel m.context = some (.ok ())) :
    vmMethodVerify behind fuel cls super m = some (.ok ()) ∨
      (∃ e, vmMethodVerify behind fuel cls super m = some (.error e)) := by
  rw [vmMethodVerify]
  cases hm : m.hasCode with
  | false => exact .inl rfl
  | true =>
    cases vmMethodOverridesFinal cls super m with
    | error e => exact .inr ⟨e, rfl⟩
    | ok _ =>
      rw [hpass hm]
      exact .inl rfl

theorem exists_vmMethodVerify_eq_error (hm : m.hasCode) (h : ∃ c, super = some c ∧ FirstIsFinal c m) :
    ∃ e, vmMethodVerify behind fuel cls super m = some (.error e) := by
  obtain ⟨e, he⟩ := (vmMethodOverridesFinal_eq_error hjava).mpr h
  refine ⟨e, ?_⟩
  simp [vmMethodVerify, hm, he]

omit hjava in
theorem exists_mem_of_verifyMethods {e : VerifyError} : ∀ {ms : List Method},
    verifyMethods behind fuel cls super ms = some (.error e) →
      ∃ m ∈ ms, vmMethodVerify behind fuel cls super m = some (.error e)
  | [], h => by cases h
  | m :: ms, h => by
    rw [verifyMethods] at h
    cases hm : vmMethodVerify behind fuel cls super m with
    | none => simp [hm] at h
    | some r =>
      cases r with
      | error e' =>
        simp only [hm, Option.some.injEq, Except.error.injEq] at h
        exact ⟨m, mem_cons_self, h ▸ hm⟩
      | ok _ =>
        simp only [hm] at h
        obtain ⟨m', hm', herr⟩ := exists_mem_of_verifyMethods h
        exact ⟨m', mem_cons_of_mem m hm', herr⟩

theorem exists_verifyMethods_eq_error : ∀ {ms : List Method},
    (∀ m ∈ ms, m.hasCode → verifierFirstPass behind fuel m.context = some (.ok ())) →
    (∃ m ∈ ms, m.hasCode ∧ ∃ c, super = some c ∧ FirstIsFinal c m) →
      ∃ e, verifyMethods behind fuel cls super ms = some (.error e)
  | [], _, h => by simp at h
  | m :: ms, hpass, h => by
    obtain ⟨hhead, htail⟩ := forall_mem_cons.mp hpass
    rw [verifyMethods]
    rcases (vmMethodVerify_eq hhead : vmMethodVerify behind fuel cls super m = _ ∨ _) with hok | ⟨e, he⟩
    · rw [hok]
      refine exists_verifyMethods_eq_error htail ?_
      obtain ⟨m', hm', hcode, hfinal⟩ := h
      rcases mem_cons.mp hm' with rfl | hm'
      · obtain ⟨e, he⟩ : ∃ e, vmMethodVerify behind fuel cls super m' = some (.error e) :=
          exists_vmMethodVerify_eq_error hjava hcode hfinal
        rw [hok] at he
        cases he
      · exact ⟨m', hm', hcode, hfinal⟩
    · exact ⟨e, by rw [he]⟩

end Code

/-- One amount of fuel is enough for all methods. -/
theorem exists_fuel : ∀ {ms : List Method}, (∀ m ∈ ms, m.hasCode → Accepted behind m.context) →
    ∃ fuel, ∀ m ∈ ms, m.hasCode → verifierFirstPass behind fuel m.context = some (.ok ())
  | [], _ => ⟨0, fun _ h => absurd h not_mem_nil⟩
  | m :: ms, h => by
    obtain ⟨hhead, htail⟩ := forall_mem_cons.mp h
    obtain ⟨fuel, hfuel⟩ := exists_fuel htail
    by_cases hm : m.hasCode
    · obtain ⟨fuel', hfuel'⟩ := hhead hm
      refine ⟨max fuel fuel', forall_mem_cons.mpr ⟨fun _ => ?_, fun m' hm' hcode => ?_⟩⟩
      · exact verifierFirstPass_mono (Nat.le_max_right _ _) hfuel'
      · exact verifierFirstPass_mono (Nat.le_max_left _ _) (hfuel m' hm' hcode)
    · exact ⟨fuel, forall_mem_cons.mpr ⟨fun hcode => absurd hcode hm, hfuel⟩⟩

/-- A class outside of the `java` packages with accepted code is rejected for a final method of its direct superclass. -/
theorem rejected_iff (hjava : inJavaPackage cls.name = false)
    (hcode : ∀ m ∈ cls.methods, m.hasCode → Accepted behind m.context) :
    Rejected behind cls supers ↔ RedeclaresFinal cls supers := by
  constructor
  · rintro ⟨fuel, e, h⟩
    obtain ⟨m, hm, herr⟩ := exists_mem_of_verifyMethods h
    exact ⟨m, hm, eq_error_of_vmMethodVerify hjava (hcode m hm) herr⟩
  · intro h
    obtain ⟨fuel, hfuel⟩ := exists_fuel hcode
    obtain ⟨e, he⟩ := exists_verifyMethods_eq_error hjava hfuel h
    exact ⟨fuel, e, he⟩

end Rejected

/-- A public method `m()V` that returns at once. -/
def returnMethod (flags : BitVec 16) : Method where
  signature := toLex ("m", "()V")
  accessFlags := flags
  context := ⟨[0xb1], 1, [], [], by decide⟩

/-- The superclass of the superclass declares the method, final. -/
def base : VmClass := ⟨"Base", [returnMethod 0x0011], []⟩

def middle : VmClass := ⟨"Middle", [], []⟩

def derived : VmClass := ⟨"Derived", [returnMethod 0x0001], []⟩

theorem accepted_derived : ∀ m ∈ derived.methods, m.hasCode → Accepted (fun _ => false) m.context := by
  intro m hm _
  cases mem_singleton.mp hm
  exact ⟨2, rfl⟩

end Jato.Vm.Final
