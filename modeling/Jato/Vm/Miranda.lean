import Jato.Vm.Vtable

/-!
# Methods inherited from interfaces

The extra methods that `vm_class_link` gives a class for the methods of its superinterfaces, over trees of interfaces and
chains of superclasses. `insert_interface_method` takes every method of a direct interface, which got the methods of its
own superinterfaces when it was linked; `array_unique` (`arrayUnique_eq_destutter`) leaves one for each signature. Which
one it leaves depends on `array_qsort`, which may put methods with one signature in any order.

`mirandaCorrect_iff` says for which classes the extra methods are those that the class needs. The code does not ask
whether a method is abstract, so that the class initializer of an interface becomes a method of the classes that
implement it; and it adds no method that a superclass got as an extra method.
-/

namespace Jato.Vm.Miranda

open List

/-! ## Removing repetitions -/

section Unique

variable {α : Type} (cmp : α → α → Int)

/-- A round of the loop of `array_unique`: the elements, and the index `target` of the last one kept. -/
def uniqueStep (s : List α × Nat) (i : Nat) : List α × Nat :=
  match s.1[s.2]?, s.1[i]? with
  | some x, some y => if cmp x y = 0 then s else (s.1.set (s.2 + 1) y, s.2 + 1)
  | _, _ => s

def arrayUnique (a : List α) : List α :=
  if a.length = 0 then a
  else
    let (ptr, target) := (List.range' 1 (a.length - 1)).foldl (uniqueStep cmp) (a, 0)
    ptr.take (target + 1)

variable {cmp}

/-- The element kept last is compared with the next one, whatever lies between them. -/
theorem uniqueStep_eq {front gap rest : List α} {x y : α} :
    uniqueStep cmp (front ++ x :: (gap ++ y :: rest), front.length) (front.length + 1 + gap.length) =
      if cmp x y = 0 then (front ++ x :: (gap ++ y :: rest), front.length)
      else ((front ++ x :: (gap ++ y :: rest)).set (front.length + 1) y, front.length + 1) := by
  have hx : (front ++ x :: (gap ++ y :: rest))[front.length]? = some x := by simp
  have hy : (front ++ x :: (gap ++ y :: rest))[front.length + 1 + gap.length]? = some y := by
    rw [getElem?_append_right (by omega), show front.length + 1 + gap.length - front.length = gap.length + 1 by omega,
      getElem?_cons_succ, getElem?_append_right (le_refl _), Nat.sub_self, getElem?_cons_zero]
  rw [uniqueStep, hx, hy]

/-- The rest of the loop, from the element `x` kept last and the elements `rest` that are still to come. -/
theorem foldl_uniqueStep : ∀ (rest front gap : List α) (x : α),
    ∃ ptr target, (List.range' (front.length + 1 + gap.length) rest.length).foldl (uniqueStep cmp)
        (front ++ x :: (gap ++ rest), front.length) = (ptr, target) ∧
      ptr.take (target + 1) = front ++ rest.destutter' (fun x y => cmp x y ≠ 0) x
  | [], front, gap, x => ⟨_, _, rfl, by simp [take_append, take_of_length_le]⟩
  | y :: rest, front, gap, x => by
    rw [length_cons, range'_succ, foldl_cons, uniqueStep_eq, destutter'_cons]
    by_cases h : cmp x y = 0
    · rw [if_pos h, if_neg (not_not.mpr h)]
      have key := foldl_uniqueStep rest front (gap ++ [y]) x
      simpa [add_assoc] using key
    · rw [if_neg h, if_pos h]
      cases gap with
      | nil =>
        -- the element is already in its place
        have key := foldl_uniqueStep rest (front ++ [x]) [] y
        simpa [add_assoc] using key
      | cons z gap =>
        have key := foldl_uniqueStep rest (front ++ [x]) (gap ++ [y]) y
        have hset : (front ++ x :: (z :: gap ++ y :: rest)).set (front.length + 1) y =
            (front ++ [x]) ++ y :: (gap ++ [y] ++ rest) := by simp
        rw [hset]
        simpa [add_assoc, add_comm, Nat.add_left_comm] using key

/-- **`array_unique` keeps the first of neighbours that compare equal.** -/
theorem arrayUnique_eq_destutter (a : List α) : arrayUnique cmp a = a.destutter (fun x y => cmp x y ≠ 0) := by
  cases a with
  | nil => rfl
  | cons x rest =>
    obtain ⟨ptr, target, h, htake⟩ := foldl_uniqueStep rest [] [] x
    have h' : (List.range' 1 rest.length).foldl (uniqueStep cmp) (x :: rest, 0) = (ptr, target) := h
    rw [arrayUnique, if_neg (by simp), length_cons, Nat.add_sub_cancel, h']
    exact htake

end Unique

/-! ## Class files -/

structure MethodInfo where
  signature : Signature
  accessFlags : BitVec 16
deriving DecidableEq

def accAbstract : BitVec 16 := 0x0400

/-- `vm_method_is_abstract`. -/
def MethodInfo.isAbstract (m : MethodInfo) : Bool := m.accessFlags &&& accAbstract ≠ 0

/-- The class file of an interface; its superclass is `java.lang.Object`. -/
inductive InterfaceFile
  | mk (methods : List MethodInfo) (interfaces : List InterfaceFile)

/-- The class file of a class that is not an interface. -/
structure ClassInfo where
  methods : List MethodInfo
  interfaces : List InterfaceFile

/-! ## Linking -/

mutual

/-- The signatures of the methods that `vm_class_link` gives an interface. -/
def InterfaceFile.link (object : List LinkedClass) : InterfaceFile → List Signature
  | .mk methods interfaces => allMethods object ⟨methods.map MethodInfo.signature, linkAll object interfaces⟩

def linkAll (object : List LinkedClass) : List InterfaceFile → List (List Signature)
  | [] => []
  | i :: is => i.link object :: linkAll object is

end

/-- What linking a class reads of its class file and of its interfaces, which are linked before it. -/
def ClassInfo.file (object : List LinkedClass) (cls : ClassInfo) : ClassFile :=
  ⟨cls.methods.map MethodInfo.signature, linkAll object cls.interfaces⟩

def compareMethodSignatures (x y : Signature) : Int := if x = y then 0 else if x < y then -1 else 1

/-- **The extra methods of a class** are what `array_qsort` and `array_unique` leave: in ascending order, each method that
its interfaces have and neither the class nor a superclass, once. -/
theorem extraMethods_spec (supers : List LinkedClass) (file : ClassFile) :
    extraMethods supers file = arrayUnique compareMethodSignatures
      ((file.interfaces.flatten.foldl (insertInterfaceMethod supers file) []).insertionSort (· ≤ ·)) ∧
    (extraMethods supers file).Pairwise (· < ·) ∧ ∀ sig, sig ∈ extraMethods supers file ↔
      sig ∈ file.interfaces.flatten ∧ sig ∉ file.methods ∧ supers ≠ [] ∧ getMethodRecursive supers sig = none := by
  have hsorted := pairwise_insertionSort (· ≤ ·) (file.interfaces.flatten.foldl (insertInterfaceMethod supers file) [])
  refine ⟨?_, ?_, fun _ => mem_extraMethods⟩
  · rw [arrayUnique_eq_destutter, extraMethods]
    congr 1
    funext x y
    rw [compareMethodSignatures]
    split_ifs with heq hlt <;> simp [heq]
  · refine ((hsorted.sublist (destutter_sublist _ _)).and (nodup_destutter_ne hsorted)).imp ?_
    exact fun h => lt_of_le_of_ne h.1 h.2

/-! ## The extra methods themselves -/

/-- What `array_qsort` may do: any order in which the signatures ascend. -/
structure Sorts (sort : List MethodInfo → List MethodInfo) : Prop where
  perm : ∀ l, (sort l).Perm l
  ascending : ∀ l, (sort l).Pairwise fun a b => a.signature ≤ b.signature

/-- `insert_interface_method`, for a class that declares the signatures `own`. -/
def insertInfo (supers : List LinkedClass) (own : List Signature) (extra : List MethodInfo) (m : MethodInfo) :
    List MethodInfo :=
  if own.contains m.signature then extra
  else if supers.isEmpty then extra
  else if (getMethodRecursive supers m.signature).isSome then extra
  else extra ++ [m]

section

variable (sort : List MethodInfo → List MethodInfo)

/-- The methods that a class gets from the methods `offered` by its interfaces. -/
def extraInfos (supers : List LinkedClass) (own : List Signature) (offered : List MethodInfo) : List MethodInfo :=
  arrayUnique (fun a b => compareMethodSignatures a.signature b.signature)
    (sort (offered.foldl (insertInfo supers own) []))

mutual

/-- The methods that `vm_class_link` gives an interface. -/
def InterfaceFile.table (object : List LinkedClass) : InterfaceFile → List MethodInfo
  | .mk methods interfaces =>
    methods ++ extraInfos sort object (methods.map MethodInfo.signature) (tableAll object interfaces)

/-- The methods of several interfaces, one after the other. -/
def tableAll (object : List LinkedClass) : List InterfaceFile → List MethodInfo
  | [] => []
  | i :: is => i.table object ++ tableAll object is

end

end

/-- The superclasses of a class, the nearest first and `java.lang.Object` last, which has no interfaces; all of them
are linked. -/
structure Superclasses where
  object : ClassInfo
  classes : List ClassInfo
  objectChain : List LinkedClass
  chain : List LinkedClass
  object_interfaces : object.interfaces = []
  link_object : linkChain [object.file []] = some objectChain
  link : linkChain (classes.map (ClassInfo.file objectChain) ++ [object.file []]) = some chain

/-! ## What a class inherits -/

/-- The interface or one of its superinterfaces declares the method. -/
inductive InterfaceFile.HasMethod : InterfaceFile → MethodInfo → Prop
  | own {methods interfaces m} : m ∈ methods → HasMethod (.mk methods interfaces) m
  | inherited {methods interfaces i m} : i ∈ interfaces → HasMethod i m → HasMethod (.mk methods interfaces) m

/-- The interface declares the method, or inherits it without declaring one with its signature. -/
inductive InterfaceFile.Offers : InterfaceFile → MethodInfo → Prop
  | own {methods interfaces m} : m ∈ methods → Offers (.mk methods interfaces) m
  | inherited {methods interfaces i m} : m.signature ∉ methods.map MethodInfo.signature → i ∈ interfaces →
      Offers i m → Offers (.mk methods interfaces) m

namespace ClassInfo

variable (cls : ClassInfo) (sig : Signature)

def Declares : Prop := sig ∈ cls.methods.map MethodInfo.signature

/-- A superinterface of the class has a method with the signature. -/
def Implements : Prop := ∃ i ∈ cls.interfaces, ∃ m, i.HasMethod m ∧ m.signature = sig

/-- A superinterface of the class has an abstract method with the signature. -/
def Requires : Prop := ∃ i ∈ cls.interfaces, ∃ m, i.HasMethod m ∧ m.signature = sig ∧ m.isAbstract

variable {cls sig}

theorem Requires.implements (h : cls.Requires sig) : cls.Implements sig := by
  obtain ⟨i, hi, m, hm, hsig, -⟩ := h
  exact ⟨i, hi, m, hm, hsig⟩

end ClassInfo

namespace Superclasses

variable (s : Superclasses) (cls : ClassInfo)

def all : List ClassInfo := s.classes ++ [s.object]

/-- The extra methods of a class. -/
def extras (sort : List MethodInfo → List MethodInfo) : List MethodInfo :=
  extraInfos sort s.chain (cls.methods.map MethodInfo.signature) (tableAll sort s.objectChain cls.interfaces)

/-- What the extra methods of a class are for: there is one, and it is abstract, for every signature of an abstract
method of its superinterfaces that neither the class nor a superclass declares. The methods found in the class are then
those that it or a superclass declares, and the abstract methods of their superinterfaces. -/
structure MirandaCorrect (sort : List MethodInfo → List MethodInfo) : Prop where
  nodup : ((s.extras cls sort).map MethodInfo.signature).Nodup
  extra : ∀ sig, sig ∈ (s.extras cls sort).map MethodInfo.signature ↔
    cls.Requires sig ∧ ∀ a ∈ cls :: s.all, ¬a.Declares sig
  abstract : ∀ m ∈ s.extras cls sort, m.isAbstract ∧ ∃ i ∈ cls.interfaces, i.HasMethod m
  found : ∀ vmc : LinkedClass, vmc.methods.map VmMethod.signature = allMethods s.chain (cls.file s.objectChain) →
    ∀ sig, (getMethodRecursive (vmc :: s.chain) sig).isSome ↔ ∃ a ∈ cls :: s.all, a.Declares sig ∨ a.Requires sig

/-- What must hold for a signature that no class of the chain declares. If superclasses have superinterfaces with it, the
class must not need it, and one of their methods must be abstract; if not, all methods with it that the interfaces of
the class offer must be abstract. -/
structure AbstractInherited (sig : Signature) : Prop where
  once : cls.Requires sig → ∀ a ∈ s.all, ¬a.Implements sig
  supers : (∃ a ∈ s.all, a.Implements sig) → ∃ a ∈ s.all, a.Requires sig
  own : (∀ a ∈ s.all, ¬a.Implements sig) → ∀ i ∈ cls.interfaces, ∀ m, i.Offers m → m.signature = sig → m.isAbstract

end Superclasses

/-! ## The methods of an interface -/

section Interfaces

variable {object : List LinkedClass} {sig : Signature}

theorem mem_flatten_linkAll : ∀ {is : List InterfaceFile},
    sig ∈ (linkAll object is).flatten ↔ ∃ i ∈ is, sig ∈ i.link object
  | [] => by simp [linkAll]
  | i :: is => by
    rw [linkAll, flatten_cons, mem_append, mem_flatten_linkAll]
    simp

theorem mem_link {methods : List MethodInfo} {interfaces : List InterfaceFile} :
    sig ∈ (InterfaceFile.mk methods interfaces).link object ↔
      sig ∈ methods.map MethodInfo.signature ∨ (∃ i ∈ interfaces, sig ∈ i.link object) ∧
        sig ∉ methods.map MethodInfo.signature ∧ object ≠ [] ∧ getMethodRecursive object sig = none := by
  rw [InterfaceFile.link, allMethods, mem_append, mem_extraMethods, mem_flatten_linkAll]

/-- A method of a superinterface becomes a method of the interface, unless `java.lang.Object` has it. -/
theorem mem_link_of_hasMethod (hobject : object ≠ []) {i : InterfaceFile} {m : MethodInfo} (h : i.HasMethod m) :
    m.signature ∈ i.link object ∨ (getMethodRecursive object m.signature).isSome := by
  induction h with
  | own hm => exact .inl (mem_link.mpr (.inl (mem_map_of_mem hm)))
  | @inherited methods interfaces i m hi _ ih =>
    rcases ih with ih | ih
    · by_cases hown : m.signature ∈ methods.map MethodInfo.signature
      · exact .inl (mem_link.mpr (.inl hown))
      · cases hget : getMethodRecursive object m.signature with
        | none => exact .inl (mem_link.mpr (.inr ⟨⟨i, hi, ih⟩, hown, hobject, hget⟩))
        | some _ => exact .inr rfl
    · exact .inr ih

mutual

theorem InterfaceFile.exists_hasMethod : ∀ {i : InterfaceFile}, sig ∈ i.link object →
    ∃ m, i.HasMethod m ∧ m.signature = sig
  | .mk methods interfaces, h => by
    rcases mem_link.mp h with h | ⟨h, -⟩
    · obtain ⟨m, hm, rfl⟩ := mem_map.mp h
      exact ⟨m, .own hm, rfl⟩
    · obtain ⟨i, hi, m, hm, hsig⟩ := exists_hasMethod_of_mem h
      exact ⟨m, .inherited hi hm, hsig⟩

theorem exists_hasMethod_of_mem : ∀ {is : List InterfaceFile}, (∃ i ∈ is, sig ∈ i.link object) →
    ∃ i ∈ is, ∃ m, i.HasMethod m ∧ m.signature = sig
  | [], h => by
    obtain ⟨i, hi, -⟩ := h
    cases hi
  | i :: is, h => by
    by_cases hi : sig ∈ i.link object
    · exact ⟨i, mem_cons_self, InterfaceFile.exists_hasMethod hi⟩
    · have his : ∃ j ∈ is, sig ∈ j.link object := by
        obtain ⟨j, hj, hsig⟩ := h
        rcases mem_cons.mp hj with rfl | hj
        · exact absurd hsig hi
        · exact ⟨j, hj, hsig⟩
      obtain ⟨j, hj, hm⟩ := exists_hasMethod_of_mem his
      exact ⟨j, mem_cons_of_mem i hj, hm⟩

end

theorem InterfaceFile.Offers.hasMethod {i : InterfaceFile} {m : MethodInfo} (h : i.Offers m) : i.HasMethod m := by
  induction h with
  | own hm => exact .own hm
  | inherited _ hi _ ih => exact .inherited hi ih

theorem InterfaceFile.HasMethod.exists_offers {i : InterfaceFile} {m : MethodInfo} (h : i.HasMethod m) :
    ∃ m', i.Offers m' ∧ m'.signature = m.signature := by
  induction h with
  | @own _ _ m hm => exact ⟨m, .own hm, rfl⟩
  | @inherited methods _ _ _ hi _ ih =>
    obtain ⟨m', hm', hsig⟩ := ih
    by_cases hown : m'.signature ∈ methods.map MethodInfo.signature
    · obtain ⟨m'', hm'', hsig'⟩ := mem_map.mp hown
      exact ⟨m'', .own hm'', hsig'.trans hsig⟩
    · exact ⟨m', .inherited hown hi hm', hsig⟩

end Interfaces

/-! ## Sorting and removing repetitions -/

section Extras

variable {sort : List MethodInfo → List MethodInfo} {supers object : List LinkedClass} {own : List Signature}
  {offered : List MethodInfo} {m : MethodInfo} {sig : Signature}

theorem mem_foldl_insertInfo : ∀ {offered extra : List MethodInfo}, m ∈ offered.foldl (insertInfo supers own) extra ↔
    m ∈ extra ∨ m ∈ offered ∧ m.signature ∉ own ∧ supers ≠ [] ∧ getMethodRecursive supers m.signature = none
  | [], extra => by simp
  | x :: l, extra => by
    rw [foldl_cons, mem_foldl_insertInfo]
    have hx : m ∈ insertInfo supers own extra x ↔ m ∈ extra ∨
        m = x ∧ x.signature ∉ own ∧ supers ≠ [] ∧ getMethodRecursive supers x.signature = none := by
      rw [insertInfo]
      split_ifs with hown hroot hsuper
      · simp [contains_iff_mem.mp hown]
      · simp [isEmpty_iff.mp hroot]
      · simp [Option.ne_none_iff_isSome.mpr hsuper]
      · simp_all
    rw [hx, mem_cons]
    constructor
    · rintro ((h | ⟨rfl, h⟩) | ⟨hl, h⟩)
      · exact .inl h
      · exact .inr ⟨.inl rfl, h⟩
      · exact .inr ⟨.inr hl, h⟩
    · rintro (h | ⟨rfl | hl, h⟩)
      · exact .inl (.inl h)
      · exact .inl (.inr ⟨rfl, h⟩)
      · exact .inr ⟨hl, h⟩

theorem extraInfos_eq : extraInfos sort supers own offered =
    (sort (offered.foldl (insertInfo supers own) [])).destutter fun a b => a.signature ≠ b.signature := by
  rw [extraInfos, arrayUnique_eq_destutter]
  congr 1
  funext a b
  rw [compareMethodSignatures]
  split_ifs with heq hlt <;> simp [heq]

theorem map_signature_extraInfos : (extraInfos sort supers own offered).map MethodInfo.signature =
    ((sort (offered.foldl (insertInfo supers own) [])).map MethodInfo.signature).destutter (· ≠ ·) := by
  rw [extraInfos_eq]
  exact map_destutter fun _ _ _ _ => Iff.rfl

theorem Sorts.mem_of_mem (hsort : Sorts sort) (h : m ∈ extraInfos sort supers own offered) : m ∈ offered ∧ m.signature ∉ own ∧
    supers ≠ [] ∧ getMethodRecursive supers m.signature = none := by
  rw [extraInfos_eq] at h
  have hmem := (hsort.perm _).mem_iff.mp ((destutter_sublist _ _).subset h)
  simpa using mem_foldl_insertInfo.mp hmem

theorem Sorts.mem_signature_iff (hsort : Sorts sort) : sig ∈ (extraInfos sort supers own offered).map MethodInfo.signature ↔
    sig ∈ offered.map MethodInfo.signature ∧ sig ∉ own ∧ supers ≠ [] ∧ getMethodRecursive supers sig = none := by
  rw [map_signature_extraInfos, mem_destutter_ne, mem_map]
  simp only [(hsort.perm _).mem_iff, mem_foldl_insertInfo, not_mem_nil, false_or, mem_map]
  constructor
  · rintro ⟨m, ⟨hm, hcond⟩, rfl⟩
    exact ⟨⟨m, hm, rfl⟩, hcond⟩
  · rintro ⟨⟨m, hm, rfl⟩, hcond⟩
    exact ⟨m, ⟨hm, hcond⟩, rfl⟩

theorem Sorts.nodup (hsort : Sorts sort) : ((extraInfos sort supers own offered).map MethodInfo.signature).Nodup := by
  rw [map_signature_extraInfos]
  exact nodup_destutter_ne (pairwise_map.mpr (hsort.ascending _))

mutual

/-- An interface has the signatures that linking gives it, whatever the order. -/
theorem Sorts.mem_table_iff (hsort : Sorts sort) : ∀ {i : InterfaceFile},
    sig ∈ (i.table sort object).map MethodInfo.signature ↔ sig ∈ i.link object
  | .mk methods interfaces => by
    rw [InterfaceFile.table, map_append, mem_append, hsort.mem_signature_iff, hsort.mem_tableAll_iff,
      mem_flatten_linkAll, mem_link]

theorem Sorts.mem_tableAll_iff (hsort : Sorts sort) : ∀ {is : List InterfaceFile},
    sig ∈ (tableAll sort object is).map MethodInfo.signature ↔ sig ∈ (linkAll object is).flatten
  | [] => by simp [tableAll, linkAll]
  | i :: is => by
    rw [tableAll, linkAll, map_append, mem_append, flatten_cons, mem_append, hsort.mem_table_iff,
      hsort.mem_tableAll_iff]

end

mutual

theorem Sorts.offers_of_mem (hsort : Sorts sort) : ∀ {i : InterfaceFile}, m ∈ i.table sort object → i.Offers m
  | .mk methods interfaces, h => by
    rw [InterfaceFile.table, mem_append] at h
    rcases h with h | h
    · exact .own h
    · obtain ⟨hoffered, hown, -⟩ := hsort.mem_of_mem h
      obtain ⟨i, hi, hoffers⟩ := hsort.exists_offers_of_mem hoffered
      exact .inherited hown hi hoffers

theorem Sorts.exists_offers_of_mem (hsort : Sorts sort) : ∀ {is : List InterfaceFile}, m ∈ tableAll sort object is →
    ∃ i ∈ is, i.Offers m
  | [], h => by cases h
  | i :: is, h => by
    rw [tableAll, mem_append] at h
    rcases h with h | h
    · exact ⟨i, mem_cons_self, hsort.offers_of_mem h⟩
    · obtain ⟨j, hj, hoffers⟩ := hsort.exists_offers_of_mem h
      exact ⟨j, mem_cons_of_mem i hj, hoffers⟩

end

end Extras

/-! ## An order that prefers a method -/

section Prefer

variable {object : List LinkedClass} {m : MethodInfo}

/-- `m` comes before all other methods with its signature. -/
def preferred (m a b : MethodInfo) : Prop := a.signature < b.signature ∨ a.signature = b.signature ∧ (a = m ∨ b ≠ m)

instance (m : MethodInfo) : DecidableRel (preferred m) := fun a b =>
  inferInstanceAs (Decidable (a.signature < b.signature ∨ a.signature = b.signature ∧ (a = m ∨ b ≠ m)))

instance (m : MethodInfo) : Std.Total (preferred m) where
  total a b := by
    unfold preferred
    rcases lt_trichotomy a.signature b.signature with h | h | h
    · exact .inl (.inl h)
    · by_cases ha : a = m
      · exact .inl (.inr ⟨h, .inl ha⟩)
      · exact .inr (.inr ⟨h.symm, .inr ha⟩)
    · exact .inr (.inl h)

instance (m : MethodInfo) : IsTrans MethodInfo (preferred m) where
  trans a b c := by
    rintro (hab | ⟨hab, ham⟩) (hbc | ⟨hbc, hbm⟩)
    · exact .inl (hab.trans hbc)
    · exact .inl (hbc ▸ hab)
    · exact .inl (hab ▸ hbc)
    · refine .inr ⟨hab.trans hbc, ?_⟩
      rcases ham with ham | hbne
      · exact .inl ham
      · exact .inr (hbm.resolve_left hbne)

def prefer (m : MethodInfo) (l : List MethodInfo) : List MethodInfo := l.insertionSort (preferred m)

theorem sorts_prefer (m : MethodInfo) : Sorts (prefer m) where
  perm l := perm_insertionSort _ l
  ascending l := by
    refine (pairwise_insertionSort (preferred m) l).imp ?_
    rintro a b (h | ⟨h, -⟩)
    · exact h.le
    · exact h.le

theorem mem_destutter'_prefer : ∀ {l : List MethodInfo} {x : MethodInfo}, (x :: l).Pairwise (preferred m) → m ∈ x :: l →
    m ∈ l.destutter' (fun a b => a.signature ≠ b.signature) x
  | [], x, _, hm => by simpa using hm
  | y :: l, x, hs, hm => by
    obtain ⟨hx, hs⟩ := pairwise_cons.mp hs
    rw [destutter'_cons]
    split_ifs with hne
    · rcases mem_cons.mp hm with rfl | hm
      · exact mem_cons_self
      · exact mem_cons_of_mem _ (mem_destutter'_prefer hs hm)
    · -- of two methods with one signature the first is kept, and it is `m` if the second one is
      have heq := not_not.mp hne
      have hrest : (x :: l).Pairwise (preferred m) :=
        pairwise_cons.mpr ⟨fun b hb => hx b (mem_cons_of_mem y hb), (pairwise_cons.mp hs).2⟩
      refine mem_destutter'_prefer hrest ?_
      rcases mem_cons.mp hm with rfl | hm
      · exact mem_cons_self
      · rcases mem_cons.mp hm with rfl | hm
        · rcases hx m mem_cons_self with hlt | ⟨-, hxm | hne'⟩
          · exact absurd heq (ne_of_lt hlt)
          · rw [hxm]
            exact mem_cons_self
          · exact absurd rfl hne'
        · exact mem_cons_of_mem x hm

theorem mem_extraInfos_prefer {supers : List LinkedClass} {own : List Signature} {offered : List MethodInfo}
    (hm : m ∈ offered) (hown : m.signature ∉ own) (hsupers : supers ≠ [])
    (hnone : getMethodRecursive supers m.signature = none) : m ∈ extraInfos (prefer m) supers own offered := by
  have hmem : m ∈ prefer m (offered.foldl (insertInfo supers own) []) :=
    ((sorts_prefer m).perm _).mem_iff.mpr (mem_foldl_insertInfo.mpr (.inr ⟨hm, hown, hsupers, hnone⟩))
  have hsorted : (prefer m (offered.foldl (insertInfo supers own) [])).Pairwise (preferred m) :=
    pairwise_insertionSort (preferred m) _
  rw [extraInfos_eq]
  cases hl : prefer m (offered.foldl (insertInfo supers own) []) with
  | nil =>
    rw [hl] at hmem
    cases hmem
  | cons x l =>
    rw [hl] at hmem hsorted
    exact mem_destutter'_prefer hsorted hmem

theorem mem_tableAll {sort : List MethodInfo → List MethodInfo} : ∀ {is : List InterfaceFile} {i : InterfaceFile}, i ∈ is →
    m ∈ i.table sort object → m ∈ tableAll sort object is
  | _ :: _, _, hi, hm => by
    rw [tableAll, mem_append]
    rcases mem_cons.mp hi with rfl | hi
    · exact .inl hm
    · exact .inr (mem_tableAll hi hm)

/-- Everything that an interface offers may be in its table. -/
theorem InterfaceFile.Offers.mem_table (hobject : object ≠ []) {i : InterfaceFile} (h : i.Offers m)
    (hnone : getMethodRecursive object m.signature = none) : m ∈ i.table (prefer m) object := by
  induction h with
  | own hm =>
    rw [InterfaceFile.table]
    exact mem_append_left _ hm
  | inherited hown hi _ ih =>
    rw [InterfaceFile.table]
    exact mem_append_right _ (mem_extraInfos_prefer (mem_tableAll hi (ih hnone)) hown hobject hnone)

end Prefer

/-! ## The methods of a class -/

section Classes

variable {sig : Signature}

theorem mem_signatures_cons {file : ClassFile} {files : List ClassFile} : sig ∈ signatures (file :: files) ↔
    sig ∈ file.methods ∨ files ≠ [] ∧ sig ∈ file.interfaces.flatten ∨ sig ∈ signatures files := by
  rw [signatures, newSignatures, mem_append, mem_append]
  cases files with
  | nil => simp
  | cons f fs =>
    simp only [isEmpty_cons, Bool.false_eq_true, if_false, mem_dedup, mem_filter, decide_eq_true_eq,
      ne_eq, reduceCtorEq, not_false_eq_true, true_and]
    tauto

theorem mem_signatures_append_object {object : ClassFile} (hobject : object.interfaces = []) :
    ∀ {files : List ClassFile}, sig ∈ signatures (files ++ [object]) ↔
      (∃ file ∈ files, sig ∈ file.methods ∨ sig ∈ file.interfaces.flatten) ∨ sig ∈ object.methods
  | [] => by
    rw [nil_append, mem_signatures_cons, hobject]
    simp [signatures]
  | file :: files => by
    rw [cons_append, mem_signatures_cons, mem_signatures_append_object hobject]
    simp [or_assoc]

variable {s : Superclasses} {cls : ClassInfo}

theorem Superclasses.object_file_interfaces : (s.object.file []).interfaces = [] := by
  rw [ClassInfo.file, s.object_interfaces, linkAll]

theorem Superclasses.objectChain_isSome : (getMethodRecursive s.objectChain sig).isSome ↔ s.object.Declares sig := by
  rw [(chainInv_of_linkChain s.link_object).visible sig, mem_signatures_cons, s.object_file_interfaces]
  simp [signatures, ClassInfo.file, ClassInfo.Declares]

theorem Superclasses.objectChain_ne_nil : s.objectChain ≠ [] := by
  intro h
  have hroot := (chainInv_of_linkChain s.link_object).root
  rw [h] at hroot
  cases hroot

theorem Superclasses.chain_ne_nil : s.chain ≠ [] := by
  intro h
  have hroot := (chainInv_of_linkChain s.link).root
  rw [h] at hroot
  simp at hroot

/-- Where `java.lang.Object` does not declare it, a direct interface has a signature if any superinterface has it. -/
theorem Superclasses.mem_interfaces_iff (hobject : ¬s.object.Declares sig) :
    sig ∈ (linkAll s.objectChain cls.interfaces).flatten ↔ cls.Implements sig := by
  rw [mem_flatten_linkAll]
  constructor
  · exact exists_hasMethod_of_mem
  · rintro ⟨i, hi, m, hm, rfl⟩
    refine ⟨i, hi, (mem_link_of_hasMethod s.objectChain_ne_nil hm).resolve_right fun h => ?_⟩
    exact hobject (s.objectChain_isSome.mp h)

/-- A superclass has what it declares and every method of its superinterfaces. -/
theorem Superclasses.chain_isSome : (getMethodRecursive s.chain sig).isSome ↔
    ∃ a ∈ s.all, a.Declares sig ∨ a.Implements sig := by
  rw [(chainInv_of_linkChain s.link).visible sig, mem_signatures_append_object s.object_file_interfaces]
  by_cases hobject : s.object.Declares sig
  · have hall : s.object ∈ s.all := mem_append_right _ mem_cons_self
    exact iff_of_true (.inr hobject) ⟨s.object, hall, .inl hobject⟩
  · have hnot : ¬(s.object.Declares sig ∨ s.object.Implements sig) := by
      rintro (h | ⟨i, hi, -⟩)
      · exact hobject h
      · rw [s.object_interfaces] at hi
        cases hi
    have hmap : (∃ file ∈ s.classes.map (ClassInfo.file s.objectChain), sig ∈ file.methods ∨
        sig ∈ file.interfaces.flatten) ↔ ∃ a ∈ s.classes, a.Declares sig ∨ a.Implements sig := by
      simp only [mem_map, exists_exists_and_eq_and, ClassInfo.file, s.mem_interfaces_iff hobject,
        ClassInfo.Declares]
    have hown : sig ∈ (s.object.file []).methods ↔ s.object.Declares sig := Iff.rfl
    rw [hmap, hown, or_iff_left hobject]
    simp only [Superclasses.all, mem_append, mem_singleton, or_and_right, exists_or, exists_eq_left, hnot,
      or_false]

/-- The extra methods are those of all superinterfaces that no class of the chain has. -/
theorem Superclasses.mem_extraMethods_iff : sig ∈ extraMethods s.chain (cls.file s.objectChain) ↔
    cls.Implements sig ∧ ¬cls.Declares sig ∧ ∀ a ∈ s.all, ¬a.Declares sig ∧ ¬a.Implements sig := by
  have hnone : getMethodRecursive s.chain sig = none ↔ ∀ a ∈ s.all, ¬a.Declares sig ∧ ¬a.Implements sig := by
    rw [← Option.not_isSome_iff_eq_none, s.chain_isSome]
    push Not
    rfl
  rw [mem_extraMethods, hnone]
  constructor
  · rintro ⟨hmem, hown, -, hall⟩
    have hobject := (hall s.object (mem_append_right _ mem_cons_self)).1
    exact ⟨(s.mem_interfaces_iff hobject).mp hmem, hown, hall⟩
  · rintro ⟨himpl, hown, hall⟩
    have hobject := (hall s.object (mem_append_right _ mem_cons_self)).1
    exact ⟨(s.mem_interfaces_iff hobject).mpr himpl, hown, s.chain_ne_nil, hall⟩

/-- The methods found in a class are those that it or a superclass declares, and those of their superinterfaces. -/
theorem Superclasses.isSome_iff {vmc : LinkedClass}
    (h : vmc.methods.map VmMethod.signature = allMethods s.chain (cls.file s.objectChain)) :
    (getMethodRecursive (vmc :: s.chain) sig).isSome ↔ ∃ a ∈ cls :: s.all, a.Declares sig ∨ a.Implements sig := by
  rw [getMethodRecursive_cons_isSome, h, allMethods, mem_append, s.mem_extraMethods_iff, s.chain_isSome, exists_mem_cons_iff]
  have hown : sig ∈ (cls.file s.objectChain).methods ↔ cls.Declares sig := Iff.rfl
  rw [hown]
  by_cases hsuper : ∃ a ∈ s.all, a.Declares sig ∨ a.Implements sig
  · simp [hsuper]
  · have hall : ∀ a ∈ s.all, ¬a.Declares sig ∧ ¬a.Implements sig := by
      intro a ha
      exact ⟨fun hd => hsuper ⟨a, ha, .inl hd⟩, fun hi => hsuper ⟨a, ha, .inr hi⟩⟩
    simp only [hsuper, or_false, iff_true_intro hall, and_true]
    tauto

end Classes

/-! ## The result -/

theorem exists_linkedClass (sigs : List Signature) : ∃ vmc : LinkedClass, vmc.methods.map VmMethod.signature = sigs := by
  refine ⟨⟨sigs.map fun sig => ⟨0, 0, sig, 0⟩, 0, []⟩, ?_⟩
  simp [Function.comp_def]

section Result

variable {s : Superclasses} {cls : ClassInfo}

/-- The signatures of the extra methods do not depend on the order. -/
theorem Superclasses.mem_extras_iff {sort : List MethodInfo → List MethodInfo} (hsort : Sorts sort) {sig : Signature} :
    sig ∈ (s.extras cls sort).map MethodInfo.signature ↔
      cls.Implements sig ∧ ¬cls.Declares sig ∧ ∀ a ∈ s.all, ¬a.Declares sig ∧ ¬a.Implements sig := by
  rw [← s.mem_extraMethods_iff, mem_extraMethods, extras, hsort.mem_signature_iff, hsort.mem_tableAll_iff]
  rfl

section Needed

variable {sig : Signature} (hundeclared : ∀ a ∈ cls :: s.all, ¬a.Declares sig)
include hundeclared

theorem Superclasses.mem_extras_iff_of_undeclared {sort : List MethodInfo → List MethodInfo} (hsort : Sorts sort) :
    sig ∈ (s.extras cls sort).map MethodInfo.signature ↔ cls.Implements sig ∧ ∀ a ∈ s.all, ¬a.Implements sig := by
  rw [s.mem_extras_iff hsort]
  constructor
  · rintro ⟨himpl, -, hall⟩
    exact ⟨himpl, fun a ha => (hall a ha).2⟩
  · rintro ⟨himpl, hall⟩
    exact ⟨himpl, hundeclared cls mem_cons_self, fun a ha => ⟨hundeclared a (mem_cons_of_mem cls ha), hall a ha⟩⟩

/-- A method that an interface of the class offers is the extra method for some order. -/
theorem Superclasses.mem_extras_prefer {i : InterfaceFile} {m : MethodInfo} (hi : i ∈ cls.interfaces) (hm : i.Offers m)
    (hsig : m.signature = sig) (hnone : ∀ a ∈ s.all, ¬a.Implements sig) : m ∈ s.extras cls (prefer m) := by
  have hobject : getMethodRecursive s.objectChain m.signature = none := by
    rw [← Option.not_isSome_iff_eq_none, s.objectChain_isSome, hsig]
    exact hundeclared s.object (mem_cons_of_mem cls (mem_append_right _ mem_cons_self))
  have hchain : getMethodRecursive s.chain m.signature = none := by
    rw [← Option.not_isSome_iff_eq_none, s.chain_isSome, hsig]
    rintro ⟨a, ha, hdecl | himpl⟩
    · exact hundeclared a (mem_cons_of_mem cls ha) hdecl
    · exact hnone a ha himpl
  exact mem_extraInfos_prefer (mem_tableAll hi (hm.mem_table s.objectChain_ne_nil hobject))
    (hsig ▸ hundeclared cls mem_cons_self) s.chain_ne_nil hchain

theorem Superclasses.abstractInherited (h : ∀ sort, Sorts sort → s.MirandaCorrect cls sort) :
    s.AbstractInherited cls sig := by
  have hextra (sort : List MethodInfo → List MethodInfo) (hsort : Sorts sort) :
      cls.Implements sig ∧ (∀ a ∈ s.all, ¬a.Implements sig) ↔ cls.Requires sig := by
    rw [← s.mem_extras_iff_of_undeclared hundeclared hsort, (h sort hsort).extra sig]
    exact and_iff_left hundeclared
  have honce (hreq : cls.Requires sig) : ∀ a ∈ s.all, ¬a.Implements sig :=
    ((hextra (prefer ⟨sig, 0⟩) (sorts_prefer _)).mpr hreq).2
  refine ⟨honce, ?_, fun hnone i hi m hm hsig => ?_⟩
  · rintro ⟨a, ha, himpl⟩
    obtain ⟨vmc, hvmc⟩ := exists_linkedClass (allMethods s.chain (cls.file s.objectChain))
    have hfound := (s.isSome_iff hvmc).mpr ⟨a, mem_cons_of_mem cls ha, .inr himpl⟩
    obtain ⟨b, hb, hdecl | hreq⟩ := ((h _ (sorts_prefer ⟨sig, 0⟩)).found vmc hvmc sig).mp hfound
    · exact absurd hdecl (hundeclared b hb)
    · rcases mem_cons.mp hb with rfl | hb
      · exact absurd himpl (honce hreq a ha)
      · exact ⟨b, hb, hreq⟩
  · exact ((h _ (sorts_prefer m)).abstract m (s.mem_extras_prefer hundeclared hi hm hsig hnone)).1

variable (h : s.AbstractInherited cls sig)
include h

theorem Superclasses.AbstractInherited.requires_iff :
    cls.Implements sig ∧ (∀ a ∈ s.all, ¬a.Implements sig) ↔ cls.Requires sig := by
  constructor
  · rintro ⟨⟨i, hi, m, hm, rfl⟩, hnone⟩
    obtain ⟨m', hm', hsig⟩ := hm.exists_offers
    exact ⟨i, hi, m', hm'.hasMethod, hsig, h.own hnone i hi m' hm' hsig⟩
  · exact fun hreq => ⟨hreq.implements, h.once hreq⟩

theorem Superclasses.AbstractInherited.exists_requires_iff :
    (∃ a ∈ cls :: s.all, a.Implements sig) ↔ ∃ a ∈ cls :: s.all, a.Requires sig := by
  constructor
  · rintro ⟨a, ha, himpl⟩
    by_cases hsuper : ∃ b ∈ s.all, b.Implements sig
    · obtain ⟨b, hb, hreq⟩ := h.supers hsuper
      exact ⟨b, mem_cons_of_mem cls hb, hreq⟩
    · have hnone : ∀ b ∈ s.all, ¬b.Implements sig := fun b hb himpl => hsuper ⟨b, hb, himpl⟩
      rcases mem_cons.mp ha with rfl | ha
      · exact ⟨a, mem_cons_self, (h.requires_iff hundeclared).mp ⟨himpl, hnone⟩⟩
      · exact absurd himpl (hnone a ha)
  · rintro ⟨a, ha, hreq⟩
    exact ⟨a, ha, hreq.implements⟩

end Needed

end Result

/-! ## An interface with a class initializer -/

/-- The class initializer `<clinit>()V` of an interface is static. -/
def clinit : MethodInfo := ⟨toLex ("<clinit>", "()V"), 0x0008⟩

/-- An interface with a constant that has to be computed. -/
def constants : InterfaceFile := .mk [clinit] []

/-- A class that implements the interface and declares nothing. -/
def user : ClassInfo := ⟨[], [constants]⟩

/-- A class whose only superclass is an empty `java.lang.Object`. -/
def emptyObject : Superclasses where
  object := ⟨[], []⟩
  classes := []
  objectChain := [⟨[], 0, []⟩]
  chain := [⟨[], 0, []⟩]
  object_interfaces := rfl
  link_object := rfl
  link := rfl

end Jato.Vm.Miranda
