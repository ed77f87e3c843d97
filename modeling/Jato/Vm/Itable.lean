import Jato.Arch.ItableStub
import Jato.Lib.FoldM
import Jato.Vm.Vtable

/-!
# Interface method tables

`vm_itable_setup` of `vm/itable.c`. The abstract methods of all superinterfaces of a class are distributed over the slots
of its itable by a hash of their signature. A slot with a single entry holds the method of the class; a slot with several
entries holds a stub that searches for the interface method that is called.

`itableCorrect_iff` says for which classes a call of an interface method reaches the method of the class: the stubs
compare with 32-bit operands, so the interface methods in a slot with several entries need small addresses, and they
call through the virtual method table, so the methods must be the ones that stand there.
-/

namespace Jato.Vm

open Jato.Lib List
open Jato.Lib.X86 (Byte)
open Jato.Jit.Emit (maxTextSize)
open Jato.Arch.ItableStub

/-! ## Interfaces -/

structure InterfaceMethod where
  address : BitVec 64
  signature : Signature
  isAbstract : Bool
deriving DecidableEq

/-- A linked interface: its methods and its superinterfaces. -/
inductive Interface
  | mk (methods : List InterfaceMethod) (interfaces : List Interface)

namespace Interface

def methods : Interface → List InterfaceMethod
  | .mk methods _ => methods

def signatures (i : Interface) : List Signature := i.methods.map (·.signature)

/-- The interface or one of its superinterfaces has the method. -/
inductive HasMethod : Interface → InterfaceMethod → Prop
  | own {methods interfaces m} : m ∈ methods → HasMethod (.mk methods interfaces) m
  | inherited {methods interfaces i m} : i ∈ interfaces → HasMethod i m → HasMethod (.mk methods interfaces) m

/-- The interface has the methods that `vm_class_link` gives it, with `java.lang.Object` as its superclass. -/
inductive Linked (object : List LinkedClass) : Interface → Prop
  | mk {methods interfaces} (file : ClassFile) : file.interfaces = interfaces.map signatures →
      methods.map (·.signature) = allMethods object file → (∀ i ∈ interfaces, Linked object i) →
      Linked object (.mk methods interfaces)

end Interface

/-- A class with its superclasses, and the interfaces that each of them names; `object` is `java.lang.Object`. -/
structure LoadedClass where
  classes : List (ClassFile × List Interface)
  object : ClassFile
  chain : List LinkedClass
  objectChain : List LinkedClass
  /-- The virtual method table of the class. -/
  nativePtr : BitVec 64
  /-- Where `itable_resolver_stub_error` lies, seen from the stub of a slot. -/
  stubError : Nat → Int
  object_interfaces : object.interfaces = []
  link : linkChain (classes.map (·.1) ++ [object]) = some chain
  link_object : linkChain [object] = some objectChain
  interfaces_eq : ∀ p ∈ classes, p.1.interfaces = p.2.map Interface.signatures
  linked : ∀ p ∈ classes, ∀ i ∈ p.2, i.Linked objectChain
  /-- Different methods lie at different addresses. -/
  address_inj : ∀ p ∈ classes, ∀ i ∈ p.2, ∀ m, i.HasMethod m → ∀ p' ∈ classes, ∀ i' ∈ p'.2, ∀ m', i'.HasMethod m' →
    m.address = m'.address → m = m'

/-- The class files of the class and its superclasses. -/
def LoadedClass.files (cls : LoadedClass) : List ClassFile := cls.classes.map (·.1) ++ [cls.object]

/-- The method belongs to a superinterface of the class. -/
def LoadedClass.HasMethod (cls : LoadedClass) (m : InterfaceMethod) : Prop := ∃ p ∈ cls.classes, ∃ i ∈ p.2, i.HasMethod m

/-- `vm_class_get_method_recursive` for the signature of an interface method. -/
def LoadedClass.find (cls : LoadedClass) (sig : Signature) : Option VmMethod := getMethodRecursive cls.chain sig

/-! ## The table -/

def vmItableSize : Nat := 8

/-- The type `char` is signed. -/
def itableHashString (str : String) : UInt32 :=
  let hash := (str.toList.flatMap String.utf8EncodeChar).foldl (fun (hash : UInt32) c =>
    let hash := hash + c.toInt8.toInt32.toUInt32
    let hash := hash + (hash <<< 10)
    hash ^^^ (hash >>> 6)) 0
  let hash := hash + (hash <<< 3)
  let hash := hash ^^^ (hash >>> 11)
  hash + (hash <<< 15)

def itableHashCombine (a b : UInt32) : UInt32 :=
  ((a >>> 24) ^^^ (a >>> 16) ^^^ (a >>> 8) ^^^ a) ^^^ ((b >>> 24) ^^^ (b >>> 16) ^^^ (b >>> 8) ^^^ b)

def itableHash (sig : Signature) : Nat :=
  (itableHashCombine (itableHashString (ofLex sig).1) (itableHashString (ofLex sig).2)).toNat % vmItableSize

theorem itableHash_lt (sig : Signature) : itableHash sig < vmItableSize := Nat.mod_lt _ (by decide)

/-- The lists of the temporary itable. -/
abbrev Buckets : Type := Nat → List InterfaceMethod

def Buckets.add (t : Buckets) (m : InterfaceMethod) : Buckets :=
  fun i => if i = itableHash m.signature then m :: t i else t i

def addMethods (methods : List InterfaceMethod) (t : Buckets) : Buckets :=
  methods.foldl (fun t m => if m.isAbstract then t.add m else t) t

mutual

/-- `itable_add_entries` for an interface; its superclass has no interfaces. -/
def Interface.addEntries : Interface → Buckets → Buckets
  | .mk methods interfaces, t => addEntriesList interfaces (addMethods methods t)

def addEntriesList : List Interface → Buckets → Buckets
  | [], t => t
  | i :: is, t => addEntriesList is (i.addEntries t)

end

structure ItableEntry where
  iMethod : InterfaceMethod
  cMethod : VmMethod

/-- A slot of the itable: the error function, the code of a method, or a stub. -/
inductive Slot
  | stubError
  | method (c : VmMethod)
  | resolver (code : List Byte)

/-- The entries of a slot, sorted by `itable_entry_compare` and without repetitions. -/
def sortedTable (es : List ItableEntry) : List ItableEntry :=
  (es.insertionSort fun e e' => e.iMethod.address.toNat ≤ e'.iMethod.address.toNat).destutter
    fun e e' => e.iMethod.address.toNat ≠ e'.iMethod.address.toNat

def ItableEntry.entry (e : ItableEntry) : Entry := ⟨e.iMethod.address, e.cMethod.virtualIndex⟩

def stubTable (es : List ItableEntry) (i : Nat) : Entry := ((sortedTable es).map ItableEntry.entry).getD i ⟨0, 0⟩

namespace LoadedClass

variable (cls : LoadedClass)

def buckets : Buckets := cls.classes.foldl (fun t p => addEntriesList p.2 t) fun _ => []

def itableCreateConflictResolver (slot : Nat) : List ItableEntry → Slot
  | [] => .stubError
  | [e] => .method e.cMethod
  | es => .resolver (emitItableResolverStub (stubTable es) (cls.stubError slot) cls.nativePtr (sortedTable es).length)

/-- The assertion fails if the class does not have the method. -/
def resolveEntry (m : InterfaceMethod) : Option ItableEntry := (cls.find m.signature).map (⟨m, ·⟩)

def vmItableSetup : Option (List Slot) := do
  let itable ← (List.range vmItableSize).mapM fun i => (cls.buckets i).mapM cls.resolveEntry
  return itable.mapIdx cls.itableCreateConflictResolver

/-! ## Calls -/

/-- The method that a cell of memory in the virtual method table of the class holds. -/
def vtableEntry (cell : BitVec 64) : Option VmMethod :=
  let offset := (cell - cls.nativePtr).toNat
  if offset % 8 = 0 then ((superVtable cls.chain).2[offset / 8]?).join else none

/-- Calling a slot with an interface method as the hidden argument reaches a method. -/
def Calls (m : InterfaceMethod) (c : VmMethod) : Slot → Prop
  | .stubError => False
  | .method c' => c' = c
  | .resolver code => ∀ rcx, ∃ cell, Leads (Arch.ItableStub.step code) ⟨0, m.address, rcx, none⟩ (.indirect cell) ∧
      cls.vtableEntry cell = some c

/-- Every call of a method of a superinterface reaches the method that is found in the class. -/
def ItableCorrect : Prop := ∃ itable, cls.vmItableSetup = some itable ∧ ∀ m, cls.HasMethod m →
  ∃ slot c, itable[itableHash m.signature]? = some slot ∧ cls.find m.signature = some c ∧ cls.Calls m c slot

end LoadedClass

/-! ## What the slots hold -/

variable {m' : InterfaceMethod} {e : ItableEntry}

section

variable {m : InterfaceMethod} {slot : Nat}

theorem mem_add {t : Buckets} : m ∈ t.add m' slot ↔ m ∈ t slot ∨ (m = m' ∧ itableHash m.signature = slot) := by
  unfold Buckets.add
  split_ifs with hslot
  · subst hslot
    rw [mem_cons, or_comm]
    exact or_congr_right ⟨fun h => ⟨h, h ▸ rfl⟩, And.left⟩
  · refine ⟨.inl, fun h => h.resolve_right ?_⟩
    rintro ⟨rfl, rfl⟩
    exact hslot rfl

theorem mem_addMethods {methods : List InterfaceMethod} {t : Buckets} : m ∈ addMethods methods t slot ↔
    m ∈ t slot ∨ (m ∈ methods ∧ m.isAbstract ∧ itableHash m.signature = slot) := by
  induction methods generalizing t with
  | nil => simp [addMethods]
  | cons m' methods ih =>
    have hcons : addMethods (m' :: methods) t = addMethods methods (if m'.isAbstract then t.add m' else t) := rfl
    rw [hcons, ih, mem_cons]
    split_ifs with habstract
    · rw [mem_add, or_assoc]
      refine or_congr_right ⟨?_, ?_⟩
      · rintro (⟨rfl, hhash⟩ | ⟨hm, hrest⟩)
        · exact ⟨.inl rfl, habstract, hhash⟩
        · exact ⟨.inr hm, hrest⟩
      · rintro ⟨rfl | hm, hrest⟩
        · exact .inl ⟨rfl, hrest.2⟩
        · exact .inr ⟨hm, hrest⟩
    · refine or_congr_right ⟨fun h => ⟨.inr h.1, h.2⟩, ?_⟩
      rintro ⟨rfl | hm, hrest⟩
      · exact absurd hrest.1 habstract
      · exact ⟨hm, hrest⟩

mutual

theorem Interface.mem_addEntries : ∀ (i : Interface) (t : Buckets), m ∈ i.addEntries t slot ↔
    m ∈ t slot ∨ (i.HasMethod m ∧ m.isAbstract ∧ itableHash m.signature = slot)
  | .mk methods interfaces, t => by
    rw [Interface.addEntries, mem_addEntriesList interfaces, mem_addMethods, or_assoc, ← or_and_right]
    refine or_congr_right (and_congr_left fun _ => ⟨?_, ?_⟩)
    · rintro (hm | ⟨i, hi, hm⟩)
      · exact .own hm
      · exact .inherited hi hm
    · rintro (hm | ⟨hi, hm⟩)
      · exact .inl hm
      · exact .inr ⟨_, hi, hm⟩

theorem mem_addEntriesList : ∀ (is : List Interface) (t : Buckets), m ∈ addEntriesList is t slot ↔
    m ∈ t slot ∨ ((∃ i ∈ is, i.HasMethod m) ∧ m.isAbstract ∧ itableHash m.signature = slot)
  | [], t => by simp [addEntriesList]
  | i :: is, t => by
    rw [addEntriesList, mem_addEntriesList is, i.mem_addEntries, or_assoc, ← or_and_right]
    simp

end

theorem LoadedClass.mem_buckets {cls : LoadedClass} :
    m ∈ cls.buckets slot ↔ cls.HasMethod m ∧ m.isAbstract ∧ itableHash m.signature = slot := by
  have hfold (classes : List (ClassFile × List Interface)) t :
      m ∈ classes.foldl (fun t p => addEntriesList p.2 t) t slot ↔ m ∈ t slot ∨
        ((∃ p ∈ classes, ∃ i ∈ p.2, i.HasMethod m) ∧ m.isAbstract ∧ itableHash m.signature = slot) := by
    induction classes generalizing t with
    | nil => simp
    | cons p classes ih =>
      rw [foldl_cons, ih, mem_addEntriesList, or_assoc, ← or_and_right]
      simp
  rw [buckets, hfold]
  exact or_iff_right not_mem_nil

end

/-! ## Every method is found -/

section

variable {m : InterfaceMethod}

/-- What a superinterface has, the interface or `java.lang.Object` has. -/
theorem Interface.Linked.signature_mem {object : List LinkedClass} {i : Interface} (hobject : object ≠ [])
    (hm : i.HasMethod m) (h : i.Linked object) :
    m.signature ∈ i.signatures ∨ (getMethodRecursive object m.signature).isSome := by
  induction hm with
  | own hm => exact .inl (mem_map_of_mem hm)
  | @inherited methods interfaces i m hi _ ih =>
    obtain ⟨file, hfile, hmethods, hlinked⟩ := h
    refine (ih (hlinked i hi)).elim (fun hsig => ?_) .inr
    by_cases hfound : (getMethodRecursive object m.signature).isSome
    · exact .inr hfound
    · refine .inl ?_
      rw [Interface.signatures, Interface.methods, hmethods, allMethods, mem_append]
      by_cases hown : m.signature ∈ file.methods
      · exact .inl hown
      · refine .inr (mem_extraMethods.mpr ⟨?_, hown, hobject, Option.not_isSome_iff_eq_none.mp hfound⟩)
        rw [hfile]
        exact mem_flatten.mpr ⟨_, mem_map_of_mem hi, hsig⟩

namespace LoadedClass

variable {cls : LoadedClass}

theorem signatures_object_subset (classes : List ClassFile) (object : ClassFile) :
    signatures [object] ⊆ signatures (classes ++ [object]) := by
  induction classes with
  | nil => exact List.Subset.refl _
  | cons file classes ih => exact subset_append_of_subset_right _ ih

variable {sig : Signature} {c : VmMethod}

theorem signature_mem_of_interfaces {object : ClassFile} {file : ClassFile} {classes : List ClassFile}
    (hfile : file ∈ classes) (hsig : sig ∈ file.interfaces.flatten) : sig ∈ signatures (classes ++ [object]) := by
  induction classes with
  | nil => exact absurd hfile not_mem_nil
  | cons file' classes ih =>
    rw [cons_append, signatures, mem_append]
    rcases mem_cons.mp hfile with rfl | hfile
    · by_cases hvisible : sig ∈ signatures (classes ++ [object])
      · exact .inr hvisible
      · refine .inl ?_
        rw [newSignatures, mem_append]
        by_cases hown : sig ∈ file.methods
        · exact .inl hown
        · refine .inr ?_
          rw [if_neg (by simp), mem_dedup, mem_filter]
          exact ⟨hsig, decide_eq_true ⟨hown, hvisible⟩⟩
    · exact .inr (ih hfile)

/-- The class has a method for every method of its superinterfaces, so the assertion holds. -/
theorem exists_find (hm : cls.HasMethod m) : ∃ c, cls.find m.signature = some c := by
  obtain ⟨p, hp, i, hi, hm⟩ := hm
  have hobject := chainInv_of_linkChain cls.link_object
  have hne : cls.objectChain ≠ [] := by
    intro hnil
    have hroot := hobject.root
    rw [hnil] at hroot
    cases hroot
  refine Option.isSome_iff_exists.mp (((chainInv_of_linkChain cls.link).visible m.signature).mpr ?_)
  rcases (cls.linked p hp i hi).signature_mem hne hm with hsig | hsig
  · refine signature_mem_of_interfaces (mem_map_of_mem hp) ?_
    rw [cls.interfaces_eq p hp]
    exact mem_flatten.mpr ⟨_, mem_map_of_mem hi, hsig⟩
  · exact signatures_object_subset _ _ ((hobject.visible m.signature).mp hsig)

/-- The entries of a slot are its interface methods with the methods that are found for them. -/
structure SlotEntries (cls : LoadedClass) (slot : Nat) (es : List ItableEntry) : Prop where
  methods : es.map (·.iMethod) = cls.buckets slot
  found : ∀ e ∈ es, cls.find e.iMethod.signature = some e.cMethod

theorem exists_slotEntries (cls : LoadedClass) (slot : Nat) :
    ∃ es, (cls.buckets slot).mapM cls.resolveEntry = some es ∧ cls.SlotEntries slot es := by
  have hentry : ∀ m ∈ cls.buckets slot, ∃ e, cls.resolveEntry m = some e := by
    intro m hm
    obtain ⟨c, hc⟩ := exists_find (mem_buckets.mp hm).1
    exact ⟨⟨m, c⟩, by rw [resolveEntry, hc, Option.map_some]⟩
  have hspec {m} {e} (h : cls.resolveEntry m = some e) :
      e.iMethod = m ∧ cls.find e.iMethod.signature = some e.cMethod := by
    obtain ⟨c, hc, rfl⟩ := Option.map_eq_some_iff.mp h
    exact ⟨rfl, hc⟩
  obtain ⟨es, hes, hmap⟩ := mapM_exists hentry
  refine ⟨es, hes, ?_, ?_⟩
  · have hsome : (es.map (·.iMethod)).map some = (cls.buckets slot).map some :=
      calc (es.map (·.iMethod)).map some = (es.map some).map (Option.map (·.iMethod)) := by
            simp [Function.comp_def]
        _ = (cls.buckets slot).map fun m => (cls.resolveEntry m).map (·.iMethod) := by
            rw [← hmap, map_map]
            rfl
        _ = (cls.buckets slot).map some := by
            refine map_congr_left fun m hm => ?_
            obtain ⟨e, he⟩ := hentry m hm
            rw [he, Option.map_some, (hspec he).1]
    exact map_injective_iff.mpr (Option.some_injective _) hsome
  · intro e he
    have hmem : some e ∈ (cls.buckets slot).map cls.resolveEntry := by
      rw [hmap]
      exact mem_map_of_mem he
    obtain ⟨m, -, hm⟩ := mem_map.mp hmem
    exact (hspec hm).2

theorem exists_vmItableSetup (cls : LoadedClass) : ∃ itable, cls.vmItableSetup = some itable ∧
    itable.length = vmItableSize ∧ ∀ slot < vmItableSize,
      ∃ es, cls.SlotEntries slot es ∧ itable[slot]? = some (cls.itableCreateConflictResolver slot es) := by
  have hslots : ∀ i ∈ List.range vmItableSize, ∃ es, (cls.buckets i).mapM cls.resolveEntry = some es :=
    fun i _ => (cls.exists_slotEntries i).imp fun _ => And.left
  obtain ⟨ess, hess, hmap⟩ := mapM_exists hslots
  refine ⟨ess.mapIdx cls.itableCreateConflictResolver, ?_, ?_, ?_⟩
  · rw [vmItableSetup, hess]
    rfl
  · have hlen := congrArg List.length hmap
    rw [length_map, length_map, length_range] at hlen
    rw [length_mapIdx, hlen]
  · intro slot hslot
    obtain ⟨es, hes, hentries⟩ := cls.exists_slotEntries slot
    refine ⟨es, hentries, ?_⟩
    have hget := congrArg (·[slot]?) hmap
    simp only [getElem?_map, getElem?_range hslot, Option.map_some, hes] at hget
    obtain ⟨es', hes', heq⟩ := Option.map_eq_some_iff.mp hget.symm
    rw [getElem?_mapIdx, hes', Option.some.inj heq, Option.map_some]

theorem vtableSize_le {files : List ClassFile} {chain : List LinkedClass} (h : linkChain files = some chain) :
    (superVtable chain).1 ≤ 2 * maxRounds := by
  cases files with
  | nil =>
    cases h
    exact Nat.zero_le _
  | cons file files =>
    obtain ⟨supers, vmc, hsupers, hlink, rfl⟩ := linkChain_cons_eq_some.mp h
    have hsize := ((chainInv_of_linkChain hsupers).linkClass_eq_some hlink).2.1
    have hfits := setupVtable_isSome_iff.mp (Option.isSome_iff_exists.mpr ⟨vmc, hlink⟩)
    rw [assignIndices_snd] at hsize
    have hfilter := length_filter_le (fun sig => (getMethodRecursive supers sig).isNone) (allMethods supers file)
    rw [superVtable, hsize]
    omega

theorem vtableEntry_iff (h : cls.find sig = some c) :
    cls.vtableEntry (cls.nativePtr + BitVec.ofNat 64 (8 * c.virtualIndex)) = some c ↔ DeclaredOnce cls.files sig := by
  have hinv := chainInv_of_linkChain cls.link
  have hbound := hinv.bound h
  have hsize := vtableSize_le cls.link
  have hoffset : (cls.nativePtr + BitVec.ofNat 64 (8 * c.virtualIndex) - cls.nativePtr).toNat = 8 * c.virtualIndex := by
    rw [BitVec.add_comm, BitVec.add_sub_cancel, BitVec.toNat_ofNat]
    unfold maxRounds at hsize
    omega
  rw [vtableEntry, hoffset]
  simp only [Nat.mul_mod_right, if_true, Nat.mul_div_cancel_left _ (Nat.zero_lt_succ 7), Option.join_eq_some_iff]
  exact hinv.entry h

theorem virtualIndex_lt (h : cls.find sig = some c) : 8 * c.virtualIndex < 2 ^ 31 := by
  have hbound := (chainInv_of_linkChain cls.link).bound h
  have hsize := vtableSize_le cls.link
  unfold maxRounds at hsize
  omega

end LoadedClass

end

/-! ## Sorted tables -/

section

variable {es : List ItableEntry}

theorem map_sortedTable : (sortedTable es).map (·.iMethod.address.toNat) =
    ((es.map (·.iMethod.address.toNat)).insertionSort (· ≤ ·)).destutter (· ≠ ·) := by
  rw [← map_insertionSort (fun e e' : ItableEntry => e.iMethod.address.toNat ≤ e'.iMethod.address.toNat) _ _ _
    fun _ _ _ _ => Iff.rfl]
  exact map_destutter fun _ _ _ _ => Iff.rfl

theorem mem_of_mem_sortedTable (h : e ∈ sortedTable es) : e ∈ es :=
  mem_insertionSort _ |>.mp ((destutter_sublist _ _).subset h)

/-- No address of a slot gets lost. -/
theorem exists_mem_sortedTable (h : e ∈ es) : ∃ e' ∈ sortedTable es, e'.iMethod.address = e.iMethod.address := by
  have hmem : e.iMethod.address.toNat ∈ (sortedTable es).map (·.iMethod.address.toNat) := by
    rw [map_sortedTable, mem_destutter_ne, mem_insertionSort]
    exact mem_map_of_mem h
  obtain ⟨e', he', heq⟩ := mem_map.mp hmem
  exact ⟨e', he', BitVec.eq_of_toNat_eq heq⟩

variable (es) in
theorem pairwise_sortedTable : (sortedTable es).Pairwise fun e e' => e.iMethod.address < e'.iMethod.address := by
  have hsorted := pairwise_insertionSort (· ≤ ·) (es.map (·.iMethod.address.toNat))
  have hlt : ((sortedTable es).map (·.iMethod.address.toNat)).Pairwise (· < ·) := by
    rw [map_sortedTable]
    exact (hsorted.sublist (destutter_sublist _ _)).imp₂ (fun _ _ => lt_of_le_of_ne) (nodup_destutter_ne hsorted)
  exact (pairwise_map.mp hlt).imp fun h => h

theorem stubTable_eq {i : Nat} (h : (sortedTable es)[i]? = some e) : stubTable es i = e.entry := by
  rw [stubTable, getD_eq_getElem?_getD, getElem?_map, h]
  rfl

theorem sortedTable_ne (h : es ≠ []) : sortedTable es ≠ [] := by
  obtain ⟨e, he⟩ := exists_mem_of_ne_nil es h
  obtain ⟨e', he', -⟩ := exists_mem_sortedTable he
  exact ne_nil_of_mem he'

end

/-! ## Calls through stubs -/

namespace LoadedClass

variable {cls : LoadedClass} {slot : Nat} {es : List ItableEntry} {m : InterfaceMethod} {c : VmMethod}

theorem itableCreateConflictResolver_eq (h : 1 < es.length) : cls.itableCreateConflictResolver slot es =
    .resolver (emitItableResolverStub (stubTable es) (cls.stubError slot) cls.nativePtr (sortedTable es).length) := by
  match es, h with
  | _ :: _ :: _, _ => rfl

theorem SlotEntries.virtualIndex_lt (hes : cls.SlotEntries slot es) (i : Nat) :
    8 * (stubTable es i).virtualIndex < 2 ^ 31 := by
  cases hi : (sortedTable es)[i]? with
  | none =>
    rw [stubTable, getD_eq_getElem?_getD, getElem?_map, hi]
    decide
  | some e =>
    rw [stubTable_eq hi]
    exact LoadedClass.virtualIndex_lt (hes.found e (mem_of_mem_sortedTable (mem_of_getElem? hi)))

theorem SlotEntries.calls_iff (hes : cls.SlotEntries slot es) (hlen : 1 < es.length)
    (hsize : ∀ code, cls.itableCreateConflictResolver slot es = .resolver code → code.length ≤ maxTextSize) :
    cls.Calls m c (cls.itableCreateConflictResolver slot es) ↔
      ∃ e i, search (stubTable es) m.address 0 ((sortedTable es).length - 1) = some i ∧ (sortedTable es)[i]? = some e ∧
        cls.vtableEntry (cls.nativePtr + BitVec.ofNat 64 (8 * e.cMethod.virtualIndex)) = some c := by
  rw [itableCreateConflictResolver_eq hlen] at hsize ⊢
  have hstub := leads_emitItableResolverStub m.address (hsize _ rfl) hes.virtualIndex_lt
  have hne : sortedTable es ≠ [] := sortedTable_ne (by rintro rfl; exact absurd hlen (by decide))
  have hpos := length_pos_iff.mpr hne
  cases hr : search (stubTable es) m.address 0 ((sortedTable es).length - 1) with
  | none =>
    rw [hr] at hstub
    refine iff_of_false ?_ (by rintro ⟨e, i, h, -⟩; cases h)
    intro h
    obtain ⟨cell, hcell, -⟩ := h 0
    obtain ⟨target, htarget⟩ := hstub 0
    cases hcell.unique htarget
  | some i =>
    simp only [hr] at hstub
    have hi : i < (sortedTable es).length := by
      have := (search_spec hr (Nat.zero_le _)).2.1
      omega
    have he := getElem?_eq_getElem hi
    simp only [stubTable_eq he] at hstub
    constructor
    · intro h
      obtain ⟨cell, hcell, hc⟩ := h 0
      cases hcell.unique (hstub 0)
      exact ⟨_, i, rfl, he, hc⟩
    · rintro ⟨e, i', hi', he', hc⟩ rcx
      cases hi'
      cases he.symm.trans he'
      exact ⟨_, hstub rcx, hc⟩

theorem eq_of_address (hm : cls.HasMethod m) (hm' : cls.HasMethod m') (h : m.address = m'.address) : m = m' := by
  obtain ⟨p, hp, i, hi, hm⟩ := hm
  obtain ⟨p', hp', i', hi', hm'⟩ := hm'
  exact cls.address_inj p hp i hi m hm p' hp' i' hi' m' hm' h

theorem SlotEntries.mem (hes : cls.SlotEntries slot es) (he : e ∈ es) : e.iMethod ∈ cls.buckets slot :=
  hes.methods ▸ mem_map_of_mem he

/-- If the addresses of its entries fit, the search finds the method that is called. -/
theorem SlotEntries.eq_of_search {e : ItableEntry} {i : Nat} (hes : cls.SlotEntries slot es)
    (hfits : ∀ e ∈ es, FitsImm32 e.iMethod.address) (hm : cls.HasMethod m)
    (hi : search (stubTable es) m.address 0 ((sortedTable es).length - 1) = some i)
    (he : (sortedTable es)[i]? = some e) : e.iMethod = m := by
  have hmem := mem_of_mem_sortedTable (mem_of_getElem? he)
  have hvalue := (search_spec hi (Nat.zero_le _)).2.2
  rw [stubTable_eq he, ItableEntry.entry, immValue_of_fits (hfits e hmem)] at hvalue
  exact eq_of_address (mem_buckets.mp (hes.mem hmem)).1 hm hvalue

section

variable (hes : cls.SlotEntries slot es) (hlen : 1 < es.length)
  (hsize : ∀ code, cls.itableCreateConflictResolver slot es = .resolver code → code.length ≤ maxTextSize)

include hes hlen hsize

/-- If the addresses of its entries fit, a stub calls what the virtual method table holds for each of them. -/
theorem SlotEntries.calls_of_mem
    (hfits : ∀ e ∈ es, FitsImm32 e.iMethod.address) (hm : m ∈ cls.buckets slot) (hc : cls.find m.signature = some c)
    (honce : DeclaredOnce cls.files m.signature) : cls.Calls m c (cls.itableCreateConflictResolver slot es) := by
  obtain ⟨e, he, hem⟩ := List.mem_map.mp (hes.methods ▸ hm)
  obtain ⟨e', he', haddress⟩ := exists_mem_sortedTable he
  have heq : e'.iMethod = m := by
    refine eq_of_address ?_ (mem_buckets.mp hm).1 (haddress.trans (congrArg _ hem))
    exact (mem_buckets.mp (hes.mem (mem_of_mem_sortedTable he'))).1
  have hcMethod := hes.found e' (mem_of_mem_sortedTable he')
  rw [heq, hc] at hcMethod
  have hentry := (vtableEntry_iff hc).mpr honce
  rw [Option.some.inj hcMethod] at hentry ⊢
  obtain ⟨i, hi⟩ := List.mem_iff_getElem?.mp he'
  obtain ⟨hlt, -⟩ := List.getElem?_eq_some_iff.mp hi
  refine (hes.calls_iff hlen hsize).mpr ⟨e', i, ?_, hi, hentry⟩
  have haddress : (stubTable es i).iMethod = m.address := by rw [stubTable_eq hi, ItableEntry.entry, heq]
  rw [← haddress]
  refine search_eq_some (Nat.zero_le i) (by omega) ?_ ?_
  · intro j _ hj
    have hj := List.getElem?_eq_getElem (Nat.lt_of_le_pred (Nat.zero_lt_of_lt hlt) hj)
    rw [stubTable_eq hj]
    exact hfits _ (mem_of_mem_sortedTable (List.mem_of_getElem? hj))
  · intro j k _ hjk hk
    have hk' : k < (sortedTable es).length := by omega
    have hsorted := List.pairwise_iff_getElem.mp (pairwise_sortedTable es) j k (hjk.trans hk') hk' hjk
    rw [stubTable_eq (List.getElem?_eq_getElem (hjk.trans hk')), stubTable_eq (List.getElem?_eq_getElem hk')]
    exact hsorted

theorem SlotEntries.fits_of_calls
    (h : cls.Calls m c (cls.itableCreateConflictResolver slot es)) : FitsImm32 m.address := by
  obtain ⟨e, i, hi, -⟩ := (hes.calls_iff hlen hsize).mp h
  rw [← (search_spec hi (Nat.zero_le _)).2.2]
  exact fits_immValue _

theorem SlotEntries.declaredOnce_of_calls (hfits : ∀ e ∈ es, FitsImm32 e.iMethod.address) (hm : cls.HasMethod m)
    (hc : cls.find m.signature = some c) (h : cls.Calls m c (cls.itableCreateConflictResolver slot es)) :
    DeclaredOnce cls.files m.signature := by
  obtain ⟨e, i, hi, he, hentry⟩ := (hes.calls_iff hlen hsize).mp h
  have hfound := hes.found e (mem_of_mem_sortedTable (mem_of_getElem? he))
  rw [hes.eq_of_search hfits hm hi he, hc] at hfound
  rw [← Option.some.inj hfound] at hentry
  exact (vtableEntry_iff hc).mp hentry

end

theorem length_sortedTable_le (es : List ItableEntry) : (sortedTable es).length ≤ es.length :=
  ((destutter_sublist _ _).length_le).trans_eq (length_insertionSort _ _)

/-- Stubs are small if the slots are. -/
theorem SlotEntries.length_le (hes : cls.SlotEntries slot es) (hlen : 46 * (cls.buckets slot).length + 56 ≤ maxTextSize)
    {code : List Byte} (h : cls.itableCreateConflictResolver slot es = .resolver code) : code.length ≤ maxTextSize := by
  rw [← hes.methods, length_map] at hlen
  match es, h with
  | e :: e' :: es, h =>
    cases h
    have hsorted := length_sortedTable_le (e :: e' :: es)
    have hsearch := length_emitItableBsearch_le (stubTable (e :: e' :: es)) (cls.stubError slot) 10 0
      ((sortedTable (e :: e' :: es)).length - 1) (Nat.zero_le _)
    have hstub : (emitItableResolverStub (stubTable (e :: e' :: es)) (cls.stubError slot) cls.nativePtr
        (sortedTable (e :: e' :: es)).length).length = 10 + (emitItableBsearch (stubTable (e :: e' :: es))
          (cls.stubError slot) 10 0 ((sortedTable (e :: e' :: es)).length - 1)).length := length_append
    omega

/-- **Calls through the itable** of a class reach the methods of the class exactly if the abstract methods in slots with
several entries have addresses that fit into 32 bits and signatures that no class file declares twice over one of its
superclasses, and a method that is not abstract meets a slot with a single entry for the same method of the class. -/
theorem itableCorrect_iff (cls : LoadedClass)
    (hsize : ∀ itable, cls.vmItableSetup = some itable → ∀ code, .resolver code ∈ itable → code.length ≤ maxTextSize) :
    cls.ItableCorrect ↔ ∀ m, cls.HasMethod m →
      if m.isAbstract then 1 < (cls.buckets (itableHash m.signature)).length →
        FitsImm32 m.address ∧ DeclaredOnce cls.files m.signature
      else ∃ m', cls.buckets (itableHash m.signature) = [m'] ∧ cls.find m'.signature = cls.find m.signature := by
  obtain ⟨itable, hitable, -, hslots⟩ := cls.exists_vmItableSetup
  have hcode {slot} {es}
      (h : itable[slot]? = some (cls.itableCreateConflictResolver slot es)) code
      (hcode : cls.itableCreateConflictResolver slot es = .resolver code) : code.length ≤ maxTextSize :=
    hsize itable hitable code (hcode ▸ mem_of_getElem? h)
  constructor
  · rintro ⟨itable', hitable', hcalls⟩
    cases hitable.symm.trans hitable'
    have habstract m (hm : cls.HasMethod m)
        (hlen : 1 < (cls.buckets (itableHash m.signature)).length) : FitsImm32 m.address := by
      obtain ⟨es, hes, hslot⟩ := hslots _ (itableHash_lt m.signature)
      obtain ⟨slot, c, hslot', -, hcall⟩ := hcalls m hm
      cases hslot.symm.trans hslot'
      rw [← hes.methods, length_map] at hlen
      exact hes.fits_of_calls hlen (hcode hslot) hcall
    have hall {slot} {es} (hes : cls.SlotEntries slot es) (hlen : 1 < es.length) e (he : e ∈ es) :
        FitsImm32 e.iMethod.address := by
      have hmem := mem_buckets.mp (hes.mem he)
      refine habstract e.iMethod hmem.1 ?_
      rwa [hmem.2.2, ← hes.methods, length_map]
    intro m hm
    obtain ⟨es, hes, hslot⟩ := hslots _ (itableHash_lt m.signature)
    obtain ⟨slot, c, hslot', hfind, hcall⟩ := hcalls m hm
    cases hslot.symm.trans hslot'
    split_ifs with hm'
    · intro hlen
      have hlen' := hlen
      rw [← hes.methods, length_map] at hlen'
      exact ⟨habstract m hm hlen, hes.declaredOnce_of_calls hlen' (hcode hslot) (hall hes hlen') hm hfind hcall⟩
    · rcases Nat.lt_or_ge 1 es.length with hlen | hlen
      · -- what the search finds is an abstract method with this address
        obtain ⟨e, i, hi, he, -⟩ := (hes.calls_iff hlen (hcode hslot)).mp hcall
        have hmem := mem_buckets.mp (hes.mem (mem_of_mem_sortedTable (mem_of_getElem? he)))
        exact absurd (hes.eq_of_search (hall hes hlen) hm hi he ▸ hmem.2.1) hm'
      · match es, hes, hlen, hcall with
        | [e], hes, _, hcall =>
          refine ⟨e.iMethod, hes.methods.symm, ?_⟩
          rw [hes.found e mem_cons_self, hfind, show e.cMethod = c from hcall]
  · intro h
    refine ⟨itable, hitable, fun m hm => ?_⟩
    obtain ⟨es, hes, hslot⟩ := hslots _ (itableHash_lt m.signature)
    obtain ⟨c, hc⟩ := exists_find hm
    refine ⟨_, c, hslot, hc, ?_⟩
    have hcond := h m hm
    split_ifs at hcond with hm'
    · have hmem := mem_buckets.mpr ⟨hm, hm', rfl⟩
      rcases Nat.lt_or_ge 1 es.length with hlen | hlen
      · have honce : DeclaredOnce cls.files m.signature := by
          rw [← hes.methods, length_map] at hcond
          exact (hcond hlen).2
        refine hes.calls_of_mem hlen (hcode hslot) (fun e he => ?_) hmem hc honce
        obtain ⟨he', habstract, hhash⟩ := mem_buckets.mp (hes.mem he)
        have hfits := h e.iMethod he'
        rw [if_pos habstract, hhash, ← hes.methods, length_map] at hfits
        exact (hfits hlen).1
      · match es, hes, hlen with
        | [], hes, _ => exact absurd (hes.methods ▸ hmem) not_mem_nil
        | [e], hes, _ =>
          rw [← hes.methods] at hmem
          have heq : m = e.iMethod := mem_singleton.mp hmem
          exact Option.some.inj ((hes.found e mem_cons_self).symm.trans (heq ▸ hc))
    · obtain ⟨m', hbucket, hfind⟩ := hcond
      match es, hes, hes.methods.trans hbucket with
      | [e], hes, hsingle =>
        cases hsingle
        exact Option.some.inj ((hes.found e mem_cons_self).symm.trans (hfind.trans hc))

end LoadedClass

/-! ## Two interfaces with one signature -/

section

def runSignature : Signature := toLex ("run", "()V")

def runMethod (address : BitVec 64) : InterfaceMethod := ⟨address, runSignature, true⟩

/-- An interface with the method `run` at an address. -/
def runnable (address : BitVec 64) : Interface := .mk [runMethod address] []

variable {m : InterfaceMethod} {a b : BitVec 64}

theorem hasMethod_runnable {address : BitVec 64} (h : (runnable address).HasMethod m) : m = runMethod address := by
  cases h with
  | own hm => exact mem_singleton.mp hm
  | inherited hi _ => exact absurd hi not_mem_nil

/-- A class with the method `run` that implements two interfaces with that method. -/
def twoRunnables (a b : BitVec 64) : LoadedClass where
  classes := [(⟨[runSignature], [[runSignature], [runSignature]]⟩, [runnable a, runnable b])]
  object := ⟨[], []⟩
  chain := [⟨[⟨1, 0, runSignature, 0⟩], 1, [some ⟨1, 0, runSignature, 0⟩]⟩, ⟨[], 0, []⟩]
  objectChain := [⟨[], 0, []⟩]
  nativePtr := 0x10000
  stubError := fun _ => -4096
  object_interfaces := rfl
  link := rfl
  link_object := rfl
  interfaces_eq := by
    intro p hp
    cases mem_singleton.mp hp
    rfl
  linked := by
    intro p hp i hi
    cases mem_singleton.mp hp
    have hlinked address : (runnable address).Linked [⟨[], 0, []⟩] :=
      .mk ⟨[runSignature], []⟩ rfl rfl fun _ h => absurd h not_mem_nil
    rcases mem_pair.mp hi with rfl | rfl
    · exact hlinked a
    · exact hlinked b
  address_inj := by
    have hrun {p} {i} {m}
        (hp : p ∈ [((⟨[runSignature], [[runSignature], [runSignature]]⟩ : ClassFile),
          [runnable a, runnable b])]) (hi : i ∈ p.2) (hm : i.HasMethod m) : ∃ x, m = runMethod x := by
      cases mem_singleton.mp hp
      rcases mem_pair.mp hi with rfl | rfl
      · exact ⟨a, hasMethod_runnable hm⟩
      · exact ⟨b, hasMethod_runnable hm⟩
    intro p hp i hi m hm p' hp' i' hi' m' hm' heq
    obtain ⟨x, rfl⟩ := hrun hp hi hm
    obtain ⟨y, rfl⟩ := hrun hp' hi' hm'
    exact congrArg runMethod heq

theorem hasMethod_twoRunnables : (twoRunnables a b).HasMethod m ↔ m = runMethod a ∨ m = runMethod b := by
  constructor
  · rintro ⟨p, hp, i, hi, hm⟩
    cases mem_singleton.mp hp
    rcases mem_pair.mp hi with rfl | rfl
    · exact .inl (hasMethod_runnable hm)
    · exact .inr (hasMethod_runnable hm)
  · intro h
    refine ⟨_, mem_cons_self, ?_⟩
    rcases h with rfl | rfl
    · exact ⟨runnable a, mem_cons_self, .own mem_cons_self⟩
    · exact ⟨runnable b, mem_cons_of_mem _ mem_cons_self, .own mem_cons_self⟩

theorem buckets_twoRunnables (a b : BitVec 64) (slot : Nat) : (twoRunnables a b).buckets slot =
    if slot = itableHash runSignature then [runMethod b, runMethod a] else [] := by
  have hbuckets : (twoRunnables a b).buckets = (Buckets.add (fun _ => []) (runMethod a)).add (runMethod b) := rfl
  have hadd (t : Buckets) x : t.add (runMethod x) slot =
      if slot = itableHash runSignature then runMethod x :: t slot else t slot := rfl
  rw [hbuckets, hadd, hadd]
  split_ifs <;> rfl

theorem length_le_twoRunnables {slot : Nat} {es : List ItableEntry}
    (hes : (twoRunnables a b).SlotEntries slot es) (code : List Byte)
    (h : (twoRunnables a b).itableCreateConflictResolver slot es = .resolver code) : code.length ≤ maxTextSize := by
  refine hes.length_le ?_ h
  rw [buckets_twoRunnables]
  split_ifs
  · exact (by decide : 46 * 2 + 56 ≤ maxTextSize)
  · exact (by decide : 46 * 0 + 56 ≤ maxTextSize)

theorem itableCorrect_twoRunnables : (twoRunnables 0x4000 0x8000).ItableCorrect := by
  obtain ⟨itable, hitable, hlength, hslots⟩ := (twoRunnables 0x4000 0x8000).exists_vmItableSetup
  refine (LoadedClass.itableCorrect_iff _ fun itable' hitable' code hcode => ?_).mpr fun m hm => ?_
  · cases hitable.symm.trans hitable'
    obtain ⟨slot, hslot⟩ := List.mem_iff_getElem?.mp hcode
    obtain ⟨hlt, -⟩ := List.getElem?_eq_some_iff.mp hslot
    obtain ⟨es, hes, hslot'⟩ := hslots slot (hlength ▸ hlt)
    exact length_le_twoRunnables hes code (Option.some.inj (hslot'.symm.trans hslot))
  · have honce : DeclaredOnce (twoRunnables 0x4000 0x8000).files runSignature := fun h => absurd h not_mem_nil
    rcases hasMethod_twoRunnables.mp hm with rfl | rfl
    · exact fun _ => ⟨by decide, honce⟩
    · exact fun _ => ⟨by decide, honce⟩

/-- A 64-bit address is never found. -/
theorem not_itableCorrect_twoRunnables : ¬ (twoRunnables 0x7f0000004000 0x7f0000008000).ItableCorrect := by
  rintro ⟨itable', hitable', hcalls⟩
  obtain ⟨itable, hitable, -, hslots⟩ := (twoRunnables 0x7f0000004000 0x7f0000008000).exists_vmItableSetup
  cases hitable.symm.trans hitable'
  obtain ⟨es, hes, hslot⟩ := hslots _ (itableHash_lt runSignature)
  obtain ⟨slot, c, hslot', -, hcall⟩ := hcalls (runMethod 0x7f0000004000) (hasMethod_twoRunnables.mpr (.inl rfl))
  cases hslot.symm.trans hslot'
  have hlen : 1 < es.length := by
    rw [← length_map (·.iMethod), hes.methods, buckets_twoRunnables, if_pos rfl]
    decide
  have hfits := hes.fits_of_calls hlen (length_le_twoRunnables hes) hcall
  revert hfits
  decide

end

end Jato.Vm
