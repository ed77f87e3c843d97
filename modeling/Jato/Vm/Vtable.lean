import Mathlib.Data.List.Destutter
import Mathlib.Data.List.Sort
import Mathlib.Data.Prod.Lex
import Mathlib.Data.String.Basic

/-!
# Virtual method tables

How `vm_class_link` collects the methods of a class and `setup_vtable` gives them their indices, along a chain of
superclasses. `linkChain_correct_iff` says that every table holds, at the index of a signature, the method that
`vm_class_get_method_recursive` finds for it, that signatures do not share indices and that a class keeps the indices of
its superclasses, except in two cases. If a class has more methods or inherits more table entries than a 16-bit counter
can count, linking never ends. If a class file declares a signature of a superclass twice, which neither the parser nor
`vm_class_link` rejects, the table holds the last of these methods and `vm_class_get_method_recursive` finds the first.
The results hold for every signature, static methods and constructors included, since the code makes no difference
between them. If no class file declares a signature twice, no table has an empty or unused entry (`vtable_full`).
-/

namespace Jato.Vm

open List Option

/-! ## Linking a chain of classes -/

/-- A name and a type, ordered as `compare_method_signatures` does. -/
abbrev Signature : Type := String ×ₗ String

/-- The methods of a class file, and the methods of the interfaces that it names. Nothing is assumed about them. -/
structure ClassFile where
  methods : List Signature
  interfaces : List (List Signature)

/-- `struct vm_method`, with its class named by the number of the superclasses of that class. -/
structure VmMethod where
  depth : Nat
  methodIndex : Nat
  signature : Signature
  virtualIndex : Nat
deriving DecidableEq

/-- The part of `struct vm_class` that linking fills in. A table entry is the method that it calls. -/
structure LinkedClass where
  methods : List VmMethod
  vtableSize : Nat
  vtable : List (Option VmMethod)

def getMethod (vmc : LinkedClass) (sig : Signature) : Option VmMethod :=
  vmc.methods.find? fun m => m.signature = sig

/-- `vm_class_get_method_recursive` on a class and its superclasses. -/
def getMethodRecursive : List LinkedClass → Signature → Option VmMethod
  | [], _ => none
  | vmc :: supers, sig => match getMethod vmc sig with
    | some m => some m
    | none => getMethodRecursive supers sig

/-- The signature is added unless the class file or a superclass has it; the root of the chain gets none. -/
def insertInterfaceMethod (supers : List LinkedClass) (file : ClassFile) (extra : List Signature) (sig : Signature) :
    List Signature :=
  if sig ∈ file.methods then extra
  else if supers.isEmpty then extra
  else if (getMethodRecursive supers sig).isSome then extra
  else extra ++ [sig]

/-- The interface methods that a class does not have itself, sorted and without repetitions. -/
def extraMethods (supers : List LinkedClass) (file : ClassFile) : List Signature :=
  ((file.interfaces.flatten.foldl (insertInterfaceMethod supers file) []).insertionSort (· ≤ ·)).destutter (· ≠ ·)

def allMethods (supers : List LinkedClass) (file : ClassFile) : List Signature :=
  file.methods ++ extraMethods supers file

/-- The first loop of `setup_vtable`, from method `k` on with `next` as the next free index; it returns the methods
with their indices, and the free index behind them. -/
def assignIndices (supers : List LinkedClass) : Nat → Nat → List Signature → List VmMethod × Nat
  | _, next, [] => ([], next)
  | k, next, sig :: sigs => match getMethodRecursive supers sig with
    | some m =>
      let rest := assignIndices supers (k + 1) next sigs
      (⟨supers.length, k, sig, m.virtualIndex⟩ :: rest.1, rest.2)
    | none =>
      let rest := assignIndices supers (k + 1) (next + 1) sigs
      (⟨supers.length, k, sig, next⟩ :: rest.1, rest.2)

/-- The table of the superclass, if there is one. -/
def superVtable : List LinkedClass → Nat × List (Option VmMethod)
  | [] => (0, [])
  | super :: _ => (super.vtableSize, super.vtable)

/-- The largest number of rounds that a loop with a counter of type `uint16_t` makes. -/
def maxRounds : Nat := 65535

/-- The loops count with `uint16_t`; one that has to count further never ends. -/
def setupVtable (supers : List LinkedClass) (sigs : List Signature) : Option LinkedClass :=
  let (superSize, table) := superVtable supers
  if maxRounds < sigs.length ∨ maxRounds < superSize then none
  else
    let (methods, size) := assignIndices supers 0 superSize sigs
    let table := table.take superSize ++ List.replicate (size - superSize) none
    some ⟨methods, size, methods.foldl (fun table m => table.set m.virtualIndex (some m)) table⟩

def linkClass (supers : List LinkedClass) (file : ClassFile) : Option LinkedClass :=
  setupVtable supers (allMethods supers file)

/-- Links a class after its superclasses; the root of the chain is the last of the files. -/
def linkChain : List ClassFile → Option (List LinkedClass)
  | [] => some []
  | file :: files => do
    let supers ← linkChain files
    let vmc ← linkClass supers file
    return vmc :: supers

/-! ## The methods of a class -/

section Methods

variable {supers : List LinkedClass} {file : ClassFile} {sig : Signature}

theorem mem_foldl_insertInterfaceMethod : ∀ {l extra : List Signature},
    sig ∈ l.foldl (insertInterfaceMethod supers file) extra ↔ sig ∈ extra ∨
      sig ∈ l ∧ sig ∉ file.methods ∧ supers ≠ [] ∧ getMethodRecursive supers sig = none
  | [], extra => by simp
  | x :: l, extra => by
    rw [foldl_cons, mem_foldl_insertInterfaceMethod]
    have hx : sig ∈ insertInterfaceMethod supers file extra x ↔ sig ∈ extra ∨
        sig = x ∧ x ∉ file.methods ∧ supers ≠ [] ∧ getMethodRecursive supers x = none := by
      rw [insertInterfaceMethod]
      split_ifs with hfile hroot hsuper
      · simp [hfile]
      · simp [isEmpty_iff.mp hroot]
      · simp [ne_none_iff_isSome.mpr hsuper]
      · simp_all
    rw [hx, mem_cons]
    constructor
    · rintro ((h | ⟨rfl, h⟩) | ⟨hl, h⟩)
      · exact .inl h
      · exact .inr ⟨.inl rfl, h⟩
      · exact .inr ⟨.inr hl, h⟩
    · rintro (h | ⟨rfl | hl, h⟩)
      · exact .inl (.inl h)
      · exact .inl (.inr ⟨rfl, h⟩)
      · exact .inr ⟨hl, h⟩

theorem mem_destutter'_ne {α : Type} [DecidableEq α] {a : α} : ∀ {l : List α} {b : α},
    a ∈ l.destutter' (· ≠ ·) b ↔ a ∈ b :: l
  | [], b => by simp
  | c :: l, b => by
    rw [destutter'_cons]
    split_ifs with h
    · rw [mem_cons, mem_destutter'_ne, mem_cons (l := c :: l)]
    · rw [mem_destutter'_ne]
      simp [not_not.mp h]

theorem mem_destutter_ne {α : Type} [DecidableEq α] {a : α} {l : List α} : a ∈ l.destutter (· ≠ ·) ↔ a ∈ l := by
  cases l with
  | nil => simp
  | cons b l => exact mem_destutter'_ne

theorem nodup_of_isChain_ne {α : Type} [LinearOrder α] : ∀ {l : List α}, l.Pairwise (· ≤ ·) → l.IsChain (· ≠ ·) →
    l.Nodup
  | [], _, _ => .nil
  | [a], _, _ => nodup_singleton a
  | a :: b :: l, hle, hne => by
    obtain ⟨hale, hle⟩ := pairwise_cons.mp hle
    obtain ⟨hab, hne⟩ := isChain_cons_cons.mp hne
    refine nodup_cons.mpr ⟨fun hmem => ?_, nodup_of_isChain_ne hle hne⟩
    have hlt := lt_of_le_of_ne (hale b mem_cons_self) hab
    rcases mem_cons.mp hmem with rfl | hmem
    · exact hab rfl
    · exact absurd ((pairwise_cons.mp hle).1 a hmem) (not_le.mpr hlt)

theorem nodup_destutter_ne {α : Type} [LinearOrder α] {l : List α} (h : l.Pairwise (· ≤ ·)) :
    (l.destutter (· ≠ ·)).Nodup :=
  nodup_of_isChain_ne (h.sublist (destutter_sublist _ l)) (isChain_destutter _ l)

theorem mem_extraMethods : sig ∈ extraMethods supers file ↔ sig ∈ file.interfaces.flatten ∧ sig ∉ file.methods ∧
    supers ≠ [] ∧ getMethodRecursive supers sig = none := by
  rw [extraMethods, mem_destutter_ne, mem_insertionSort, mem_foldl_insertInterfaceMethod]
  simp

theorem count_allMethods (h : sig ∈ file.methods) : (allMethods supers file).count sig = file.methods.count sig := by
  have hextra : sig ∉ extraMethods supers file := fun hx => (mem_extraMethods.mp hx).2.1 h
  rw [allMethods, count_append, count_eq_zero_of_not_mem hextra, Nat.add_zero]

end Methods

/-! ## Finding methods -/

section Find

variable {vmc : LinkedClass} {supers : List LinkedClass} {sig : Signature} {m : VmMethod}

theorem getMethod_eq_some (h : getMethod vmc sig = some m) : m ∈ vmc.methods ∧ m.signature = sig := by
  have hp := find?_some h
  exact ⟨mem_of_find?_eq_some h, by simpa using hp⟩

theorem getMethod_eq_none : getMethod vmc sig = none ↔ sig ∉ vmc.methods.map VmMethod.signature := by
  simp [getMethod]

/-- A method is found in the class itself, or in a superclass when the class has none with its signature. -/
theorem getMethodRecursive_cons : getMethodRecursive (vmc :: supers) sig = some m ↔ getMethod vmc sig = some m ∨
      sig ∉ vmc.methods.map VmMethod.signature ∧ getMethodRecursive supers sig = some m := by
  rw [getMethodRecursive, ← getMethod_eq_none]
  cases getMethod vmc sig <;> simp

theorem getMethodRecursive_cons_isSome : (getMethodRecursive (vmc :: supers) sig).isSome ↔
    sig ∈ vmc.methods.map VmMethod.signature ∨ (getMethodRecursive supers sig).isSome := by
  rw [getMethodRecursive]
  cases hm : getMethod vmc sig with
  | none => simp [getMethod_eq_none.mp hm]
  | some m =>
    obtain ⟨hmem, rfl⟩ := getMethod_eq_some hm
    simp [mem_map_of_mem hmem]

end Find

/-! ## Assigning indices -/

section Assign

variable {supers : List LinkedClass}

theorem map_signature_assignIndices : ∀ {k next : Nat} {sigs : List Signature},
    (assignIndices supers k next sigs).1.map VmMethod.signature = sigs
  | _, _, [] => rfl
  | k, next, sig :: sigs => by
    cases h : getMethodRecursive supers sig <;> simp [assignIndices, h, map_signature_assignIndices]

/-- The free index advances once for every signature that no superclass has. -/
theorem assignIndices_snd : ∀ {k next : Nat} {sigs : List Signature},
    (assignIndices supers k next sigs).2 =
      next + (sigs.filter fun sig => (getMethodRecursive supers sig).isNone).length
  | _, _, [] => rfl
  | k, next, sig :: sigs => by
    cases h : getMethodRecursive supers sig with
    | none =>
      simp only [assignIndices, h, assignIndices_snd, isNone_none, filter_cons_of_pos, length_cons]
      omega
    | some m => simp [assignIndices, h, assignIndices_snd]

/-- A method has the index of the method it overrides, or one of the fresh indices. -/
theorem virtualIndex_assignIndices {m : VmMethod} : ∀ {k next : Nat} {sigs : List Signature},
    m ∈ (assignIndices supers k next sigs).1 →
      (∃ m', getMethodRecursive supers m.signature = some m' ∧ m.virtualIndex = m'.virtualIndex) ∨
        getMethodRecursive supers m.signature = none ∧ next ≤ m.virtualIndex ∧
          m.virtualIndex < (assignIndices supers k next sigs).2
  | _, _, [], h => by cases h
  | k, next, sig :: sigs, h => by
    cases hs : getMethodRecursive supers sig with
    | some m' =>
      simp only [assignIndices, hs, mem_cons] at h ⊢
      rcases h with rfl | h
      · exact .inl ⟨m', hs, rfl⟩
      · exact virtualIndex_assignIndices h
    | none =>
      simp only [assignIndices, hs, mem_cons] at h ⊢
      rcases h with rfl | h
      · refine .inr ⟨hs, Nat.le_refl next, ?_⟩
        rw [assignIndices_snd]
        exact Nat.lt_of_lt_of_le (Nat.lt_succ_self next) (Nat.le_add_right _ _)
      · rcases virtualIndex_assignIndices h with hm | ⟨hn, hle, hlt⟩
        · exact .inl hm
        · exact .inr ⟨hn, Nat.le_of_succ_le hle, hlt⟩

theorem map_methodIndex_assignIndices : ∀ {k next : Nat} {sigs : List Signature},
    (assignIndices supers k next sigs).1.map VmMethod.methodIndex = List.range' k sigs.length
  | _, _, [] => rfl
  | k, next, sig :: sigs => by
    cases h : getMethodRecursive supers sig <;>
      simp [assignIndices, h, map_methodIndex_assignIndices, range'_succ]

theorem nodup_assignIndices {k next : Nat} {sigs : List Signature} : (assignIndices supers k next sigs).1.Nodup := by
  refine Nodup.of_map VmMethod.methodIndex ?_
  rw [map_methodIndex_assignIndices]
  exact nodup_range'

/-- The methods of one class that no superclass has get the free indices one after the other. -/
theorem fresh_assignIndices : ∀ {k next : Nat} {sigs : List Signature},
    ((assignIndices supers k next sigs).1.filter fun m => (getMethodRecursive supers m.signature).isNone).map
        VmMethod.virtualIndex =
      List.range' next (sigs.filter fun sig => (getMethodRecursive supers sig).isNone).length
  | _, _, [] => rfl
  | k, next, sig :: sigs => by
    cases h : getMethodRecursive supers sig <;>
      simp [assignIndices, h, fresh_assignIndices, range'_succ]

end Assign

/-! ## Filling the table -/

section Table

theorem length_foldl_set : ∀ {ms : List VmMethod} {table : List (Option VmMethod)},
    (ms.foldl (fun table m => table.set m.virtualIndex (some m)) table).length = table.length
  | [], _ => rfl
  | m :: ms, table => by rw [foldl_cons, length_foldl_set, length_set]

theorem foldl_set_of_ne {i : Nat} : ∀ {ms : List VmMethod} {table : List (Option VmMethod)},
    (∀ m ∈ ms, m.virtualIndex ≠ i) →
    (ms.foldl (fun table m => table.set m.virtualIndex (some m)) table)[i]? = table[i]?
  | [], _, _ => rfl
  | m :: ms, table, h => by
    rw [foldl_cons, foldl_set_of_ne fun m' hm' => h m' (mem_cons_of_mem m hm'),
      getElem?_set_ne (h m mem_cons_self)]

/-- A method whose index no other method has is in the table. -/
theorem foldl_set_of_unique {m : VmMethod} : ∀ {ms : List VmMethod} {table : List (Option VmMethod)},
    (∀ m' ∈ ms, m'.virtualIndex = m.virtualIndex → m' = m) → m ∈ ms → m.virtualIndex < table.length →
    (ms.foldl (fun table m => table.set m.virtualIndex (some m)) table)[m.virtualIndex]? = some (some m)
  | [], _, _, h, _ => by cases h
  | m' :: ms, table, hu, h, hlt => by
    have htail := (forall_mem_cons.mp hu).2
    rw [foldl_cons]
    by_cases hmem : m ∈ ms
    · exact foldl_set_of_unique htail hmem (by rwa [length_set])
    · obtain rfl := (mem_cons.mp h).resolve_right hmem
      have hne : ∀ m' ∈ ms, m'.virtualIndex ≠ m.virtualIndex := fun m' hm' heq => hmem (htail m' hm' heq ▸ hm')
      rw [foldl_set_of_ne hne, getElem?_set_self hlt]

/-- An index that some method has holds one of the methods. -/
theorem exists_foldl_set {i : Nat} : ∀ {ms : List VmMethod} {table : List (Option VmMethod)},
    (∃ m ∈ ms, m.virtualIndex = i) → i < table.length →
    ∃ m ∈ ms, (ms.foldl (fun table m => table.set m.virtualIndex (some m)) table)[i]? = some (some m)
  | [], _, h, _ => by simp at h
  | m' :: ms, table, h, hlt => by
    rw [foldl_cons]
    by_cases hrest : ∃ m ∈ ms, m.virtualIndex = i
    · obtain ⟨m, hm, hentry⟩ := exists_foldl_set hrest (lt_of_lt_of_eq hlt length_set.symm)
      exact ⟨m, mem_cons_of_mem _ hm, hentry⟩
    · obtain ⟨m, hm, rfl⟩ := h
      obtain rfl := (mem_cons.mp hm).resolve_right fun hm => hrest ⟨m, hm, rfl⟩
      refine ⟨m, mem_cons_self, ?_⟩
      rw [foldl_set_of_ne fun m' hm' heq => hrest ⟨m', hm', heq⟩, getElem?_set_self hlt]

/-- **Methods with one signature and one index**: the first of them is in the table only if there is no other. -/
theorem foldl_set_find_iff {ms : List VmMethod} {table : List (Option VmMethod)} {sig : Signature} {m : VmMethod}
    (hn : ms.Nodup) (hfind : ms.find? (fun m => m.signature = sig) = some m) (hlt : m.virtualIndex < table.length)
    (hidx : ∀ m' ∈ ms, m'.virtualIndex = m.virtualIndex ↔ m'.signature = sig) :
    (ms.foldl (fun table m => table.set m.virtualIndex (some m)) table)[m.virtualIndex]? = some (some m) ↔
      (ms.map VmMethod.signature).count sig = 1 := by
  obtain ⟨hsig, front, rest, rfl, hfront⟩ := find?_eq_some_iff_append.mp hfind
  simp only [decide_eq_true_eq] at hsig
  have hfront' : (front.map VmMethod.signature).count sig = 0 := by
    rw [count_eq_zero]
    intro hmem
    obtain ⟨m', hm', heq⟩ := mem_map.mp hmem
    simpa [heq] using hfront m' hm'
  have hcount : ((front ++ m :: rest).map VmMethod.signature).count sig = (rest.map VmMethod.signature).count sig + 1 := by
    rw [map_append, map_cons, count_append, hfront', hsig, count_cons_self, Nat.zero_add]
  rw [hcount, Nat.add_eq_right, count_eq_zero, List.mem_map]
  constructor
  · rintro hentry ⟨m', hm', hsig'⟩
    have hlast : ∃ m' ∈ rest, m'.virtualIndex = m.virtualIndex :=
      ⟨m', hm', (hidx m' (mem_append_right _ (mem_cons_of_mem _ hm'))).mpr hsig'⟩
    rw [foldl_append, foldl_cons] at hentry
    have hlt' : m.virtualIndex < ((front.foldl (fun table m => table.set m.virtualIndex (some m)) table).set
        m.virtualIndex (some m)).length := by
      rwa [length_set, length_foldl_set]
    obtain ⟨m'', hm'', hentry'⟩ := exists_foldl_set hlast hlt'
    cases hentry.symm.trans hentry'
    exact (nodup_cons.mp (nodup_append'.mp hn).2.1).1 hm''
  · intro hnone
    refine foldl_set_of_unique (fun m' hm' heq => ?_) (mem_append_right _ mem_cons_self) hlt
    have hsig' := (hidx m' hm').mp heq
    rcases mem_append.mp hm' with hm' | hm'
    · exact absurd hsig' (by simpa using hfront m' hm')
    · exact (mem_cons.mp hm').resolve_right fun hm' => hnone ⟨m', hm', hsig'⟩

end Table

/-! ## Chains of classes -/

/-- The signatures that a class adds to those of its superclasses: its methods, and the methods of its interfaces that
are not `visible` yet. -/
def newSignatures (root : Bool) (visible : List Signature) (file : ClassFile) : List Signature :=
  file.methods ++ if root then [] else
    (file.interfaces.flatten.filter fun sig => sig ∉ file.methods ∧ sig ∉ visible).dedup

/-- The signatures that are visible in the first class of a chain. -/
def signatures : List ClassFile → List Signature
  | [] => []
  | file :: files => newSignatures files.isEmpty (signatures files) file ++ signatures files

/-- The number of table entries of the first class of a chain: a method gets a new one unless a superclass has its
signature. -/
def tableSize : List ClassFile → Nat
  | [] => 0
  | file :: files => tableSize files +
    ((newSignatures files.isEmpty (signatures files) file).filter fun sig => sig ∉ signatures files).length

/-- No class of the chain has more methods, or inherits more table entries, than the counters can count. -/
def FitsCounters : List ClassFile → Prop
  | [] => True
  | file :: files => FitsCounters files ∧
    (newSignatures files.isEmpty (signatures files) file).length ≤ maxRounds ∧ tableSize files ≤ maxRounds

/-- The first class of the chain that declares the signature declares it once, if its superclasses have it too. -/
def DeclaredOnce : List ClassFile → Signature → Prop
  | [], _ => True
  | file :: files, sig =>
    if sig ∈ file.methods then sig ∈ signatures files → file.methods.count sig = 1 else DeclaredOnce files sig

/-- No class of the chain declares a signature twice that its superclasses have. -/
def Unrepeated : List ClassFile → Prop
  | [] => True
  | file :: files => (∀ sig ∈ file.methods, sig ∈ signatures files → file.methods.count sig = 1) ∧ Unrepeated files

section Chain

variable {files : List ClassFile} {file : ClassFile} {chain supers : List LinkedClass} {vmc : LinkedClass}

/-- What linking keeps along a chain. -/
structure ChainInv (files : List ClassFile) (chain : List LinkedClass) : Prop where
  root : chain.isEmpty = files.isEmpty
  size : (superVtable chain).1 = tableSize files
  length : (superVtable chain).2.length = (superVtable chain).1
  visible : ∀ sig, (getMethodRecursive chain sig).isSome ↔ sig ∈ signatures files
  bound : ∀ {sig m}, getMethodRecursive chain sig = some m → m.virtualIndex < (superVtable chain).1
  entry : ∀ {sig m}, getMethodRecursive chain sig = some m →
    ((superVtable chain).2[m.virtualIndex]? = some (some m) ↔ DeclaredOnce files sig)
  inj : ∀ {sig sig' m m'}, getMethodRecursive chain sig = some m → getMethodRecursive chain sig' = some m' →
    m.virtualIndex = m'.virtualIndex → sig = sig'

theorem declaredOnce_of_not_mem {sig : Signature} : ∀ {files : List ClassFile}, sig ∉ signatures files →
    DeclaredOnce files sig
  | [], _ => trivial
  | file :: files, h => by
    rw [signatures, mem_append, not_or, newSignatures, mem_append, not_or] at h
    rw [DeclaredOnce, if_neg h.1.1]
    exact declaredOnce_of_not_mem h.2

theorem Unrepeated.declaredOnce {sig : Signature} : ∀ {files : List ClassFile}, Unrepeated files →
    DeclaredOnce files sig
  | [], _ => trivial
  | file :: files, h => by
    rw [DeclaredOnce]
    split_ifs with hmem
    · exact h.1 sig hmem
    · exact h.2.declaredOnce

theorem ChainInv.nil : ChainInv [] [] where
  root := rfl
  size := rfl
  length := rfl
  visible sig := by simp [getMethodRecursive, signatures]
  bound := (by rintro _ _ ⟨⟩)
  entry := (by rintro _ _ ⟨⟩)
  inj := (fun h => by cases h)

theorem ChainInv.not_mem_iff (h : ChainInv files supers) {sig : Signature} :
    sig ∉ signatures files ↔ getMethodRecursive supers sig = none := by
  rw [← h.visible sig, not_isSome_iff_eq_none]

theorem ChainInv.allMethods_perm (h : ChainInv files supers) (file : ClassFile) :
    (allMethods supers file).Perm (newSignatures files.isEmpty (signatures files) file) := by
  refine List.Perm.append_left _ ((perm_ext_iff_of_nodup ?_ ?_).mpr fun sig => ?_)
  · exact nodup_destutter_ne (pairwise_insertionSort _ _)
  · split_ifs
    · exact .nil
    · exact nodup_dedup _
  · rw [mem_extraMethods, ← h.not_mem_iff]
    have hroot : supers ≠ [] ↔ files.isEmpty = false := by rw [← h.root, isEmpty_eq_false_iff]
    rw [hroot]
    cases files.isEmpty with
    | true => simp
    | false =>
      simp only [true_and, Bool.false_eq_true, if_false, mem_dedup, mem_filter, decide_eq_true_eq]

theorem length_dedup_append {α : Type} [DecidableEq α] {l l' : List α} (hl : l.Nodup) :
    (l ++ l').dedup.length = l'.dedup.length + (l.filter fun a => a ∉ l').length := by
  have hperm : (l ++ l').dedup.Perm (l'.dedup ++ l.filter fun a => a ∉ l') := by
    refine (perm_ext_iff_of_nodup (nodup_dedup _) ?_).mpr fun a => ?_
    · refine nodup_append'.mpr ⟨nodup_dedup _, hl.filter _, fun a ha ha' => ?_⟩
      simp only [mem_filter, decide_eq_true_eq] at ha'
      exact ha'.2 (mem_dedup.mp ha)
    · simp only [mem_dedup, mem_append, mem_filter, decide_eq_true_eq]
      tauto
  rw [hperm.length_eq, length_append]

theorem setupVtable_isSome_iff {sigs : List Signature} : (setupVtable supers sigs).isSome ↔
    sigs.length ≤ maxRounds ∧ (superVtable supers).1 ≤ maxRounds := by
  simp only [setupVtable]
  split_ifs with h
  · simp only [isSome_none, Bool.false_eq_true, false_iff]
    omega
  · simp only [isSome_some, true_iff]
    omega

theorem ChainInv.linkClass_isSome_iff (h : ChainInv files supers) : (linkClass supers file).isSome ↔
    (newSignatures files.isEmpty (signatures files) file).length ≤ maxRounds ∧ tableSize files ≤ maxRounds := by
  rw [linkClass, setupVtable_isSome_iff, (h.allMethods_perm file).length_eq, h.size]

section Link

variable {sig : Signature} {m : VmMethod} (h : ChainInv files supers) (hlink : linkClass supers file = some vmc)
include h hlink

theorem ChainInv.linkClass_eq_some :
    vmc.methods = (assignIndices supers 0 (superVtable supers).1 (allMethods supers file)).1 ∧
      vmc.vtableSize = (assignIndices supers 0 (superVtable supers).1 (allMethods supers file)).2 ∧
      vmc.vtable = vmc.methods.foldl (fun table m => table.set m.virtualIndex (some m))
        ((superVtable supers).2 ++ List.replicate (vmc.vtableSize - (superVtable supers).1) none) := by
  simp only [linkClass, setupVtable] at hlink
  split_ifs at hlink
  cases hlink
  refine ⟨rfl, rfl, ?_⟩
  rw [← h.length, take_length]

/-- The signatures of the methods of a linked class are those collected for it. -/
theorem ChainInv.map_signature : vmc.methods.map VmMethod.signature = allMethods supers file := by
  rw [(h.linkClass_eq_some hlink).1, map_signature_assignIndices]

theorem ChainInv.superSize_le : (superVtable supers).1 ≤ vmc.vtableSize := by
  rw [(h.linkClass_eq_some hlink).2.1, assignIndices_snd]
  exact Nat.le_add_right _ _

/-- A method visible in a linked class has the index that its signature has in the superclass, or a fresh one. -/
theorem ChainInv.index_cases (hm : getMethodRecursive (vmc :: supers) sig = some m) :
    (∃ m', getMethodRecursive supers sig = some m' ∧ m.virtualIndex = m'.virtualIndex) ∨
      getMethodRecursive supers sig = none ∧ m ∈ vmc.methods ∧ m.signature = sig ∧
        (superVtable supers).1 ≤ m.virtualIndex ∧ m.virtualIndex < vmc.vtableSize := by
  obtain ⟨hmethods, hsize, -⟩ := h.linkClass_eq_some hlink
  rcases getMethodRecursive_cons.mp hm with hm | ⟨-, hm⟩
  · obtain ⟨hmem, rfl⟩ := getMethod_eq_some hm
    have hmem' := hmem
    rw [hmethods] at hmem'
    rcases virtualIndex_assignIndices hmem' with hinherited | ⟨hnone, hle, hlt⟩
    · exact .inl hinherited
    · exact .inr ⟨hnone, hmem, rfl, hle, hsize ▸ hlt⟩
  · exact .inl ⟨m, hm, rfl⟩

/-- A method of the class has the index of a visible one only if it has its signature. -/
theorem ChainInv.signature_of_index {m' : VmMethod} (hm : getMethodRecursive supers sig = some m)
    (hm' : m' ∈ vmc.methods) (heq : m'.virtualIndex = m.virtualIndex) : m'.signature = sig := by
  rw [(h.linkClass_eq_some hlink).1] at hm'
  have hlt := h.bound hm
  rcases virtualIndex_assignIndices hm' with ⟨n, hn, hidx⟩ | ⟨-, hle, -⟩
  · exact h.inj hn hm (hidx.symm.trans heq)
  · omega

/-- The index of a method that no superclass has is its own. -/
theorem ChainInv.eq_of_index {m' : VmMethod} (hm : m ∈ vmc.methods) (hnone : getMethodRecursive supers m.signature = none)
    (hm' : m' ∈ vmc.methods) (heq : m'.virtualIndex = m.virtualIndex) : m' = m := by
  have hmethods := (h.linkClass_eq_some hlink).1
  have hnew' : getMethodRecursive supers m'.signature = none := by
    rw [eq_none_iff_forall_ne_some]
    intro n hn
    have hidx : m.virtualIndex = n.virtualIndex := by
      rw [← heq]
      rw [hmethods] at hm'
      rcases virtualIndex_assignIndices hm' with ⟨n', hn', hidx⟩ | ⟨hnone', -⟩
      · cases hn.symm.trans hn'
        exact hidx
      · cases hn.symm.trans hnone'
    rw [← h.signature_of_index hlink hn hm hidx, hnone] at hn
    cases hn
  have hnodup : ((vmc.methods.filter fun n => (getMethodRecursive supers n.signature).isNone).map
      VmMethod.virtualIndex).Nodup := by
    rw [hmethods, fresh_assignIndices]
    exact nodup_range'
  refine inj_on_of_nodup_map hnodup (mem_filter.mpr ⟨hm', ?_⟩) (mem_filter.mpr ⟨hm, ?_⟩) heq
  · rw [hnew']
    rfl
  · rw [hnone]
    rfl

theorem ChainInv.cons_inj {sig' : Signature} {m' : VmMethod} (hm : getMethodRecursive (vmc :: supers) sig = some m)
    (hm' : getMethodRecursive (vmc :: supers) sig' = some m') (heq : m.virtualIndex = m'.virtualIndex) : sig = sig' := by
  rcases h.index_cases hlink hm with ⟨n, hn, hidx⟩ | ⟨-, hmem, hsig, hle, -⟩ <;>
    rcases h.index_cases hlink hm' with ⟨n', hn', hidx'⟩ | ⟨hnone', hmem', hsig', hle', -⟩
  · exact h.inj hn hn' (hidx.symm.trans (heq.trans hidx'))
  · have := h.bound hn
    omega
  · have := h.bound hn'
    omega
  · rw [← hsig, ← hsig', h.eq_of_index hlink hmem' (hsig' ▸ hnone') hmem heq]

theorem ChainInv.cons_bound (hm : getMethodRecursive (vmc :: supers) sig = some m) : m.virtualIndex < vmc.vtableSize := by
  rcases h.index_cases hlink hm with ⟨m', hm', hidx⟩ | ⟨-, -, -, -, hlt⟩
  · rw [hidx]
    exact Nat.lt_of_lt_of_le (h.bound hm') (h.superSize_le hlink)
  · exact hlt

theorem ChainInv.cons_length : vmc.vtable.length = vmc.vtableSize := by
  rw [(h.linkClass_eq_some hlink).2.2, length_foldl_set, length_append, h.length, length_replicate]
  have := h.superSize_le hlink
  omega

/-- The entry of a method that the class declares itself. -/
theorem ChainInv.own_entry (hown : getMethod vmc sig = some m) (hlt : m.virtualIndex < vmc.vtableSize) :
    vmc.vtable[m.virtualIndex]? = some (some m) ↔ DeclaredOnce (file :: files) sig := by
  obtain ⟨hmethods, -, htable⟩ := h.linkClass_eq_some hlink
  obtain ⟨hmem, hsig⟩ := getMethod_eq_some hown
  have hall : sig ∈ allMethods supers file := by
    rw [← h.map_signature hlink, ← hsig]
    exact mem_map_of_mem hmem
  rw [← h.cons_length hlink, htable, length_foldl_set] at hlt
  rw [htable, DeclaredOnce]
  by_cases hvisible : sig ∈ signatures files
  · -- the class overrides a method, so all its methods with this signature share an entry
    obtain ⟨m', hm'⟩ := isSome_iff_exists.mp ((h.visible sig).mpr hvisible)
    have hfile : sig ∈ file.methods := by
      refine (mem_append.mp hall).resolve_right fun hx => ?_
      rw [(mem_extraMethods.mp hx).2.2.2] at hm'
      cases hm'
    have hidx {n : VmMethod} (hn : n ∈ vmc.methods) (hs : n.signature = sig) : n.virtualIndex = m'.virtualIndex := by
      rw [hmethods] at hn
      rcases virtualIndex_assignIndices hn with ⟨n', hn', hidx⟩ | ⟨hnone, -⟩
      · rw [hs, hm'] at hn'
        cases hn'
        exact hidx
      · rw [hs, hm'] at hnone
        cases hnone
    have hsame n (hn : n ∈ vmc.methods) : n.virtualIndex = m.virtualIndex ↔ n.signature = sig := by
      rw [hidx hmem hsig]
      exact ⟨h.signature_of_index hlink hm' hn, hidx hn⟩
    rw [if_pos hfile, foldl_set_find_iff (hmethods ▸ nodup_assignIndices) hown hlt hsame, h.map_signature hlink,
      count_allMethods hfile]
    exact ⟨fun h _ => h, fun h => h hvisible⟩
  · have hnone := h.not_mem_iff.mp hvisible
    refine iff_of_true (foldl_set_of_unique (fun m' hm' heq => ?_) hmem hlt) ?_
    · exact h.eq_of_index hlink hmem (hsig ▸ hnone) hm' heq
    · split_ifs
      · exact fun hmem => absurd hmem hvisible
      · exact declaredOnce_of_not_mem hvisible

theorem ChainInv.cons_entry (hm : getMethodRecursive (vmc :: supers) sig = some m) :
    vmc.vtable[m.virtualIndex]? = some (some m) ↔ DeclaredOnce (file :: files) sig := by
  rcases getMethodRecursive_cons.mp hm with hown | ⟨hnot, hsuper⟩
  · exact h.own_entry hlink hown (h.cons_bound hlink hm)
  · -- no method of the class itself has this index, since it would have this signature
    have hfile : sig ∉ file.methods := by
      rw [h.map_signature hlink, allMethods, mem_append, not_or] at hnot
      exact hnot.1
    rw [(h.linkClass_eq_some hlink).2.2, foldl_set_of_ne, getElem?_append_left, h.entry hsuper, DeclaredOnce, if_neg hfile]
    · rw [h.length]
      exact h.bound hsuper
    · intro m' hm' heq
      exact hnot (h.signature_of_index hlink hsuper hm' heq ▸ mem_map_of_mem hm')

theorem ChainInv.cons_visible (sig : Signature) : (getMethodRecursive (vmc :: supers) sig).isSome ↔ sig ∈ signatures (file :: files) := by
  rw [signatures, mem_append, ← (h.allMethods_perm file).mem_iff, ← h.map_signature hlink, ← h.visible sig,
    getMethodRecursive_cons_isSome]

theorem ChainInv.cons_size : vmc.vtableSize = tableSize (file :: files) := by
  rw [(h.linkClass_eq_some hlink).2.1, assignIndices_snd, tableSize, h.size, ← ((h.allMethods_perm file).filter _).length_eq]
  congr 3
  funext sig
  rw [decide_eq_decide.mpr h.not_mem_iff, Bool.eq_iff_iff, isNone_iff_eq_none, decide_eq_true_eq]

/-- **Linking one more class keeps the invariant.** -/
theorem ChainInv.cons : ChainInv (file :: files) (vmc :: supers) where
  root := rfl
  size := h.cons_size hlink
  length := h.cons_length hlink
  visible := h.cons_visible hlink
  bound := h.cons_bound hlink
  entry := h.cons_entry hlink
  inj := h.cons_inj hlink

end Link

theorem linkChain_cons_eq_some : linkChain (file :: files) = some chain ↔
    ∃ supers vmc, linkChain files = some supers ∧ linkClass supers file = some vmc ∧ chain = vmc :: supers := by
  simp only [linkChain, Option.bind_eq_bind, Option.bind_eq_some_iff, Option.pure_def, Option.some.injEq]
  constructor
  · rintro ⟨supers, hsupers, vmc, hlink, rfl⟩
    exact ⟨supers, vmc, hsupers, hlink, rfl⟩
  · rintro ⟨supers, vmc, hsupers, hlink, rfl⟩
    exact ⟨supers, hsupers, vmc, hlink, rfl⟩

theorem chainInv_of_linkChain : ∀ {files : List ClassFile} {chain : List LinkedClass},
    linkChain files = some chain → ChainInv files chain
  | [], _, h => by
    cases h
    exact ChainInv.nil
  | file :: files, chain, h => by
    obtain ⟨supers, vmc, hsupers, hlink, rfl⟩ := linkChain_cons_eq_some.mp h
    exact (chainInv_of_linkChain hsupers).cons hlink

/-- Linking ends exactly when the counters suffice. -/
theorem linkChain_isSome_iff : ∀ {files : List ClassFile}, (linkChain files).isSome ↔ FitsCounters files
  | [] => by simp [linkChain, FitsCounters]
  | file :: files => by
    rw [FitsCounters, ← linkChain_isSome_iff]
    constructor
    · intro h
      obtain ⟨chain, h⟩ := isSome_iff_exists.mp h
      obtain ⟨supers, vmc, hsupers, hlink, -⟩ := linkChain_cons_eq_some.mp h
      exact ⟨hsupers ▸ rfl, (chainInv_of_linkChain hsupers).linkClass_isSome_iff.mp (hlink ▸ rfl)⟩
    · rintro ⟨h, hfits⟩
      obtain ⟨supers, hsupers⟩ := isSome_iff_exists.mp h
      obtain ⟨vmc, hlink⟩ :=
        isSome_iff_exists.mp ((chainInv_of_linkChain hsupers).linkClass_isSome_iff.mpr hfits)
      rw [linkChain_cons_eq_some.mpr ⟨supers, vmc, hsupers, hlink, rfl⟩]
      rfl

/-- A signature keeps its index from a class on to all its subclasses. -/
theorem linkChain_keeps_index {below : List LinkedClass} {sig : Signature} {m : VmMethod} :
    ∀ {files : List ClassFile} {chain : List LinkedClass}, linkChain files = some chain → below <:+ chain →
      getMethodRecursive below sig = some m →
      ∃ m', getMethodRecursive chain sig = some m' ∧ m'.virtualIndex = m.virtualIndex
  | [], _, h, hbelow, hm => by
    cases h
    obtain rfl := suffix_nil.mp hbelow
    exact ⟨m, hm, rfl⟩
  | file :: files, chain, h, hbelow, hm => by
    obtain ⟨supers, vmc, hsupers, hlink, rfl⟩ := linkChain_cons_eq_some.mp h
    rcases suffix_cons_iff.mp hbelow with rfl | hbelow
    · exact ⟨m, hm, rfl⟩
    · obtain ⟨m', hm', hidx⟩ := linkChain_keeps_index hsupers hbelow hm
      have hinv := chainInv_of_linkChain hsupers
      have hmem : sig ∈ signatures (file :: files) :=
        mem_append_right _ ((hinv.visible sig).mp (hm' ▸ rfl))
      obtain ⟨m'', hm''⟩ := isSome_iff_exists.mp ((hinv.cons_visible hlink sig).mpr hmem)
      rcases hinv.index_cases hlink hm'' with ⟨n, hn, hidx'⟩ | ⟨hnone, -⟩
      · rw [hm'] at hn
        cases hn
        exact ⟨m'', hm'', hidx'.trans hidx⟩
      · rw [hm'] at hnone
        cases hnone

/-! ## The result -/

/-- What the table of a class is for: every signature visible in the class has an entry with the method that is found
for it, signatures do not share entries, and what is visible in a superclass keeps its index. -/
structure VtableCorrect (files : List ClassFile) (vmc : LinkedClass) (supers : List LinkedClass) : Prop where
  entry : ∀ sig ∈ signatures files, ∃ m, getMethodRecursive (vmc :: supers) sig = some m ∧
    vmc.vtable[m.virtualIndex]? = some (some m)
  distinct : ∀ sig sig' m m', getMethodRecursive (vmc :: supers) sig = some m →
    getMethodRecursive (vmc :: supers) sig' = some m' → sig ≠ sig' → m.virtualIndex ≠ m'.virtualIndex
  kept : ∀ below, below <:+ supers → ∀ sig m, getMethodRecursive below sig = some m →
    ∃ m', getMethodRecursive (vmc :: supers) sig = some m' ∧ m'.virtualIndex = m.virtualIndex

/-- The table of every class of a chain is as it should be. -/
def VtablesCorrect : List ClassFile → List LinkedClass → Prop
  | [], [] => True
  | file :: files, vmc :: supers => VtableCorrect (file :: files) vmc supers ∧ VtablesCorrect files supers
  | _, _ => False

/-- Once a chain is linked, only repeated declarations of inherited signatures make a table wrong. -/
theorem vtablesCorrect_iff : ∀ {files : List ClassFile} {chain : List LinkedClass}, linkChain files = some chain →
    (VtablesCorrect files chain ↔ Unrepeated files)
  | [], _, h => by
    cases h
    exact Iff.rfl
  | file :: files, chain, h => by
    have hinv := chainInv_of_linkChain h
    obtain ⟨supers, vmc, hsupers, -, rfl⟩ := linkChain_cons_eq_some.mp h
    rw [VtablesCorrect, Unrepeated, vtablesCorrect_iff hsupers]
    refine and_congr_left fun hrest => ⟨fun hcorrect sig hmem => ?_, fun honce => ?_⟩
    · have hsig : sig ∈ signatures (file :: files) := mem_append_left _ (mem_append_left _ hmem)
      obtain ⟨m, hm, hentry⟩ := hcorrect.entry sig hsig
      have hdeclared := (hinv.entry hm).mp hentry
      rwa [DeclaredOnce, if_pos hmem] at hdeclared
    · have hunrepeated : Unrepeated (file :: files) := ⟨honce, hrest⟩
      refine ⟨fun sig hsig => ?_, fun sig sig' m m' hm hm' hne heq => hne (hinv.inj hm hm' heq),
        fun below hbelow sig m hm => linkChain_keeps_index h (hbelow.trans (suffix_cons vmc supers)) hm⟩
      obtain ⟨m, hm⟩ := isSome_iff_exists.mp ((hinv.visible sig).mpr hsig)
      exact ⟨m, hm, (hinv.entry hm).mpr hunrepeated.declaredOnce⟩

/-- **Linking a chain of classes** gives every class a correct table exactly when no class has more methods, and no
superclass more table entries, than the 16-bit counters can count, and no class file declares a signature twice that its
superclasses have. -/
theorem linkChain_correct_iff (files : List ClassFile) :
    (∃ chain, linkChain files = some chain ∧ VtablesCorrect files chain) ↔ FitsCounters files ∧ Unrepeated files := by
  rw [← linkChain_isSome_iff, isSome_iff_exists]
  constructor
  · rintro ⟨chain, h, hcorrect⟩
    exact ⟨⟨chain, h⟩, (vtablesCorrect_iff h).mp hcorrect⟩
  · rintro ⟨⟨chain, h⟩, hunrepeated⟩
    exact ⟨chain, h, (vtablesCorrect_iff h).mpr hunrepeated⟩

theorem nodup_newSignatures {root : Bool} {visible : List Signature} (h : file.methods.Nodup) :
    (newSignatures root visible file).Nodup := by
  rw [newSignatures, nodup_append']
  refine ⟨h, ?_, fun sig hfile hx => ?_⟩
  · split_ifs
    · exact .nil
    · exact nodup_dedup _
  · split_ifs at hx
    · cases hx
    · simp [hfile] at hx

/-- Without repeated declarations there is one entry for each signature. -/
theorem tableSize_eq : ∀ {files : List ClassFile}, (∀ file ∈ files, file.methods.Nodup) →
    tableSize files = (signatures files).dedup.length
  | [], _ => rfl
  | file :: files, h => by
    obtain ⟨hfile, hfiles⟩ := forall_mem_cons.mp h
    rw [tableSize, signatures, length_dedup_append (nodup_newSignatures hfile), tableSize_eq hfiles]
    congr!

theorem unrepeated_of_nodup : ∀ {files : List ClassFile}, (∀ file ∈ files, file.methods.Nodup) → Unrepeated files
  | [], _ => trivial
  | _ :: _, h => by
    obtain ⟨hfile, hfiles⟩ := forall_mem_cons.mp h
    exact ⟨fun _ hmem _ => count_eq_one_of_mem hfile hmem, unrepeated_of_nodup hfiles⟩

/-- **The table of a class has no gaps** if no class file declares a signature twice: each of its entries belongs to a
signature that is visible in the class. -/
theorem vtable_full (hnodup : ∀ file ∈ files, file.methods.Nodup) (h : linkChain files = some (vmc :: supers)) :
    vmc.vtable.length = vmc.vtableSize ∧ ∀ i < vmc.vtableSize, ∃ sig m,
      getMethodRecursive (vmc :: supers) sig = some m ∧ m.virtualIndex = i ∧ vmc.vtable[i]? = some (some m) := by
  have hinv := chainInv_of_linkChain h
  refine ⟨hinv.length, fun i hi => ?_⟩
  have hfound sig (hsig : sig ∈ (signatures files).dedup) :=
    isSome_iff_exists.mp ((hinv.visible sig).mpr (mem_dedup.mp hsig))
  have : Inhabited VmMethod := ⟨⟨0, 0, default, 0⟩⟩
  choose! m hm using hfound
  -- as many different indices as entries
  have hdistinct : ((signatures files).dedup.map fun sig => (m sig).virtualIndex).Nodup :=
    (nodup_dedup _).map_on fun sig hs sig' hs' => hinv.inj (hm sig hs) (hm sig' hs')
  have hsub : ((signatures files).dedup.map fun sig => (m sig).virtualIndex) ⊆ range vmc.vtableSize := by
    intro j hj
    obtain ⟨sig, hs, rfl⟩ := mem_map.mp hj
    exact mem_range.mpr (hinv.bound (hm sig hs))
  have hle : (range vmc.vtableSize).length ≤ ((signatures files).dedup.map fun sig => (m sig).virtualIndex).length := by
    rw [length_range, length_map, ← tableSize_eq hnodup]
    exact hinv.size.le
  have hperm := (subperm_of_subset hdistinct hsub).perm_of_length_le hle
  obtain ⟨sig, hs, rfl⟩ := mem_map.mp (hperm.mem_iff.mpr (mem_range.mpr hi))
  exact ⟨sig, m sig, hm sig hs, rfl, (hinv.entry (hm sig hs)).mpr (unrepeated_of_nodup hnodup).declaredOnce⟩

end Chain

/-! ## A chain that is never linked -/

section Huge

/-- A method name of `n / 200 + 1` letters, with `n % 200` parameters of type `int`. -/
def manySignatures (n : Nat) : Signature :=
  toLex (String.ofList (List.replicate (n / 200 + 1) 'm'),
    String.ofList ('(' :: List.replicate (n % 200) 'I' ++ [')', 'V']))

theorem manySignatures_injective : Function.Injective manySignatures := by
  intro n n' h
  have h' := Prod.ext_iff.mp (toLex.injective h)
  have hname := congrArg String.length h'.1
  have htype := congrArg String.length h'.2
  simp only [String.length_ofList, length_replicate, length_append, length_cons, length_nil]
    at hname htype
  omega

/-- A class without interfaces that has the methods `first` to `first + count - 1`. -/
def manyMethods (first count : Nat) : ClassFile where
  methods := (List.range' first count).map manySignatures
  interfaces := []

theorem nodup_manyMethods (first count : Nat) : (manyMethods first count).methods.Nodup :=
  List.Nodup.map manySignatures_injective nodup_range'

/-- Two methods, one of which the subclass overrides besides adding another. -/
theorem vtable_full_manyMethods : ∃ vmc supers, linkChain [manyMethods 1 2, manyMethods 0 2] = some (vmc :: supers) ∧
    vmc.vtableSize = 3 ∧ ∀ i < 3, ∃ sig m, getMethodRecursive (vmc :: supers) sig = some m ∧ m.virtualIndex = i ∧
      vmc.vtable[i]? = some (some m) := by
  have h : linkChain [manyMethods 1 2, manyMethods 0 2] = some (_ :: _) := rfl
  refine ⟨_, _, h, rfl, (vtable_full (fun file hfile => ?_) h).2⟩
  rcases mem_pair.mp hfile with rfl | rfl <;> exact nodup_manyMethods _ _

/-- The subclass of a class with one method, whose superclass has 65535 other methods. -/
def hugeChain : List ClassFile := [manyMethods 65536 1, manyMethods 65535 1, manyMethods 0 65535]

theorem newSignatures_manyMethods {root : Bool} {visible : List Signature} {first count : Nat} :
    newSignatures root visible (manyMethods first count) = (List.range' first count).map manySignatures := by
  cases root <;> simp [newSignatures, manyMethods]

theorem signatures_hugeChain_tail :
    signatures hugeChain.tail = (List.range' 65535 1 ++ List.range' 0 65535).map manySignatures := by
  simp [hugeChain, signatures, newSignatures_manyMethods]

theorem tableSize_hugeChain_tail : tableSize hugeChain.tail = 65536 := by
  have hnodup : (List.range' 65535 1 ++ List.range' 0 65535).Nodup := by
    refine nodup_append'.mpr ⟨nodup_range', nodup_range', fun n hn hn' => ?_⟩
    simp only [mem_range'_1] at hn hn'
    omega
  rw [tableSize_eq, signatures_hugeChain_tail, (List.Nodup.map manySignatures_injective hnodup).dedup, length_map,
    length_append, length_range', length_range']
  intro file hfile
  rcases mem_pair.mp hfile with rfl | rfl <;> exact nodup_manyMethods _ _

/-- Each class of the chain has few enough methods, and yet linking the chain does not end. -/
theorem linkChain_hugeChain : (∀ file ∈ hugeChain, file.methods.length ≤ maxRounds) ∧ linkChain hugeChain = none := by
  constructor
  · simp [hugeChain, manyMethods, maxRounds]
  · rw [← not_isSome_iff_eq_none, linkChain_isSome_iff]
    rintro ⟨-, -, hsize⟩
    have hlength := tableSize_hugeChain_tail
    rw [hugeChain, tail_cons] at hlength
    rw [hlength] at hsize
    exact absurd hsize (by decide)

end Huge

end Jato.Vm
