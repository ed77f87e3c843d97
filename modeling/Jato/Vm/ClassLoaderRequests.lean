import Mathlib.Order.Preorder.Finite
import Mathlib.Data.Set.Finite.List
import Jato.Vm.ClassLoader

/-!
# What loads ask for

The loads of a class path as a server: `loadable_of_acyclic` says that every load comes to an end if no class of the
bootstrap class loader asks for itself, directly or through others.
-/

namespace Jato.Vm.ClassLoader

open Jato.Lib List

variable {Loader : Type} (env : Env Loader) {name : Name} {loader : Option Loader}

/-! ## Names of element classes -/

theorem length_arrayElementClassName (name : Name) : (arrayElementClassName name).length ≤ name.length - 1 := by
  unfold arrayElementClassName
  split_ifs
  · rw [length_take, length_drop]
    omega
  · rw [length_drop]

theorem exists_cons_of_isArray (harray : isArray name) : ∃ rest, name = '[' :: rest := by
  unfold isArray at harray
  split at harray
  · exact ⟨_, rfl⟩
  · cases harray

theorem length_pos_of_isArray (harray : isArray name) : 0 < name.length := by
  obtain ⟨rest, rfl⟩ := exists_cons_of_isArray harray
  exact Nat.succ_pos _

theorem isArray_lastArray (harray : isArray name) : isArray (lastArray name) := by
  induction name using lastArray.induct with
  | case1 name ih =>
    rw [lastArray]
    exact ih rfl
  | case2 name hname =>
    rw [lastArray]
    · exact harray
    · exact hname

theorem length_lastArray (name : Name) : (lastArray name).length ≤ name.length := by
  induction name using lastArray.induct with
  | case1 name ih =>
    rw [lastArray]
    exact ih.trans (Nat.le_succ _)
  | case2 name hname =>
    rw [lastArray]
    exact hname

theorem length_element_lt (hpos : 0 < name.length) : (arrayElementClassName name).length < name.length := by
  have := length_arrayElementClassName name
  omega

/-! ## The server of the loads -/

theorem all_elementClass {α : Type} {R : Key Loader → Prop} {k : Answer Loader → Task (Key Loader) (Answer Loader) α}
    (hR : R (loader, arrayElementClassName name)) (hk : ∀ a, (k a).All R) : (elementClass env loader name k).All R := by
  unfold elementClass
  split
  · exact ⟨hR, hk⟩
  · exact hk _

theorem all_classloaderLoad (q : Key Loader) : (classloaderLoad env q).All fun q' => q'.2.length < q.2.length := by
  obtain ⟨_ | loader, name⟩ := q
  · trivial
  · simp only [classloaderLoad]
    split_ifs with hprim harray
    · trivial
    · refine all_elementClass env ?_ fun a => by cases a <;> trivial
      exact Nat.lt_of_lt_of_le (length_element_lt (length_pos_of_isArray (isArray_lastArray harray))) (length_lastArray name)
    · trivial

def server : Server (Key Loader) (Key Loader) (Answer Loader) (Option (Class Loader)) where
  body := classloaderLoad env
  answer result := result.map Class.classloader
  load := loadEntry env
  rank q := q.2.length
  rank_lt := all_classloaderLoad env

variable {env} {key q : Key Loader}

/-- The element class is the only thing that is asked for before the end. -/
theorem evaluates_elementClass {α : Type} {a : α} {n : Nat} {k : Answer Loader → Task (Key Loader) (Answer Loader) α}
    (heval : (server env).Evaluates (elementClass env loader name k) a n) : ∃ r m, (server env).Evaluates (k r) a m := by
  unfold elementClass at heval
  split at heval
  · obtain ⟨r, -, m, -, hk, -⟩ := Server.evaluates_request.mp heval
    exact ⟨r, m, hk⟩
  · exact ⟨_, n, heval⟩

theorem name_of_evaluates {m : Nat}
    (hbody : (server env).Evaluates (classloaderLoad env q) (.inr key) m) : key.2 = q.2 := by
  obtain ⟨_ | loader, name⟩ := q
  · cases hbody
    rfl
  · simp only [classloaderLoad] at hbody
    split_ifs at hbody
    · cases hbody
      rfl
    · obtain ⟨_ | elemLoader, m', hk⟩ := evaluates_elementClass hbody
      · cases hk
      · cases hk
        rfl
    · cases hbody

theorem length_of_pending (hpend : (server env).Pending q key) : key.2.length ≤ q.2.length := by
  induction hlen : q.2.length using Nat.strongRecOn generalizing q with
  | ind n ih =>
    subst hlen
    rcases hpend with hreach | ⟨m, hbody⟩
    · obtain ⟨q', hlt, hpend'⟩ := hreach.of_all (all_classloaderLoad env q)
      exact (ih _ hlt hpend' rfl).trans (Nat.le_of_lt hlt)
    · rw [name_of_evaluates hbody]

theorem eq_of_pending (hpend : (server env).Pending (none, name) key) : key = (none, name) := by
  rcases hpend with hreach | ⟨m, hbody⟩
  · cases hreach
  · cases hbody
    rfl

/-! ## The classes that a class path names -/

/-- The classes that linking asks for. -/
def ClassFile.requests (file : ClassFile) : List Name :=
  file.superclass.toList ++ file.interfaces ++ file.declaring ++ file.enclosing.toList

section

variable {α : Type} {R : Key Loader → Prop} {fail next : Task (Key Loader) (Answer Loader) α} {names : List Name}

theorem all_requireAll (hnames : ∀ n ∈ names, R (none, n)) (hfail : fail.All R) (hnext : next.All R) :
    (requireAll fail next names).All R := by
  induction names with
  | nil => exact hnext
  | cons name names ih =>
    refine ⟨hnames _ mem_cons_self, fun a => ?_⟩
    cases a with
    | none => exact hfail
    | some _ => exact ih fun n hn => hnames n (mem_cons_of_mem _ hn)

theorem all_lookForAll (hnames : ∀ n ∈ names, R (none, n)) (hnext : next.All R) : (lookForAll next names).All R := by
  induction names with
  | nil => exact hnext
  | cons name names ih =>
    exact ⟨hnames _ mem_cons_self, fun _ => ih fun n hn => hnames n (mem_cons_of_mem _ hn)⟩

theorem all_vmClassLink {file : ClassFile} (hfile : ∀ n ∈ file.requests, R (none, n)) (hfail : fail.All R)
    (hnext : next.All R) : (vmClassLink fail next file).All R := by
  simp only [ClassFile.requests, mem_append] at hfile
  unfold vmClassLink
  split
  · exact hfail
  · refine all_requireAll (fun n hn => hfile n (.inl (.inl (mem_append.mp hn)))) hfail ?_
    split
    · refine all_lookForAll (fun n hn => hfile n (.inl (.inr hn))) ?_
      split
      · exact all_lookForAll (fun n hn => hfile n (.inr hn)) hnext
      · exact hfail
    · exact hfail

theorem all_loadClass {classpaths : List (List (Name × ClassFile))}
    (hfiles : ∀ files ∈ classpaths, ∀ f ∈ files, ∀ n ∈ f.2.requests, R (none, n)) :
    (loadClass name classpaths : Task (Key Loader) (Answer Loader) (Answer Loader)).All R := by
  induction classpaths with
  | nil => trivial
  | cons files classpaths ih =>
    have hrest := ih fun fs hfs => hfiles fs (mem_cons_of_mem _ hfs)
    rw [loadClass]
    split
    · exact hrest
    · rename_i file hfile
      refine all_vmClassLink ?_ hrest trivial
      obtain ⟨l₁, l₂, rfl, -⟩ := lookup_eq_some_iff.mp hfile
      exact hfiles _ mem_cons_self (name, file) (mem_append_right _ mem_cons_self)

end

variable (env) in
/-- The names in the class files. -/
def dependencies : List Name := env.classpaths.flatMap fun files => files.flatMap fun f => f.2.requests

/-- The bootstrap class loader asks for the element of an array, or for a class that a class file names. -/
theorem requests_none (hreq : (server env).Requests (none, name) key) :
    key.1 = none ∧ (isArray name ∧ key.2 = arrayElementClassName name ∨ key.2 ∈ dependencies env) := by
  change (server env).Reaches (if isArray name then _ else _) key at hreq
  split_ifs at hreq with harray
  · obtain ⟨q, rfl, hpend⟩ := hreq.of_all (R := (· = (none, arrayElementClassName name)))
      (all_elementClass env rfl fun _ => trivial)
    rw [eq_of_pending hpend]
    exact ⟨rfl, .inl ⟨harray, rfl⟩⟩
  · obtain ⟨⟨loader, n⟩, ⟨rfl, hmem⟩, hpend⟩ := hreq.of_all (R := fun q => q.1 = none ∧ q.2 ∈ dependencies env)
      (all_loadClass fun files hfiles f hf n hn =>
        ⟨rfl, mem_flatMap.mpr ⟨files, hfiles, mem_flatMap.mpr ⟨f, hf, hn⟩⟩⟩)
    rw [eq_of_pending hpend]
    exact ⟨rfl, .inr hmem⟩

/-! ## No class asks for itself -/

variable (env) in
/-- No class of the bootstrap class loader asks for itself, directly or through others. -/
def Acyclic : Prop := ∀ name, ¬ Relation.TransGen (server env).Requests (none, name) (none, name)

variable (env) in
/-- The names in the class files, and those of the elements of arrays among them. -/
def named : List Name :=
  (dependencies env).flatMap fun d => (List.range (d.length + 1)).map fun i => arrayElementClassName^[i] d

theorem length_iterate (d : Name) (i : Nat) : (arrayElementClassName^[i] d).length ≤ d.length - i := by
  induction i with
  | zero => exact Nat.le_refl _
  | succ i ih =>
    rw [Function.iterate_succ_apply']
    have := length_arrayElementClassName (arrayElementClassName^[i] d)
    omega

theorem mem_named {d : Name} (hd : d ∈ dependencies env) : d ∈ named env :=
  mem_flatMap.mpr ⟨d, hd, mem_map.mpr ⟨0, mem_range.mpr (Nat.succ_pos _), rfl⟩⟩

theorem element_mem_named (hname : name ∈ named env) (harray : isArray name) :
    arrayElementClassName name ∈ named env := by
  obtain ⟨d, hd, hname⟩ := mem_flatMap.mp hname
  obtain ⟨i, hi, rfl⟩ := mem_map.mp hname
  refine mem_flatMap.mpr ⟨d, hd, mem_map.mpr ⟨i + 1, mem_range.mpr ?_, Function.iterate_succ_apply' _ _ _⟩⟩
  have hlen := length_iterate d i
  have hpos := length_pos_of_isArray harray
  omega

theorem requests_named (hname : name ∈ named env)
    (hreq : (server env).Requests (none, name) key) : ∃ n ∈ named env, key = (none, n) := by
  obtain ⟨hloader, ⟨harray, hkey⟩ | hmem⟩ := requests_none hreq
  · exact ⟨key.2, hkey ▸ element_mem_named hname harray, Prod.ext hloader rfl⟩
  · exact ⟨key.2, mem_named hmem, Prod.ext hloader rfl⟩

/-- Among finitely many names a relation without cycles goes on for ever nowhere. -/
theorem acc_named (hacyc : Acyclic env) (hname : name ∈ named env) :
    Acc (fun key' key => (server env).Requests key key') (none, name) := by
  let r : {n // n ∈ named env} → {n // n ∈ named env} → Prop :=
    fun a b => Relation.TransGen (server env).Requests (none, b.1) (none, a.1)
  have : Finite {n // n ∈ named env} := (named env).finite_toSet
  have : IsTrans _ r := ⟨fun a b c hab hbc => hbc.trans hab⟩
  have : Std.Irrefl r := ⟨fun a => hacyc a.1⟩
  have hwf := Finite.wellFounded_of_trans_of_irrefl r
  induction hn : (⟨name, hname⟩ : {n // n ∈ named env}) using hwf.induction generalizing name with
  | _ a ih =>
    subst hn
    refine ⟨_, fun key hreq => ?_⟩
    obtain ⟨n, hn, rfl⟩ := requests_named hname hreq
    exact ih ⟨n, hn⟩ (.single hreq) hn rfl

theorem acc_none (hacyc : Acyclic env) (name : Name) :
    Acc (fun key' key => (server env).Requests key key') (none, name) := by
  induction hlen : name.length using Nat.strongRecOn generalizing name with
  | ind n ih =>
    subst hlen
    refine ⟨_, fun key hreq => ?_⟩
    obtain ⟨loader, n⟩ := key
    obtain ⟨rfl, ⟨harray, rfl⟩ | hmem⟩ := requests_none hreq
    · exact ih _ (length_element_lt (length_pos_of_isArray harray)) _ rfl
    · exact acc_named hacyc (mem_named hmem)

/-- **Every load comes to an end if no class asks for itself.** -/
theorem loadable_of_acyclic (hacyc : Acyclic env) (key : Key Loader) : (server env).Loadable key := by
  apply Server.evaluates_load
  obtain ⟨loader, name⟩ := key
  induction hlen : name.length using Nat.strongRecOn generalizing loader name with
  | ind n ih =>
    subst hlen
    by_cases harray : isArray name
    · refine ⟨_, fun key hreq => ?_⟩
      change (server env).Reaches (if isArray name then _ else _) key at hreq
      rw [if_pos harray] at hreq
      obtain ⟨q, rfl, hpend⟩ := hreq.of_all (R := (· = (loader, arrayElementClassName name)))
        (all_elementClass env rfl fun _ => trivial)
      refine ih _ (Nat.lt_of_le_of_lt (length_of_pending hpend) ?_) key.1 key.2 rfl
      exact length_element_lt (length_pos_of_isArray harray)
    · refine ⟨_, fun key hreq => (acc_none hacyc name).inv ?_⟩
      change (server env).Reaches (if isArray name then _ else _) key at hreq
      change (server env).Reaches (if isArray name then _ else _) key
      rwa [if_neg harray] at hreq ⊢

end Jato.Vm.ClassLoader
