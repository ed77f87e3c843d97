import Jato.Lib.HashMap
import Jato.Lib.Requests
import Jato.Vm.Descriptor

/-!
# The class loader

`classloader_load`, run by any number of threads. A load asks for other classes: for the superclass, the interfaces and the
classes that a class is declared in, or for the elements of an array. What it asks for is a `Task`, and a thread has a
stack of activations of `classloader_load`, each in the middle of its task. The parts of the code under the mutex are one
step each, and a thread that waits on the condition variable goes on after a broadcast only. `LoadCorrect` says what the
class loader is for.

A class loader of a program is Java code. It is assumed to return the same class whenever it is asked for a name, and not
to ask for classes meanwhile (`Env.loadClassWith`); programs with other class loaders are outside this model. Memory is never
used up.
-/

namespace Jato.Vm.ClassLoader

open Jato.Lib

/-! ## What a load asks for -/

abbrev Name : Type := List Char

/-- What linking finds in a class file: whether the rest of it succeeds before and after the outer classes are looked for
is `linked` and `annotated`. -/
structure ClassFile where
  name : Name
  superclass : Option Name
  interfaces : List Name
  linked : Bool
  declaring : List Name
  annotated : Bool
  enclosing : Option Name

/-- A `struct vm_class`, by its address and its defining class loader. -/
structure Class (Loader : Type) where
  id : Nat
  classloader : Option Loader
deriving DecidableEq

structure Env (Loader : Type) where
  classpaths : List (List (Name × ClassFile))
  /-- What a class loader of the program returns for a name: an assumption about its Java code, which returns, answers a
  name in one way only and does not call back. -/
  loadClassWith : Loader → Name → Option (Class Loader)
  primitiveClassCache : Jit.VmType → Option (Class Loader)
  hashName : Name → Nat
  hashLoader : Option Loader → Nat

/-- A class loader and a name: what a call is for, and what the table of the classes is accessed with. -/
abbrev Key (Loader : Type) : Type := Option Loader × Name

/-- The answer to a call as far as linking goes on with it: `NULL`, or the class loader of the class. -/
abbrev Answer (Loader : Type) : Type := Option (Option Loader)

def isArray : Name → Bool
  | '[' :: _ => true
  | _ => false

def isPrimitiveArray (name : Name) : Bool := isArray name && (name.dropWhile (· = '[')).head? != some 'L'

def arrayElementClassName (name : Name) : Name :=
  if name[1]? = some 'L' then (name.drop 2).take (name.length - 3) else name.drop 1

/-- The array type with the same last element and one dimension. -/
def lastArray : Name → Name
  | '[' :: '[' :: name => lastArray ('[' :: name)
  | name => name

section

variable {Loader : Type} (env : Env Loader)

/-- The class of the elements: a primitive class, or one that is asked for. -/
def elementClass {α : Type} (loader : Option Loader) (name : Name) (k : Answer Loader → Task (Key Loader) (Answer Loader) α) :
    Task (Key Loader) (Answer Loader) α :=
  match strToType (name.drop 1) with
  | .reference => .request (loader, arrayElementClassName name) k
  | type => k ((env.primitiveClassCache type).map Class.classloader)

/-- The part of `classloader_load` before the table is locked: it returns a class or ends with a key. -/
def classloaderLoad : Key Loader → Task (Key Loader) (Answer Loader) (Option (Class Loader) ⊕ Key Loader)
  | (none, name) => .done (.inr (none, name))
  | (some loader, name) =>
    if isPrimitiveArray name then .done (.inr (none, name))
    else if isArray name then
      elementClass env (some loader) (lastArray name) fun
        | none => .done (.inl none)
        | some elemLoader => .done (.inr (elemLoader, name))
    else .done (.inl (env.loadClassWith loader name))

def loadArrayClass (loader : Option Loader) (name : Name) : Task (Key Loader) (Answer Loader) (Answer Loader) :=
  elementClass env loader name .done

/-- The classes have to be found. -/
def requireAll {α : Type} (fail : Task (Key Loader) (Answer Loader) α) (next : Task (Key Loader) (Answer Loader) α) :
    List Name → Task (Key Loader) (Answer Loader) α
  | [] => next
  | name :: names => .request (none, name) fun
    | none => fail
    | some _ => requireAll fail next names

/-- The classes are looked for. -/
def lookForAll {α : Type} (next : Task (Key Loader) (Answer Loader) α) : List Name → Task (Key Loader) (Answer Loader) α
  | [] => next
  | name :: names => .request (none, name) fun _ => lookForAll next names

def vmClassLink {α : Type} (fail next : Task (Key Loader) (Answer Loader) α) (file : ClassFile) :
    Task (Key Loader) (Answer Loader) α :=
  if file.superclass = none ∧ file.name = "java.lang.Object".toList then fail
  else
    requireAll fail
      (if file.linked then
        lookForAll (if file.annotated then lookForAll next file.enclosing.toList else fail) file.declaring
      else fail)
      (file.superclass.toList ++ file.interfaces)

/-- A class that cannot be linked is looked for in the rest of the class path. -/
def loadClass (name : Name) : List (List (Name × ClassFile)) → Task (Key Loader) (Answer Loader) (Answer Loader)
  | [] => .done none
  | files :: classpaths =>
    match files.lookup name with
    | none => loadClass name classpaths
    | some file => vmClassLink (loadClass name classpaths) (.done (some none)) file

def loadEntry : Key Loader → Task (Key Loader) (Answer Loader) (Answer Loader)
  | (loader, name) => if isArray name then loadArrayClass env loader name else loadClass name env.classpaths

end

/-! ## The table of the classes -/

inductive Status
  | loading
  | loaded
  | notFound
deriving DecidableEq

/-- `struct classloader_class`. -/
structure Entry (Thread Loader : Type) where
  status : Status
  cls : Option (Class Loader)
  nrWaiting : Nat
  loadingThread : Thread
  key : Key Loader

/-- An activation of `classloader_load`: before the table is locked, in `pthread_cond_wait` for an entry, or loading the
class of an entry. -/
inductive Frame (Loader : Type)
  | enter (request : Key Loader) (task : Task (Key Loader) (Answer Loader) (Option (Class Loader) ⊕ Key Loader))
  | wait (request key : Key Loader) (entry : Nat)
  | load (request key : Key Loader) (entry : Nat) (task : Task (Key Loader) (Answer Loader) (Answer Loader))

inductive Event (Loader : Type)
  | none
  | ret (request : Key Loader) (result : Option (Class Loader))
deriving DecidableEq

section

variable {Thread Loader : Type} [DecidableEq Thread] [DecidableEq Loader] (env : Env Loader)

def classesKeyHash (key : Key Loader) : Nat := (env.hashName key.2 + 31 * env.hashLoader key.1) % 2 ^ 64

/-- Entries are allocated at new addresses, and one that has been freed is `none`. -/
structure State (Thread : Type) where
  classes : HashMap (classesKeyHash env) Nat
  entries : Nat → Option (Entry Thread Loader)
  nrEntries : Nat
  nrClasses : Nat
  stack : Thread → List (Frame Loader)
  woken : Thread → Bool

variable {env}

namespace State

variable (s : State env Thread) (t : Thread)

def setStack (l : List (Frame Loader)) : State env Thread := { s with stack := Function.update s.stack t l }

def setWoken (b : Bool) : State env Thread := { s with woken := Function.update s.woken t b }

def setEntry (e : Nat) (x : Option (Entry Thread Loader)) : State env Thread :=
  { s with entries := Function.update s.entries e x }

def removeClass (key : Key Loader) : State env Thread := { s with classes := s.classes.remove key }

/-- The activation below goes on with the result. -/
def returnTo (result : Option (Class Loader)) : List (Frame Loader) → List (Frame Loader)
  | .enter request (.request _ k) :: rest => .enter request (k (result.map Class.classloader)) :: rest
  | .load request key e (.request _ k) :: rest => .load request key e (k (result.map Class.classloader)) :: rest
  | rest => rest

def ret (request : Key Loader) (result : Option (Class Loader)) (rest : List (Frame Loader)) :
    State env Thread × Event Loader :=
  (s.setStack t (returnTo result rest), .ret request result)

/-- A new entry is put into the table, and its class is loaded. -/
def startLoad (request key : Key Loader) (rest : List (Frame Loader)) : State env Thread :=
  { s with
    classes := s.classes.put key s.nrEntries
    entries := Function.update s.entries s.nrEntries
      (some { status := .loading, cls := none, nrWaiting := 0, loadingThread := t, key := key })
    nrEntries := s.nrEntries + 1
    stack := Function.update s.stack t (.load request key s.nrEntries (loadEntry env key) :: rest) }

/-- The loop of `find_class` and what comes behind it. -/
def recheck (request key : Key Loader) (e : Nat) (rest : List (Frame Loader)) :
    Option (State env Thread × Event Loader) :=
  match s.entries e with
  | none => none
  | some x =>
    match x.status with
    | .loading => some ((s.setWoken t false).setStack t (.wait request key e :: rest), .none)
    | .loaded =>
      some (((s.setWoken t false).setEntry e (some { x with nrWaiting := x.nrWaiting - 1 })).ret t request x.cls rest)
    | .notFound =>
      if x.nrWaiting - 1 = 0 then
        some ((((s.setWoken t false).removeClass key).setEntry e none).startLoad t request key rest, .none)
      else some (((s.setWoken t false).setEntry e (some { x with nrWaiting := x.nrWaiting - 1 })).ret t request none rest)

def findClass (request key : Key Loader) (rest : List (Frame Loader)) : Option (State env Thread × Event Loader) :=
  match s.classes.get key with
  | none => some (s.startLoad t request key rest, .none)
  | some e =>
    match s.entries e with
    | none => none
    | some x =>
      if x.status = .loading ∧ x.loadingThread = t then some (s.startLoad t request key rest, .none)
      else (s.setEntry e (some { x with nrWaiting := x.nrWaiting + 1 })).recheck t request key e rest

/-- The load has ended, and all waiting threads are woken. -/
def finish (request key : Key Loader) (e : Nat) (answer : Answer Loader) (rest : List (Frame Loader)) :
    Option (State env Thread × Event Loader) :=
  match s.entries e with
  | none => none
  | some x =>
    let s := { s with woken := fun _ => true }
    match answer with
    | none =>
      if x.nrWaiting = 0 then some (((s.removeClass key).setEntry e none).ret t request none rest)
      else some ((s.setEntry e (some { x with status := .notFound })).ret t request none rest)
    | some loader =>
      let c : Class Loader := ⟨s.nrClasses, loader⟩
      some ((({ s with nrClasses := s.nrClasses + 1 } : State env Thread).setEntry e
        (some { x with cls := some c, status := .loaded })).ret t request (some c) rest)

/-- The next step of a thread. -/
def advance : Option (State env Thread × Event Loader) :=
  match s.stack t with
  | [] => none
  | .enter request (.request q k) :: rest =>
    some (s.setStack t (.enter q (classloaderLoad env q) :: .enter request (.request q k) :: rest), .none)
  | .enter request (.done (.inl result)) :: rest => some (s.ret t request result rest)
  | .enter request (.done (.inr key)) :: rest => s.findClass t request key rest
  | .wait request key e :: rest => if s.woken t then s.recheck t request key e rest else none
  | .load request key e (.request q k) :: rest =>
    some (s.setStack t (.enter q (classloaderLoad env q) :: .load request key e (.request q k) :: rest), .none)
  | .load request key e (.done answer) :: rest => s.finish t request key e answer rest

end State

inductive Step : State env Thread → Event Loader → State env Thread → Prop
  | call {s : State env Thread} {t : Thread} (request : Key Loader) (hstack : s.stack t = []) :
      Step s .none (s.setStack t [.enter request (classloaderLoad env request)])
  | act {s s' : State env Thread} {t : Thread} {ev : Event Loader} (hadv : s.advance t = some (s', ev)) : Step s ev s'

def initial : State env Thread where
  classes := HashMap.empty 16 (by decide)
  entries _ := none
  nrEntries := 0
  nrClasses := 0
  stack _ := []
  woken _ := false

/-- The events of a run and the state it leads to. -/
inductive Run : List (Event Loader) → State env Thread → Prop
  | start : Run [] initial
  | step {tr : List (Event Loader)} {s s' : State env Thread} {ev : Event Loader} (hrun : Run tr s) (hstep : Step s ev s') :
      Run (tr ++ [ev]) s'

/-! ## What the class loader is for -/

def Frame.loads (key : Key Loader) : Frame Loader → Bool
  | .load _ key' _ _ => key' = key
  | _ => false

/-- The entry that an activation refers to. -/
def Frame.entry? : Frame Loader → Option Nat
  | .enter _ _ => none
  | .wait _ _ e => some e
  | .load _ _ e _ => some e

structure LoadCorrect (tr : List (Event Loader)) (s : State env Thread) : Prop where
  /-- No class is loaded twice at once, neither in one thread nor in two. -/
  oneLoad : ∀ key, (∀ t, (s.stack t).countP (Frame.loads key) ≤ 1) ∧
    ∀ t u, 0 < (s.stack t).countP (Frame.loads key) → 0 < (s.stack u).countP (Frame.loads key) → t = u
  /-- All calls that have returned a class for a class loader and a name have returned the same. -/
  sameClass : ∀ request c c', .ret request (some c) ∈ tr → .ret request (some c') ∈ tr → c = c'
  /-- No activation refers to an entry that has been freed. -/
  notFreed : ∀ t, ∀ f ∈ s.stack t, ∀ e, f.entry? = some e → s.entries e ≠ none
  /-- As long as a call has not returned some thread can go on. -/
  progress : (∃ t, s.stack t ≠ []) → ∃ t, (s.advance t).isSome
  /-- Without new calls the threads do not go on for ever. -/
  bounded : Acc (fun s' s : State env Thread => ∃ t ev, s.advance t = some (s', ev)) s

end

end Jato.Vm.ClassLoader
