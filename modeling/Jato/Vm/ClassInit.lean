import Mathlib.Data.List.Count
import Mathlib.Logic.Relation

/-!
# Class initialisation

`vm_class_init` with the lock of `lib/compile-lock.c`, run by any number of threads on any classes. Every access to memory
that threads share is one step, and the steps of the threads interleave. A thread has a stack of activations of
`vm_class_init`: the initialisation of a class calls that of its superclass, the error paths create exceptions and so call
those of the exception class and of `String`, and a static initialiser or the constructor of an exception may call that of
any class. `Step` is one step of one thread, and `InitCorrect` what the protocol is for.

The semaphore only keeps threads from going on. The object monitor around the changes of the class state is left out: it
protects a single access each time. So is the case that there is no memory for an exception.
-/

namespace Jato.Vm.ClassInit

open Function

/-! ## Where an activation is -/

/-- `enum compile_lock_status`. -/
inductive Status
  | initial
  | compiling
  | compiledOk
  | compiledErroneous
deriving DecidableEq

/-- The status with which the lock is left. -/
def Status.final : Bool → Status
  | true => .compiledOk
  | false => .compiledErroneous

/-- `enum vm_class_state`. -/
inductive ClassState
  | linked
  | initializing
  | erroneous
  | initialized
deriving DecidableEq

/-- The exceptions that `vm_class_init` creates: for a class that has failed before, for an injected fault, and around an
exception that is not an `Error`. -/
inductive Raise
  | noClassDefFound
  | runtime
  | inInitializer
deriving DecidableEq

/-- The points of `compile_lock_enter`, of `vm_class_init` behind it, and of `compile_lock_leave`, each before its next
access to shared memory. `inSuper` waits for the call for the superclass, and in `runClinit` the static initialiser runs;
`failed` is behind an assertion that does not hold. To create an exception, `alloc` calls for its class and `message` for
`String`, `inAlloc` and `inMessage` wait for these calls, and in `construct` the constructor runs; `died` is behind `die`. -/
inductive Pc
  | readStatus
  | cmpxchg
  | setEe
  | incWaiting
  | loopStatus
  | checkEe
  | decReenter
  | semWait
  | decFinal
  | finalStatus
  | checkState
  | fault
  | ensureSuper
  | inSuper
  | nextClinit (i : Nat)
  | runClinit (i : Nat)
  | setInitialized
  | leave (ok : Bool)
  | readWaiting (ok : Bool)
  | post (ok : Bool) (n : Nat)
  | setErroneous
  | failed
  | alloc (x : Raise)
  | inAlloc (x : Raise)
  | message (x : Raise)
  | inMessage (x : Raise)
  | construct (x : Raise)
  | died (x : Raise)
deriving DecidableEq

/-- The activation has the lock. -/
def Pc.holds : Pc → Bool
  | .setEe | .checkState | .fault | .ensureSuper | .inSuper | .nextClinit _ | .runClinit _ | .setInitialized
  | .leave _ => true
  | .alloc x | .inAlloc x | .message x | .inMessage x | .construct x | .died x => x = .runtime
  | _ => false

/-! ## Steps -/

/-- The superclass of each class, and the number of its methods with the name `<clinit>`; the class `String` and those of
the exceptions, and whether `ExceptionInInitializerError` has a constructor for a message and a cause. -/
structure Hierarchy (Class : Type) where
  superclass : Class → Option Class
  nrClinit : Class → Nat
  string : Class
  exception : Raise → Class
  causeConstructor : Bool

section

variable {Class : Type} (h : Hierarchy Class)

/-- The message is made before the exception only for a constructor with a cause (`signal_new_exception_with_cause`). -/
def messageFirst : Raise → Bool
  | .inInitializer => h.causeConstructor
  | _ => false

def Raise.start (x : Raise) : Pc := if messageFirst h x then .message x else .alloc x

/-- Behind the allocation of an exception. A `RuntimeException` gets no message. -/
def Raise.allocated (x : Raise) : Pc := if messageFirst h x || x = .runtime then .construct x else .message x

def Raise.described (x : Raise) : Pc := if messageFirst h x then .alloc x else .construct x

/-- The exception could not be created: `signal_new_exception` dies, `signal_new_exception_with_cause` goes on with the
exception that there is. -/
def Raise.lost : Raise → Pc
  | .inInitializer => .setErroneous
  | x => .died x

end

/-- A static initialiser starts, or a call returns. -/
inductive Event (Class : Type)
  | none
  | clinit (c : Class) (i : Nat)
  | ret (c : Class) (ok : Bool)
deriving DecidableEq

abbrev Frame (Class : Type) : Type := Class × Pc

structure State (Thread Class : Type) where
  status : Class → Status
  nrWaiting : Class → Nat
  waitSem : Class → Nat
  compilingEe : Class → Option Thread
  state : Class → ClassState
  stack : Thread → List (Frame Class)

/-- The change of the shared memory of a class. -/
inductive Effect
  | nop
  | setStatus (status : Status)
  | setEe
  | setState (state : ClassState)
  | incWaiting
  | decWaiting
  | semPost
  | semWait

/-- How the activation goes on. -/
inductive Move (Class : Type)
  | goto (pc : Pc)
  | call (pc : Pc) (callee : Class)
  | ret (ok : Bool)

section

variable {Thread Class : Type} [DecidableEq Thread] [DecidableEq Class]

/-- What a thread can do at a point of an activation for a class. -/
def outcomes (h : Hierarchy Class) (s : State Thread Class) (t : Thread) (c : Class) : Pc → List (Effect × Move Class)
  | .readStatus =>
    match s.status c with
    | .compiledOk => [(.nop, .ret true)]
    | .compiledErroneous => [(.nop, .goto (Raise.noClassDefFound.start h))]
    | _ => [(.nop, .goto .cmpxchg)]
  | .cmpxchg => if s.status c = .initial then [(.setStatus .compiling, .goto .setEe)] else [(.nop, .goto .incWaiting)]
  | .setEe => [(.setEe, .goto .checkState)]
  | .incWaiting => [(.incWaiting, .goto .loopStatus)]
  | .loopStatus => if s.status c = .compiling then [(.nop, .goto .checkEe)] else [(.nop, .goto .decFinal)]
  | .checkEe => if s.compilingEe c = some t then [(.nop, .goto .decReenter)] else [(.nop, .goto .semWait)]
  | .decReenter => [(.decWaiting, .ret true)]
  | .semWait => if s.waitSem c = 0 then [] else [(.semWait, .goto .loopStatus)]
  | .decFinal => [(.decWaiting, .goto .finalStatus)]
  | .finalStatus =>
    match s.status c with
    | .compiledOk => [(.nop, .ret true)]
    | .compiledErroneous => [(.nop, .goto (Raise.noClassDefFound.start h))]
    | _ => [(.nop, .goto .checkState)]
  | .checkState => if s.state c = .linked then [(.setState .initializing, .goto .fault)] else [(.nop, .goto .failed)]
  -- a fault may be injected
  | .fault => [(.nop, .goto .ensureSuper), (.nop, .goto (Raise.runtime.start h))]
  | .ensureSuper =>
    match h.superclass c with
    | some super => [(.nop, .call .inSuper super)]
    | none => [(.nop, .goto (.nextClinit 0))]
  | .inSuper => []
  | .nextClinit i => if i < h.nrClinit c then [(.nop, .goto (.runClinit i))] else [(.nop, .goto .setInitialized)]
  -- the initialiser ends, or it throws an exception
  | .runClinit i => [(.nop, .goto (.nextClinit (i + 1))), (.nop, .goto (.leave false))]
  | .setInitialized => [(.setState .initialized, .goto (.leave true))]
  | .leave ok => [(.setStatus (.final ok), .goto (.readWaiting ok))]
  | .readWaiting ok => [(.nop, .goto (.post ok (s.nrWaiting c)))]
  | .post ok (n + 1) => [(.semPost, .goto (.post ok n))]
  | .post true 0 => [(.nop, .ret true)]
  -- the exception is an `Error`, or it is not
  | .post false 0 => [(.nop, .goto .setErroneous), (.nop, .goto (Raise.inInitializer.start h))]
  | .setErroneous => [(.setState .erroneous, .ret false)]
  | .failed => []
  | .alloc x => [(.nop, .call (.inAlloc x) (h.exception x))]
  | .inAlloc _ => []
  | .message x => [(.nop, .call (.inMessage x) h.string)]
  | .inMessage _ => []
  | .construct .noClassDefFound => [(.nop, .ret false)]
  | .construct .runtime => [(.nop, .goto (.leave false))]
  | .construct .inInitializer => [(.nop, .goto .setErroneous)]
  | .died _ => []

def Effect.apply (s : State Thread Class) (t : Thread) (c : Class) : Effect → State Thread Class
  | .nop => s
  | .setStatus status => { s with status := update s.status c status }
  | .setEe => { s with compilingEe := update s.compilingEe c (some t) }
  | .setState state => { s with state := update s.state c state }
  | .incWaiting => { s with nrWaiting := update s.nrWaiting c (s.nrWaiting c + 1) }
  | .decWaiting => { s with nrWaiting := update s.nrWaiting c (s.nrWaiting c - 1) }
  | .semPost => { s with waitSem := update s.waitSem c (s.waitSem c + 1) }
  | .semWait => { s with waitSem := update s.waitSem c (s.waitSem c - 1) }

/-- A call returns to what called it: an initialisation that needs its superclass, the creation of an exception, or
Java code. -/
def returnTo (h : Hierarchy Class) (ok : Bool) : List (Frame Class) → List (Frame Class)
  | (c, .inSuper) :: rest => (c, if ok then .nextClinit 0 else .leave false) :: rest
  | (c, .inAlloc x) :: rest => (c, if ok then x.allocated h else x.lost) :: rest
  | (c, .inMessage x) :: rest => (c, if ok then x.described h else x.lost) :: rest
  | rest => rest

def Move.stack (h : Hierarchy Class) (c : Class) (rest : List (Frame Class)) : Move Class → List (Frame Class)
  | .goto pc => (c, pc) :: rest
  | .call pc callee => (callee, .readStatus) :: (c, pc) :: rest
  | .ret ok => returnTo h ok rest

def Move.event (c : Class) : Move Class → Event Class
  | .goto (.runClinit i) => .clinit c i
  | .ret ok => .ret c ok
  | _ => .none

/-- Java code runs in a static initialiser and in the constructor of an exception (and in `initCause`). -/
def Pc.RunsJava (pc : Pc) : Prop := (∃ i, pc = .runClinit i) ∨ ∃ x, pc = .construct x

/-- A thread can call `vm_class_init` outside of it and in Java code. -/
def CanCall : List (Frame Class) → Prop
  | [] => True
  | (_, pc) :: _ => pc.RunsJava

def State.setStack (s : State Thread Class) (t : Thread) (l : List (Frame Class)) : State Thread Class :=
  { s with stack := update s.stack t l }

inductive Step (h : Hierarchy Class) : State Thread Class → Thread → Event Class → State Thread Class → Prop
  | call {s t} (c : Class) (hcan : CanCall (s.stack t)) : Step h s t .none (s.setStack t ((c, .readStatus) :: s.stack t))
  | act {s t c pc rest e move} (hstack : s.stack t = (c, pc) :: rest) (hout : (e, move) ∈ outcomes h s t c pc) :
      Step h s t (move.event c) ((Effect.apply s t c e).setStack t (move.stack h c rest))

def initial : State Thread Class where
  status _ := .initial
  nrWaiting _ := 0
  waitSem _ := 0
  compilingEe _ := none
  state _ := .linked
  stack _ := []

/-- The events of a run and the state it leads to. -/
inductive Run (h : Hierarchy Class) : List (Event Class) → State Thread Class → Prop
  | start : Run h [] initial
  | step {tr s t ev s'} (hrun : Run h tr s) (hstep : Step h s t ev s') : Run h (tr ++ [ev]) s'

/-! ## What the protocol is for -/

/-- The thread is initialising the class. -/
def Initialising (s : State Thread Class) (t : Thread) (c : Class) : Prop := ∃ pc, (c, pc) ∈ s.stack t ∧ pc.holds

/-- The number of steps of its own that a call takes before a re-entrant call returns. -/
def Pc.reenterSteps : Pc → Nat
  | .readStatus => 6
  | .cmpxchg => 5
  | .incWaiting => 4
  | .loopStatus => 3
  | .checkEe => 2
  | .decReenter => 1
  | _ => 0

/-- Steps of the other threads. -/
def Others (h : Hierarchy Class) (t : Thread) : State Thread Class → State Thread Class → Prop :=
  Relation.ReflTransGen fun s s' => ∃ u ev, u ≠ t ∧ Step h s u ev s'

/-- The call of a thread for a class, the one with this many activations below it, comes to its return with failure after
finitely many steps of its own, whatever the other threads do meanwhile. Java code is taken to return without calls. -/
inductive Fails (h : Hierarchy Class) (t : Thread) (c : Class) (depth : Nat) : State Thread Class → Prop
  | intro {s} (hprogress : ∀ s', Others h t s s' → ∃ c' pc below, s'.stack t = (c', pc) :: below ∧
      outcomes h s' t c' pc ≠ [])
    (hnext : ∀ s' c' pc below e move, Others h t s s' → s'.stack t = (c', pc) :: below →
      (e, move) ∈ outcomes h s' t c' pc → ¬ (move = .ret false ∧ c' = c ∧ below.length = depth) →
      Fails h t c depth ((Effect.apply s' t c' e).setStack t (move.stack h c' below))) : Fails h t c depth s

structure InitCorrect (h : Hierarchy Class) (tr : List (Event Class)) (s : State Thread Class) : Prop where
  /-- No static initialiser has been started twice. -/
  once : ∀ c i, tr.count (.clinit c i) ≤ 1
  /-- One that is started next has a superclass that is initialised, or that the thread is initialising. -/
  superFirst : ∀ t c i s', Step h s t (.clinit c i) s' → ∀ super, h.superclass c = some super →
    s.status super = .compiledOk ∨ Initialising s t super
  /-- A call that returns now finds its class being initialised by its thread and succeeds, or nobody initialises the
  class any more and the call returns the result. -/
  returns : ∀ t c ok s', Step h s t (.ret c ok) s' → Initialising s t c ∧ ok = true ∨
    (∀ u, ¬ Initialising s u c) ∧ s.status c = .final ok
  /-- A re-entrant call is never blocked: it comes nearer to its return, with success, in each of its steps. -/
  reenter : ∀ t c pc rest, s.stack t = (c, pc) :: rest → ¬ pc.holds → Initialising s t c →
    (∃ ev s', Step h s t ev s') ∧ ∀ ev s', Step h s t ev s' →
      ev = .ret c true ∨ ∃ pc', s'.stack t = (c, pc') :: rest ∧ pc'.reenterSteps < pc.reenterSteps
  /-- A failed initialisation stays so, and a call that starts then fails. -/
  failed : ∀ c, s.status c = .compiledErroneous → (∀ t ev s', Step h s t ev s' → s'.status c = .compiledErroneous) ∧
    ∀ t rest, s.stack t = (c, .readStatus) :: rest → Fails h t c rest.length s
  /-- The assertion holds. -/
  asserted : ∀ t c, (c, Pc.failed) ∉ s.stack t

end

end Jato.Vm.ClassInit
