import Mathlib.Algebra.Order.Ring.Nat

/-!
# Object monitors

The relaxed-lock protocol of `vm_object_lock`, `vm_object_unlock` and `vm_object_wait`, run by any number of threads on
any objects. Every access to memory that threads share is one step, and the steps of the threads interleave. A thread
that locks an object attaches one of its monitor records to it; the unlocking thread detaches the record and puts it
back to its pool, unless other threads are blocked or waiting. `Step` is one step of one thread, and `Correct` what the
protocol is for.

The mutexes and the condition variable only keep threads from going on, so a wait ends here at any time. The number of
threads is below the range of the counters; the lock count is an `int` that wraps around.
-/

namespace Jato.Vm.Monitor

open Function

/-! ## Where a thread is -/

/-- A `struct vm_monitor_record`, by the order of their allocation. -/
abbrev Rec : Type := Nat

/-- Who called `vm_object_lock` or `vm_object_unlock`: the program, or `vm_object_do_wait` with its local variables
`record` and `old_lock_count`. -/
inductive Caller where
  | program
  | doWait (record : Rec) (oldCount : Int)
deriving DecidableEq

/-- The points of `vm_object_lock`, each before its next access to shared memory. -/
inductive LockPc where
  | readRecord
  | getRecord
  | attach (r : Rec)
  | putRecord (r : Rec)
  | checkOwner (r : Rec)
  | readCount (r : Rec)
  | writeCount (r : Rec) (v : Int)
  | incBlocked (r : Rec)
  | checkAttached (r : Rec)
  | setCandidate (r : Rec)
  | acquire (r : Rec)
  | semWait (r : Rec)
  | decBlocked (r : Rec)
  | resetCount (r : Rec)
  | leave (r : Rec)
deriving DecidableEq

/-- The points of `vm_object_unlock`. -/
inductive UnlockPc where
  | readRecord
  | checkOwner (r : Rec)
  | testCount (r : Rec)
  | readCount (r : Rec)
  | writeCount (r : Rec) (v : Int)
  | readBlocked (r : Rec)
  | readWaiting (r : Rec)
  | release (r : Rec)
  | wakeOne (r : Rec)
  | post (r : Rec)
  | detach (r : Rec)
  | readBlockedAgain (r : Rec)
  | flush (r : Rec) (n : Nat)
  | spin (r : Rec)
  | clearCandidate (r : Rec)
  | putRecord (r : Rec)
deriving DecidableEq

/-- The points of `vm_object_do_wait` outside the calls that it makes. -/
inductive WaitPc where
  | readRecord
  | checkOwner (r : Rec)
  | readCount (r : Rec)
  | resetCount (r : Rec) (oldCount : Int)
  | incWaiting (r : Rec) (oldCount : Int)
  | condWait (r : Rec) (oldCount : Int)
  | decWaiting (r : Rec) (oldCount : Int)
  | checkRecord (r : Rec) (oldCount : Int)
  | restoreCount (r : Rec) (oldCount : Int)
deriving DecidableEq

/-- Where a thread is; `failed` is behind an assertion that does not hold. -/
inductive Pc (Obj : Type) where
  | idle
  | lock (self : Obj) (caller : Caller) (at_ : LockPc)
  | unlock (self : Obj) (caller : Caller) (at_ : UnlockPc)
  | wait (self : Obj) (at_ : WaitPc)
  | failed
deriving DecidableEq

/-! ## The state and its changes -/

/-- The records and the objects they are attached to, the pools, and for each thread its point and, for the
specification only, the number of its locks on each object that it has not unlocked yet. -/
structure State (Thread Obj : Type) where
  monitorRecord : Obj → Option Rec
  owner : Rec → Option Thread
  lockCount : Rec → Int
  nrBlocked : Rec → Nat
  nrWaiting : Rec → Nat
  candidate : Rec → Bool
  sem : Rec → Nat
  pool : Thread → List Rec
  next : Rec
  pc : Thread → Pc Obj
  held : Thread → Obj → Nat

/-- The changes of the shared memory that one step makes. -/
inductive Effect (Obj : Type) where
  | nop
  | takeRecord
  | newRecord
  | putRecord (r : Rec)
  | attach (o : Obj) (r : Rec)
  | detach (o : Obj)
  | acquire (r : Rec)
  | release (r : Rec)
  | setCount (r : Rec) (v : Int)
  | incBlocked (r : Rec)
  | decBlocked (r : Rec)
  | incWaiting (r : Rec)
  | decWaiting (r : Rec)
  | setCandidate (r : Rec) (b : Bool)
  | post (r : Rec)
  | semWait (r : Rec)

/-- A step that completes a lock or an unlock for the program. -/
inductive Event (Obj : Type) where
  | none
  | locked (o : Obj)
  | unlocked (o : Obj)

/-- The value of an `int` after it has wrapped around. -/
def wrapInt (x : Int) : Int := x.bmod (2 ^ 32)

def intMax : Nat := 2147483647

section

variable {Thread Obj : Type} [DecidableEq Thread] [DecidableEq Obj]

/-- A new record has its owner and its lock count set, and the other fields to zero. -/
def Effect.apply (t : Thread) (s : State Thread Obj) : Effect Obj → State Thread Obj
  | .nop => s
  | .takeRecord => { s with pool := update s.pool t (s.pool t).tail }
  | .newRecord =>
    { s with
      owner := update s.owner s.next (some t)
      lockCount := update s.lockCount s.next 1
      nrBlocked := update s.nrBlocked s.next 0
      nrWaiting := update s.nrWaiting s.next 0
      candidate := update s.candidate s.next false
      sem := update s.sem s.next 0
      next := s.next + 1 }
  | .putRecord r => { s with pool := update s.pool t (r :: s.pool t) }
  | .attach o r => { s with monitorRecord := update s.monitorRecord o (some r) }
  | .detach o => { s with monitorRecord := update s.monitorRecord o none }
  | .acquire r => { s with owner := update s.owner r (some t) }
  | .release r => { s with owner := update s.owner r none }
  | .setCount r v => { s with lockCount := update s.lockCount r v }
  | .incBlocked r => { s with nrBlocked := update s.nrBlocked r (s.nrBlocked r + 1) }
  | .decBlocked r => { s with nrBlocked := update s.nrBlocked r (s.nrBlocked r - 1) }
  | .incWaiting r => { s with nrWaiting := update s.nrWaiting r (s.nrWaiting r + 1) }
  | .decWaiting r => { s with nrWaiting := update s.nrWaiting r (s.nrWaiting r - 1) }
  | .setCandidate r b => { s with candidate := update s.candidate r b }
  | .post r => { s with sem := update s.sem r (s.sem r + 1) }
  | .semWait r => { s with sem := update s.sem r (s.sem r - 1) }

def Event.count (t : Thread) (held : Thread → Obj → Nat) : Event Obj → Thread → Obj → Nat
  | .none => held
  | .locked o => update held t (update (held t) o (held t o + 1))
  | .unlocked o => update held t (update (held t) o (held t o - 1))

/-- What a step does, and where the thread is then. -/
structure Outcome (Obj : Type) where
  effect : Effect Obj
  event : Event Obj
  pc : Pc Obj

def State.perform (s : State Thread Obj) (t : Thread) (out : Outcome Obj) : State Thread Obj :=
  { out.effect.apply t s with
    pc := update s.pc t out.pc
    held := out.event.count t s.held }

/-! ## The functions -/

/-- The event of a lock or an unlock counts for the program only. -/
def Caller.event (event : Event Obj) : Caller → Event Obj
  | .program => event
  | .doWait _ _ => .none

/-- Where a thread is when `vm_object_lock` returns. -/
def Caller.afterLock (o : Obj) : Caller → Pc Obj
  | .program => .idle
  | .doWait r old => .wait o (.decWaiting r old)

/-- Where a thread is when `vm_object_unlock` returns. -/
def Caller.afterUnlock (o : Obj) : Caller → Pc Obj
  | .program => .idle
  | .doWait r old => .wait o (.condWait r old)

/-- The possible next steps of `vm_object_lock`; `get_monitor_record` may run out of memory. -/
def vmObjectLock (s : State Thread Obj) (t : Thread) (o : Obj) (k : Caller) : LockPc → List (Outcome Obj)
  | .readRecord => match s.monitorRecord o with
    | none => [⟨.nop, .none, .lock o k .getRecord⟩]
    | some r => [⟨.nop, .none, .lock o k (.checkOwner r)⟩]
  | .getRecord => match s.pool t with
    | r :: _ => [⟨.takeRecord, .none, .lock o k (.attach r)⟩]
    | [] => [⟨.newRecord, .none, .lock o k (.attach s.next)⟩, ⟨.nop, .none, k.afterLock o⟩]
  | .attach r => match s.monitorRecord o with
    | none => [⟨.attach o r, k.event (.locked o), k.afterLock o⟩]
    | some _ => [⟨.nop, .none, .lock o k (.putRecord r)⟩]
  | .putRecord r => [⟨.putRecord r, .none, .lock o k .readRecord⟩]
  | .checkOwner r =>
    if s.owner r = some t then [⟨.nop, .none, .lock o k (.readCount r)⟩]
    else [⟨.nop, .none, .lock o k (.incBlocked r)⟩]
  | .readCount r => [⟨.nop, .none, .lock o k (.writeCount r (s.lockCount r))⟩]
  | .writeCount r v => [⟨.setCount r (wrapInt (v + 1)), k.event (.locked o), k.afterLock o⟩]
  | .incBlocked r => [⟨.incBlocked r, .none, .lock o k (.checkAttached r)⟩]
  | .checkAttached r =>
    if s.monitorRecord o = some r then [⟨.nop, .none, .lock o k (.setCandidate r)⟩]
    else [⟨.nop, .none, .lock o k (.leave r)⟩]
  | .setCandidate r => [⟨.setCandidate r true, .none, .lock o k (.acquire r)⟩]
  | .acquire r => match s.owner r with
    | none => [⟨.acquire r, k.event (.locked o), .lock o k (.decBlocked r)⟩]
    | some _ => [⟨.nop, .none, .lock o k (.semWait r)⟩]
  | .semWait r => if 0 < s.sem r then [⟨.semWait r, .none, .lock o k (.checkAttached r)⟩] else []
  | .decBlocked r => [⟨.decBlocked r, .none, .lock o k (.resetCount r)⟩]
  | .resetCount r => [⟨.setCount r 1, .none, k.afterLock o⟩]
  | .leave r => [⟨.decBlocked r, .none, .lock o k .readRecord⟩]

/-- The possible next steps of `vm_object_unlock`. -/
def vmObjectUnlock (s : State Thread Obj) (t : Thread) (o : Obj) (k : Caller) : UnlockPc → List (Outcome Obj)
  | .readRecord => match s.monitorRecord o with
    | none => [⟨.nop, .none, k.afterUnlock o⟩]
    | some r => [⟨.nop, .none, .unlock o k (.checkOwner r)⟩]
  | .checkOwner r =>
    if s.owner r = some t then [⟨.nop, .none, .unlock o k (.testCount r)⟩]
    else [⟨.nop, .none, k.afterUnlock o⟩]
  | .testCount r =>
    if 1 < s.lockCount r then [⟨.nop, .none, .unlock o k (.readCount r)⟩]
    else [⟨.nop, .none, .unlock o k (.readBlocked r)⟩]
  | .readCount r => [⟨.nop, .none, .unlock o k (.writeCount r (s.lockCount r))⟩]
  | .writeCount r v => [⟨.setCount r (wrapInt (v - 1)), k.event (.unlocked o), k.afterUnlock o⟩]
  | .readBlocked r =>
    if 0 < s.nrBlocked r then [⟨.nop, .none, .unlock o k (.release r)⟩]
    else [⟨.nop, .none, .unlock o k (.readWaiting r)⟩]
  | .readWaiting r =>
    if 0 < s.nrWaiting r then [⟨.nop, .none, .unlock o k (.release r)⟩]
    else [⟨.nop, .none, .unlock o k (.detach r)⟩]
  | .release r => [⟨.release r, k.event (.unlocked o), .unlock o k (.wakeOne r)⟩]
  | .wakeOne r =>
    if s.candidate r then [⟨.setCandidate r false, .none, .unlock o k (.post r)⟩]
    else [⟨.nop, .none, k.afterUnlock o⟩]
  | .post r => [⟨.post r, .none, k.afterUnlock o⟩]
  | .detach r => [⟨.detach o, k.event (.unlocked o), .unlock o k (.readBlockedAgain r)⟩]
  | .readBlockedAgain r =>
    if 0 < s.nrBlocked r then [⟨.nop, .none, .unlock o k (.flush r (s.nrBlocked r))⟩]
    else [⟨.nop, .none, .unlock o k (.putRecord r)⟩]
  | .flush r 0 => [⟨.nop, .none, .unlock o k (.spin r)⟩]
  | .flush r (n + 1) => [⟨.post r, .none, .unlock o k (.flush r n)⟩]
  | .spin r =>
    if 0 < s.nrBlocked r then [⟨.nop, .none, .unlock o k (.spin r)⟩]
    else [⟨.nop, .none, .unlock o k (.clearCandidate r)⟩]
  | .clearCandidate r => [⟨.setCandidate r false, .none, .unlock o k (.putRecord r)⟩]
  | .putRecord r => [⟨.putRecord r, .none, k.afterUnlock o⟩]

/-- The possible next steps of `vm_object_do_wait`. -/
def vmObjectDoWait (s : State Thread Obj) (t : Thread) (o : Obj) : WaitPc → List (Outcome Obj)
  | .readRecord => match s.monitorRecord o with
    | none => [⟨.nop, .none, .idle⟩]
    | some r => [⟨.nop, .none, .wait o (.checkOwner r)⟩]
  | .checkOwner r =>
    if s.owner r = some t then [⟨.nop, .none, .wait o (.readCount r)⟩] else [⟨.nop, .none, .idle⟩]
  | .readCount r => [⟨.nop, .none, .wait o (.resetCount r (s.lockCount r))⟩]
  | .resetCount r old => [⟨.setCount r 1, .none, .wait o (.incWaiting r old)⟩]
  | .incWaiting r old => [⟨.incWaiting r, .none, .unlock o (.doWait r old) .readRecord⟩]
  | .condWait r old => [⟨.nop, .none, .lock o (.doWait r old) .readRecord⟩]
  | .decWaiting r old => [⟨.decWaiting r, .none, .wait o (.checkRecord r old)⟩]
  | .checkRecord r old =>
    if s.monitorRecord o = some r then [⟨.nop, .none, .wait o (.restoreCount r old)⟩] else [⟨.nop, .none, .failed⟩]
  | .restoreCount r old => [⟨.setCount r old, .none, .idle⟩]

/-- A thread that is not in a call may call any of the functions on any object. -/
inductive Calls (o : Obj) : Pc Obj → Prop
  | lock : Calls o (.lock o .program .readRecord)
  | unlock : Calls o (.unlock o .program .readRecord)
  | wait : Calls o (.wait o .readRecord)

/-- One step of the thread `t`. -/
inductive Step (s : State Thread Obj) (t : Thread) : State Thread Obj → Prop
  | call {o p} (hpc : s.pc t = .idle) (hp : Calls o p) : Step s t (s.perform t ⟨.nop, .none, p⟩)
  | lock {o k p out} (hpc : s.pc t = .lock o k p) (hout : out ∈ vmObjectLock s t o k p) : Step s t (s.perform t out)
  | unlock {o k p out} (hpc : s.pc t = .unlock o k p) (hout : out ∈ vmObjectUnlock s t o k p) :
      Step s t (s.perform t out)
  | wait {o p out} (hpc : s.pc t = .wait o p) (hout : out ∈ vmObjectDoWait s t o p) : Step s t (s.perform t out)

/-- No record is allocated and no thread has called anything. -/
def initial : State Thread Obj where
  monitorRecord _ := none
  owner _ := none
  lockCount _ := 0
  nrBlocked _ := 0
  nrWaiting _ := 0
  candidate _ := false
  sem _ := 0
  pool _ := []
  next := 0
  pc _ := .idle
  held _ _ := 0

/-- The states of all runs. -/
def Reachable (s : State Thread Obj) : Prop :=
  Relation.ReflTransGen (fun s s' => ∃ t, Step s t s') initial s

/-! ## What the protocol is for -/

def Caller.saved (o : Obj) : Caller → Option (Obj × Rec × Int)
  | .program => none
  | .doWait r old => some (o, r, old)

/-- The record and the lock count that a thread has saved in `vm_object_do_wait`, once it has reset the lock count. -/
def Pc.saved : Pc Obj → Option (Obj × Rec × Int)
  | .unlock o k _ => k.saved o
  | .lock o k _ => k.saved o
  | .wait o (.incWaiting r old) => some (o, r, old)
  | .wait o (.condWait r old) => some (o, r, old)
  | .wait o (.decWaiting r old) => some (o, r, old)
  | .wait o (.checkRecord r old) => some (o, r, old)
  | .wait o (.restoreCount r old) => some (o, r, old)
  | _ => none

/-- The thread is in `vm_object_do_wait` on the object, with the lock count reset. -/
def Pc.WaitsOn (p : Pc Obj) (o : Obj) : Prop := ∃ r old, p.saved = some (o, r, old)

def Owns (s : State Thread Obj) (t : Thread) (o : Obj) (r : Rec) : Prop :=
  s.monitorRecord o = some r ∧ s.owner r = some t

/-- A thread owns the monitor of an object exactly when it has locks that it has not unlocked, unless it waits, and
their number is the lock count. So two threads never have such locks on one object. What a thread saved for the
duration of a wait is the number of its locks and the record that is still attached, and its assertion holds. -/
structure Correct (s : State Thread Obj) : Prop where
  owner_iff : ∀ t o, ¬ (s.pc t).WaitsOn o → (0 < s.held t o ↔ ∃ r, Owns s t o r)
  count : ∀ t o r, ¬ (s.pc t).WaitsOn o → Owns s t o r → s.lockCount r = s.held t o
  exclusive : ∀ t t' o, ¬ (s.pc t).WaitsOn o → ¬ (s.pc t').WaitsOn o → 0 < s.held t o → 0 < s.held t' o → t = t'
  saved : ∀ t o r old, (s.pc t).saved = some (o, r, old) → s.monitorRecord o = some r ∧ old = s.held t o
  no_failure : ∀ t, s.pc t ≠ .failed

end

end Jato.Vm.Monitor
