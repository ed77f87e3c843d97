import Jato.Lib.Tally
import Jato.Vm.Monitor

/-!
# The invariant of object monitors

What holds at each point of the monitor functions. `PcInv` is what a thread knows at its point; most of it is about
records that the thread owns, which other threads leave alone: `Others.pcInv` says that a thread keeps what it knows when
another makes a step, and `Inv.perform` puts the invariant after a step together from what the stepping thread knows
then.
-/

namespace Jato.Vm.Monitor

open Jato.Lib Function State Effect

/-! ## What the points mean -/

/-- The record of the wait that the call is part of. -/
def Caller.record : Caller → Option Rec
  | .program => none
  | .doWait r _ => some r

namespace LockPc

/-- The record that the thread is at. -/
def record : LockPc → Option Rec
  | readRecord | getRecord => none
  | attach r | putRecord r | checkOwner r | readCount r | writeCount r _ | incBlocked r | checkAttached r
  | setCandidate r | acquire r | semWait r | decBlocked r | resetCount r | leave r => some r

/-- The record whose `nr_blocked` counts the thread. -/
def blocked : LockPc → Option Rec
  | checkAttached r | setCandidate r | acquire r | semWait r | decBlocked r | leave r => some r
  | _ => none

/-- The record that the thread has for itself, apart from its pool. -/
def inHand : LockPc → Option Rec
  | attach r | putRecord r => some r
  | _ => none

/-- The record that the blocked thread has seen attached to the object. -/
def checked : LockPc → Option Rec
  | setCandidate r | acquire r => some r
  | _ => none

/-- The record that the thread owns for sure, with the lock count if the thread knows it. -/
def owned : LockPc → Option (Rec × Option Int)
  | readCount r => some (r, none)
  | writeCount r v => some (r, some v)
  | decBlocked r | resetCount r => some (r, some 1)
  | _ => none

/-- The record that the thread has read from the object, before it reads its owner. -/
def read : LockPc → Option Rec
  | checkOwner r => some r
  | _ => none

/-- The thread does not have the lock yet. -/
def unlocked : LockPc → Bool
  | decBlocked _ | resetCount _ => false
  | _ => true

/-- The points that a wait on the record gets to. -/
def InWait (r : Rec) : LockPc → Prop
  | readRecord => True
  | checkOwner r' | incBlocked r' | checkAttached r' | setCandidate r' | acquire r' | semWait r' | decBlocked r'
  | resetCount r' => r' = r
  | _ => False

end LockPc

namespace UnlockPc

def record : UnlockPc → Option Rec
  | readRecord => none
  | checkOwner r | testCount r | readCount r | writeCount r _ | readBlocked r | readWaiting r | release r | wakeOne r
  | post r | detach r | readBlockedAgain r | flush r _ | spin r | clearCandidate r | putRecord r => some r

def inHand : UnlockPc → Option Rec
  | readBlockedAgain r | flush r _ | spin r | clearCandidate r | putRecord r => some r
  | _ => none

/-- The detached record that other threads may still be blocked on. -/
def flushing : UnlockPc → Option Rec
  | readBlockedAgain r | flush r _ | spin r => some r
  | _ => none

/-- In a wait the lock count is one. -/
def owned (k : Caller) : UnlockPc → Option (Rec × Option Int)
  | readRecord => k.record.map fun r => (r, some 1)
  | checkOwner r => k.record.map fun _ => (r, some 1)
  | testCount r => some (r, k.record.map fun _ => 1)
  | readCount r => some (r, none)
  | writeCount r v => some (r, some v)
  | readBlocked r | readWaiting r | release r | detach r => some (r, some 1)
  | _ => none

def read : UnlockPc → Option Rec
  | checkOwner r => some r
  | _ => none

/-- The record that no thread waits on. -/
def noWaiters : UnlockPc → Option Rec
  | detach r => some r
  | _ => none

/-- The record that the thread has locked more than once. -/
def many : UnlockPc → Option Rec
  | readCount r | writeCount r _ => some r
  | _ => none

/-- The thread does not have the lock any more. -/
def unlocked : UnlockPc → Bool
  | wakeOne _ | post _ => true
  | _ => false

def InWait (r : Rec) : UnlockPc → Prop
  | readRecord => True
  | checkOwner r' | testCount r' | readBlocked r' | readWaiting r' | release r' | wakeOne r' | post r' => r' = r
  | _ => False

end UnlockPc

namespace WaitPc

def record : WaitPc → Option Rec
  | readRecord => none
  | checkOwner r | readCount r | resetCount r _ | incWaiting r _ | condWait r _ | decWaiting r _ | checkRecord r _
  | restoreCount r _ => some r

/-- The record whose `nr_waiting` counts the thread. -/
def waiting : WaitPc → Option Rec
  | condWait r _ | decWaiting r _ => some r
  | _ => none

def owned : WaitPc → Option (Rec × Option Int)
  | readCount r => some (r, none)
  | resetCount r old => some (r, some old)
  | incWaiting r _ | decWaiting r _ | checkRecord r _ | restoreCount r _ => some (r, some 1)
  | _ => none

def read : WaitPc → Option Rec
  | checkOwner r => some r
  | _ => none

def unlocked : WaitPc → Option Rec
  | condWait r _ => some r
  | _ => none

end WaitPc

variable {r r' : Rec}

namespace Pc

variable {Obj : Type} {p : Pc Obj} {o : Obj}

def blocked : Pc Obj → Option Rec
  | lock _ _ p => p.blocked
  | _ => none

def waiting : Pc Obj → Option Rec
  | lock _ k _ => k.record
  | unlock _ k _ => k.record
  | wait _ p => p.waiting
  | _ => none

def inHand : Pc Obj → Option Rec
  | lock _ _ p => p.inHand
  | unlock _ _ p => p.inHand
  | _ => none

def flushing : Pc Obj → Option Rec
  | unlock _ _ p => p.flushing
  | _ => none

def checked : Pc Obj → Option (Obj × Rec)
  | lock o _ p => p.checked.map fun r => (o, r)
  | _ => none

def owned : Pc Obj → Option (Obj × Rec × Option Int)
  | lock o _ p => p.owned.map fun x => (o, x)
  | unlock o k p => (p.owned k).map fun x => (o, x)
  | wait o p => p.owned.map fun x => (o, x)
  | _ => none

def read : Pc Obj → Option (Obj × Rec)
  | lock o _ p => p.read.map fun r => (o, r)
  | unlock o _ p => p.read.map fun r => (o, r)
  | wait o p => p.read.map fun r => (o, r)
  | _ => none

def noWaiters : Pc Obj → Option Rec
  | unlock _ _ p => p.noWaiters
  | _ => none

def many : Pc Obj → Option Rec
  | unlock _ _ p => p.many
  | _ => none

/-- The record of a wait that the thread has released and not acquired again. -/
def released : Pc Obj → Option Rec
  | lock _ k p => if p.unlocked then k.record else none
  | unlock _ k p => if p.unlocked then k.record else none
  | wait _ p => p.unlocked
  | _ => none

/-- In a wait the thread stays with the record of the wait, and it fails no assertion. -/
def Possible : Pc Obj → Prop
  | lock _ k p => ∀ r, k.record = some r → p.InWait r
  | unlock _ k p => ∀ r, k.record = some r → p.InWait r
  | failed => False
  | _ => True

/-- The thread has a pointer to the record in its local variables. -/
def Refers (r : Rec) : Pc Obj → Prop
  | lock _ k p => k.record = some r ∨ p.record = some r
  | unlock _ k p => k.record = some r ∨ p.record = some r
  | wait _ p => p.record = some r
  | _ => False

theorem refers_of_blocked (h : p.blocked = some r) : p.Refers r := by
  cases p with
  | lock o k p => cases p <;> cases h <;> exact .inr rfl
  | _ => cases h

theorem refers_of_waiting (h : p.waiting = some r) : p.Refers r := by
  cases p with
  | lock o k p | unlock o k p => exact .inl h
  | wait o p => cases p <;> cases h <;> rfl
  | _ => cases h

theorem blocked_of_checked (h : p.checked = some (o, r)) : p.blocked = some r := by
  cases p with
  | lock o k p => cases p <;> cases h <;> rfl
  | _ => cases h

theorem not_flushing_of_checked (h : p.checked = some (o, r)) : p.flushing ≠ some r' := by
  cases p <;> first | cases h | exact nofun

theorem inHand_of_flushing (h : p.flushing = some r) : p.inHand = some r := by
  cases p with
  | unlock o k p => cases p <;> cases h <;> rfl
  | _ => cases h

theorem owned_of_noWaiters (h : p.noWaiters = some r) : ∃ o c, p.owned = some (o, r, c) := by
  cases p with
  | unlock o k p =>
    cases p <;> cases h
    exact ⟨o, some 1, rfl⟩
  | _ => cases h

theorem owned_of_many (h : p.many = some r) : ∃ o c, p.owned = some (o, r, c) := by
  cases p with
  | unlock o k p => cases p <;> cases h <;> exact ⟨o, _, rfl⟩
  | _ => cases h

/-- A thread with a saved record is counted as waiting, or owns the record. -/
theorem waiting_of_saved {old : Int} (h : p.saved = some (o, r, old)) :
    p.waiting = some r ∨ ∃ c, p.owned = some (o, r, c) := by
  cases p with
  | lock o' k p | unlock o' k p =>
    cases k <;> cases h
    exact .inl rfl
  | wait o' p => cases p <;> cases h <;> first | exact .inl rfl | exact .inr ⟨some 1, rfl⟩
  | _ => cases h

end Pc

/-! ## The invariant -/

section Invariant

variable {Thread Obj : Type}

/-- The record is the thread's alone. -/
structure Spare (s : State Thread Obj) (t : Thread) (r : Rec) : Prop where
  owner : s.owner r = some t
  count : s.lockCount r = 1
  loose : ∀ o, s.monitorRecord o ≠ some r

/-- What holds of a thread at a point. -/
structure PcInv (s : State Thread Obj) (t : Thread) (p : Pc Obj) : Prop where
  possible : p.Possible
  refers : ∀ {r}, p.Refers r → r < s.next
  owned : ∀ {o r c}, p.owned = some (o, r, c) → Owns s t o r ∧ ∀ v, c = some v → s.lockCount r = v
  inHand : ∀ {r}, p.inHand = some r → Spare s t r ∧ r ∉ s.pool t
  saved : ∀ {o r old}, p.saved = some (o, r, old) → s.monitorRecord o = some r ∧ old = s.held t o ∧ 0 < s.held t o
  read : ∀ {o r}, p.read = some (o, r) → s.owner r = some t → s.monitorRecord o = some r
  noWaiters : ∀ {r}, p.noWaiters = some r → s.nrWaiting r = 0
  many : ∀ {r}, p.many = some r → 1 < s.lockCount r
  released : ∀ {r}, p.released = some r → s.owner r ≠ some t

/-- The locks of a thread at a point, and the lock count. -/
def HeldInv (s : State Thread Obj) (t : Thread) (p : Pc Obj) : Prop :=
  ∀ o, ¬ p.WaitsOn o → (0 < s.held t o ↔ ∃ r, Owns s t o r) ∧ ∀ r, Owns s t o r → s.lockCount r = s.held t o

/-- What holds of the records. -/
structure RecInv (s : State Thread Obj) : Prop where
  injective : ∀ {o o' r}, s.monitorRecord o = some r → s.monitorRecord o' = some r → o = o'
  free : ∀ {o r}, s.monitorRecord o = some r → s.owner r = none → s.lockCount r = 1
  allocated : ∀ {o r}, s.monitorRecord o = some r → r < s.next
  fresh : ∀ {r}, s.next ≤ r → s.owner r = none
  pool : ∀ {t r}, r ∈ s.pool t → Spare s t r
  poolBound : ∀ {t r}, r ∈ s.pool t → r < s.next
  nodup : ∀ t, (s.pool t).Nodup

/-- The invariant of all runs. -/
structure Inv (s : State Thread Obj) : Prop where
  recs : RecInv s
  blocked : Tally (fun t => (s.pc t).blocked) s.nrBlocked
  waiting : Tally (fun t => (s.pc t).waiting) s.nrWaiting
  checked : ∀ {t o r}, (s.pc t).checked = some (o, r) →
    s.monitorRecord o = some r ∨ ∃ u, (s.pc u).flushing = some r
  thread : ∀ t, PcInv s t (s.pc t)
  held : ∀ t, HeldInv s t (s.pc t)
  bounded : ∀ t o, s.held t o ≤ intMax

/-! ## What a step leaves alone -/

/-- What the step of a thread does not change for the others: the records that they own, and the records that are
waited on. -/
structure Others (s s' : State Thread Obj) (t : Thread) : Prop where
  next : s.next ≤ s'.next
  owner : ∀ {u r}, u ≠ t → (s'.owner r = some u ↔ s.owner r = some u)
  count : ∀ {u r}, u ≠ t → s.owner r = some u → s'.lockCount r = s.lockCount r
  waiting : ∀ {u r}, u ≠ t → s.owner r = some u → s'.nrWaiting r = s.nrWaiting r
  attached : ∀ {u r o}, u ≠ t → s.owner r = some u → (s'.monitorRecord o = some r ↔ s.monitorRecord o = some r)
  waitedOn : ∀ {r o}, s.monitorRecord o = some r → 0 < s.nrWaiting r → s'.monitorRecord o = some r
  pool : ∀ {u}, u ≠ t → s'.pool u = s.pool u
  held : ∀ {u}, u ≠ t → s'.held u = s.held u

variable {s s' : State Thread Obj} {t u : Thread} {o : Obj} {r : Rec}

section

variable (h : Others s s' t) (hu : u ≠ t)

include h hu

theorem Others.owns_iff : Owns s' u o r ↔ Owns s u o r := by
  constructor
  · rintro ⟨hrec, howner⟩
    have howner' := (h.owner hu).mp howner
    exact ⟨(h.attached hu howner').mp hrec, howner'⟩
  · rintro ⟨hrec, howner⟩
    exact ⟨(h.attached hu howner).mpr hrec, (h.owner hu).mpr howner⟩

theorem Others.spare (hspare : Spare s u r) : Spare s' u r where
  owner := (h.owner hu).mpr hspare.owner
  count := (h.count hu hspare.owner).trans hspare.count
  loose o hrec := hspare.loose o ((h.attached hu hspare.owner).mp hrec)

/-- **What a thread knows** stays true when another thread makes a step. -/
theorem Others.pcInv (hwaiting : Tally (fun t => (s.pc t).waiting) s.nrWaiting)
    (hpc : PcInv s u (s.pc u)) : PcInv s' u (s.pc u) where
  possible := hpc.possible
  refers hr := lt_of_lt_of_le (hpc.refers hr) h.next
  owned ho := by
    obtain ⟨howns, hcount⟩ := hpc.owned ho
    exact ⟨(h.owns_iff hu).mpr howns, fun v hv => (h.count hu howns.2).trans (hcount v hv)⟩
  inHand hr := by
    obtain ⟨hspare, hpool⟩ := hpc.inHand hr
    exact ⟨h.spare hu hspare, h.pool hu ▸ hpool⟩
  saved {o r old} hs := by
    obtain ⟨hrec, hold, hpos⟩ := hpc.saved hs
    rw [h.held hu]
    refine ⟨?_, hold, hpos⟩
    rcases Pc.waiting_of_saved hs with hw | ⟨c, hc⟩
    · exact h.waitedOn hrec (hwaiting.pos hw)
    · exact ((h.owns_iff hu).mpr (hpc.owned hc).1).1
  read hr howner := by
    have howner' := (h.owner hu).mp howner
    exact (h.attached hu howner').mpr (hpc.read hr howner')
  noWaiters hr := by
    obtain ⟨o, c, hc⟩ := Pc.owned_of_noWaiters hr
    exact (h.waiting hu (hpc.owned hc).1.2).trans (hpc.noWaiters hr)
  many hr := by
    obtain ⟨o, c, hc⟩ := Pc.owned_of_many hr
    rw [h.count hu (hpc.owned hc).1.2]
    exact hpc.many hr
  released hr howner := hpc.released hr ((h.owner hu).mp howner)

theorem Others.heldInv {p : Pc Obj} (hheld : HeldInv s u p) : HeldInv s' u p := by
  intro o ho
  obtain ⟨hiff, hcount⟩ := hheld o ho
  simp only [h.owns_iff hu, h.held hu]
  exact ⟨hiff, fun r hr => (h.count hu hr.2).trans (hcount r hr)⟩

end

/-- What a thread must know before it changes the shared memory. -/
def Allowed (s : State Thread Obj) (t : Thread) : Effect Obj → Prop
  | .putRecord r => Spare s t r ∧ r ∉ s.pool t ∧ r < s.next
  | .attach o r => s.monitorRecord o = none ∧ Spare s t r ∧ r ∉ s.pool t ∧ r < s.next
  | .detach o => ∃ r, Owns s t o r ∧ s.nrWaiting r = 0
  | .acquire r => s.owner r = none ∧ ∃ o, s.monitorRecord o = some r
  | .release r => s.lockCount r = 1 ∧ ∃ o, Owns s t o r
  | .setCount r _ => ∃ o, Owns s t o r
  | .incWaiting r => ∃ o, Owns s t o r
  | .decWaiting r => ∃ o, Owns s t o r
  | _ => True

end Invariant

section Effects

variable {Thread Obj : Type} [DecidableEq Thread] [DecidableEq Obj] {s s' : State Thread Obj} {t : Thread} {e : Effect Obj}
  {p p' : Pc Obj} {event : Event Obj}

omit [DecidableEq Thread] [DecidableEq Obj] in
theorem ne_of_owner (h : ∃ o, Owns s t o r) {u : Thread} (hu : u ≠ t) (hr' : s.owner r' = some u) : r' ≠ r := by
  rintro rfl
  obtain ⟨o, -, howner⟩ := h
  rw [howner] at hr'
  cases hr'
  exact hu rfl

omit [DecidableEq Thread] [DecidableEq Obj] in
/-- A change of the pools or of a counter that no other thread relies on. -/
theorem others_of_eq (hnext : s.next ≤ s'.next) (howner : s'.owner = s.owner)
    (hcount : s'.lockCount = s.lockCount) (hwaiting : s'.nrWaiting = s.nrWaiting)
    (hrec : s'.monitorRecord = s.monitorRecord) (hpool : ∀ {u}, u ≠ t → s'.pool u = s.pool u)
    (hheld : ∀ {u}, u ≠ t → s'.held u = s.held u) : Others s s' t where
  next := hnext
  owner _ := by rw [howner]
  count _ _ := by rw [hcount]
  waiting _ _ := by rw [hwaiting]
  attached _ _ := by rw [hrec]
  waitedOn h _ := by rwa [hrec]
  pool := hpool
  held := hheld

/-- **An allowed change** leaves the other threads alone. -/
theorem others_of_allowed (h : RecInv s) (ha : Allowed s t e) : Others s (s.perform t ⟨e, event, p⟩) t := by
  have hheld : ∀ {u}, u ≠ t → (s.perform t ⟨e, event, p⟩).held u = s.held u := by
    intro u hu
    cases event <;> simp [perform, Event.count, hu]
  have hsame : Nat.le s.next s.next := Nat.le_refl _
  have hpool : ∀ {u rs}, u ≠ t → update s.pool t rs u = s.pool u := fun hu => update_of_ne hu _ _
  cases e with
  | takeRecord | putRecord => exact others_of_eq hsame rfl rfl rfl rfl hpool hheld
  | nop | incBlocked | decBlocked | setCandidate | post | semWait =>
    exact others_of_eq hsame rfl rfl rfl rfl (fun _ => rfl) hheld
  | newRecord =>
    have hfresh := h.fresh (Nat.le_refl s.next)
    have hne : ∀ {u r}, s.owner r = some u → r ≠ s.next := by
      rintro u r hr rfl
      rw [hfresh] at hr
      cases hr
    refine ⟨Nat.le_succ _, fun {u r} hu => ?_, fun _ hr => update_of_ne (hne hr) _ _,
      fun _ hr => update_of_ne (hne hr) _ _, fun _ _ => .rfl, fun h _ => h, fun _ => rfl, hheld⟩
    by_cases hr : r = s.next
    · subst hr
      simp [perform, apply, hfresh, hu.symm]
    · simp [perform, apply, hr]
  | attach o r =>
    obtain ⟨hnone, hspare, -⟩ := ha
    refine ⟨hsame, fun _ => .rfl, fun _ _ => rfl, fun _ _ => rfl, fun {u r' o'} hu hr' => ?_,
      fun {r' o'} hrec _ => ?_, fun _ => rfl, hheld⟩
    · by_cases ho : o' = o
      · subst ho
        have hne : r ≠ r' := by
          rintro rfl
          rw [hspare.owner] at hr'
          cases hr'
          exact hu rfl
        simp [perform, apply, hnone, hne]
      · simp [perform, apply, ho]
    · have ho : o' ≠ o := by
        rintro rfl
        rw [hnone] at hrec
        cases hrec
      simpa [perform, apply, ho] using hrec
  | detach o =>
    obtain ⟨r, ⟨hrec, howner⟩, hzero⟩ := ha
    refine ⟨hsame, fun _ => .rfl, fun _ _ => rfl, fun _ _ => rfl, fun {u r' o'} hu hr' => ?_,
      fun {r' o'} hrec' hpos => ?_, fun _ => rfl, hheld⟩
    · by_cases ho : o' = o
      · subst ho
        have hne : r ≠ r' := by
          rintro rfl
          rw [howner] at hr'
          cases hr'
          exact hu rfl
        simp [perform, apply, hrec, hne]
      · simp [perform, apply, ho]
    · have ho : o' ≠ o := by
        rintro rfl
        rw [hrec] at hrec'
        cases hrec'
        omega
      simpa [perform, apply, ho] using hrec'
  | acquire r =>
    refine ⟨hsame, fun {u r'} hu => ?_, fun _ _ => rfl, fun _ _ => rfl, fun _ _ => .rfl, fun h _ => h, fun _ => rfl,
      hheld⟩
    by_cases hr : r' = r
    · subst hr
      simp [perform, apply, ha.1, hu.symm]
    · simp [perform, apply, hr]
  | release r =>
    obtain ⟨-, o, -, howner⟩ := ha
    refine ⟨hsame, fun {u r'} hu => ?_, fun _ _ => rfl, fun _ _ => rfl, fun _ _ => .rfl, fun h _ => h, fun _ => rfl,
      hheld⟩
    by_cases hr : r' = r
    · subst hr
      simp [perform, apply, howner, hu.symm]
    · simp [perform, apply, hr]
  | setCount r v =>
    exact ⟨hsame, fun _ => .rfl, fun hu hr => update_of_ne (ne_of_owner ha hu hr) _ _, fun _ _ => rfl, fun _ _
      => .rfl,
      fun h _ => h, fun _ => rfl, hheld⟩
  | incWaiting r | decWaiting r =>
    exact ⟨hsame, fun _ => .rfl, fun _ _ => rfl, fun hu hr => update_of_ne (ne_of_owner ha hu hr) _ _,
      fun _ _ => .rfl, fun h _ => h, fun _ => rfl, hheld⟩

omit [DecidableEq Thread] [DecidableEq Obj] in
/-- The pools may lose records. -/
theorem RecInv.of_eq (h : RecInv s) (hrec : s'.monitorRecord = s.monitorRecord)
    (howner : s'.owner = s.owner) (hcount : s'.lockCount = s.lockCount) (hnext : s'.next = s.next)
    (hpool : ∀ u, (s'.pool u).Sublist (s.pool u)) : RecInv s' where
  injective h₁ h₂ := h.injective (hrec ▸ h₁) (hrec ▸ h₂)
  free h₁ h₂ := hcount ▸ h.free (hrec ▸ h₁) (howner ▸ h₂)
  allocated h₁ := hnext ▸ h.allocated (hrec ▸ h₁)
  fresh hr := howner ▸ h.fresh (hnext ▸ hr)
  pool {u r} hr := by
    obtain ⟨h₁, h₂, h₃⟩ := h.pool ((hpool u).subset hr)
    exact ⟨howner ▸ h₁, hcount ▸ h₂, hrec ▸ h₃⟩
  poolBound {u r} hr := hnext ▸ h.poolBound ((hpool u).subset hr)
  nodup u := (h.nodup u).sublist (hpool u)

omit [DecidableEq Thread] [DecidableEq Obj] in
theorem RecInv.ne_of_owns (h : RecInv s) {u : Thread} {o : Obj} (hr : s.monitorRecord o = some r)
    (hr' : r' ∈ s.pool u) : r' ≠ r := by
  rintro rfl
  exact (h.pool hr').loose o hr

omit [DecidableEq Thread] [DecidableEq Obj] in
/-- An attached record gets a new owner, or none if its count is one. -/
theorem RecInv.setOwner (h : RecInv s) {o : Obj} {x : Option Thread} (hrec : s.monitorRecord o = some r)
    (hfree : x = none → s.lockCount r = 1) : RecInv { s with owner := update s.owner r x } := by
  refine ⟨h.injective, fun {o' r'} h₁ howner => ?_, h.allocated, fun {r'} hr' => ?_, fun {u r'} hr' =>
    ⟨?_, (h.pool hr').count, (h.pool hr').loose⟩, h.poolBound, h.nodup⟩
  · by_cases hr : r' = r
    · subst hr
      exact hfree ((update_self r' x s.owner).symm.trans howner)
    · exact h.free h₁ ((update_of_ne hr x s.owner).symm.trans howner)
  · have hne := Nat.ne_of_gt (lt_of_lt_of_le (h.allocated hrec) hr')
    exact (update_of_ne hne ..).trans (h.fresh hr')
  · exact (update_of_ne (h.ne_of_owns hrec hr') ..).trans (h.pool hr').owner

/-- **The records stay in order.** -/
theorem recInv_of_allowed (h : RecInv s) (ha : Allowed s t e) : RecInv (s.perform t ⟨e, event, p⟩) := by
  have hsame : ∀ u, (s.pool u).Sublist (s.pool u) := fun u => .refl _
  cases e with
  | nop | incBlocked | decBlocked | incWaiting | decWaiting | setCandidate | post | semWait =>
    exact h.of_eq rfl rfl rfl rfl hsame
  | takeRecord =>
    refine h.of_eq rfl rfl rfl rfl fun u => ?_
    by_cases hu : u = t
    · subst hu
      simpa [perform, apply] using List.tail_sublist (s.pool u)
    · simp [perform, apply, hu]
  | putRecord r =>
    obtain ⟨hspare, hnot, hlt⟩ := ha
    have hpool : ∀ {u r'}, r' ∈ (s.perform t ⟨.putRecord r, event, p⟩).pool u → r' = r ∧ u = t ∨ r' ∈ s.pool u := by
      intro u r' hr'
      by_cases hu : u = t
      · subst hu
        simp only [perform, apply, update_self, List.mem_cons] at hr'
        exact hr'.imp_left fun e => ⟨e, rfl⟩
      · simp only [perform, apply, update_of_ne hu] at hr'
        exact .inr hr'
    refine ⟨h.injective, h.free, h.allocated, h.fresh, fun hr' => ?_, fun hr' => ?_, fun u => ?_⟩
    · rcases hpool hr' with ⟨rfl, rfl⟩ | hr'
      · exact ⟨hspare.1, hspare.2, hspare.3⟩
      · exact ⟨(h.pool hr').1, (h.pool hr').2, (h.pool hr').3⟩
    · rcases hpool hr' with ⟨rfl, rfl⟩ | hr'
      · exact hlt
      · exact h.poolBound hr'
    · by_cases hu : u = t
      · subst hu
        simpa [perform, apply] using ⟨hnot, h.nodup u⟩
      · simpa [perform, apply, hu] using h.nodup u
  | newRecord =>
    have hattached : ∀ {o r}, s.monitorRecord o = some r → r ≠ s.next := fun hr => Nat.ne_of_lt (h.allocated hr)
    have hpool : ∀ {u r}, r ∈ s.pool u → r ≠ s.next := fun hr => Nat.ne_of_lt (h.poolBound hr)
    refine ⟨h.injective, fun hr howner => ?_, fun hr => Nat.lt_succ_of_lt (h.allocated hr), fun {r} hr => ?_,
      fun hr => ⟨?_, ?_, (h.pool hr).loose⟩, fun hr => Nat.lt_succ_of_lt (h.poolBound hr), h.nodup⟩
    · simp only [perform, apply, update_of_ne (hattached hr)] at howner ⊢
      exact h.free hr howner
    · have hlt : s.next < r := hr
      simp only [perform, apply, update_of_ne (Nat.ne_of_gt hlt)]
      exact h.fresh (le_of_lt hlt)
    · simpa [perform, apply, hpool hr] using (h.pool hr).owner
    · simpa [perform, apply, hpool hr] using (h.pool hr).count
  | attach o r =>
    obtain ⟨hnone, hspare, hnot, hlt⟩ := ha
    have hrec : ∀ {o' r'}, (s.perform t ⟨.attach o r, event, p⟩).monitorRecord o' = some r' →
        o' = o ∧ r' = r ∨ s.monitorRecord o' = some r' := by
      intro o' r' hr'
      by_cases ho : o' = o
      · subst ho
        simp only [perform, apply, update_self, Option.some.injEq] at hr'
        exact .inl ⟨rfl, hr'.symm⟩
      · simp only [perform, apply, update_of_ne ho] at hr'
        exact .inr hr'
    refine ⟨fun h₁ h₂ => ?_, fun h₁ howner => ?_, fun h₁ => ?_, h.fresh, fun {u r'} hr' =>
      ⟨(h.pool hr').owner, (h.pool hr').count, fun o' h₁ => ?_⟩, h.poolBound, h.nodup⟩
    · rcases hrec h₁ with ⟨rfl, rfl⟩ | hr₁ <;> rcases hrec h₂ with ⟨rfl, he⟩ | hr₂
      · rfl
      · exact absurd hr₂ (hspare.loose _)
      · exact absurd (he ▸ hr₁) (hspare.loose _)
      · exact h.injective hr₁ hr₂
    · rcases hrec h₁ with ⟨rfl, rfl⟩ | h₁
      · cases hspare.owner.symm.trans howner
      · exact h.free h₁ howner
    · rcases hrec h₁ with ⟨rfl, rfl⟩ | h₁
      · exact hlt
      · exact h.allocated h₁
    · rcases hrec h₁ with ⟨rfl, rfl⟩ | h₁
      · -- a record in a pool is not the one in the hand of the thread
        cases (h.pool hr').owner.symm.trans hspare.owner
        exact hnot hr'
      · exact (h.pool hr').loose o' h₁
  | detach o =>
    have hrec : ∀ {o' r'}, (s.perform t ⟨.detach o, event, p⟩).monitorRecord o' = some r' →
        s.monitorRecord o' = some r' := by
      intro o' r' hr'
      by_cases ho : o' = o
      · subst ho
        simp [perform, apply] at hr'
      · simpa [perform, apply, ho] using hr'
    exact ⟨fun h₁ h₂ => h.injective (hrec h₁) (hrec h₂), fun h₁ howner => h.free (hrec h₁) howner,
      fun h₁ => h.allocated (hrec h₁), h.fresh, fun hr' =>
        ⟨(h.pool hr').owner, (h.pool hr').count, fun o' h₁ => (h.pool hr').loose o' (hrec h₁)⟩, h.poolBound, h.nodup⟩
  | acquire r =>
    obtain ⟨hnone, o, hrec⟩ := ha
    exact (h.setOwner hrec (by simp)).of_eq rfl rfl rfl rfl hsame
  | release r =>
    obtain ⟨hcount, o, hrec, howner⟩ := ha
    exact (h.setOwner hrec fun _ => hcount).of_eq rfl rfl rfl rfl hsame
  | setCount r v =>
    obtain ⟨o, hrec, howner⟩ := ha
    refine ⟨h.injective, fun {o' r'} h₁ howner' => ?_, h.allocated, h.fresh, fun {u r'} hr' =>
      ⟨(h.pool hr').owner, ?_, (h.pool hr').loose⟩, h.poolBound, h.nodup⟩
    · have hne : r' ≠ r := by
        rintro rfl
        cases howner.symm.trans howner'
      simp only [perform, apply, update_of_ne hne]
      exact h.free h₁ howner'
    · simp only [perform, apply, update_of_ne (h.ne_of_owns hrec hr')]
      exact (h.pool hr').count

/-! ## One step -/

/-- **The invariant after a step**, from what the thread knows then. -/
theorem Inv.perform {out : Outcome Obj} (hinv : Inv s) (ha : Allowed s t out.effect)
    (hpc : PcInv (s.perform t out) t out.pc) (hheld : HeldInv (s.perform t out) t out.pc)
    (hblocked : Tally (update (fun u => (s.pc u).blocked) t out.pc.blocked) (s.perform t out).nrBlocked)
    (hwaiting : Tally (update (fun u => (s.pc u).waiting) t out.pc.waiting) (s.perform t out).nrWaiting)
    (hchecked : ∀ {o r}, out.pc.checked = some (o, r) →
      (s.perform t out).monitorRecord o = some r ∨ ∃ u, u ≠ t ∧ (s.pc u).flushing = some r)
    (hdetached : ∀ {o r}, s.monitorRecord o = some r →
      (s.perform t out).monitorRecord o = some r ∨ out.pc.flushing = some r)
    (hflushed : ∀ {r}, (s.pc t).flushing = some r → out.pc.flushing = some r ∨ s.nrBlocked r = 0)
    (hbounded : ∀ t' o, (s.perform t out).held t' o ≤ intMax) : Inv (s.perform t out) := by
  have hothers : Others s (s.perform t out) t := others_of_allowed hinv.recs ha
  have hself : (s.perform t out).pc t = out.pc := update_self ..
  have hother : ∀ {u}, u ≠ t → (s.perform t out).pc u = s.pc u := fun hu => update_of_ne hu ..
  have hplace : ∀ {β : Type} (f : Pc Obj → β), (fun u => f ((s.perform t out).pc u)) =
      update (fun u => f (s.pc u)) t (f out.pc) := by
    intro β f
    exact comp_update f s.pc t out.pc
  refine ⟨recInv_of_allowed hinv.recs ha, ?_, ?_, fun {u o r} hu => ?_, fun u => ?_, fun u => ?_, hbounded⟩
  · rw [hplace Pc.blocked]
    exact hblocked
  · rw [hplace Pc.waiting]
    exact hwaiting
  · -- a flushed record stays so as long as the thread is blocked on it
    have hflush : ∀ {w}, (s.pc w).flushing = some r → s.nrBlocked r ≠ 0 →
        ∃ w', ((s.perform t out).pc w').flushing = some r := by
      intro w hw hpos
      by_cases hwt : w = t
      · subst hwt
        exact ⟨w, hself ▸ (hflushed hw).resolve_right hpos⟩
      · exact ⟨w, (hother hwt).symm ▸ hw⟩
    by_cases hut : u = t
    · subst hut
      rw [hself] at hu
      refine (hchecked hu).imp_right fun ⟨w, hwt, hw⟩ => ⟨w, (hother hwt).symm ▸ hw⟩
    · rw [hother hut] at hu
      have hpos : s.nrBlocked r ≠ 0 := Nat.ne_of_gt (hinv.blocked.pos (Pc.blocked_of_checked hu))
      rcases hinv.checked hu with hrec | ⟨w, hw⟩
      · exact (hdetached hrec).imp_right fun h => ⟨t, hself ▸ h⟩
      · exact .inr (hflush hw hpos)
  · by_cases hut : u = t
    · subst hut
      rwa [hself]
    · rw [hother hut]
      exact hothers.pcInv hut hinv.waiting (hinv.thread u)
  · by_cases hut : u = t
    · subst hut
      rwa [hself]
    · rw [hother hut]
      exact hothers.heldInv hut (hinv.held u)

omit [DecidableEq Thread] [DecidableEq Obj] in
theorem HeldInv.congr (h : HeldInv s t p) (hsaved : p'.saved = p.saved)
    (hheld : s'.held = s.held) (hrec : s'.monitorRecord = s.monitorRecord) (howner : s'.owner = s.owner)
    (hcount : s'.lockCount = s.lockCount) : HeldInv s' t p' := by
  intro o ho
  simp only [Owns, hheld, hrec, howner, hcount]
  exact h o fun ⟨r, old, hr⟩ => ho ⟨r, old, hsaved.trans hr⟩

omit [DecidableEq Thread] [DecidableEq Obj] in
theorem PcInv.congr (h : PcInv s t p) (hnext : s'.next = s.next)
    (hrec : s'.monitorRecord = s.monitorRecord) (howner : s'.owner = s.owner) (hcount : s'.lockCount = s.lockCount)
    (hwaiting : s'.nrWaiting = s.nrWaiting) (hpool : s'.pool = s.pool) (hheld : s'.held = s.held) : PcInv s' t p where
  possible := h.possible
  refers hr := hnext ▸ h.refers hr
  owned ho := by
    simp only [Owns, hrec, howner, hcount]
    exact h.owned ho
  inHand hr := by
    obtain ⟨⟨h₁, h₂, h₃⟩, h₄⟩ := h.inHand hr
    exact ⟨⟨howner ▸ h₁, hcount ▸ h₂, hrec ▸ h₃⟩, hpool ▸ h₄⟩
  saved hs := by
    rw [hrec, hheld]
    exact h.saved hs
  read hr howner' := hrec ▸ h.read hr (howner ▸ howner')
  noWaiters hr := hwaiting ▸ h.noWaiters hr
  many hr := hcount ▸ h.many hr
  released hr := howner ▸ h.released hr

/-- The changes of memory that at most the count of blocked threads is about. -/
def Effect.Quiet : Effect Obj → Prop
  | .nop | .setCandidate _ _ | .post _ | .semWait _ | .incBlocked _ | .decBlocked _ => True
  | _ => False

/-- **A quiet step**: what the thread knows at its new point holds before the step already. -/
theorem Inv.quiet (hinv : Inv s) (he : e.Quiet) (hpc : PcInv s t p')
    (hblocked : Tally (update (fun u => (s.pc u).blocked) t p'.blocked) (s.perform t ⟨e, .none, p'⟩).nrBlocked)
    (hsaved : p'.saved = (s.pc t).saved) (hwaiting : p'.waiting = (s.pc t).waiting)
    (hchecked : ∀ {o r}, p'.checked = some (o, r) → s.monitorRecord o = some r ∨ (s.pc t).checked = some (o, r))
    (hflushed : ∀ {r}, (s.pc t).flushing = some r → p'.flushing = some r ∨ s.nrBlocked r = 0) :
    Inv (s.perform t ⟨e, .none, p'⟩) := by
  obtain ⟨hnext, hrec, howner, hcount, hnr, hpool, hallowed⟩ : (s.perform t ⟨e, .none, p'⟩).next = s.next ∧
      (s.perform t ⟨e, .none, p'⟩).monitorRecord = s.monitorRecord ∧ (s.perform t ⟨e, .none, p'⟩).owner = s.owner ∧
      (s.perform t ⟨e, .none, p'⟩).lockCount = s.lockCount ∧ (s.perform t ⟨e, .none, p'⟩).nrWaiting = s.nrWaiting ∧
      (s.perform t ⟨e, .none, p'⟩).pool = s.pool ∧ Allowed s t e := by
    cases e <;> first | exact ⟨rfl, rfl, rfl, rfl, rfl, rfl, trivial⟩ | cases he
  refine hinv.perform hallowed (hpc.congr hnext hrec howner hcount hnr hpool rfl)
    ((hinv.held t).congr hsaved rfl hrec howner hcount) hblocked ?_ (fun {o r} hc => ?_) (fun h => .inl (hrec ▸ h))
    hflushed hinv.bounded
  · rw [hnr]
    exact hinv.waiting.stay hwaiting
  · rw [hrec]
    rcases hchecked hc with h | h
    · exact .inl h
    · refine (hinv.checked h).imp_right fun ⟨u, hu⟩ => ⟨u, ?_, hu⟩
      rintro rfl
      exact Pc.not_flushing_of_checked h hu

/-- **A step that changes nothing** that the invariant is about, but where the thread is. -/
theorem Inv.silent (hinv : Inv s) (he : e.Quiet) (hnr : (s.perform t ⟨e, .none, p'⟩).nrBlocked = s.nrBlocked)
    (hpc : PcInv s t p') (hsaved : p'.saved = (s.pc t).saved) (hblocked : p'.blocked = (s.pc t).blocked)
    (hwaiting : p'.waiting = (s.pc t).waiting)
    (hchecked : ∀ {o r}, p'.checked = some (o, r) → s.monitorRecord o = some r ∨ (s.pc t).checked = some (o, r))
    (hflushed : ∀ {r}, (s.pc t).flushing = some r → p'.flushing = some r ∨ s.nrBlocked r = 0) :
    Inv (s.perform t ⟨e, .none, p'⟩) := by
  refine hinv.quiet he hpc ?_ hsaved hwaiting hchecked hflushed
  rw [hnr]
  exact hinv.blocked.stay hblocked

end Effects

/-! ## What a thread knows next -/

section Points

variable {Thread Obj : Type} {s : State Thread Obj} {t : Thread} {o : Obj} {k : Caller}

theorem PcInv.idle : PcInv s t .idle :=
  ⟨trivial, nofun, nofun, nofun, nofun, nofun, nofun, nofun, nofun⟩

/-- The next point of a thread: what it is about is as before, or known. -/
theorem PcInv.next {p p' : Pc Obj} (h : PcInv s t p) (hpossible : p'.Possible)
    (hrefers : ∀ {r}, p'.Refers r → p.Refers r ∨ r < s.next) (howned : ∀ {o r c}, p'.owned = some (o, r, c) →
      p.owned = some (o, r, c) ∨ Owns s t o r ∧ ∀ v, c = some v → s.lockCount r = v)
    (hhand : ∀ {r}, p'.inHand = some r → p.inHand = some r)
    (hread : ∀ {o r}, p'.read = some (o, r) → s.owner r = some t → s.monitorRecord o = some r)
    (hno : ∀ {r}, p'.noWaiters = some r → s.nrWaiting r = 0) (hmany : ∀ {r}, p'.many = some r → 1 < s.lockCount r)
    (hsaved : p'.saved = p.saved) (hreleased : p'.released = p.released) : PcInv s t p' where
  possible := hpossible
  refers hr := (hrefers hr).elim h.refers id
  owned ho := (howned ho).elim h.owned id
  inHand hr := h.inHand (hhand hr)
  saved hs := h.saved (hsaved ▸ hs)
  read := hread
  noWaiters := hno
  many := hmany
  released hr := h.released (hreleased ▸ hr)

theorem Caller.saved_of_record (h : k.record = some r) : ∃ old, k.saved o = some (o, r, old) := by
  cases k with
  | program => cases h
  | doWait r' old =>
    cases h
    exact ⟨old, rfl⟩

theorem Caller.eq_program (h : ∀ r, k.record = some r → False) : k = .program := by
  cases k with
  | program => rfl
  | doWait r old => exact (h r rfl).elim

/-- In a wait the record of the wait is attached. -/
theorem PcInv.lock_attached {p : LockPc} (h : PcInv s t (.lock o k p)) (hr : k.record = some r) :
    s.monitorRecord o = some r := by
  obtain ⟨old, hs⟩ := Caller.saved_of_record (o := o) hr
  exact (h.saved hs).1

theorem PcInv.lock_released {p : LockPc} (h : PcInv s t (.lock o k p)) (hp : p.unlocked)
    (hr : k.record = some r) : s.owner r ≠ some t := by
  refine h.released ?_
  simp only [Pc.released, hp, if_true, hr]

end Points

end Jato.Vm.Monitor
