import Jato.Vm.MonitorInvariant

/-!
# Runs of object monitors

Each step of `vm_object_lock`, `vm_object_unlock` and `vm_object_do_wait` keeps the invariant. `correct_of_boundedRun` is
the result: in every run in which no thread has more locks on an object than an `int` can count, the protocol is correct
in every state. `lockCount_overflow` is a run in which one thread has more.
-/

namespace Jato.Vm.Monitor

open Jato.Lib Function

theorem never {α : Type} {a : α} {P : Prop} (h : none = some a) : P := by
  cases h

variable {n : Nat}

section Changes

variable {Thread Obj : Type} [DecidableEq Thread] [DecidableEq Obj] {s : State Thread Obj} {t : Thread} {o o' : Obj}
  {k : Caller} {r : Rec} {held : Thread → Obj → Nat}

/-! ## What the changes do to the locks -/

omit [DecidableEq Thread] [DecidableEq Obj] in
theorem HeldInv.at_object {s' : State Thread Obj} {p p' : Pc Obj} (h : HeldInv s t p)
    (hwaits : ∀ o', o' ≠ o → p.WaitsOn o' → p'.WaitsOn o') (hheld : ∀ o', o' ≠ o → s'.held t o' = s.held t o')
    (howns : ∀ o' r, o' ≠ o → (Owns s' t o' r ↔ Owns s t o' r))
    (hcount : ∀ o' r, o' ≠ o → Owns s t o' r → s'.lockCount r = s.lockCount r)
    (hat : ¬ p'.WaitsOn o → (0 < s'.held t o ↔ ∃ r, Owns s' t o r) ∧ ∀ r, Owns s' t o r → s'.lockCount r = s'.held t o)
    : HeldInv s' t p' := by
  intro o' ho'
  by_cases heq : o' = o
  · subst heq
    exact hat ho'
  · obtain ⟨hiff, hc⟩ := h o' fun hw => ho' (hwaits o' heq hw)
    simp only [howns o' _ heq, hheld o' heq]
    exact ⟨hiff, fun r hr => (hcount o' r heq hr).trans (hc r hr)⟩

theorem HeldInv.newRecord {p p' : Pc Obj} (h : HeldInv s t p) (hrecs : RecInv s) (hsaved : p'.saved = p.saved) :
    HeldInv (s.perform t ⟨.newRecord, .none, p'⟩) t p' := by
  intro o ho
  obtain ⟨hiff, hcount⟩ := h o fun ⟨r, old, hr⟩ => ho ⟨r, old, hsaved.trans hr⟩
  have hne : ∀ {r}, s.monitorRecord o = some r → r ≠ s.next := fun hr => Nat.ne_of_lt (hrecs.allocated hr)
  have howns : ∀ {r}, Owns (s.perform t ⟨.newRecord, .none, p'⟩) t o r ↔ Owns s t o r := by
    refine and_congr_right fun hr => ?_
    simp [State.perform, Effect.apply, update_of_ne (hne hr)]
  simp only [howns]
  refine ⟨hiff, fun r hr => ?_⟩
  simp only [State.perform, Effect.apply, update_of_ne (hne hr.1)]
  exact hcount r hr

omit [DecidableEq Obj] in
theorem Caller.eq_of_saved (h : ∃ r old, k.saved o = some (o', r, old)) : o' = o := by
  obtain ⟨r, old, hs⟩ := h
  cases k with
  | program => cases hs
  | doWait r' old' =>
    cases hs
    rfl

theorem Event.count_locked_self : Event.count t held (.locked o) t o = held t o + 1 := by
  simp [Event.count]

theorem Event.count_unlocked_self : Event.count t held (.unlocked o) t o = held t o - 1 := by
  simp [Event.count]

theorem Event.count_of_ne (h : o' ≠ o) :
    Event.count t held (.locked o) t o' = held t o' ∧ Event.count t held (.unlocked o) t o' = held t o' := by
  simp [Event.count, h]

omit [DecidableEq Thread] [DecidableEq Obj] in
/-- A thread that does not own the monitor and does not wait has no locks. -/
theorem HeldInv.eq_zero {p : Pc Obj} (h : HeldInv s t p) (hw : ¬ p.WaitsOn o) (hno : ∀ r, ¬ Owns s t o r) :
    s.held t o = 0 := by
  have hiff := (h o hw).1
  by_contra hne
  obtain ⟨r, hr⟩ := hiff.mp (Nat.pos_of_ne_zero hne)
  exact hno r hr

omit [DecidableEq Obj] in
theorem Pc.not_waitsOn_program {p : LockPc} : ¬ (Pc.lock o .program p).WaitsOn o' :=
  fun ⟨_, _, h⟩ => nomatch h

theorem wrapInt_eq (h : n ≤ intMax) : wrapInt n = n := by
  have hlt : n < 2147483648 := Nat.lt_succ_of_le h
  rw [wrapInt, Int.bmod_eq_of_le_mul_two] <;> omega

/-- Writing the lock count of an owned record changes the count of its object only. -/
theorem HeldInv.setCount {p p' : Pc Obj} {v : Int} {event : Event Obj} (h : HeldInv s t p) (hrecs : RecInv s)
    (hr : Owns s t o r) (hwaits : ∀ o', o' ≠ o → p.WaitsOn o' → p'.WaitsOn o')
    (hheld : ∀ o', o' ≠ o → event.count t s.held t o' = s.held t o')
    (hat : ¬ p'.WaitsOn o → 0 < event.count t s.held t o ∧ v = event.count t s.held t o) :
    HeldInv (s.perform t ⟨.setCount r v, event, p'⟩) t p' := by
  refine h.at_object (o := o) hwaits hheld (fun _ _ _ => .rfl) (fun o' r' ho' hr' => ?_) (fun hw => ?_)
  · refine update_of_ne ?_ ..
    rintro rfl
    exact ho' (hrecs.injective hr'.1 hr.1)
  · obtain ⟨hpos, hv⟩ := hat hw
    refine ⟨iff_of_true hpos ⟨r, hr⟩, fun r' hr' => ?_⟩
    cases hr.1.symm.trans hr'.1
    exact (update_self ..).trans hv

theorem HeldInv.acquire {p : LockPc} (h : HeldInv s t (.lock o k p)) (hrecs : RecInv s)
    (hrec : s.monitorRecord o = some r) (hnone : s.owner r = none) :
    HeldInv (s.perform t ⟨.acquire r, k.event (.locked o), .lock o k (.decBlocked r)⟩) t
      (.lock o k (.decBlocked r)) := by
  have hself : (s.perform t ⟨.acquire r, k.event (.locked o), .lock o k (.decBlocked r)⟩).owner r = some t :=
    update_self ..
  refine h.at_object (o := o) (fun o' ho' hw => (ho' (Caller.eq_of_saved hw)).elim) (fun o' ho' => ?_)
    (fun o' r' ho' => and_congr_right fun hr' => ?_) (fun _ _ _ _ => rfl) fun hw => ?_
  · cases k with
    | program => exact (Event.count_of_ne ho').1
    | doWait r' old => rfl
  · have hne : r' ≠ r := by
      rintro rfl
      exact ho' (hrecs.injective hr' hrec)
    simp [State.perform, Effect.apply, update_of_ne hne]
  · cases k with
    | doWait r' old => exact absurd ⟨r', old, rfl⟩ hw
    | program =>
      have hzero : s.held t o = 0 := by
        refine h.eq_zero Pc.not_waitsOn_program fun r' hr' => ?_
        cases hrec.symm.trans hr'.1
        cases hnone.symm.trans hr'.2
      have hone : (s.perform t ⟨.acquire r, .locked o, .lock o .program (.decBlocked r)⟩).held t o = 1 :=
        Event.count_locked_self.trans (by rw [hzero])
      simp only [Caller.event, hone]
      refine ⟨iff_of_true Nat.one_pos ⟨r, hrec, hself⟩, fun r' hr' => ?_⟩
      cases hrec.symm.trans hr'.1
      exact hrecs.free hrec hnone

/-- Every outcome keeps the invariant, as long as the locks can be counted. -/
def Keeps (s : State Thread Obj) (t : Thread) (outs : List (Outcome Obj)) : Prop :=
  ∀ out ∈ outs, (∀ t' o, (s.perform t out).held t' o ≤ intMax) → Inv (s.perform t out)

theorem keeps_one {out : Outcome Obj}
    (h : (∀ t' o, (s.perform t out).held t' o ≤ intMax) → Inv (s.perform t out)) : Keeps s t [out] := by
  intro _ hout
  cases List.mem_singleton.mp hout
  exact h

end Changes

/-! ## The steps of `vm_object_lock` -/

section Lock

variable {Thread Obj : Type} [DecidableEq Thread] [DecidableEq Obj] {s : State Thread Obj} {t : Thread} {o : Obj}
  {k : Caller} {r : Rec} {v : Int} (hinv : Inv s)
include hinv

theorem Inv.lock_silent {e : Effect Obj} {p p' : LockPc} (hpc : s.pc t = .lock o k p) (he : e.Quiet)
    (hnr : (s.perform t ⟨e, .none, .lock o k p'⟩).nrBlocked = s.nrBlocked) (hpc' : PcInv s t (.lock o k p'))
    (hblocked : p'.blocked = p.blocked)
    (hchecked : ∀ {r}, p'.checked = some r → s.monitorRecord o = some r ∨ p.checked = some r) :
    Keeps s t [⟨e, .none, .lock o k p'⟩] := by
  refine keeps_one fun _ => hinv.silent he hnr hpc' (by rw [hpc]; rfl) (by rw [hpc]; exact hblocked) (by rw [hpc]; rfl)
    (fun {o' r} hc => ?_) (fun hf => ?_)
  · obtain ⟨r', hr', heq⟩ := Option.map_eq_some_iff.mp hc
    cases heq
    rw [hpc]
    exact (hchecked hr').imp_right fun h => by rw [Pc.checked, h]; rfl
  · rw [hpc] at hf
    cases hf

theorem Inv.lock_readRecord (hpc : s.pc t = .lock o k .readRecord) : Keeps s t (vmObjectLock s t o k .readRecord) := by
  have ht := hpc ▸ hinv.thread t
  rw [vmObjectLock]
  cases hrec : s.monitorRecord o with
  | none =>
    have hk : ∀ r, k.record ≠ some r := fun r hr => nomatch hrec.symm.trans (ht.lock_attached hr)
    exact hinv.lock_silent hpc trivial rfl
      (ht.next (fun r hr => (hk r hr).elim) .inl never never never never never rfl rfl) rfl never
  | some r =>
    refine hinv.lock_silent hpc trivial rfl (ht.next (fun r' hr' => ?_) ?_ never never ?_ never never rfl rfl) rfl never
    · exact Option.some.inj (hrec.symm.trans (ht.lock_attached hr'))
    · rintro _ (hk | ⟨⟨⟩⟩)
      · exact .inl (.inl hk)
      · exact .inr (hinv.recs.allocated hrec)
    · rintro _ _ ⟨⟩ _
      exact hrec

theorem Inv.lock_getRecord (hpc : s.pc t = .lock o k .getRecord) : Keeps s t (vmObjectLock s t o k .getRecord) := by
  have ht := hpc ▸ hinv.thread t
  have hheld := hpc ▸ hinv.held t
  obtain rfl := Caller.eq_program ht.possible
  rw [vmObjectLock]
  cases hpool : s.pool t with
  | cons r rest =>
    have hmem : r ∈ s.pool t := hpool ▸ List.mem_cons_self
    have hspare := hinv.recs.pool hmem
    have hnot : r ∉ rest := (List.nodup_cons.mp (hpool ▸ hinv.recs.nodup t)).1
    refine keeps_one fun hbounded => hinv.perform trivial ?_ (hheld.congr rfl rfl rfl rfl rfl)
      (hinv.blocked.stay (hpc ▸ rfl)) (hinv.waiting.stay (hpc ▸ rfl)) never .inl (hpc ▸ never)
      hinv.bounded
    refine ⟨fun _ => never, ?_, never, ?_, never, never, never, never, never⟩
    · rintro r' (⟨⟨⟩⟩ | ⟨⟨⟩⟩)
      exact hinv.recs.poolBound hmem
    · rintro _ ⟨⟩
      have htail : (s.perform t ⟨.takeRecord, .none, .lock o .program (.attach r)⟩).pool t = rest :=
        (update_self ..).trans (congrArg List.tail hpool)
      exact ⟨⟨hspare.1, hspare.2, hspare.3⟩, fun hr => hnot (htail ▸ hr)⟩
  | nil =>
    intro out hout _
    rcases (List.mem_cons.mp hout).symm with hout | rfl
    · cases List.mem_singleton.mp hout
      exact hinv.silent trivial rfl PcInv.idle (hpc ▸ rfl) (hpc ▸ rfl) (hpc ▸ rfl) never (hpc ▸ never)
    · refine hinv.perform trivial ?_ (hheld.newRecord hinv.recs rfl)
        ((hinv.blocked.reset fun u h => ?_).stay (hpc ▸ rfl))
        ((hinv.waiting.reset fun u h => ?_).stay (hpc ▸ rfl)) never .inl (hpc ▸ never) hinv.bounded
      · refine ⟨fun _ => never, ?_, never, ?_, never, never, never, never, never⟩
        · rintro r (⟨⟨⟩⟩ | ⟨⟨⟩⟩)
          exact Nat.lt_succ_self _
        · rintro _ ⟨⟩
          refine ⟨⟨update_self .., update_self .., fun o' ho' => ?_⟩, ?_⟩
          · exact lt_irrefl _ (hinv.recs.allocated ho')
          · simp [State.perform, Effect.apply, hpool]
      · exact lt_irrefl _ ((hinv.thread u).refers (Pc.refers_of_blocked h))
      · exact lt_irrefl _ ((hinv.thread u).refers (Pc.refers_of_waiting h))

theorem Inv.lock_attach (hpc : s.pc t = .lock o k (.attach r)) : Keeps s t (vmObjectLock s t o k (.attach r)) := by
  have ht := hpc ▸ hinv.thread t
  obtain rfl := Caller.eq_program ht.possible
  obtain ⟨hspare, hnot⟩ := ht.inHand rfl
  have hlt := ht.refers (.inr rfl)
  have hheld := hpc ▸ hinv.held t
  rw [vmObjectLock]
  cases hrec : s.monitorRecord o with
  | some r' =>
    exact hinv.lock_silent hpc trivial rfl (ht.next (fun _ => never) .inl never id never never never rfl rfl) rfl never
  | none =>
    have hzero : s.held t o = 0 :=
      hheld.eq_zero Pc.not_waitsOn_program fun r hr => nomatch hrec.symm.trans hr.1
    refine keeps_one fun hbounded => hinv.perform ⟨hrec, hspare, hnot, hlt⟩ PcInv.idle ?_
      (hinv.blocked.stay (hpc ▸ rfl))
      (hinv.waiting.stay (hpc ▸ rfl)) never (fun {o' r'} hr' => .inl ?_) (hpc ▸ never) hbounded
    · refine hheld.at_object (o := o) (fun o' _ h => (Pc.not_waitsOn_program h).elim)
        (fun o' ho' => (Event.count_of_ne ho').1) (fun o' r' ho' => ?_) (fun _ _ _ _ => rfl) (fun _ => ?_)
      · simp [Owns, State.perform, Effect.apply, update_of_ne ho']
      · have hone : (s.perform t ⟨.attach o r, .locked o, .idle⟩).held t o = 1 :=
          Event.count_locked_self.trans (by rw [hzero])
        have hself : (s.perform t ⟨.attach o r, .locked o, .idle⟩).monitorRecord o = some r := update_self ..
        simp only [Caller.event, Caller.afterLock, hone]
        refine ⟨iff_of_true Nat.one_pos ⟨r, hself, hspare.owner⟩, fun r' hr' => ?_⟩
        cases hself.symm.trans hr'.1
        exact hspare.count
    · have hne : o' ≠ o := by
        rintro rfl
        cases hrec.symm.trans hr'
      exact (update_of_ne hne ..).trans hr'

theorem Inv.lock_putRecord (hpc : s.pc t = .lock o k (.putRecord r)) :
    Keeps s t (vmObjectLock s t o k (.putRecord r)) := by
  have ht := hpc ▸ hinv.thread t
  obtain rfl := Caller.eq_program ht.possible
  obtain ⟨hspare, hnot⟩ := ht.inHand rfl
  have hheld := hpc ▸ hinv.held t
  refine keeps_one fun hbounded => hinv.perform ⟨hspare, hnot, ht.refers (.inr rfl)⟩ ?_ (hheld.congr rfl rfl rfl rfl
    rfl)
    (hinv.blocked.stay (hpc ▸ rfl)) (hinv.waiting.stay (hpc ▸ rfl)) never .inl (hpc ▸ never)
    hinv.bounded
  exact ⟨fun _ _ => trivial, by rintro _ (⟨⟨⟩⟩ | ⟨⟨⟩⟩), never, never, never, never, never, never, never⟩

theorem Inv.lock_checkOwner (hpc : s.pc t = .lock o k (.checkOwner r)) :
    Keeps s t (vmObjectLock s t o k (.checkOwner r)) := by
  have ht := hpc ▸ hinv.thread t
  rw [vmObjectLock]
  split_ifs with howner
  · have hk : ∀ r', k.record ≠ some r' := by
      intro r' hr'
      obtain rfl : r = r' := ht.possible r' hr'
      exact ht.lock_released rfl hr' howner
    refine hinv.lock_silent hpc trivial rfl
      (ht.next (fun r' hr' => (hk r' hr').elim) .inl ?_ never never never never rfl rfl) rfl never
    rintro _ _ _ ⟨⟩
    exact .inr ⟨⟨ht.read rfl howner, howner⟩, fun _ => never⟩
  · exact hinv.lock_silent hpc trivial rfl (ht.next ht.possible .inl never never never never never rfl rfl) rfl never

theorem Inv.lock_writeCount (hpc : s.pc t = .lock o k (.writeCount r v)) :
    Keeps s t (vmObjectLock s t o k (.writeCount r v)) := by
  have ht := hpc ▸ hinv.thread t
  obtain rfl := Caller.eq_program ht.possible
  obtain ⟨howns, hcount⟩ := ht.owned rfl
  have hheld := hpc ▸ hinv.held t
  have hv : v = s.held t o := (hcount v rfl).symm.trans ((hheld o Pc.not_waitsOn_program).2 r howns)
  refine keeps_one fun hbounded => ?_
  have hmax : Event.count t s.held (.locked o) t o ≤ intMax := hbounded t o
  rw [Event.count_locked_self] at hmax
  refine hinv.perform ⟨o, howns⟩ PcInv.idle ?_ (hinv.blocked.stay (hpc ▸ rfl)) (hinv.waiting.stay (hpc ▸ rfl))
    never .inl (hpc ▸ never) hbounded
  refine hheld.setCount hinv.recs howns (fun _ _ h => (Pc.not_waitsOn_program h).elim)
    (fun o' ho' => (Event.count_of_ne ho').1) fun _ => ?_
  rw [Caller.event, Event.count_locked_self, hv]
  exact ⟨Nat.succ_pos _, wrapInt_eq hmax⟩

theorem Inv.lock_checkAttached (hpc : s.pc t = .lock o k (.checkAttached r)) :
    Keeps s t (vmObjectLock s t o k (.checkAttached r)) := by
  have ht := hpc ▸ hinv.thread t
  rw [vmObjectLock]
  split_ifs with hrec
  · refine hinv.lock_silent hpc trivial rfl
      (ht.next ht.possible .inl never never never never never rfl rfl) rfl ?_
    rintro _ ⟨⟩
    exact .inl hrec
  · -- in a wait the record is still attached
    have hk : ∀ r', k.record ≠ some r' := by
      intro r' hr'
      obtain rfl : r = r' := ht.possible r' hr'
      exact hrec (ht.lock_attached hr')
    exact hinv.lock_silent hpc trivial rfl
      (ht.next (fun r' hr' => (hk r' hr').elim) .inl never never never never never rfl rfl) rfl never

omit [DecidableEq Thread] [DecidableEq Obj] in
/-- A record without an owner is still attached to the object of a thread that has seen it there. -/
theorem Inv.attached_of_checked (hc : (s.pc t).checked = some (o, r))
    (hnone : s.owner r = none) : s.monitorRecord o = some r := by
  rcases hinv.checked hc with hrec | ⟨u, hu⟩
  · exact hrec
  · have hspare := ((hinv.thread u).inHand (Pc.inHand_of_flushing hu)).1
    cases hnone.symm.trans hspare.owner

theorem Inv.lock_acquire (hpc : s.pc t = .lock o k (.acquire r)) : Keeps s t (vmObjectLock s t o k (.acquire r)) := by
  have ht := hpc ▸ hinv.thread t
  have hheld := hpc ▸ hinv.held t
  have hlt := ht.refers (.inr rfl)
  rw [vmObjectLock]
  cases hnone : s.owner r with
  | none =>
    have hrec : s.monitorRecord o = some r := hinv.attached_of_checked (hpc ▸ rfl : (s.pc t).checked = _) hnone
    refine keeps_one fun hbounded => hinv.perform ⟨hnone, o, hrec⟩ ?_ (hheld.acquire hinv.recs hrec hnone)
      (hinv.blocked.stay (hpc ▸ rfl))
      (hinv.waiting.stay (hpc ▸ rfl)) never .inl (hpc ▸ never) hbounded
    refine ⟨ht.possible, ?_, ?_, never, ?_, never, never, never, never⟩
    · rintro r' (hr' | ⟨⟨⟩⟩)
      · exact ht.refers (.inl hr')
      · exact hlt
    · rintro _ _ _ ⟨⟩
      refine ⟨⟨hrec, update_self ..⟩, ?_⟩
      rintro _ ⟨⟩
      exact hinv.recs.free hrec hnone
    · cases k with
      | program => exact never
      | doWait r' old => exact ht.saved
  | some u =>
    exact hinv.lock_silent hpc trivial rfl (ht.next ht.possible .inl never never never never never rfl rfl) rfl never

/-- Writing the lock count that is there already. -/
theorem Inv.rewriteCount {p' : Pc Obj} (howns : Owns s t o r)
    (hv : s.lockCount r = v) (hpc : PcInv s t p') (hsaved : p'.saved = (s.pc t).saved)
    (hblocked : p'.blocked = (s.pc t).blocked) (hwaiting : p'.waiting = (s.pc t).waiting)
    (hchecked : ∀ {o r}, p'.checked ≠ some (o, r)) (hflushed : ∀ {r}, (s.pc t).flushing ≠ some r) :
    Keeps s t [⟨.setCount r v, .none, p'⟩] := by
  have hcount : (s.perform t ⟨.setCount r v, .none, p'⟩).lockCount = s.lockCount := by
    rw [← hv]
    exact update_eq_self ..
  exact keeps_one fun _ => hinv.perform ⟨o, howns⟩ (hpc.congr rfl rfl rfl hcount rfl rfl rfl)
    ((hinv.held t).congr hsaved rfl rfl rfl hcount) (hinv.blocked.stay hblocked) (hinv.waiting.stay hwaiting)
    (fun h => (hchecked h).elim) .inl (fun h => (hflushed h).elim) hinv.bounded

theorem Inv.lock_resetCount (hpc : s.pc t = .lock o k (.resetCount r)) :
    Keeps s t (vmObjectLock s t o k (.resetCount r)) := by
  have ht := hpc ▸ hinv.thread t
  obtain ⟨howns, hcount⟩ := ht.owned rfl
  cases k with
  | program =>
    exact hinv.rewriteCount howns (hcount 1 rfl) PcInv.idle (hpc ▸ rfl) (hpc ▸ rfl) (hpc ▸ rfl) never (hpc ▸ never)
  | doWait r' old =>
    obtain rfl : r = r' := ht.possible r' rfl
    refine hinv.rewriteCount howns (hcount 1 rfl) ⟨trivial, ?_, ?_, never, ht.saved, never, never, never, never⟩
      (hpc ▸ rfl)
      (hpc ▸ rfl) (hpc ▸ rfl) never (hpc ▸ never)
    · rintro _ ⟨⟩
      exact ht.refers (.inr rfl)
    · rintro _ _ _ ⟨⟩
      exact ⟨howns, hcount⟩

/-- **The steps of `vm_object_lock`** keep the invariant. -/
theorem Inv.lock {p : LockPc} (hpc : s.pc t = .lock o k p) : Keeps s t (vmObjectLock s t o k p) := by
  have ht := hpc ▸ hinv.thread t
  cases p with
  | readRecord => exact hinv.lock_readRecord hpc
  | getRecord => exact hinv.lock_getRecord hpc
  | attach r => exact hinv.lock_attach hpc
  | putRecord r => exact hinv.lock_putRecord hpc
  | checkOwner r => exact hinv.lock_checkOwner hpc
  | readCount r =>
    obtain rfl := Caller.eq_program ht.possible
    refine hinv.lock_silent hpc trivial rfl (ht.next (fun _ => never) .inl ?_ never never never never rfl rfl) rfl never
    rintro _ _ _ ⟨⟩
    refine .inr ⟨(ht.owned rfl).1, ?_⟩
    rintro _ ⟨⟩
    rfl
  | writeCount r v => exact hinv.lock_writeCount hpc
  | incBlocked r =>
    have hblocked : (s.pc t).blocked = none := hpc ▸ rfl
    exact keeps_one fun _ => hinv.quiet trivial (ht.next ht.possible .inl never never never never never rfl rfl)
      (hinv.blocked.enter hblocked) (hpc ▸ rfl) (hpc ▸ rfl) never (hpc ▸ never)
  | checkAttached r => exact hinv.lock_checkAttached hpc
  | setCandidate r =>
    exact hinv.lock_silent hpc trivial rfl (ht.next ht.possible .inl never never never never never rfl rfl) rfl .inr
  | acquire r => exact hinv.lock_acquire hpc
  | semWait r =>
    rw [vmObjectLock]
    split_ifs
    · exact hinv.lock_silent hpc trivial rfl (ht.next ht.possible .inl never never never never never rfl rfl) rfl never
    · exact fun out hout => nomatch hout
  | decBlocked r =>
    have hblocked : (s.pc t).blocked = some r := hpc ▸ rfl
    exact keeps_one fun _ => hinv.quiet trivial (ht.next ht.possible .inl .inl never never never never rfl rfl)
      (hinv.blocked.leave hblocked) (hpc ▸ rfl) (hpc ▸ rfl) never (hpc ▸ never)
  | resetCount r => exact hinv.lock_resetCount hpc
  | leave r =>
    have hblocked : (s.pc t).blocked = some r := hpc ▸ rfl
    obtain rfl := Caller.eq_program ht.possible
    exact keeps_one fun _ => hinv.quiet trivial
      (ht.next (fun _ => never) (·.elim never never) never never never never never rfl rfl)
      (hinv.blocked.leave hblocked) (hpc ▸ rfl) (hpc ▸ rfl) never (hpc ▸ never)

end Lock

/-! ## The steps of `vm_object_unlock` -/

variable {p : UnlockPc}

section Unlock

variable {Thread Obj : Type} {s : State Thread Obj} {t : Thread} {o : Obj} {k : Caller} {r : Rec}

theorem PcInv.unlock_attached (h : PcInv s t (.unlock o k p)) {r : Rec} (hr : k.record = some r) :
    s.monitorRecord o = some r := by
  obtain ⟨old, hs⟩ := Caller.saved_of_record (o := o) hr
  exact (h.saved hs).1

theorem PcInv.unlock_released (h : PcInv s t (.unlock o k p)) (hp : p.unlocked) {r : Rec}
    (hr : k.record = some r) : s.owner r ≠ some t := by
  refine h.released ?_
  simp [Pc.released, hp, hr]

theorem Pc.not_waitsOn_unlock {o' : Obj} : ¬ (Pc.unlock o .program p).WaitsOn o' :=
  fun ⟨_, _, h⟩ => nomatch h

/-- What a thread knows when `vm_object_unlock` returns: in a wait it has released the record. -/
theorem PcInv.afterUnlock (h : PcInv s t (.unlock o k p)) (hp : p.unlocked) : PcInv s t (k.afterUnlock o) := by
  cases k with
  | program => exact PcInv.idle
  | doWait r old =>
    refine ⟨trivial, ?_, never, never, h.saved, never, never, never, ?_⟩
    · rintro _ ⟨⟩
      exact h.refers (.inl rfl)
    · rintro _ ⟨⟩
      exact h.unlock_released hp rfl

variable [DecidableEq Thread] [DecidableEq Obj] {v : Int} {e : Effect Obj} {p p' : UnlockPc}

/-- Giving the monitor up takes the last lock away, or leaves a wait without the monitor. -/
theorem HeldInv.unlocked (h : HeldInv s t (.unlock o k p)) (hr : Owns s t o r) (hone : s.lockCount r = 1)
    (howns : ∀ o' r', o' ≠ o → (Owns (s.perform t ⟨e, k.event (.unlocked o), .unlock o k p'⟩) t o' r' ↔ Owns s t o' r'))
    (hcount : (s.perform t ⟨e, k.event (.unlocked o), .unlock o k p'⟩).lockCount = s.lockCount)
    (hnot : ∀ r', ¬ Owns (s.perform t ⟨e, k.event (.unlocked o), .unlock o k p'⟩) t o r') :
    HeldInv (s.perform t ⟨e, k.event (.unlocked o), .unlock o k p'⟩) t (.unlock o k p') := by
  refine h.at_object (o := o) (fun o' ho' hw => (ho' (Caller.eq_of_saved hw)).elim) (fun o' ho' => ?_) howns
    (fun _ _ _ _ => by rw [hcount]) fun hw => ?_
  · cases k with
    | program => exact (Event.count_of_ne ho').2
    | doWait r' old => rfl
  · cases k with
    | doWait r' old => exact absurd ⟨r', old, rfl⟩ hw
    | program =>
      have hheld := (h o Pc.not_waitsOn_unlock).2 r hr
      have hzero : (s.perform t ⟨e, .unlocked o, .unlock o .program p'⟩).held t o = 0 := by
        refine Event.count_unlocked_self.trans ?_
        omega
      refine ⟨iff_of_false ?_ fun ⟨r', hr'⟩ => hnot r' hr', fun r' hr' => (hnot r' hr').elim⟩
      simp only [Caller.event, hzero]
      exact lt_irrefl 0

variable (hinv : Inv s)
include hinv

theorem Inv.unlock_silent (hpc : s.pc t = .unlock o k p) (he : e.Quiet)
    (hnr : (s.perform t ⟨e, .none, .unlock o k p'⟩).nrBlocked = s.nrBlocked) (hpc' : PcInv s t (.unlock o k p'))
    (hflushed : ∀ {r}, p.flushing = some r → p'.flushing = some r ∨ s.nrBlocked r = 0) :
    Keeps s t [⟨e, .none, .unlock o k p'⟩] := by
  refine keeps_one fun _ => hinv.silent he hnr hpc' (by rw [hpc]; rfl) (by rw [hpc]; rfl) (by rw [hpc]; rfl) never
    (fun hf => ?_)
  rw [hpc] at hf
  exact hflushed hf

theorem Inv.unlock_return (hpc : s.pc t = .unlock o k p) (he : e.Quiet)
    (hnr : (s.perform t ⟨e, .none, k.afterUnlock o⟩).nrBlocked = s.nrBlocked) (hpc' : PcInv s t (k.afterUnlock o))
    (hflushed : ∀ {r}, p.flushing ≠ some r) : Keeps s t [⟨e, .none, k.afterUnlock o⟩] := by
  refine keeps_one fun _ => hinv.silent he hnr hpc' ?_ ?_ ?_ (fun {o' r} hc => ?_) (fun hf => ?_)
  · rw [hpc]
    cases k <;> rfl
  · rw [hpc]
    cases k <;> rfl
  · rw [hpc]
    cases k <;> rfl
  · cases k <;> cases hc
  · rw [hpc] at hf
    exact (hflushed hf).elim

theorem Inv.unlock_readRecord (hpc : s.pc t = .unlock o k .readRecord) :
    Keeps s t (vmObjectUnlock s t o k .readRecord) := by
  have ht := hpc ▸ hinv.thread t
  rw [vmObjectUnlock]
  cases hrec : s.monitorRecord o with
  | none =>
    obtain rfl := Caller.eq_program fun r hr => nomatch hrec.symm.trans (ht.unlock_attached hr)
    exact hinv.unlock_return hpc trivial rfl PcInv.idle never
  | some r =>
    have hin : ∀ r', k.record = some r' → r = r' := fun r' hr' =>
      Option.some.inj (hrec.symm.trans (ht.unlock_attached hr'))
    refine hinv.unlock_silent hpc trivial rfl (ht.next hin ?_ ?_ never ?_ never never rfl rfl) never
    · rintro _ (hk | ⟨⟨⟩⟩)
      · exact .inl (.inl hk)
      · exact .inr (hinv.recs.allocated hrec)
    · intro o' r' c hc
      cases k with
      | program => cases hc
      | doWait r'' old =>
        obtain rfl := hin r'' rfl
        exact .inl hc
    · rintro _ _ ⟨⟩ _
      exact hrec

theorem Inv.unlock_checkOwner (hpc : s.pc t = .unlock o k (.checkOwner r)) :
    Keeps s t (vmObjectUnlock s t o k (.checkOwner r)) := by
  have ht := hpc ▸ hinv.thread t
  rw [vmObjectUnlock]
  split_ifs with howner
  · refine hinv.unlock_silent hpc trivial rfl (ht.next ht.possible .inl ?_ never never never never rfl rfl) never
    rintro _ _ _ ⟨⟩
    refine .inr ⟨⟨ht.read rfl howner, howner⟩, fun v hv => ?_⟩
    cases k with
    | program => cases hv
    | doWait r' old =>
      cases hv
      exact (ht.owned rfl).2 1 rfl
  · cases k with
    | program => exact hinv.unlock_return hpc trivial rfl PcInv.idle never
    | doWait r' old => exact absurd (ht.owned rfl).1.2 howner

theorem Inv.unlock_testCount (hpc : s.pc t = .unlock o k (.testCount r)) :
    Keeps s t (vmObjectUnlock s t o k (.testCount r)) := by
  have ht := hpc ▸ hinv.thread t
  have hheld := hpc ▸ hinv.held t
  obtain ⟨howns, hone⟩ := ht.owned rfl
  rw [vmObjectUnlock]
  split_ifs with hcount
  · have hk : ∀ r', k.record ≠ some r' := by
      intro r' hr'
      have := hone 1 (by rw [hr']; rfl)
      omega
    refine hinv.unlock_silent hpc trivial rfl
      (ht.next (fun r' hr' => (hk r' hr').elim) .inl ?_ never never never ?_ rfl rfl) never
    · rintro _ _ _ ⟨⟩
      exact .inr ⟨howns, fun _ => never⟩
    · rintro _ ⟨⟩
      exact hcount
  · have heq : s.lockCount r = 1 := by
      cases k with
      | doWait r' old => exact hone 1 rfl
      | program =>
        obtain ⟨hiff, hc⟩ := hheld o Pc.not_waitsOn_unlock
        have hpos := hiff.mpr ⟨r, howns⟩
        have := hc r howns
        omega
    refine hinv.unlock_silent hpc trivial rfl (ht.next ht.possible .inl ?_ never never never never rfl rfl) never
    rintro _ _ _ ⟨⟩
    exact .inr ⟨howns, by rintro _ ⟨⟩; exact heq⟩

theorem Inv.unlock_writeCount (hpc : s.pc t = .unlock o k (.writeCount r v)) :
    Keeps s t (vmObjectUnlock s t o k (.writeCount r v)) := by
  have ht := hpc ▸ hinv.thread t
  obtain rfl := Caller.eq_program ht.possible
  obtain ⟨howns, hcount⟩ := ht.owned rfl
  have hmany := ht.many rfl
  have hheld := hpc ▸ hinv.held t
  have hv := hcount v rfl
  have hn := (hheld o Pc.not_waitsOn_unlock).2 r howns
  have hmax := hinv.bounded t o
  refine keeps_one fun hbounded => hinv.perform ⟨o, howns⟩ PcInv.idle ?_ (hinv.blocked.stay (hpc ▸ rfl))
    (hinv.waiting.stay (hpc ▸ rfl))
    never .inl (hpc ▸ never) hbounded
  refine hheld.setCount hinv.recs howns (fun _ _ h => (Pc.not_waitsOn_unlock h).elim)
    (fun o' ho' => (Event.count_of_ne ho').2) fun _ => ?_
  rw [Caller.event, Event.count_unlocked_self]
  refine ⟨by omega, ?_⟩
  rw [show v - 1 = ((s.held t o - 1 : Nat) : Int) by omega]
  exact wrapInt_eq (by omega)

theorem Inv.unlock_readWaiting (hpc : s.pc t = .unlock o k (.readWaiting r)) :
    Keeps s t (vmObjectUnlock s t o k (.readWaiting r)) := by
  have ht := hpc ▸ hinv.thread t
  rw [vmObjectUnlock]
  split_ifs with hpos
  · exact hinv.unlock_silent hpc trivial rfl (ht.next ht.possible .inl .inl never never never never rfl rfl) never
  · -- in a wait the thread itself is counted
    have hk : ∀ r', k.record ≠ some r' := by
      intro r' hr'
      obtain rfl : r = r' := ht.possible r' hr'
      exact hpos (hinv.waiting.pos (t := t) (by rw [hpc]; exact hr'))
    refine hinv.unlock_silent hpc trivial rfl
      (ht.next (fun r' hr' => (hk r' hr').elim) .inl .inl never never ?_ never rfl rfl) never
    rintro _ ⟨⟩
    omega

theorem Inv.unlock_release (hpc : s.pc t = .unlock o k (.release r)) :
    Keeps s t (vmObjectUnlock s t o k (.release r)) := by
  have ht := hpc ▸ hinv.thread t
  have hheld := hpc ▸ hinv.held t
  obtain ⟨howns, hone⟩ := ht.owned rfl
  have hcount := hone 1 rfl
  have hself : (s.perform t ⟨.release r, k.event (.unlocked o), .unlock o k (.wakeOne r)⟩).owner r = none :=
    update_self ..
  refine keeps_one fun hbounded => hinv.perform ⟨hcount, o, howns⟩ ?_ (hheld.unlocked howns hcount
    (fun o' r' ho' => ?_) rfl fun r' hr' => ?_)
    (hinv.blocked.stay (hpc ▸ rfl)) (hinv.waiting.stay (hpc ▸ rfl)) never .inl (hpc ▸ never) hbounded
  · refine ⟨ht.possible, ?_, never, never, ?_, never, never, never, fun {r'} hr' howner => ?_⟩
    · rintro r' (hr' | ⟨⟨⟩⟩)
      · exact ht.refers (.inl hr')
      · exact ht.refers (.inr rfl)
    · cases k with
      | program => exact never
      | doWait r' old => exact ht.saved
    · obtain rfl : r = r' := ht.possible r' hr'
      cases hself.symm.trans howner
  · refine and_congr_right fun hr' => ?_
    have hne : r' ≠ r := by
      rintro rfl
      exact ho' (hinv.recs.injective hr' howns.1)
    simp [State.perform, Effect.apply, update_of_ne hne]
  · cases howns.1.symm.trans hr'.1
    cases hself.symm.trans hr'.2

theorem Inv.unlock_detach (hpc : s.pc t = .unlock o k (.detach r)) :
    Keeps s t (vmObjectUnlock s t o k (.detach r)) := by
  have ht := hpc ▸ hinv.thread t
  have hheld := hpc ▸ hinv.held t
  obtain ⟨howns, hone⟩ := ht.owned rfl
  have hcount := hone 1 rfl
  obtain rfl := Caller.eq_program ht.possible
  have hself : (s.perform t ⟨.detach o, .unlocked o, .unlock o .program (.readBlockedAgain r)⟩).monitorRecord o =
      none := update_self ..
  have hother : ∀ {o'}, o' ≠ o →
      (s.perform t ⟨.detach o, .unlocked o, .unlock o .program (.readBlockedAgain r)⟩).monitorRecord o' =
        s.monitorRecord o' := fun ho' => update_of_ne ho' ..
  refine keeps_one fun hbounded => hinv.perform ⟨r, howns, ht.noWaiters rfl⟩ ?_
    (hheld.unlocked howns hcount (fun o' r' ho' => ?_) rfl fun r' hr' => nomatch hself.symm.trans hr'.1)
    (hinv.blocked.stay (hpc ▸ rfl)) (hinv.waiting.stay (hpc ▸ rfl)) never (fun {o' r'} hr' => ?_) (hpc ▸ never) hbounded
  · refine ⟨fun _ => never, ?_, never, ?_, never, never, never, never, never⟩
    · rintro r' (⟨⟨⟩⟩ | ⟨⟨⟩⟩)
      exact ht.refers (.inr rfl)
    · rintro _ ⟨⟩
      refine ⟨⟨howns.2, hcount, fun o' hr' => ?_⟩, fun hmem => hinv.recs.ne_of_owns howns.1 hmem rfl⟩
      by_cases ho' : o' = o
      · subst ho'
        cases hself.symm.trans hr'
      · exact ho' (hinv.recs.injective ((hother ho').symm.trans hr') howns.1)
  · simp only [Owns, Caller.event, hother ho']
    rfl
  · by_cases ho' : o' = o
    · subst ho'
      cases howns.1.symm.trans hr'
      exact .inr rfl
    · exact .inl ((hother ho').trans hr')

/-- **The steps of `vm_object_unlock`** keep the invariant. -/
theorem Inv.unlock (hpc : s.pc t = .unlock o k p) : Keeps s t (vmObjectUnlock s t o k p) := by
  have ht := hpc ▸ hinv.thread t
  cases p with
  | readRecord => exact hinv.unlock_readRecord hpc
  | checkOwner r => exact hinv.unlock_checkOwner hpc
  | testCount r => exact hinv.unlock_testCount hpc
  | readCount r =>
    refine hinv.unlock_silent hpc trivial rfl (ht.next ht.possible .inl ?_ never never never ht.many rfl rfl) never
    rintro _ _ _ ⟨⟩
    refine .inr ⟨(ht.owned rfl).1, ?_⟩
    rintro _ ⟨⟩
    rfl
  | writeCount r v => exact hinv.unlock_writeCount hpc
  | readBlocked r =>
    rw [vmObjectUnlock]
    split_ifs
    all_goals
      exact hinv.unlock_silent hpc trivial rfl (ht.next ht.possible .inl .inl never never never never rfl rfl) never
  | readWaiting r => exact hinv.unlock_readWaiting hpc
  | release r => exact hinv.unlock_release hpc
  | wakeOne r =>
    rw [vmObjectUnlock]
    split_ifs
    · exact hinv.unlock_silent hpc trivial rfl (ht.next ht.possible .inl never never never never never rfl rfl) never
    · exact hinv.unlock_return hpc trivial rfl (ht.afterUnlock rfl) never
  | post r =>
    exact hinv.unlock_return hpc trivial rfl (ht.afterUnlock rfl) never
  | detach r => exact hinv.unlock_detach hpc
  | readBlockedAgain r | spin r =>
    rw [vmObjectUnlock]
    split_ifs with hpos
    · exact hinv.unlock_silent hpc trivial rfl (ht.next ht.possible .inl never id never never never rfl rfl) .inl
    · refine hinv.unlock_silent hpc trivial rfl (ht.next ht.possible .inl never id never never never rfl rfl) ?_
      rintro _ ⟨⟩
      exact .inr (Nat.eq_zero_of_not_pos hpos)
  | flush r n =>
    cases n with
    | zero | succ n =>
      exact hinv.unlock_silent hpc trivial rfl (ht.next ht.possible .inl never id never never never rfl rfl) .inl
  | clearCandidate r =>
    exact hinv.unlock_silent hpc trivial rfl (ht.next ht.possible .inl never id never never never rfl rfl) never
  | putRecord r =>
    obtain rfl := Caller.eq_program ht.possible
    obtain ⟨hspare, hnot⟩ := ht.inHand rfl
    have hheld := hpc ▸ hinv.held t
    exact keeps_one fun _ => hinv.perform ⟨hspare, hnot, ht.refers (.inr rfl)⟩ PcInv.idle (hheld.congr rfl rfl rfl rfl
      rfl)
      (hinv.blocked.stay (hpc ▸ rfl)) (hinv.waiting.stay (hpc ▸ rfl)) never .inl (hpc ▸ never) hinv.bounded

end Unlock

/-! ## The steps of `vm_object_do_wait` -/

section Wait

variable {Thread Obj : Type} [DecidableEq Thread] [DecidableEq Obj] {s : State Thread Obj} {t : Thread} {o : Obj}
  {r : Rec}
  {old : Int} (hinv : Inv s)
include hinv

theorem Inv.wait_silent {p : WaitPc} {p' : Pc Obj} (hpc : s.pc t = .wait o p) (hpc' : PcInv s t p')
    (hsaved : p'.saved = (Pc.wait o p).saved) (hblocked : p'.blocked = none) (hwaiting : p'.waiting = p.waiting)
    (hchecked : ∀ {o r}, p'.checked ≠ some (o, r)) : Keeps s t [⟨.nop, .none, p'⟩] :=
  keeps_one fun _ => hinv.silent trivial rfl hpc' (hpc ▸ hsaved) (hpc ▸ hblocked) (hpc ▸ hwaiting)
    (fun h => (hchecked h).elim) (hpc ▸ never)

theorem Inv.wait_resetCount (hpc : s.pc t = .wait o (.resetCount r old)) :
    Keeps s t (vmObjectDoWait s t o (.resetCount r old)) := by
  have ht := hpc ▸ hinv.thread t
  have hheld := hpc ▸ hinv.held t
  obtain ⟨howns, hcount⟩ := ht.owned rfl
  have hnot : ∀ {o'}, ¬ (Pc.wait o (.resetCount r old)).WaitsOn o' := fun ⟨_, _, h⟩ => nomatch h
  obtain ⟨hiff, hc⟩ := hheld o hnot
  refine keeps_one fun hbounded => hinv.perform ⟨o, howns⟩ ⟨trivial, ?_, ?_, never, ?_, never, never, never, never⟩ ?_
    (hinv.blocked.stay (hpc ▸ rfl)) (hinv.waiting.stay (hpc ▸ rfl)) never .inl (hpc ▸ never) hinv.bounded
  · rintro _ ⟨⟩
    exact ht.refers rfl
  · rintro _ _ _ ⟨⟩
    refine ⟨howns, ?_⟩
    rintro _ ⟨⟩
    exact update_self ..
  · rintro _ _ _ ⟨⟩
    exact ⟨howns.1, (hcount old rfl).symm.trans (hc r howns), hiff.mpr ⟨r, howns⟩⟩
  · exact hheld.setCount hinv.recs howns (fun _ _ h => (hnot h).elim) (fun _ _ => rfl)
      fun hw => absurd ⟨r, old, rfl⟩ hw

theorem Inv.wait_incWaiting (hpc : s.pc t = .wait o (.incWaiting r old)) :
    Keeps s t (vmObjectDoWait s t o (.incWaiting r old)) := by
  have ht := hpc ▸ hinv.thread t
  have hheld := hpc ▸ hinv.held t
  have hwaiting : (s.pc t).waiting = none := hpc ▸ rfl
  obtain ⟨howns, hcount⟩ := ht.owned rfl
  refine keeps_one fun hbounded => hinv.perform ⟨o, howns⟩ ⟨fun _ _ => trivial, ?_, ?_, never, ht.saved, never, never,
    never, never⟩
    (hheld.congr rfl rfl rfl rfl rfl) (hinv.blocked.stay (hpc ▸ rfl)) (hinv.waiting.enter hwaiting) never .inl
    (hpc ▸ never) hinv.bounded
  · rintro _ (⟨⟨⟩⟩ | ⟨⟨⟩⟩)
    exact ht.refers rfl
  · rintro _ _ _ ⟨⟩
    exact ⟨howns, hcount⟩

theorem Inv.wait_decWaiting (hpc : s.pc t = .wait o (.decWaiting r old)) :
    Keeps s t (vmObjectDoWait s t o (.decWaiting r old)) := by
  have ht := hpc ▸ hinv.thread t
  have hheld := hpc ▸ hinv.held t
  have hwaiting : (s.pc t).waiting = some r := hpc ▸ rfl
  obtain ⟨howns, hcount⟩ := ht.owned rfl
  refine keeps_one fun hbounded => hinv.perform ⟨o, howns⟩ ⟨trivial, ?_, ?_, never, ht.saved, never, never, never,
    never⟩
    (hheld.congr rfl rfl rfl rfl rfl) (hinv.blocked.stay (hpc ▸ rfl)) (hinv.waiting.leave hwaiting) never .inl
    (hpc ▸ never) hinv.bounded
  · rintro _ ⟨⟩
    exact ht.refers rfl
  · rintro _ _ _ ⟨⟩
    exact ⟨howns, hcount⟩

theorem Inv.wait_restoreCount (hpc : s.pc t = .wait o (.restoreCount r old)) :
    Keeps s t (vmObjectDoWait s t o (.restoreCount r old)) := by
  have ht := hpc ▸ hinv.thread t
  have hheld := hpc ▸ hinv.held t
  obtain ⟨howns, -⟩ := ht.owned rfl
  obtain ⟨-, hold, hpos⟩ := ht.saved rfl
  refine keeps_one fun hbounded => hinv.perform ⟨o, howns⟩ PcInv.idle ?_ (hinv.blocked.stay (hpc ▸ rfl))
    (hinv.waiting.stay (hpc ▸ rfl)) never
    .inl (hpc ▸ never) hinv.bounded
  refine hheld.setCount hinv.recs howns (fun o' ho' hw => ?_) (fun _ _ => rfl) fun _ => ⟨hpos, hold⟩
  obtain ⟨_, _, ⟨⟩⟩ := hw
  exact (ho' rfl).elim

/-- **The steps of `vm_object_do_wait`** keep the invariant. -/
theorem Inv.wait {p : WaitPc} (hpc : s.pc t = .wait o p) : Keeps s t (vmObjectDoWait s t o p) := by
  have ht := hpc ▸ hinv.thread t
  cases p with
  | readRecord =>
    rw [vmObjectDoWait]
    cases hrec : s.monitorRecord o with
    | none =>
      exact hinv.wait_silent hpc PcInv.idle rfl rfl rfl never
    | some r =>
      refine hinv.wait_silent hpc ⟨trivial, ?_, never, never, never, ?_, never, never, never⟩ rfl rfl rfl never
      · rintro _ ⟨⟩
        exact hinv.recs.allocated hrec
      · rintro _ _ ⟨⟩ _
        exact hrec
  | checkOwner r =>
    rw [vmObjectDoWait]
    split_ifs with howner
    · refine hinv.wait_silent hpc (ht.next trivial .inl ?_ never never never never rfl rfl) rfl rfl rfl never
      rintro _ _ _ ⟨⟩
      exact .inr ⟨⟨ht.read rfl howner, howner⟩, fun _ => never⟩
    · exact hinv.wait_silent hpc PcInv.idle rfl rfl rfl never
  | readCount r =>
    refine hinv.wait_silent hpc (ht.next trivial .inl ?_ never never never never rfl rfl) rfl rfl rfl never
    rintro _ _ _ ⟨⟩
    refine .inr ⟨(ht.owned rfl).1, ?_⟩
    rintro _ ⟨⟩
    rfl
  | resetCount r old => exact hinv.wait_resetCount hpc
  | incWaiting r old => exact hinv.wait_incWaiting hpc
  | condWait r old =>
    refine hinv.wait_silent hpc ⟨fun _ _ => trivial, ?_, never, never, ht.saved, never, never, never, ?_⟩ rfl rfl rfl
      never
    · rintro _ (⟨⟨⟩⟩ | ⟨⟨⟩⟩)
      exact ht.refers rfl
    · rintro _ ⟨⟩
      exact ht.released rfl
  | decWaiting r old => exact hinv.wait_decWaiting hpc
  | checkRecord r old =>
    rw [vmObjectDoWait, if_pos (ht.owned rfl).1.1]
    exact hinv.wait_silent hpc (ht.next trivial .inl .inl never never never never rfl rfl) rfl rfl rfl never
  | restoreCount r old => exact hinv.wait_restoreCount hpc

end Wait

/-! ## Runs -/

section Runs

variable {Thread Obj : Type} [DecidableEq Thread] [DecidableEq Obj] {s s' : State Thread Obj} {t : Thread} {o : Obj}

theorem Inv.call (hinv : Inv s) {p : Pc Obj} (hpc : s.pc t = .idle) (hp : Calls o p) :
    Inv (s.perform t ⟨.nop, .none, p⟩) := by
  have hpc' : PcInv s t p := by
    cases hp with
    | lock | unlock =>
      exact ⟨fun _ => never, by rintro _ (⟨⟨⟩⟩ | ⟨⟨⟩⟩), never, never, never, never, never, never, never⟩
    | wait => exact ⟨trivial, never, never, never, never, never, never, never, never⟩
  refine hinv.silent trivial rfl hpc' ?_ ?_ ?_ (fun {o' r} hc => ?_) (hpc ▸ never)
  · rw [hpc]
    cases hp <;> rfl
  · rw [hpc]
    cases hp <;> rfl
  · rw [hpc]
    cases hp <;> rfl
  · cases hp <;> cases hc

/-- **Every step** keeps the invariant, as long as the locks can be counted. -/
theorem Inv.step (hinv : Inv s) (hstep : Step s t s') (hbounded : ∀ t' o, s'.held t' o ≤ intMax) : Inv s' := by
  cases hstep with
  | call hpc hp => exact hinv.call hpc hp
  | lock hpc hout => exact hinv.lock hpc _ hout hbounded
  | unlock hpc hout => exact hinv.unlock hpc _ hout hbounded
  | wait hpc hout => exact hinv.wait hpc _ hout hbounded

omit [DecidableEq Thread] [DecidableEq Obj] in
theorem inv_initial : Inv (initial : State Thread Obj) where
  recs := ⟨nofun, nofun, nofun, fun _ => rfl, nofun, nofun, fun _ => .nil⟩
  blocked := Tally.zero
  waiting := Tally.zero
  checked := never
  thread _ := PcInv.idle
  held _ _ _ := ⟨iff_of_false (Nat.lt_irrefl 0) fun ⟨_, h⟩ => (nomatch h.1), fun _ h => nomatch h.1⟩
  bounded _ _ := Nat.zero_le _

/-- The states of the runs in which no thread ever has more than `INT_MAX` locks on one object. -/
def BoundedRun (s : State Thread Obj) : Prop :=
  Relation.ReflTransGen (fun s s' => (∃ t, Step s t s') ∧ ∀ t o, s'.held t o ≤ intMax) initial s

theorem inv_of_boundedRun (h : BoundedRun s) : Inv s := by
  induction h with
  | refl => exact inv_initial
  | tail _ hstep ih =>
    obtain ⟨⟨t, hstep⟩, hbounded⟩ := hstep
    exact ih.step hstep hbounded

omit [DecidableEq Thread] [DecidableEq Obj] in
theorem Inv.correct (hinv : Inv s) : Correct s where
  owner_iff t o hw := (hinv.held t o hw).1
  count t o r hw := (hinv.held t o hw).2 r
  exclusive t t' o hw hw' hpos hpos' := by
    obtain ⟨r, hrec, howner⟩ := (hinv.held t o hw).1.mp hpos
    obtain ⟨r', hrec', howner'⟩ := (hinv.held t' o hw').1.mp hpos'
    cases hrec.symm.trans hrec'
    exact Option.some.inj (howner.symm.trans howner')
  saved t o r old hs := by
    obtain ⟨hrec, hold, -⟩ := (hinv.thread t).saved hs
    exact ⟨hrec, hold⟩
  no_failure t hpc := by
    have hpossible := (hinv.thread t).possible
    rw [hpc] at hpossible
    exact hpossible

/-- **Monitors are correct** in every state of every run in which no thread has more locks on an object than the lock
count can hold. -/
theorem correct_of_boundedRun (s : State Thread Obj) (h : BoundedRun s) : Correct s :=
  (inv_of_boundedRun h).correct

theorem BoundedRun.step (h : BoundedRun s) (hstep : Step s t s')
    (hbounded : ∀ t o, s'.held t o ≤ intMax) : BoundedRun s' :=
  Relation.ReflTransGen.tail h ⟨⟨t, hstep⟩, hbounded⟩

/-- A step on which no lock or unlock completes. -/
theorem BoundedRun.silent (h : BoundedRun s) (hstep : Step s t s') (he : s'.held = s.held) : BoundedRun s' :=
  h.step hstep (he ▸ (inv_of_boundedRun h).bounded)

/-- The thread is at another point, and nothing else has changed. -/
def State.jump (s : State Thread Obj) (t : Thread) (p : Pc Obj) : State Thread Obj := { s with pc := update s.pc t p }

theorem BoundedRun.jump {p : Pc Obj} (h : BoundedRun s) (hstep : Step s t (s.perform t ⟨.nop, .none, p⟩)) :
    BoundedRun (s.jump t p) :=
  h.silent hstep rfl

/-- A thread that finds the object locked by another one is counted in `nr_blocked`. -/
theorem exists_blocked {o : Obj} {r : Rec} (h : BoundedRun s) (hpc : s.pc t = .idle) (hrec : s.monitorRecord o = some r)
    (howner : s.owner r ≠ some t) : ∃ s', BoundedRun s' ∧ s'.nrBlocked r = s.nrBlocked r + 1 ∧
      s'.monitorRecord = s.monitorRecord ∧ s'.owner = s.owner ∧ s'.nrWaiting = s.nrWaiting ∧
      ∀ u, u ≠ t → s'.pc u = s.pc u := by
  have h := h.jump (.call hpc (.lock (o := o)))
  have h := h.jump (p := .lock o .program (.checkOwner r)) (.lock (update_self ..) (by simp [vmObjectLock, State.jump, hrec]))
  have h := h.jump (p := .lock o .program (.incBlocked r))
    (.lock (update_self ..) (by simp [vmObjectLock, State.jump, howner]))
  have h := h.silent (.lock (update_self ..) (.head _)) rfl
  exact ⟨_, h, update_self .., rfl, rfl, rfl, fun u hu => by simp [State.perform, State.jump, hu]⟩

theorem exists_incWaiting {o : Obj} {r : Rec} {old : Int} (h : BoundedRun s)
    (hpc : s.pc t = .wait o (.resetCount r old)) : ∃ s' : State Thread Obj, BoundedRun s' ∧
      s'.nrWaiting r = s.nrWaiting r + 1 ∧ s'.nrBlocked = s.nrBlocked ∧ s'.monitorRecord = s.monitorRecord := by
  have h := h.silent (.wait hpc (.head _)) rfl
  have h := h.silent (.wait (update_self ..) (.head _)) rfl
  exact ⟨_, h, update_self .., rfl, rfl⟩

/-- The owner of the monitor of an object that waits on it is counted in `nr_waiting`. -/
theorem exists_waiting {o : Obj} {r : Rec} (h : BoundedRun s) (hpc : s.pc t = .idle) (hrec : s.monitorRecord o = some r)
    (howner : s.owner r = some t) : ∃ s' : State Thread Obj, BoundedRun s' ∧ s'.nrWaiting r = s.nrWaiting r + 1 ∧
      s'.nrBlocked = s.nrBlocked ∧ s'.monitorRecord = s.monitorRecord := by
  have h := h.jump (.call hpc (.wait (o := o)))
  have h := h.jump (p := .wait o (.checkOwner r)) (.wait (update_self ..) (by simp [vmObjectDoWait, State.jump, hrec]))
  have h := h.jump (p := .wait o (.readCount r)) (.wait (update_self ..) (by simp [vmObjectDoWait, State.jump, howner]))
  have h := h.jump (p := .wait o (.resetCount r (s.lockCount r)))
    (.wait (update_self ..) (by simp [vmObjectDoWait, State.jump]))
  obtain ⟨s', h', hw, hb, hrec'⟩ := exists_incWaiting h (update_self ..)
  exact ⟨s', h', hw, hb, hrec'⟩

/-- Thread `0` locks the object `0`. -/
theorem exists_firstLock : ∃ s : State Nat Nat, BoundedRun s ∧ s.held 0 0 = 1 ∧ s.monitorRecord 0 = some 0 ∧
    s.owner 0 = some 0 ∧ s.nrBlocked 0 = 0 ∧ s.nrWaiting 0 = 0 ∧ ∀ t, s.pc t = .idle := by
  have h : BoundedRun (initial : State Nat Nat) := .refl
  have h := h.step (.call (t := 0) rfl (.lock (o := 0))) fun _ _ => Nat.zero_le _
  have h := h.step (.lock (update_self ..) (.head _)) fun _ _ => Nat.zero_le _
  have h := h.step (.lock (update_self ..) (.head _)) fun _ _ => Nat.zero_le _
  have h := h.step (.lock (update_self ..) (.head _)) fun t o => by
    by_cases ht : t = 0 <;> by_cases ho : o = 0 <;>
      simp [State.perform, Caller.event, Event.count, initial, Effect.apply, ht, ho, intMax]
  refine ⟨_, h, rfl, rfl, rfl, rfl, rfl, fun t => ?_⟩
  by_cases ht : t = 0 <;> simp [State.perform, initial, Caller.afterLock, ht]

theorem correct_of_boundedRun_firstLock : ∃ s : State Nat Nat, BoundedRun s ∧ s.held 0 0 = 1 ∧ Correct s := by
  obtain ⟨s, h, hheld, -⟩ := exists_firstLock
  exact ⟨s, h, hheld, correct_of_boundedRun s h⟩

/-- **Records stay apart.** No record is attached to two objects, and one in the pool of a thread is there once, in no
other pool and attached to no object. -/
theorem records_apart (h : BoundedRun s) :
    (∀ o o' r, s.monitorRecord o = some r → s.monitorRecord o' = some r → o = o') ∧
    ∀ t, (s.pool t).Nodup ∧ ∀ r ∈ s.pool t, (∀ u, r ∈ s.pool u → u = t) ∧ ∀ o, s.monitorRecord o ≠ some r := by
  have hinv := (inv_of_boundedRun h).recs
  refine ⟨fun _ _ _ => hinv.injective, fun t => ⟨hinv.nodup t, fun r hr => ⟨fun u hu => ?_, (hinv.pool hr).loose⟩⟩⟩
  exact Option.some.inj ((hinv.pool hu).owner.symm.trans (hinv.pool hr).owner)

/-- **The counters are exact**, so that no thread waits on a record that is about to be detached. -/
theorem counters_exact (h : BoundedRun s) : Tally (fun t => (s.pc t).blocked) s.nrBlocked ∧
    Tally (fun t => (s.pc t).waiting) s.nrWaiting ∧
    ∀ t r, (s.pc t).noWaiters = some r → ∀ u, (s.pc u).waiting ≠ some r := by
  have hinv := inv_of_boundedRun h
  refine ⟨hinv.blocked, hinv.waiting, fun t r ht u hu => ?_⟩
  exact absurd (hinv.waiting.pos hu) (by rw [(hinv.thread t).noWaiters ht]; decide)

/-- Then thread `1` is blocked on the object, and thread `0` waits on it. -/
theorem exists_contended : ∃ s : State Nat Nat, BoundedRun s ∧ s.monitorRecord 0 = some 0 ∧ s.nrBlocked 0 = 1 ∧
    s.nrWaiting 0 = 1 := by
  obtain ⟨s, h, -, hrec, howner, hb, hw, hidle⟩ := exists_firstLock
  obtain ⟨s₁, h₁, hb₁, hrec₁, howner₁, hw₁, hpc₁⟩ := exists_blocked (t := 1) h (hidle 1) hrec (by simp [howner])
  have hpc : s₁.pc 0 = .idle := (hpc₁ 0 (by decide)).trans (hidle 0)
  obtain ⟨s₂, h₂, hw₂, hb₂, hrec₂⟩ := exists_waiting h₁ hpc (hrec₁ ▸ hrec) (howner₁ ▸ howner)
  refine ⟨s₂, h₂, ?_, ?_, ?_⟩
  · rw [hrec₂, hrec₁, hrec]
  · rw [hb₂, hb₁, hb]
  · rw [hw₂, hw₁, hw]

theorem records_apart_contended : ∃ s : State Nat Nat, s.monitorRecord 0 = some 0 ∧ s.nrBlocked 0 = 1 ∧
    ∀ t, 0 ∉ s.pool t := by
  obtain ⟨s, h, hrec, hblocked, -⟩ := exists_contended
  exact ⟨s, hrec, hblocked, fun t ht => (((records_apart h).2 t).2 0 ht).2 0 hrec⟩

theorem counters_exact_contended : ∃ s : State Nat Nat, s.nrBlocked 0 = 1 ∧ s.nrWaiting 0 = 1 ∧
    Tally (fun t => (s.pc t).blocked) s.nrBlocked ∧ Tally (fun t => (s.pc t).waiting) s.nrWaiting := by
  obtain ⟨s, h, -, hblocked, hwaiting⟩ := exists_contended
  exact ⟨s, hblocked, hwaiting, (counters_exact h).1, (counters_exact h).2.1⟩

/-! ## A lock count that overflows -/

/-- The thread is at the point `p` and has `n` locks on the object, with nothing but the lock count to tell. -/
structure Nested (s : State Thread Obj) (t : Thread) (o : Obj) (n : Nat) (p : Pc Obj) : Prop where
  pc : s.pc t = p
  owns : Owns s t o 0
  count : s.lockCount 0 = wrapInt n
  held : s.held t o = n

theorem Reachable.step (h : Reachable s) (hstep : Step s t s') : Reachable s' :=
  Relation.ReflTransGen.tail h ⟨t, hstep⟩

theorem wrapInt_wrapInt_add_one (x : Int) : wrapInt (wrapInt x + 1) = wrapInt (x + 1) :=
  Int.bmod_add_bmod

theorem exists_nested_one (t : Thread) (o : Obj) : ∃ s, Reachable s ∧ Nested s t o 1 .idle := by
  have h : Reachable (initial : State Thread Obj) := .refl
  have h := h.step (.call (t := t) rfl (.lock (o := o)))
  have h := h.step (.lock (update_self ..) (.head _))
  have h := h.step (.lock (update_self ..) (.head _))
  obtain ⟨s, hs, hpc, hrec, howner, hcount, hheld⟩ : ∃ s : State Thread Obj, Reachable s ∧
      s.pc t = .lock o .program (.attach 0) ∧ s.monitorRecord o = none ∧ s.owner 0 = some t ∧ s.lockCount 0 = 1 ∧
      s.held t o = 0 := by
    exact ⟨_, h, update_self .., rfl, rfl, rfl, rfl⟩
  have hout : ⟨.attach o 0, .locked o, .idle⟩ ∈ vmObjectLock s t o .program (.attach 0) := by
    simp only [vmObjectLock, hrec, Caller.event, Caller.afterLock, List.mem_singleton]
  refine ⟨_, hs.step (.lock hpc hout), update_self .., ⟨update_self .., howner⟩, hcount, ?_⟩
  exact Event.count_locked_self.trans (congrArg (· + 1) hheld)

theorem Nested.silent {p : Pc Obj} (hn : Nested s t o n p) (p' : Pc Obj) :
    Nested (s.perform t ⟨.nop, .none, p'⟩) t o n p' :=
  ⟨update_self .., hn.owns, hn.count, hn.held⟩

theorem Nested.lock_silent {p : LockPc} (hn : Nested s t o n (.lock o .program p))
    (h : Reachable s) (p' : LockPc) (hout : ⟨.nop, .none, .lock o .program p'⟩ ∈ vmObjectLock s t o .program p) :
    ∃ s', Reachable s' ∧ Nested s' t o n (.lock o .program p') :=
  ⟨_, h.step (.lock hn.pc hout), hn.silent _⟩

/-- Every further lock by the owner writes the lock count and nothing else. -/
theorem Nested.lock (hn : Nested s t o n .idle) (h : Reachable s) :
    ∃ s', Reachable s' ∧ Nested s' t o (n + 1) .idle := by
  have hcall := h.step (.call hn.pc (.lock (o := o)))
  have hn₀ := hn.silent (.lock o .program .readRecord)
  obtain ⟨s₁, h₁, hn₁⟩ := hn₀.lock_silent hcall (.checkOwner 0) (by
    simp only [vmObjectLock, hn₀.owns.1, List.mem_singleton])
  obtain ⟨s₂, h₂, hn₂⟩ := hn₁.lock_silent h₁ (.readCount 0) (by
    simp only [vmObjectLock, hn₁.owns.2, if_true, List.mem_singleton])
  obtain ⟨s₃, h₃, hn₃⟩ := hn₂.lock_silent h₂ (.writeCount 0 (wrapInt n)) (by
    simp only [vmObjectLock, hn₂.count, List.mem_singleton])
  refine ⟨_, h₃.step (.lock hn₃.pc (.head _)), update_self .., hn₃.owns, ?_, ?_⟩
  · simp only [State.perform, Effect.apply, update_self]
    exact wrapInt_wrapInt_add_one n
  · exact Event.count_locked_self.trans (congrArg (· + 1) hn₃.held)

theorem exists_nested (t : Thread) (o : Obj) (n : Nat) : ∃ s, Reachable s ∧ Nested s t o (n + 1) .idle := by
  induction n with
  | zero => exact exists_nested_one t o
  | succ n ih =>
    obtain ⟨s, h, hn⟩ := ih
    exact hn.lock h

/-- One thread that locks an object 2³¹ times without unlocking it makes the lock count negative. -/
theorem lockCount_overflow : ∃ s : State Nat Nat, Reachable s ∧ s.held 0 0 = 2 ^ 31 ∧
    (∃ r, Owns s 0 0 r ∧ s.lockCount r = -2 ^ 31) ∧ ¬ Correct s := by
  obtain ⟨s, h, hn⟩ := exists_nested (0 : Nat) (0 : Nat) (2 ^ 31 - 1)
  have hcount : s.lockCount 0 = -2 ^ 31 := hn.count.trans (by decide)
  refine ⟨s, h, hn.held, ⟨0, hn.owns, hcount⟩, fun hc => ?_⟩
  have hidle : ¬ (s.pc 0).WaitsOn 0 := by
    rw [hn.pc]
    exact fun ⟨_, _, hs⟩ => nomatch hs
  have hheld := hc.count 0 0 0 hidle hn.owns
  rw [hcount, hn.held] at hheld
  omega

end Runs

end Jato.Vm.Monitor
