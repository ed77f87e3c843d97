import Jato.Vm.ClassInit

/-!
# The invariant of class initialisation

At most one activation has the lock of a class, its thread is the one that the lock names, and the activations below the
top of a stack wait for a call. `Inv.act` and `Inv.call` say that every step keeps this, and
`inv_of_run` that it holds in every run.
-/

namespace Jato.Vm.ClassInit

open List Function

variable {Thread Class : Type} [DecidableEq Class]

/-! ## The invariant -/

/-- The number of activations that have the lock of a class. -/
def held (l : List (Frame Class)) (c : Class) : Nat := l.countP fun f => f.1 = c ∧ f.2.holds

/-- No static initialiser of the class from the index on has been started. -/
def Unstarted (tr : List (Event Class)) (c : Class) (k : Nat) : Prop := ∀ i, k ≤ i → tr.count (.clinit c i) = 0

section

variable (h : Hierarchy Class) (s : State Thread Class) (tr : List (Event Class))

/-- The superclass is initialised, or an activation in the same stack is initialising it. -/
def SuperReady (c : Class) (below : List (Frame Class)) : Prop :=
  ∀ super, h.superclass c = some super → s.status super = .compiledOk ∨ super = c ∨ 0 < held below super

/-- What holds at the points of an activation above the others of its thread. -/
def FrameInv (t : Thread) (c : Class) (below : List (Frame Class)) : Pc → Prop
  | .readStatus | .cmpxchg => True
  | .incWaiting | .loopStatus => s.status c ≠ .initial
  | .checkEe => s.status c ≠ .initial ∧ (s.compilingEe c = some t → 0 < held below c)
  | .semWait => s.status c ≠ .initial ∧ held below c = 0
  | .decReenter => 0 < held below c
  | .decFinal | .finalStatus => ∃ ok, s.status c = .final ok
  | .setEe => s.compilingEe c = none ∧ s.state c = .linked ∧ Unstarted tr c 0
  | .checkState => s.state c = .linked ∧ Unstarted tr c 0
  | .fault | .ensureSuper | .inSuper => Unstarted tr c 0
  | .nextClinit i => Unstarted tr c i ∧ SuperReady h s c below
  | .runClinit i => Unstarted tr c (i + 1) ∧ SuperReady h s c below
  | .setInitialized | .leave _ => True
  | .readWaiting ok | .post ok _ => s.status c = .final ok
  | .setErroneous => s.status c = .final false
  | .failed => False
  | .alloc x | .inAlloc x | .message x | .inMessage x | .construct x | .died x =>
    x ≠ .runtime → s.status c = .final false

/-- The activation that is called for a class lies above one that waits for it. -/
def Called (c : Class) : List (Frame Class) → Prop
  | [] => True
  | (c', .inSuper) :: _ => h.superclass c' = some c
  | (_, .inAlloc x) :: _ => h.exception x = c
  | (_, .inMessage _) :: _ => h.string = c
  | (_, .runClinit _) :: _ => True
  | (_, .construct _) :: _ => True
  | _ => False

def Good (t : Thread) : List (Frame Class) → Prop
  | [] => True
  | (c, pc) :: below => FrameInv h s tr t c below pc ∧ Called h c below ∧ Good t below

/-- Nobody has the lock of the class. -/
structure Free (c : Class) : Prop where
  held_eq : ∀ t, held (s.stack t) c = 0
  status : (s.status c = .initial ∧ s.compilingEe c = none ∧ s.state c = .linked ∧ Unstarted tr c 0) ∨
    ∃ ok, s.status c = .final ok

/-- The thread has the lock of the class. -/
structure Owned (t : Thread) (c : Class) : Prop where
  held_self : held (s.stack t) c = 1
  held_other : ∀ u, u ≠ t → held (s.stack u) c = 0
  status : s.status c = .compiling
  ee : s.compilingEe c = some t ∨ s.compilingEe c = none ∧ (c, .setEe) ∈ s.stack t

structure Inv : Prop where
  good : ∀ t, Good h s tr t (s.stack t)
  owner : ∀ c, Free s tr c ∨ ∃ t, Owned s t c
  once : ∀ c i, tr.count (.clinit c i) ≤ 1

end

/-! ## Activations with the lock -/

section

variable {s : State Thread Class} {t : Thread} {c c' : Class} {pc : Pc} {l : List (Frame Class)}

theorem held_cons : held ((c', pc) :: l) c = held l c + if c' = c ∧ pc.holds then 1 else 0 := by
  rw [held, countP_cons, held]
  simp

theorem held_cons_of_ne (hne : c' ≠ c) : held ((c', pc) :: l) c = held l c := by
  rw [held_cons, if_neg fun h => hne h.1, Nat.add_zero]

theorem held_cons_self (hpc : pc.holds) : held ((c, pc) :: l) c = held l c + 1 := by
  rw [held_cons, if_pos ⟨rfl, hpc⟩]

theorem held_cons_of_not (hpc : ¬ pc.holds) : held ((c', pc) :: l) c = held l c := by
  rw [held_cons, if_neg fun h => hpc h.2, Nat.add_zero]

theorem initialising_iff : Initialising s t c ↔ 0 < held (s.stack t) c := by
  rw [held, countP_pos_iff]
  constructor
  · rintro ⟨pc, hmem, hpc⟩
    exact ⟨(c, pc), hmem, decide_eq_true ⟨rfl, hpc⟩⟩
  · rintro ⟨⟨c', pc⟩, hmem, hpc⟩
    obtain ⟨rfl, hholds⟩ := of_decide_eq_true hpc
    exact ⟨pc, hmem, hholds⟩

/-- The activation waits for a call to return. -/
def Suspended (pc : Pc) : Prop := pc = .inSuper ∨ (∃ x, pc = .inAlloc x ∨ pc = .inMessage x) ∨ pc.RunsJava

/-- At these points an activation has not just been called, and looks at nothing that changes. -/
theorem Suspended.ne (hpc : Suspended pc) : pc ≠ .setEe ∧ pc ≠ .checkEe ∧ pc ≠ .failed := by
  rcases hpc with rfl | ⟨x, rfl | rfl⟩ | ⟨i, rfl⟩ | ⟨x, rfl⟩ <;> exact ⟨nofun, nofun, nofun⟩

variable {h : Hierarchy Class} {tr : List (Event Class)} {f : Frame Class}

omit [DecidableEq Class] in
theorem suspended_of_called (hcalled : Called h c (f :: l)) : Suspended f.2 := by
  obtain ⟨c', pc⟩ := f
  cases pc with
  | inSuper => exact .inl rfl
  | inAlloc x => exact .inr (.inl ⟨x, .inl rfl⟩)
  | inMessage x => exact .inr (.inl ⟨x, .inr rfl⟩)
  | runClinit i => exact .inr (.inr (.inl ⟨i, rfl⟩))
  | construct x => exact .inr (.inr (.inr ⟨x, rfl⟩))
  | _ => exact hcalled.elim

theorem Good.suspended (hgood : Good h s tr t (f :: l)) : ∀ f' ∈ l, Suspended f'.2 := by
  induction l generalizing f with
  | nil => exact fun _ h => absurd h not_mem_nil
  | cons f' l ih =>
    obtain ⟨-, hcalled, hrest⟩ := hgood
    intro f'' hf''
    rcases mem_cons.mp hf'' with rfl | hf''
    · exact suspended_of_called hcalled
    · exact ih hrest f'' hf''

theorem Good.setEe_top (hgood : Good h s tr t ((c, pc) :: l)) (hmem : (c', .setEe) ∈ (c, pc) :: l) :
    c' = c ∧ pc = .setEe := by
  rcases mem_cons.mp hmem with heq | hmem
  · cases heq
    exact ⟨rfl, rfl⟩
  · exact absurd rfl (hgood.suspended _ hmem).ne.1

omit [DecidableEq Class] in
/-- The creation of an exception has the lock if it is a `RuntimeException`. -/
theorem Raise.holds_eq (h : Hierarchy Class) (x : Raise) : (x.start h).holds = decide (x = .runtime) ∧
    (x.allocated h).holds = decide (x = .runtime) ∧ (x.described h).holds = decide (x = .runtime) ∧
    x.lost.holds = decide (x = .runtime) := by
  cases x <;> cases hm : h.causeConstructor <;>
    simp [Raise.start, Raise.allocated, Raise.described, Raise.lost, messageFirst, hm, Pc.holds]

omit [DecidableEq Class] in
theorem Raise.start_ne (h : Hierarchy Class) (x : Raise) (i : Nat) : x.start h ≠ .runClinit i := by
  unfold Raise.start
  split_ifs <;> exact nofun

/-- It relies on the status of the class if it is another exception. -/
theorem Raise.frameInv (x : Raise) (hst : x ≠ .runtime → s.status c = .final false) :
    FrameInv h s tr t c l (x.start h) ∧ FrameInv h s tr t c l (x.allocated h) ∧ FrameInv h s tr t c l (x.described h) ∧
      FrameInv h s tr t c l x.lost := by
  refine ⟨?_, ?_, ?_, ?_⟩
  · unfold Raise.start
    split_ifs <;> exact hst
  · unfold Raise.allocated
    split_ifs <;> exact hst
  · unfold Raise.described
    split_ifs <;> exact hst
  · cases x with
    | inInitializer => exact hst nofun
    | noClassDefFound | runtime => exact hst

theorem held_returnTo (ok : Bool) : held (returnTo h ok l) c = held l c := by
  unfold returnTo
  split
  · rw [held_cons, held_cons]
    cases ok <;> rfl
  · rename_i x rest
    obtain ⟨-, hallocated, -, hlost⟩ := x.holds_eq h
    have hholds : (if ok then x.allocated h else x.lost).holds = (Pc.inAlloc x).holds := by
      cases ok
      · exact hlost
      · exact hallocated
    rw [held_cons, held_cons, hholds]
  · rename_i x rest
    obtain ⟨-, -, hdescribed, hlost⟩ := x.holds_eq h
    have hholds : (if ok then x.described h else x.lost).holds = (Pc.inMessage x).holds := by
      cases ok
      · exact hlost
      · exact hdescribed
    rw [held_cons, held_cons, hholds]
  · rfl

end

/-! ## What a step may change -/

/-- The fields that the activations with the lock rely on have not changed for the class. -/
def Same (s s' : State Thread Class) (tr tr' : List (Event Class)) (c : Class) : Prop :=
  s'.compilingEe c = s.compilingEe c ∧ s'.state c = s.state c ∧
    ∀ i, tr'.count (.clinit c i) = tr.count (.clinit c i)

/-- A thread changes the shared memory of one class. -/
structure Changes (s s' : State Thread Class) (tr tr' : List (Event Class)) (t : Thread) (c : Class) : Prop where
  other : ∀ c', c' ≠ c → s'.status c' = s.status c' ∧ Same s s' tr tr' c'
  notInitial : s.status c ≠ .initial → s'.status c ≠ .initial
  final : ∀ ok, s.status c = .final ok → s'.status c = .final ok
  ee : s'.compilingEe c = s.compilingEe c ∨ s'.compilingEe c = some t

variable {l : List (Frame Class)} {ok : Bool} {c' : Class}

section

variable {h : Hierarchy Class} {s s' : State Thread Class} {tr tr' : List (Event Class)} {t u : Thread} {c c' : Class}

variable {below : List (Frame Class)}

namespace Changes

variable (hch : Changes s s' tr tr' t c)

include hch

theorem status_ne (hst : s.status c' ≠ .initial) : s'.status c' ≠ .initial := by
  by_cases hc : c' = c
  · subst hc
    exact hch.notInitial hst
  · rwa [(hch.other c' hc).1]

theorem status_final (ok : Bool) (hst : s.status c' = .final ok) : s'.status c' = .final ok := by
  by_cases hc : c' = c
  · subst hc
    exact hch.final ok hst
  · rwa [(hch.other c' hc).1]

theorem superReady (hready : SuperReady h s c' below) : SuperReady h s' c' below :=
  fun super hsuper => (hready super hsuper).imp_left (hch.status_final true)

theorem same (hc : c' = c → Same s s' tr tr' c) : Same s s' tr tr' c' := by
  by_cases hc' : c' = c
  · exact hc' ▸ hc hc'
  · exact (hch.other c' hc').2

/-- A thread finds itself named by the lock only if it was so before. -/
theorem ee_of_ne (hne : u ≠ t) (hee : s'.compilingEe c' = some u) : s.compilingEe c' = some u := by
  by_cases hc : c' = c
  · subst hc
    rcases hch.ee with heq | heq
    · rwa [← heq]
    · exact absurd (Option.some.inj (heq.symm.trans hee)).symm hne
  · rwa [← (hch.other c' hc).2.1]

end Changes

theorem Unstarted.same {k : Nat} (hun : Unstarted tr c k) (hsame : Same s s' tr tr' c) : Unstarted tr' c k :=
  fun i hi => (hsame.2.2 i).trans (hun i hi)

/-- An activation keeps its invariant if nobody changes what it relies on. -/
theorem FrameInv.mono {pc : Pc} (hinv : FrameInv h s tr u c' below pc)
    (hch : Changes s s' tr tr' t c) (hee : pc = .checkEe → s'.compilingEe c' = some u → s.compilingEe c' = some u)
    (hc : c' = c → pc.holds → Same s s' tr tr' c) : FrameInv h s' tr' u c' below pc := by
  have hsame (hpc : pc.holds) : Same s s' tr tr' c' := hch.same fun heq => hc heq hpc
  cases pc with
  | readStatus => trivial
  | cmpxchg => trivial
  | setInitialized => trivial
  | leave ok => trivial
  | incWaiting | loopStatus => exact hch.status_ne hinv
  | checkEe => exact ⟨hch.status_ne hinv.1, fun heq => hinv.2 (hee rfl heq)⟩
  | semWait => exact ⟨hch.status_ne hinv.1, hinv.2⟩
  | decReenter => exact hinv
  | decFinal | finalStatus => exact hinv.imp fun ok => hch.status_final ok
  | setEe =>
    obtain ⟨hee, hstate, hun⟩ := hinv
    exact ⟨(hsame rfl).1.trans hee, (hsame rfl).2.1.trans hstate, hun.same (hsame rfl)⟩
  | checkState => exact ⟨(hsame rfl).2.1.trans hinv.1, hinv.2.same (hsame rfl)⟩
  | fault | ensureSuper | inSuper => exact Unstarted.same hinv (hsame rfl)
  | nextClinit i | runClinit i => exact ⟨hinv.1.same (hsame rfl), hch.superReady hinv.2⟩
  | readWaiting ok | post ok n => exact hch.status_final ok hinv
  | setErroneous => exact hch.status_final false hinv
  | failed => exact hinv
  | alloc x | inAlloc x | message x | inMessage x | construct x | died x =>
    exact fun hx => hch.status_final false (hinv hx)

theorem Good.mono (hgood : Good h s tr u l) (hch : Changes s s' tr tr' t c)
    (hu : u ≠ t ∨ ∀ f ∈ l, Suspended f.2) (hc : Same s s' tr tr' c ∨ held l c = 0) : Good h s' tr' u l := by
  induction l with
  | nil => trivial
  | cons f l ih =>
    obtain ⟨c', pc⟩ := f
    obtain ⟨hframe, hcalled, hrest⟩ := hgood
    refine ⟨hframe.mono hch (fun hpc hee => ?_) fun heq hpc => ?_, hcalled, ?_⟩
    · have hne : u ≠ t := hu.resolve_right fun hall => by
        exact (hall _ mem_cons_self).ne.2.1 hpc
      exact hch.ee_of_ne hne hee
    · refine hc.resolve_right fun hzero => ?_
      rw [heq, held_cons_self hpc] at hzero
      cases hzero
    · refine ih hrest (hu.imp_right fun hall f hf => hall f (mem_cons_of_mem _ hf)) (hc.imp_right fun hzero => ?_)
      rw [held_cons] at hzero
      exact Nat.eq_zero_of_add_eq_zero_right hzero

end

/-! ## Who has the lock -/

section

variable {h : Hierarchy Class} {s : State Thread Class} {tr : List (Event Class)} {t : Thread} {c : Class} {pc : Pc}
  {rest : List (Frame Class)}

section

variable (hinv : Inv h s tr)

include hinv

theorem Inv.owned_of_held (hheld : 0 < held (s.stack t) c) : Owned s t c := by
  rcases hinv.owner c with hfree | ⟨u, howned⟩
  · exact absurd (hfree.held_eq t) (by omega)
  · obtain rfl : t = u := by
      by_contra hne
      exact absurd (howned.held_other t hne) (by omega)
    exact howned

/-- The thread of an activation with the lock owns it, and no other activation of it has the lock. -/
theorem Inv.owned_of_holds (hstack : s.stack t = (c, pc) :: rest) (hpc : pc.holds) : Owned s t c ∧ held rest c = 0 := by
  have hheld : held (s.stack t) c = held rest c + 1 := by rw [hstack, held_cons_self hpc]
  have howned : Owned s t c := hinv.owned_of_held (by omega)
  exact ⟨howned, by have := howned.held_self; omega⟩

theorem Inv.held_of_final (hst : s.status c = .final ok) (u : Thread) : held (s.stack u) c = 0 := by
  rcases hinv.owner c with hfree | ⟨v, howned⟩
  · exact hfree.held_eq u
  · rw [howned.status] at hst
    cases ok <;> cases hst

theorem Inv.ee_of_owned (hstack : s.stack t = (c, pc) :: rest) (howned : Owned s t c')
    (hpc : pc ≠ .setEe) : s.compilingEe c' = some t := by
  refine howned.ee.resolve_right fun ⟨_, hmem⟩ => ?_
  rw [hstack] at hmem
  exact hpc ((hstack ▸ hinv.good t).setEe_top hmem).2

theorem Inv.held_of_ee (hst : s.status c = .compiling) (hee : s.compilingEe c = some t) : 0 < held (s.stack t) c := by
  rcases hinv.owner c with hfree | ⟨u, howned⟩
  · rcases hfree.status with ⟨hst', -⟩ | ⟨ok, hst'⟩
    · cases hst.symm.trans hst'
    · cases ok <;> cases hst.symm.trans hst'
  · rcases howned.ee with hee' | ⟨hee', -⟩
    · cases hee.symm.trans hee'
      rw [howned.held_self]
      exact Nat.one_pos
    · cases hee.symm.trans hee'

theorem Inv.final_of_ne (hst : s.status c ≠ .initial) (hne : s.status c ≠ .compiling) :
    ∃ ok, s.status c = .final ok := by
  rcases hinv.owner c with hfree | ⟨u, howned⟩
  · exact hfree.status.resolve_left fun h => hst h.1
  · exact absurd howned.status hne

end

/-- A call returns to an activation that goes on if the class of the call is initialised or its thread is doing so. -/
theorem good_returnTo (hgood : Good h s tr t rest) (hcalled : Called h c rest)
    (hok : ok = true → s.status c = .compiledOk ∨ 0 < held rest c) : Good h s tr t (returnTo h ok rest) := by
  unfold returnTo
  split
  · rename_i c' rest'
    obtain ⟨hun, hcalled', hrest⟩ := hgood
    refine ⟨?_, hcalled', hrest⟩
    cases ok with
    | false => trivial
    | true =>
      refine ⟨hun, fun super hsuper => ?_⟩
      obtain rfl : super = c := Option.some.inj (hsuper.symm.trans hcalled)
      refine (hok rfl).imp_right fun hheld => ?_
      by_cases hc : c' = super
      · exact .inl hc.symm
      · rw [held_cons_of_ne hc] at hheld
        exact .inr hheld
  · rename_i c' x rest'
    obtain ⟨hst, hcalled', hrest⟩ := hgood
    refine ⟨?_, hcalled', hrest⟩
    cases ok
    · exact (x.frameInv hst).2.2.2
    · exact (x.frameInv hst).2.1
  · rename_i c' x rest'
    obtain ⟨hst, hcalled', hrest⟩ := hgood
    refine ⟨?_, hcalled', hrest⟩
    cases ok
    · exact (x.frameInv hst).2.2.2
    · exact (x.frameInv hst).2.2.1
  · exact hgood

/-- A class keeps its owner if nothing of what the owner is about changes. -/
theorem owner_mono {s' : State Thread Class} {tr' : List (Event Class)} (howner : Free s tr c ∨ ∃ u, Owned s u c)
    (hheld : ∀ u, held (s'.stack u) c = held (s.stack u) c) (hstatus : s'.status c = s.status c)
    (hee : s'.compilingEe c = s.compilingEe c) (hfree : s.status c = .initial → Same s s' tr tr' c)
    (hmem : ∀ u, (c, .setEe) ∈ s.stack u → (c, .setEe) ∈ s'.stack u) : Free s' tr' c ∨ ∃ u, Owned s' u c := by
  rcases howner with hfree' | ⟨u, howned⟩
  · refine .inl ⟨fun u => (hheld u).trans (hfree'.held_eq u), ?_⟩
    rw [hstatus]
    refine hfree'.status.imp_left fun ⟨hst, hee', hstate, hun⟩ => ⟨hst, hee.trans hee', ?_, hun.same (hfree hst)⟩
    exact (hfree hst).2.1.trans hstate
  · refine .inr ⟨u, (hheld u).trans howned.held_self, fun v hv => (hheld v).trans (howned.held_other v hv),
      hstatus.trans howned.status, ?_⟩
    rw [hee]
    exact howned.ee.imp_right (And.imp_right (hmem u))

end

/-! ## Steps -/

section

variable [DecidableEq Thread] {h : Hierarchy Class} {s s' : State Thread Class} {tr tr' : List (Event Class)} {t : Thread}
  {c : Class} {pc : Pc} {rest : List (Frame Class)} {e : Effect} {move : Move Class}

/-- The state after a step of a thread. -/
def perform (h : Hierarchy Class) (s : State Thread Class) (t : Thread) (c : Class) (rest : List (Frame Class)) (e : Effect)
    (move : Move Class) : State Thread Class := (Effect.apply s t c e).setStack t (move.stack h c rest)

theorem perform_stack : (perform h s t c rest e move).stack = update s.stack t (move.stack h c rest) := by
  cases e <;> rfl

theorem stack_self : (perform h s t c rest e move).stack t = move.stack h c rest := by
  rw [perform_stack, update_self]

theorem stack_of_ne {u : Thread} (hu : u ≠ t) : (perform h s t c rest e move).stack u = s.stack u := by
  rw [perform_stack, update_of_ne hu]

theorem perform_status_self {st : Status} : (perform h s t c rest (.setStatus st) move).status c = st :=
  update_self _ _ _

theorem perform_ee_self : (perform h s t c rest .setEe move).compilingEe c = some t := update_self _ _ _

theorem count_event (ev : Event Class) (c : Class) (i : Nat) :
    (tr ++ [ev]).count (.clinit c i) = tr.count (.clinit c i) + if ev = .clinit c i then 1 else 0 := by
  rw [count_append, count_singleton]
  simp

omit [DecidableEq Class] in
theorem event_of_ne (hne : c' ≠ c) (i : Nat) : move.event c ≠ .clinit c' i := by
  unfold Move.event
  split <;> intro heq <;> cases heq
  exact hne rfl

/-- The effect does not touch what other activations rely on. -/
def Effect.Quiet : Effect → Prop
  | .setStatus _ | .setEe | .setState _ => False
  | _ => True

theorem Effect.Quiet.eq (hquiet : e.Quiet) : (perform h s t c rest e move).status = s.status ∧
    (perform h s t c rest e move).compilingEe = s.compilingEe ∧ (perform h s t c rest e move).state = s.state := by
  cases e <;> first | exact ⟨rfl, rfl, rfl⟩ | cases hquiet

theorem changes_perform (hstatus : ∀ st, e = .setStatus st → st ≠ .initial ∧ ∀ ok, s.status c ≠ .final ok) :
    Changes s (perform h s t c rest e move) tr (tr ++ [move.event c]) t c where
  other c' hne := by
    have hcount i : (tr ++ [move.event c]).count (.clinit c' i) = tr.count (.clinit c' i) := by
      rw [count_event, if_neg (event_of_ne hne i), Nat.add_zero]
    refine ⟨?_, ?_, ?_, hcount⟩ <;> cases e <;> first | rfl | exact update_of_ne hne _ _
  notInitial hst := by
    cases e with
    | setStatus st =>
      rw [perform_status_self]
      exact (hstatus st rfl).1
    | _ => exact hst
  final ok hst := by
    cases e with
    | setStatus st => exact absurd hst ((hstatus st rfl).2 ok)
    | _ => exact hst
  ee := by
    cases e with
    | setEe => exact .inr (update_self _ _ _)
    | _ => exact .inl rfl

theorem held_stack_of_ne (hne : c' ≠ c) : held (move.stack h c rest) c' = held rest c' := by
  cases move with
  | goto pc => exact held_cons_of_ne hne.symm
  | call pc callee =>
    rw [Move.stack, held_cons_of_not (by decide), held_cons_of_ne hne.symm]
  | ret ok => exact held_returnTo ok

/-- A step of a thread leaves the activations with the lock as they are if its own do. -/
theorem held_perform (hheld : held (move.stack h c rest) c' = held (s.stack t) c') (u : Thread) :
    held ((perform h s t c rest e move).stack u) c' = held (s.stack u) c' := by
  by_cases hu : u = t
  · rw [hu, stack_self, hheld]
  · rw [stack_of_ne hu]

theorem same_of_quiet (hquiet : e.Quiet) (hev : ∀ i, move.event c ≠ .clinit c i) :
    Same s (perform h s t c rest e move) tr (tr ++ [move.event c]) c := by
  refine ⟨congrFun hquiet.eq.2.1 c, congrFun hquiet.eq.2.2 c, fun i => ?_⟩
  rw [count_event, if_neg (hev i), Nat.add_zero]

omit [DecidableEq Class] [DecidableEq Thread] in
theorem status_of_quiet (hquiet : e.Quiet) (st : Status) (heq : e = .setStatus st) :
    st ≠ .initial ∧ ∀ ok, s.status c ≠ .final ok := by
  rw [heq] at hquiet
  cases hquiet

omit [DecidableEq Class] in
theorem mem_one {e' : Effect} {move' : Move Class} : (e, move) ∈ [(e', move')] ↔ e = e' ∧ move = move' := by
  rw [mem_singleton, Prod.mk.injEq]

section

variable (hinv : Inv h s tr)

include hinv

section

variable (hstack : s.stack t = (c, pc) :: rest)

include hstack

theorem Inv.owner_other  (hch : Changes s (perform h s t c rest e move) tr tr' t c) (hne : c' ≠ c) :
    Free (perform h s t c rest e move) tr' c' ∨ ∃ u, Owned (perform h s t c rest e move) u c' := by
  obtain ⟨hstatus, hsame⟩ := hch.other c' hne
  refine owner_mono (hinv.owner c') (held_perform ?_) hstatus hsame.1 (fun _ => hsame) fun u hmem => ?_
  · rw [held_stack_of_ne hne, hstack, held_cons_of_ne hne.symm]
  · by_cases hu : u = t
    · rw [hu, hstack] at hmem
      exact absurd ((hstack ▸ hinv.good t).setEe_top hmem).1 hne
    · rwa [stack_of_ne hu]

/-- A step keeps the owner of its class if it neither takes nor leaves the lock. -/
theorem Inv.owner_self (hpc : pc ≠ .setEe) (hheld : held (move.stack h c rest) c = held (s.stack t) c)
    (hstatus : (perform h s t c rest e move).status c = s.status c)
    (hee : (perform h s t c rest e move).compilingEe c = s.compilingEe c)
    (hfree : s.status c = .initial → Same s (perform h s t c rest e move) tr tr' c) :
    Free (perform h s t c rest e move) tr' c ∨ ∃ u, Owned (perform h s t c rest e move) u c := by
  refine owner_mono (hinv.owner c) (held_perform hheld) hstatus hee hfree fun u hmem => ?_
  by_cases hu : u = t
  · rw [hu, hstack] at hmem
    exact absurd ((hstack ▸ hinv.good t).setEe_top hmem).2 hpc
  · rwa [stack_of_ne hu]

/-- A step keeps the invariant if it does so for its own activation and its own class, and nobody else relies on what
it changes. -/
theorem Inv.of_perform  (hstatus : ∀ st, e = .setStatus st → st ≠ .initial ∧ ∀ ok, s.status c ≠ .final ok)
    (halone : Same s (perform h s t c rest e move) tr (tr ++ [move.event c]) c ∨
      (∀ u, u ≠ t → held (s.stack u) c = 0) ∧ held rest c = 0)
    (hgood : Good h (perform h s t c rest e move) (tr ++ [move.event c]) t rest →
      Good h (perform h s t c rest e move) (tr ++ [move.event c]) t (move.stack h c rest))
    (howner : Free (perform h s t c rest e move) (tr ++ [move.event c]) c ∨ ∃ u, Owned (perform h s t c rest e move) u c)
    (honce : ∀ i, move.event c = .clinit c i → tr.count (.clinit c i) = 0) :
    Inv h (perform h s t c rest e move) (tr ++ [move.event c]) := by
  have hch : Changes s (perform h s t c rest e move) tr (tr ++ [move.event c]) t c := changes_perform hstatus
  have htop := hstack ▸ hinv.good t
  constructor
  · intro u
    rw [perform_stack]
    by_cases hu : u = t
    · subst hu
      rw [update_self]
      exact hgood (htop.2.2.mono hch (.inr htop.suspended) (halone.imp_right And.right))
    · rw [update_of_ne hu]
      exact (hinv.good u).mono hch (.inl hu) (halone.imp_right fun h => h.1 u hu)
  · intro c'
    by_cases hc : c' = c
    · exact hc ▸ howner
    · exact hinv.owner_other hstack hch hc
  · intro c' i
    rw [count_event]
    split_ifs with hev
    · have hc : c' = c := by
        by_contra hne
        exact event_of_ne hne i hev
      subst hc
      exact Nat.le_of_eq (congrArg (· + 1) (honce i hev))
    · exact hinv.once c' i

/-! ## Steps that change no class -/

theorem Inv.quiet (hquiet : e.Quiet) (hev : ∀ i, move.event c ≠ .clinit c i) (hpc : pc ≠ .setEe)
    (hheld : held (move.stack h c rest) c = held (s.stack t) c)
    (hgood : Good h (perform h s t c rest e move) (tr ++ [move.event c]) t rest →
      Good h (perform h s t c rest e move) (tr ++ [move.event c]) t (move.stack h c rest)) :
    Inv h (perform h s t c rest e move) (tr ++ [move.event c]) := by
  have hsame : Same s (perform h s t c rest e move) tr (tr ++ [move.event c]) c := same_of_quiet hquiet hev
  refine hinv.of_perform hstack (status_of_quiet hquiet) (.inl hsame) hgood ?_ fun i heq => absurd heq (hev i)
  exact hinv.owner_self hstack hpc hheld (congrFun hquiet.eq.1 c) hsame.1 fun _ => hsame

theorem Inv.goto {pc' : Pc}
    (hframe : FrameInv h s tr t c rest pc') (hquiet : e.Quiet := by trivial)
    (hev : ∀ i, pc' ≠ .runClinit i := by simp) (hpc : pc ≠ .setEe := by simp)
    (hholds : pc'.holds = pc.holds := by rfl) :
    Inv h (perform h s t c rest e (.goto pc')) (tr ++ [Move.event c (.goto pc')]) := by
  have hev' i : Move.event c (.goto pc') ≠ .clinit c i := by
    cases pc' <;> first | exact absurd rfl (hev _) | nofun
  have hsame : Same s (perform h s t c rest e (.goto pc')) tr (tr ++ [Move.event c (.goto pc')]) c :=
    same_of_quiet hquiet hev'
  refine hinv.quiet hstack hquiet hev' hpc ?_ fun hrest => ⟨?_, (hstack ▸ hinv.good t).2.1, hrest⟩
  · rw [hstack, Move.stack, held_cons, held_cons, hholds]
  · exact hframe.mono (changes_perform (status_of_quiet hquiet)) (fun _ => (congrFun hquiet.eq.2.1 c).symm.trans)
      fun _ _ => hsame

/-- The creation of an exception begins. -/
theorem Inv.raise {x : Raise} (hst : x ≠ .runtime → s.status c = .final false) (hpc : pc ≠ .setEe)
    (hholds : pc.holds = decide (x = .runtime)) :
    Inv h (perform h s t c rest .nop (.goto (x.start h))) (tr ++ [Move.event c (.goto (x.start h))]) :=
  hinv.goto hstack (x.frameInv hst).1 trivial (x.start_ne h) hpc ((x.holds_eq h).1.trans hholds.symm)

theorem Inv.ret
    (hok : ok = true → s.status c = .compiledOk ∨ 0 < held rest c) (hquiet : e.Quiet := by trivial)
    (hpc : ¬ pc.holds := by simp [Pc.holds]) :
    Inv h (perform h s t c rest e (.ret ok)) (tr ++ [Move.event c (.ret ok)]) := by
  refine hinv.quiet hstack hquiet (fun i => nofun) (fun heq => hpc (heq ▸ rfl)) ?_ fun hrest => ?_
  · rw [hstack, Move.stack, held_returnTo, held_cons_of_not hpc]
  · refine good_returnTo hrest (hstack ▸ hinv.good t).2.1 fun heq => ?_
    rw [hquiet.eq.1]
    exact hok heq

/-! ## Steps that change a class -/

theorem Inv.keep (hpc : pc.holds) (hne : pc ≠ .setEe)
    {pc' : Pc} (hpc' : pc'.holds) (hstatus : ∀ st, e ≠ .setStatus st) (hee : e ≠ .setEe)
    (hframe : FrameInv h (perform h s t c rest e (.goto pc')) (tr ++ [Move.event c (.goto pc')]) t c rest pc')
    (honce : ∀ i, Move.event c (.goto pc') = .clinit c i → tr.count (.clinit c i) = 0) :
    Inv h (perform h s t c rest e (.goto pc')) (tr ++ [Move.event c (.goto pc')]) := by
  obtain ⟨howned, hheld⟩ := hinv.owned_of_holds hstack hpc
  refine hinv.of_perform hstack (fun st heq => absurd heq (hstatus st)) (.inr ⟨howned.held_other, hheld⟩)
    (fun hrest => ⟨hframe, (hstack ▸ hinv.good t).2.1, hrest⟩) ?_ honce
  refine hinv.owner_self hstack hne ?_ ?_ ?_ fun hst => ?_
  · rw [hstack, Move.stack, held_cons_self hpc, held_cons_self hpc']
  · cases e <;> first | rfl | exact absurd rfl (hstatus _)
  · cases e <;> first | rfl | exact absurd rfl hee
  · cases hst.symm.trans howned.status

end

/-- A call of an activation that waits for it. -/
theorem Inv.call_wait {pc' : Pc} {callee : Class} (hstack : s.stack t = (c, pc) :: rest) (hpc : pc ≠ .setEe)
    (hholds : pc'.holds = pc.holds) (hwait : Suspended pc') (hframe : FrameInv h s tr t c rest pc')
    (hcallee : Called h callee ((c, pc') :: rest)) :
    Inv h (perform h s t c rest .nop (.call pc' callee)) (tr ++ [Move.event c (.call pc' callee)]) := by
  obtain ⟨-, hcalled, -⟩ := hstack ▸ hinv.good t
  have hsame : Same s (perform h s t c rest .nop (.call pc' callee)) tr (tr ++ [.none]) c :=
    same_of_quiet trivial fun i => nofun
  refine hinv.quiet hstack trivial (fun i => nofun) hpc ?_ fun hrest => ⟨trivial, hcallee, ?_, hcalled, hrest⟩
  · rw [hstack, Move.stack, held_cons_of_not (by decide), held_cons, held_cons, hholds]
  · exact hframe.mono (changes_perform (status_of_quiet trivial)) (fun heq => absurd heq hwait.ne.2.1) fun _ _ => hsame

theorem Inv.take (hstack : s.stack t = (c, .cmpxchg) :: rest) (hst : s.status c = .initial) :
    Inv h (perform h s t c rest (.setStatus .compiling) (.goto .setEe)) (tr ++ [.none]) := by
  have hfree : Free s tr c := (hinv.owner c).resolve_right fun ⟨u, howned⟩ => by
    cases hst.symm.trans howned.status
  obtain ⟨-, hee, hstate, hun⟩ := hfree.status.resolve_right fun ⟨ok, hok⟩ => by
    cases ok <;> cases hst.symm.trans hok
  have hheld : held rest c = 0 := by
    rw [← hfree.held_eq t, hstack, held_cons_of_not (by decide)]
  refine hinv.of_perform hstack ?_ (.inr ⟨fun u _ => hfree.held_eq u, hheld⟩) (fun hrest => ?_) ?_ fun i => (by rintro ⟨⟩)
  · rintro st ⟨⟩
    refine ⟨by decide, fun ok hok => ?_⟩
    cases ok <;> cases hst.symm.trans hok
  · refine ⟨⟨hee, hstate, fun i hi => ?_⟩, (hstack ▸ hinv.good t).2.1, hrest⟩
    rw [count_event, hun i hi, if_neg (by rintro ⟨⟩)]
  · refine .inr ⟨t, ?_, fun u hu => ?_, perform_status_self, .inr ⟨hee, ?_⟩⟩
    · rw [stack_self, Move.stack, held_cons_self rfl, hheld]
    · rw [stack_of_ne hu, hfree.held_eq u]
    · rw [stack_self]
      exact mem_cons_self

theorem Inv.name (hstack : s.stack t = (c, .setEe) :: rest) :
    Inv h (perform h s t c rest .setEe (.goto .checkState)) (tr ++ [.none]) := by
  obtain ⟨howned, hheld⟩ := hinv.owned_of_holds hstack rfl
  obtain ⟨⟨-, hstate, hun⟩, hcalled, -⟩ := hstack ▸ hinv.good t
  refine hinv.of_perform hstack (fun st => nofun) (.inr ⟨howned.held_other, hheld⟩) (fun hrest => ?_) ?_ fun i => nofun
  · refine ⟨⟨hstate, fun i hi => ?_⟩, hcalled, hrest⟩
    rw [count_event, hun i hi, if_neg (by rintro ⟨⟩)]
  · refine .inr ⟨t, ?_, fun u hu => ?_, howned.status, .inl perform_ee_self⟩
    · rw [stack_self, Move.stack, held_cons_self rfl, hheld]
    · rw [stack_of_ne hu, howned.held_other u hu]

theorem Inv.leave (hstack : s.stack t = (c, .leave ok) :: rest) :
    Inv h (perform h s t c rest (.setStatus (.final ok)) (.goto (.readWaiting ok))) (tr ++ [.none]) := by
  obtain ⟨howned, hheld⟩ := hinv.owned_of_holds hstack rfl
  refine hinv.of_perform hstack ?_ (.inr ⟨howned.held_other, hheld⟩) (fun hrest => ?_) ?_ fun i => nofun
  · rintro st ⟨⟩
    refine ⟨by cases ok <;> decide, fun ok' hok => ?_⟩
    cases ok' <;> cases howned.status.symm.trans hok
  · exact ⟨perform_status_self, (hstack ▸ hinv.good t).2.1, hrest⟩
  · refine .inl ⟨fun u => ?_, .inr ⟨ok, perform_status_self⟩⟩
    by_cases hu : u = t
    · rw [hu, stack_self, Move.stack, held_cons_of_not (by rintro ⟨⟩), hheld]
    · rw [stack_of_ne hu, howned.held_other u hu]

/-- The failure is recorded in the class after the lock has been left. -/
theorem Inv.fail (hstack : s.stack t = (c, .setErroneous) :: rest) :
    Inv h (perform h s t c rest (.setState .erroneous) (.ret false)) (tr ++ [.ret c false]) := by
  obtain ⟨hst, hcalled, -⟩ := hstack ▸ hinv.good t
  have hheld : held rest c = 0 := by
    rw [← hinv.held_of_final hst t, hstack, held_cons_of_not (by decide)]
  refine hinv.of_perform hstack (fun st => (by simp)) (.inr ⟨fun u _ => hinv.held_of_final hst u, hheld⟩)
    (fun hrest => good_returnTo hrest hcalled (by simp)) ?_ fun i => (by rintro ⟨⟩)
  refine hinv.owner_self hstack (by decide) ?_ rfl rfl fun hinit => ?_
  · rw [hstack, Move.stack, held_returnTo, held_cons_of_not (by decide)]
  · cases hinit.symm.trans hst

/-! ## Runs -/

/-- **Every step of an activation keeps the invariant.** -/
theorem Inv.act (hstack : s.stack t = (c, pc) :: rest) (hout : (e, move) ∈ outcomes h s t c pc) :
    Inv h (perform h s t c rest e move) (tr ++ [move.event c]) := by
  have hframe : FrameInv h s tr t c rest pc := (hstack ▸ hinv.good t).1
  cases pc with
  | readStatus =>
    simp only [outcomes] at hout
    split at hout <;> obtain ⟨rfl, rfl⟩ := mem_one.mp hout
    · exact hinv.ret hstack fun _ => .inl ‹_›
    · exact hinv.raise hstack (fun _ => ‹_›) (by simp) rfl
    · exact hinv.goto hstack trivial
  | cmpxchg =>
    simp only [outcomes] at hout
    split at hout <;> obtain ⟨rfl, rfl⟩ := mem_one.mp hout
    · exact hinv.take hstack ‹_›
    · exact hinv.goto hstack ‹_›
  | setEe =>
    obtain ⟨rfl, rfl⟩ := mem_one.mp hout
    exact hinv.name hstack
  | incWaiting | decFinal | readWaiting ok =>
    obtain ⟨rfl, rfl⟩ := mem_one.mp hout
    exact hinv.goto hstack hframe
  | loopStatus =>
    simp only [outcomes] at hout
    split at hout <;> obtain ⟨rfl, rfl⟩ := mem_one.mp hout
    · refine hinv.goto hstack ⟨hframe, fun hee => ?_⟩
      have hheld := hinv.held_of_ee ‹_› hee
      rwa [hstack, held_cons_of_not (by decide)] at hheld
    · exact hinv.goto hstack (hinv.final_of_ne hframe ‹_›)
  | checkEe =>
    simp only [outcomes] at hout
    split at hout <;> obtain ⟨rfl, rfl⟩ := mem_one.mp hout
    · exact hinv.goto hstack (hframe.2 ‹_›)
    · refine hinv.goto hstack ⟨hframe.1, ?_⟩
      by_contra hheld
      have howned : Owned s t c := hinv.owned_of_held (by
        rw [hstack, held_cons_of_not (by decide)]
        exact Nat.pos_of_ne_zero hheld)
      exact absurd (hinv.ee_of_owned hstack howned (by decide)) ‹_›
  | decReenter =>
    obtain ⟨rfl, rfl⟩ := mem_one.mp hout
    exact hinv.ret hstack fun _ => .inr hframe
  | semWait =>
    simp only [outcomes] at hout
    split at hout
    · cases hout
    · obtain ⟨rfl, rfl⟩ := mem_one.mp hout
      exact hinv.goto hstack hframe.1
  | finalStatus =>
    simp only [outcomes] at hout
    split at hout <;> obtain ⟨rfl, rfl⟩ := mem_one.mp hout
    · exact hinv.ret hstack fun _ => .inl ‹_›
    · exact hinv.raise hstack (fun _ => ‹_›) (by simp) rfl
    · obtain ⟨ok, hok⟩ := hframe
      cases ok <;> exact absurd hok ‹_›
  | checkState =>
    simp only [outcomes, if_pos hframe.1] at hout
    obtain ⟨rfl, rfl⟩ := mem_one.mp hout
    refine hinv.keep hstack rfl (by decide) rfl (fun st => (by simp)) (by simp) (fun i hi => ?_) fun i => (by rintro ⟨⟩)
    rw [count_event, hframe.2 i hi, if_neg (by rintro ⟨⟩)]
  | fault =>
    simp only [outcomes, mem_cons, not_mem_nil, or_false, Prod.mk.injEq] at hout
    rcases hout with ⟨rfl, rfl⟩ | ⟨rfl, rfl⟩
    · exact hinv.goto hstack hframe
    · exact hinv.raise hstack (absurd rfl) (by simp) rfl
  | runClinit i =>
    simp only [outcomes, mem_cons, not_mem_nil, or_false, Prod.mk.injEq] at hout
    rcases hout with ⟨rfl, rfl⟩ | ⟨rfl, rfl⟩
    · exact hinv.goto hstack hframe
    · exact hinv.goto hstack trivial
  | ensureSuper =>
    simp only [outcomes] at hout
    split at hout <;> obtain ⟨rfl, rfl⟩ := mem_one.mp hout
    · exact hinv.call_wait hstack (by simp) rfl (.inl rfl) hframe ‹_›
    · refine hinv.goto hstack ⟨hframe, fun super hsuper => ?_⟩
      rename_i hnone
      cases hsuper.symm.trans hnone
  | inSuper => cases hout
  | nextClinit i =>
    simp only [outcomes] at hout
    split at hout <;> obtain ⟨rfl, rfl⟩ := mem_one.mp hout
    · refine hinv.keep hstack rfl (by simp) rfl (fun st => (by simp)) (by simp) ⟨fun j hj => ?_, hframe.2⟩ fun j heq => ?_
      · rw [count_event, hframe.1 j (by omega), if_neg]
        rintro ⟨⟩
        omega
      · cases heq
        exact hframe.1 i (Nat.le_refl i)
    · exact hinv.goto hstack trivial
  | setInitialized =>
    obtain ⟨rfl, rfl⟩ := mem_one.mp hout
    exact hinv.keep hstack rfl (by decide) rfl (fun st => (by simp)) (by simp) trivial fun i => (by rintro ⟨⟩)
  | leave ok =>
    obtain ⟨rfl, rfl⟩ := mem_one.mp hout
    exact hinv.leave hstack
  | post ok n =>
    cases n with
    | succ n =>
      obtain ⟨rfl, rfl⟩ := mem_one.mp hout
      exact hinv.goto hstack hframe
    | zero =>
      cases ok with
      | true =>
        obtain ⟨rfl, rfl⟩ := mem_one.mp hout
        exact hinv.ret hstack fun _ => .inl hframe
      | false =>
        simp only [outcomes, mem_cons, not_mem_nil, or_false, Prod.mk.injEq] at hout
        rcases hout with ⟨rfl, rfl⟩ | ⟨rfl, rfl⟩
        · exact hinv.goto hstack hframe
        · exact hinv.raise hstack (fun _ => hframe) (by simp) rfl
  | setErroneous =>
    obtain ⟨rfl, rfl⟩ := mem_one.mp hout
    exact hinv.fail hstack
  | failed => exact hframe.elim
  | alloc x =>
    obtain ⟨rfl, rfl⟩ := mem_one.mp hout
    exact hinv.call_wait hstack (by simp) rfl (.inr (.inl ⟨x, .inl rfl⟩)) hframe rfl
  | message x =>
    obtain ⟨rfl, rfl⟩ := mem_one.mp hout
    exact hinv.call_wait hstack (by simp) rfl (.inr (.inl ⟨x, .inr rfl⟩)) hframe rfl
  | construct x =>
    cases x <;> obtain ⟨rfl, rfl⟩ := mem_one.mp hout
    · exact hinv.ret hstack (by simp)
    · exact hinv.goto hstack trivial
    · exact hinv.goto hstack (hframe (by simp))
  | inAlloc x | inMessage x | died x => cases hout

end

omit [DecidableEq Class] in
theorem called_of_canCall (hcan : CanCall l) : Called h c l := by
  cases l with
  | nil => trivial
  | cons f l =>
    obtain ⟨c', pc⟩ := f
    rcases hcan with ⟨i, rfl⟩ | ⟨x, rfl⟩ <;> trivial

theorem Inv.call (hinv : Inv h s tr) (hcan : CanCall (s.stack t)) :
    Inv h (s.setStack t ((c, .readStatus) :: s.stack t)) (tr ++ [.none]) := by
  have hsame c' : Same s (s.setStack t ((c, .readStatus) :: s.stack t)) tr (tr ++ [.none]) c' :=
    ⟨rfl, rfl, fun i => by rw [count_event, if_neg (by simp), Nat.add_zero]⟩
  have hch : Changes s (s.setStack t ((c, .readStatus) :: s.stack t)) tr (tr ++ [.none]) t c :=
    ⟨fun c' _ => ⟨rfl, hsame c'⟩, id, fun _ => id, .inl rfl⟩
  have hsetStack u (hu : u ≠ t) : (s.setStack t ((c, .readStatus) :: s.stack t)).stack u = s.stack u :=
    update_of_ne hu _ _
  have hself : (s.setStack t ((c, .readStatus) :: s.stack t)).stack t = (c, .readStatus) :: s.stack t :=
    update_self _ _ _
  have hheld u c' :
      held ((s.setStack t ((c, .readStatus) :: s.stack t)).stack u) c' = held (s.stack u) c' := by
    by_cases hu : u = t
    · rw [hu, hself, held_cons_of_not (by decide)]
    · rw [hsetStack u hu]
  constructor
  · intro u
    by_cases hu : u = t
    · subst hu
      rw [hself]
      have hcalled : Called h c (s.stack u) := called_of_canCall hcan
      have hold : Good h s tr u ((c, .readStatus) :: s.stack u) := ⟨trivial, hcalled, hinv.good u⟩
      exact ⟨trivial, hcalled, (hinv.good u).mono hch (.inr hold.suspended) (.inl (hsame c))⟩
    · rw [hsetStack u hu]
      exact (hinv.good u).mono hch (.inl hu) (.inl (hsame c))
  · intro c'
    refine owner_mono (hinv.owner c') (fun u => hheld u c') rfl rfl (fun _ => hsame c') fun u hmem => ?_
    by_cases hu : u = t
    · subst hu
      rw [hself]
      exact mem_cons_of_mem _ hmem
    · rwa [hsetStack u hu]
  · intro c' i
    rw [(hsame c').2.2 i]
    exact hinv.once c' i

theorem Inv.step {ev : Event Class} (hinv : Inv h s tr) (hstep : Step h s t ev s') : Inv h s' (tr ++ [ev]) := by
  cases hstep with
  | call c hcan => exact hinv.call hcan
  | act hstack hout => exact hinv.act hstack hout

omit [DecidableEq Thread] in
theorem inv_initial : Inv h (initial : State Thread Class) [] where
  good _ := trivial
  owner _ := .inl ⟨fun _ => rfl, .inl ⟨rfl, rfl, rfl, fun _ _ => rfl⟩⟩
  once _ _ := Nat.zero_le 1

theorem inv_of_run (hrun : Run h tr s) : Inv h s tr := by
  induction hrun with
  | start => exact inv_initial
  | step _ hstep ih => exact ih.step hstep

end

end Jato.Vm.ClassInit
