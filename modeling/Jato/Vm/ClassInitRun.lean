import Jato.Vm.ClassInitInvariant

/-!
# Runs of class initialisation

What the invariant says about the next step of any thread: when a static initialiser starts, when a call returns and what
a re-entrant call does. A call for a class that has failed creates a `NoClassDefFoundError`, which needs that class and
`String` to be initialised: if they are, the call fails as it should (`Ready.fails`), but if `NoClassDefFoundError` has
failed itself, the call never returns (`not_fails`). `initCorrect` puts this together for every run.
-/

namespace Jato.Vm.ClassInit

variable {Thread Class : Type} [DecidableEq Thread] [DecidableEq Class] {h : Hierarchy Class} {s s' : State Thread Class}
  {tr : List (Event Class)} {t : Thread} {c : Class} {pc : Pc} {rest : List (Frame Class)} {e : Effect}
  {move : Move Class}

/-! ## The points of the steps with an event -/

variable {i : Nat} {ok : Bool} {c' : Class} {ev : Event Class}

omit [DecidableEq Class] in
theorem outcomes_clinit (hout : (e, .goto (.runClinit i)) ∈ outcomes h s t c pc) : pc = .nextClinit i := by
  revert hout
  fun_cases outcomes h s t c pc <;> intro hout <;>
    simp only [List.mem_cons, List.not_mem_nil, or_false, Prod.mk.injEq, Move.goto.injEq, Pc.runClinit.injEq,
      (Raise.start_ne h _ i).symm, reduceCtorEq, and_false] at hout
  rw [hout.2]

theorem outcomes_ret (hout : (e, .ret ok) ∈ outcomes h s t c pc) (hframe : FrameInv h s tr t c rest pc) :
    (pc = .decReenter ∧ ok = true) ∨ s.status c = .final ok := by
  revert hframe hout
  fun_cases outcomes h s t c pc <;> intro hout hframe <;>
    simp only [List.mem_cons, List.not_mem_nil, or_false, Prod.mk.injEq, Move.ret.injEq, reduceCtorEq,
      and_false] at hout <;>
    obtain ⟨-, rfl⟩ := hout
  case case1 hst => exact .inr hst
  case case12 => exact .inl ⟨rfl, rfl⟩
  case case16 hst => exact .inr hst
  case case32 => exact .inr hframe
  case case34 => exact .inr hframe
  case case40 => exact .inr (hframe (by simp))

omit [DecidableEq Class] in
theorem outcomes_setStatus {st : Status} (hout : (.setStatus st, move) ∈ outcomes h s t c pc) :
    st ≠ .initial ∧ (s.status c = .initial ∨ pc.holds) := by
  revert hout
  fun_cases outcomes h s t c pc <;> intro hout <;>
    simp only [List.mem_cons, List.not_mem_nil, or_false, Prod.mk.injEq, Effect.setStatus.injEq, reduceCtorEq,
      false_and] at hout <;>
    obtain ⟨rfl, -⟩ := hout
  · exact ⟨by decide, .inl ‹_›⟩
  · rename_i ok
    exact ⟨by cases ok <;> decide, .inr rfl⟩

omit [DecidableEq Class] in
theorem event_clinit (hev : move.event c = .clinit c' i) : move = .goto (.runClinit i) ∧ c = c' := by
  unfold Move.event at hev
  split at hev <;> cases hev
  exact ⟨rfl, rfl⟩

omit [DecidableEq Class] in
theorem event_ret (hev : move.event c = .ret c' ok) : move = .ret ok ∧ c = c' := by
  unfold Move.event at hev
  split at hev <;> cases hev
  exact ⟨rfl, rfl⟩

theorem Step.inv (hstep : Step h s t ev s') : (∃ c, CanCall (s.stack t) ∧ ev = .none ∧
      s' = s.setStack t ((c, .readStatus) :: s.stack t)) ∨
    ∃ c pc rest e move, s.stack t = (c, pc) :: rest ∧ (e, move) ∈ outcomes h s t c pc ∧ move.event c = ev ∧
      s' = perform h s t c rest e move := by
  cases hstep with
  | call c hcan => exact .inl ⟨c, hcan, rfl, rfl⟩
  | act hstack hout => exact .inr ⟨_, _, _, _, _, hstack, hout, rfl, rfl⟩

/-! ## What the invariant says about the next step -/

namespace Inv

/-- Behind `SuperReady` the thread is initialising the superclass itself. -/
theorem super_first (hinv : Inv h s tr) (hstep : Step h s t (.clinit c i) s') {super : Class}
    (hsuper : h.superclass c = some super) : s.status super = .compiledOk ∨ Initialising s t super := by
  rcases hstep.inv with ⟨-, -, hev, -⟩ | ⟨c', pc, rest, e, move, hstack, hout, hev, -⟩
  · cases hev
  obtain ⟨rfl, rfl⟩ := event_clinit hev
  obtain rfl := outcomes_clinit hout
  have hready : SuperReady h s c' rest := (hstack ▸ hinv.good t).1.2
  rw [initialising_iff, hstack]
  refine (hready super hsuper).imp_right fun hor => ?_
  rcases hor with rfl | hheld
  · rw [held_cons_self rfl]
    exact Nat.succ_pos _
  · rw [held_cons]
    omega

theorem returns (hinv : Inv h s tr) (hstep : Step h s t (.ret c ok) s') :
    Initialising s t c ∧ ok = true ∨ (∀ u, ¬ Initialising s u c) ∧ s.status c = .final ok := by
  rcases hstep.inv with ⟨-, -, hev, -⟩ | ⟨c', pc, rest, e, move, hstack, hout, hev, -⟩
  · cases hev
  obtain ⟨rfl, rfl⟩ := event_ret hev
  have hframe : FrameInv h s tr t c' rest pc := (hstack ▸ hinv.good t).1
  rcases outcomes_ret hout hframe with ⟨rfl, rfl⟩ | hst
  · refine .inl ⟨?_, rfl⟩
    rw [initialising_iff, hstack, held_cons_of_not (by decide)]
    exact hframe
  · refine .inr ⟨fun u hu => ?_, hst⟩
    rw [initialising_iff, hinv.held_of_final hst u] at hu
    exact absurd hu (Nat.lt_irrefl 0)

section

variable (hinv : Inv h s tr) (hstack : s.stack t = (c, pc) :: rest) (hpc : ¬ pc.holds) (hinit : Initialising s t c)

include hinv hstack hpc hinit

/-- The points of a re-entrant call and what it does there. -/
theorem outcomes_reenter : ∃ e move, outcomes h s t c pc = [(e, move)] ∧
      (move = .ret true ∨ ∃ pc', move = .goto pc' ∧ pc'.reenterSteps < pc.reenterSteps) := by
  have howned : Owned s t c := hinv.owned_of_held (initialising_iff.mp hinit)
  have hframe : FrameInv h s tr t c rest pc := (hstack ▸ hinv.good t).1
  have hheld : 0 < held rest c := by rwa [initialising_iff, hstack, held_cons_of_not hpc] at hinit
  have hst := howned.status
  have hfinal ok : s.status c ≠ .final ok := by
    rw [hst]
    cases ok <;> decide
  cases pc with
  | readStatus =>
    refine ⟨.nop, .goto .cmpxchg, ?_, .inr ⟨_, rfl, by decide⟩⟩
    simp [outcomes, hst]
  | cmpxchg =>
    refine ⟨.nop, .goto .incWaiting, ?_, .inr ⟨_, rfl, by decide⟩⟩
    simp [outcomes, hst]
  | incWaiting => exact ⟨_, _, rfl, .inr ⟨_, rfl, by decide⟩⟩
  | loopStatus =>
    refine ⟨.nop, .goto .checkEe, ?_, .inr ⟨_, rfl, by decide⟩⟩
    simp [outcomes, hst]
  | checkEe =>
    refine ⟨.nop, .goto .decReenter, ?_, .inr ⟨_, rfl, by decide⟩⟩
    simp [outcomes, hinv.ee_of_owned hstack howned (by decide)]
  | decReenter => exact ⟨_, _, rfl, .inl rfl⟩
  | semWait => exact absurd hframe.2 (Nat.ne_of_gt hheld)
  | decFinal | finalStatus => exact (hframe.elim fun ok hok => absurd hok (hfinal ok))
  | readWaiting ok | post ok n => exact absurd hframe (hfinal ok)
  | setErroneous => exact absurd hframe (hfinal false)
  | failed => exact hframe.elim
  | alloc x | inAlloc x | message x | inMessage x | construct x | died x =>
    exact absurd (hframe fun hx => hpc (decide_eq_true hx)) (hfinal false)
  | _ => exact absurd rfl hpc

theorem reenter : (∃ ev s', Step h s t ev s') ∧ ∀ ev s', Step h s t ev s' →
      ev = .ret c true ∨ ∃ pc', s'.stack t = (c, pc') :: rest ∧ pc'.reenterSteps < pc.reenterSteps := by
  obtain ⟨e, move, hout, hmove⟩ := hinv.outcomes_reenter hstack hpc hinit
  have hmem : (e, move) ∈ outcomes h s t c pc := hout ▸ List.mem_singleton_self _
  refine ⟨⟨_, _, .act hstack hmem⟩, fun ev s' hstep => ?_⟩
  rcases hstep.inv with ⟨-, hcan, -⟩ | ⟨c', pc', rest', e', move', hstack', hout', rfl, rfl⟩
  · -- a call is made in Java code, which has the lock or finds that the class has failed
    rw [hstack] at hcan
    rcases hcan with ⟨i, rfl⟩ | ⟨x, rfl⟩
    · exact absurd rfl hpc
    · have hst := (hinv.owned_of_held (initialising_iff.mp hinit)).status
      have hfailed := (hstack ▸ hinv.good t).1 fun hx => hpc (decide_eq_true hx)
      cases hst.symm.trans hfailed
  · cases hstack.symm.trans hstack'
    rw [hout] at hout'
    obtain ⟨rfl, rfl⟩ := Prod.mk.inj (List.mem_singleton.mp hout')
    rcases hmove with rfl | ⟨pc', rfl, hlt⟩
    · exact .inl rfl
    · exact .inr ⟨pc', stack_self, hlt⟩

end

theorem status_final (hinv : Inv h s tr) (ok : Bool) (hst : s.status c = .final ok)
    (hstep : Step h s t ev s') : s'.status c = .final ok := by
  rcases hstep.inv with ⟨-, -, -, rfl⟩ | ⟨c', pc, rest, e, move, hstack, hout, -, rfl⟩
  · exact hst
  have hch : Changes s (perform h s t c' rest e move) tr (tr ++ [move.event c']) t c' := changes_perform fun st he => ?_
  · exact hch.status_final ok hst
  subst he
  obtain ⟨hne, hor⟩ := outcomes_setStatus hout
  refine ⟨hne, fun ok' hok' => ?_⟩
  rcases hor with hinit | hpc
  · cases ok' <;> cases hinit.symm.trans hok'
  · have howned := (hinv.owned_of_holds hstack hpc).1
    cases ok' <;> cases howned.status.symm.trans hok'

omit [DecidableEq Thread] in
theorem not_failed (hinv : Inv h s tr) : (c, Pc.failed) ∉ s.stack t := by
  intro hmem
  have hgood := hinv.good t
  cases hstack : s.stack t with
  | nil =>
    rw [hstack] at hmem
    cases hmem
  | cons f rest =>
    rw [hstack] at hmem hgood
    rcases List.mem_cons.mp hmem with rfl | hmem
    · exact hgood.1
    · exact (hgood.suspended _ hmem).ne.2.2 rfl

end Inv

/-! ## Calls for a class that has failed -/

/-- The class has failed, and the classes that are needed to say so are initialised. -/
structure Ready (h : Hierarchy Class) (c : Class) (s : State Thread Class) : Prop where
  inv : ∃ tr, Inv h s tr
  failed : s.status c = .final false
  exception : s.status (h.exception .noClassDefFound) = .final true
  string : s.status h.string = .final true

theorem Ready.step {u : Thread} (hready : Ready h c s) (hstep : Step h s u ev s') : Ready h c s' := by
  obtain ⟨⟨tr, hinv⟩, hfailed, hexception, hstring⟩ := hready
  exact ⟨⟨_, hinv.step hstep⟩, hinv.status_final false hfailed hstep, hinv.status_final true hexception hstep,
    hinv.status_final true hstring hstep⟩

theorem Step.stack_of_ne {u : Thread} (hstep : Step h s u ev s') (hne : u ≠ t) : s'.stack t = s.stack t := by
  rcases hstep.inv with ⟨c, -, -, rfl⟩ | ⟨c, pc, rest, e, move, -, -, -, rfl⟩
  · exact Function.update_of_ne hne.symm _ _
  · exact ClassInit.stack_of_ne hne.symm

theorem Ready.others (hready : Ready h c s) (hothers : Others h t s s') : Ready h c s' ∧ s'.stack t = s.stack t := by
  induction hothers with
  | refl => exact ⟨hready, rfl⟩
  | tail _ hstep ih =>
    obtain ⟨u, ev, hne, hstep⟩ := hstep
    exact ⟨ih.1.step hstep, (hstep.stack_of_ne hne).trans ih.2⟩

variable {below : List (Frame Class)} {depth : Nat}

/-- A call fails if its only next step is its return, or if it fails behind that step. -/
theorem Ready.fails_of_next (hready : Ready h c s) (hstack : s.stack t = (c', pc) :: below)
    (hout : ∀ s', Ready h c s' → outcomes h s' t c' pc = [(.nop, move)])
    (hnext : ¬ (move = .ret false ∧ c' = c ∧ below.length = depth) →
      ∀ s', Ready h c s' → s'.stack t = move.stack h c' below → Fails h t c depth s') : Fails h t c depth s := by
  refine .intro (fun s' hothers => ?_) fun s' c'' pc' below' e move' hothers hstack' hmem hmove => ?_
  · obtain ⟨hready', hsame⟩ := hready.others hothers
    refine ⟨c', pc, below, hsame.trans hstack, ?_⟩
    rw [hout s' hready']
    exact List.cons_ne_nil _ _
  · obtain ⟨hready', hsame⟩ := hready.others hothers
    cases (hsame.trans hstack).symm.trans hstack'
    have hstep := Step.act hstack' hmem
    rw [hout s' hready'] at hmem
    obtain ⟨rfl, rfl⟩ := mem_one.mp hmem
    exact hnext hmove _ (hready'.step hstep) stack_self

/-- **A call for a class that has failed** fails, if the classes are initialised that it needs for the exception. -/
theorem Ready.fails (hready : Ready h c s) (hstack : s.stack t = (c, .readStatus) :: rest) :
    Fails h t c rest.length s := by
  have hread {c' : Class} {b : Bool} {s : State Thread Class} (hst : s.status c' = .final b) :
      outcomes h s t c' .readStatus = [(.nop, if b then .ret true else .goto (.alloc .noClassDefFound))] := by
    cases b <;> simp only [outcomes, hst] <;> rfl
  refine hready.fails_of_next hstack (fun s' hs' => hread hs'.failed) fun _ s₁ hs₁ hstack₁ => ?_
  -- the exception is allocated
  refine hs₁.fails_of_next hstack₁ (fun _ _ => rfl) fun _ s₂ hs₂ hstack₂ => ?_
  refine hs₂.fails_of_next hstack₂ (fun s' hs' => hread hs'.exception) fun _ s₃ hs₃ hstack₃ => ?_
  -- its message is made
  refine hs₃.fails_of_next hstack₃ (fun _ _ => rfl) fun _ s₄ hs₄ hstack₄ => ?_
  refine hs₄.fails_of_next hstack₄ (fun s' hs' => hread hs'.string) fun _ s₅ hs₅ hstack₅ => ?_
  -- its constructor runs, and the call returns
  exact hs₅.fails_of_next hstack₅ (fun _ _ => rfl) fun hnot => absurd ⟨rfl, rfl, rfl⟩ hnot

/-- **A call for `NoClassDefFoundError`** never returns when that class has failed: to say so it calls for the same class
again. -/
theorem not_fails (hst : s.status (h.exception .noClassDefFound) = .compiledErroneous)
    (hstack : s.stack t = (h.exception .noClassDefFound, .readStatus) :: rest) : ¬ Fails h t c depth s := by
  suffices hgen : ∀ {s : State Thread Class}, Fails h t c depth s →
      s.status (h.exception .noClassDefFound) = .compiledErroneous → ∀ pc below,
      s.stack t = (h.exception .noClassDefFound, pc) :: below → pc ≠ .readStatus ∧ pc ≠ .alloc .noClassDefFound from
    fun hfails => (hgen hfails hst _ _ hstack).1 rfl
  intro s hfails
  induction hfails with
  | @intro s _ _ ih =>
    intro hst pc below hstack
    constructor
    · rintro rfl
      have hmem : (.nop, .goto (.alloc .noClassDefFound)) ∈ outcomes h s t (h.exception .noClassDefFound) .readStatus := by
        simp only [outcomes, hst]
        exact .head _
      exact (ih s _ _ _ _ _ .refl hstack hmem (by simp) hst _ _ stack_self).2 rfl
    · rintro rfl
      exact (ih s _ _ _ _ _ .refl hstack (.head _) (by simp) hst _ _ stack_self).1 rfl

/-! ## Every run -/

/-- **Class initialisation does what it is for in every run**, over any hierarchy and any interleaving, if
`NoClassDefFoundError` and `String` are initialised as soon as the initialisation of a class has failed. -/
theorem initCorrect (hrun : Run h tr s) (hready : ∀ c, s.status c = .compiledErroneous →
      s.status (h.exception .noClassDefFound) = .compiledOk ∧ s.status h.string = .compiledOk) : InitCorrect h tr s where
  once := (inv_of_run hrun).once
  superFirst _ _ _ _ hstep _ hsuper := (inv_of_run hrun).super_first hstep hsuper
  returns _ _ _ _ hstep := (inv_of_run hrun).returns hstep
  reenter _ _ _ _ hstack hpc hinit := (inv_of_run hrun).reenter hstack hpc hinit
  failed c hst := ⟨fun _ _ _ hstep => (inv_of_run hrun).status_final false hst hstep, fun _ _ hstack =>
    Ready.fails ⟨⟨tr, inv_of_run hrun⟩, hst, (hready c hst).1, (hready c hst).2⟩ hstack⟩
  asserted _ _ := (inv_of_run hrun).not_failed

/-! ## Runs that are given by their choices -/

/-- The thread takes the outcome with this number. -/
def act (h : Hierarchy Class) (t : Thread) (s : State Thread Class) (k : Nat) : Option (State Thread Class) :=
  match s.stack t with
  | [] => none
  | (c, pc) :: rest => (outcomes h s t c pc)[k]?.map fun p => perform h s t c rest p.1 p.2

/-- A call of a thread for a class, and the outcomes that the thread takes. -/
structure Call (Thread Class : Type) where
  thread : Thread
  cls : Class
  choices : List Nat

/-- Make a call outside of all others and take its outcomes. -/
def callAndAct (h : Hierarchy Class) (s : State Thread Class) (call : Call Thread Class) : Option (State Thread Class) :=
  if s.stack call.thread = [] then
    call.choices.foldlM (act h call.thread) (s.setStack call.thread [(call.cls, .readStatus)])
  else none

theorem exists_run_act {k : Nat} (hrun : ∃ tr, Run h tr s) (hact : act h t s k = some s') : ∃ tr, Run h tr s' := by
  obtain ⟨tr, hrun⟩ := hrun
  unfold act at hact
  split at hact
  · cases hact
  · rename_i hstack
    obtain ⟨p, hp, rfl⟩ := Option.map_eq_some_iff.mp hact
    exact ⟨_, hrun.step (.act hstack (List.mem_of_getElem? hp))⟩

theorem exists_run_acts {ks : List Nat} (hrun : ∃ tr, Run h tr s) (hacts : ks.foldlM (act h t) s = some s') :
    ∃ tr, Run h tr s' := by
  induction ks generalizing s with
  | nil =>
    cases hacts
    exact hrun
  | cons k ks ih =>
    rw [List.foldlM_cons] at hacts
    obtain ⟨s₁, hact, hacts⟩ := Option.bind_eq_some_iff.mp hacts
    exact ih (exists_run_act hrun hact) hacts

theorem exists_run_calls {calls : List (Call Thread Class)} (hrun : ∃ tr, Run h tr s)
    (hcalls : calls.foldlM (callAndAct h) s = some s') : ∃ tr, Run h tr s' := by
  induction calls generalizing s with
  | nil =>
    cases hcalls
    exact hrun
  | cons call calls ih =>
    rw [List.foldlM_cons] at hcalls
    obtain ⟨s₁, hcall, hcalls⟩ := Option.bind_eq_some_iff.mp hcalls
    refine ih ?_ hcalls
    unfold callAndAct at hcall
    split_ifs at hcall with hstack
    obtain ⟨tr, hrun⟩ := hrun
    have hcan : CanCall (s.stack call.thread) := by
      rw [hstack]
      trivial
    have hstep := hrun.step (.call call.cls hcan)
    rw [hstack] at hstep
    exact exists_run_acts ⟨_, hstep⟩ hcall

/-- `Object`, `NoClassDefFoundError`, `String`, `RuntimeException`, `ExceptionInInitializerError` and a class with a static
initialiser. -/
def javaLang : Hierarchy Nat where
  superclass c := if c = 0 then none else some 0
  nrClinit c := if c = 5 then 1 else 0
  string := 2
  exception
    | .noClassDefFound => 1
    | .runtime => 3
    | .inInitializer => 4
  causeConstructor := true

/-- A static initialiser throws an exception that is not an `Error` when `NoClassDefFoundError` and `String` are initialised,
and the class is asked for again. -/
def throwingCalls : List (Call Nat Nat) :=
  [⟨0, 1, List.replicate 22 0⟩, ⟨0, 2, List.replicate 12 0⟩,
    ⟨0, 5, List.replicate 8 0 ++ [1, 0, 0, 1] ++ List.replicate 17 0⟩, ⟨0, 5, []⟩]

theorem throwingCalls_eq : ((throwingCalls.foldlM (callAndAct javaLang) initial).map fun s =>
      (s.status 5, s.status 1, s.status 2, s.stack 0)) =
    some (.compiledErroneous, .compiledOk, .compiledOk, [(5, .readStatus)]) := by
  decide +kernel

theorem initCorrect_throwing : ∃ (tr : List (Event Nat)) (s : State Nat Nat), Run javaLang tr s ∧
    s.status 5 = .compiledErroneous ∧ s.stack 0 = [(5, .readStatus)] ∧ InitCorrect javaLang tr s := by
  obtain ⟨s, hcalls, heq⟩ := Option.map_eq_some_iff.mp throwingCalls_eq
  obtain ⟨hfailed, hexception, hstring, hstack⟩ : _ ∧ _ ∧ _ ∧ _ := by simpa only [Prod.mk.injEq] using heq
  obtain ⟨tr, hrun⟩ := exists_run_calls ⟨[], .start⟩ hcalls
  exact ⟨tr, s, hrun, hfailed, hstack, initCorrect hrun fun _ _ => ⟨hexception, hstring⟩⟩

/-- A fault is injected into the initialisation of `NoClassDefFoundError`, and the class is asked for again. -/
def faultyCalls : List (Call Nat Nat) :=
  [⟨0, 1, [0, 0, 0, 0, 1] ++ List.replicate 26 0 ++ [1] ++ List.replicate 28 0⟩, ⟨0, 1, []⟩]

theorem faultyCalls_eq : ((faultyCalls.foldlM (callAndAct javaLang) initial).map fun s =>
    (s.status 1, s.stack 0)) = some (.compiledErroneous, [(1, .readStatus)]) := by
  decide +kernel

/-- The second call does not fail: it calls for the class again and again. -/
theorem not_initCorrect_faulty : ∃ (tr : List (Event Nat)) (s : State Nat Nat), Run javaLang tr s ∧
    s.status 1 = .compiledErroneous ∧ s.stack 0 = [(1, .readStatus)] ∧ ¬ InitCorrect javaLang tr s := by
  obtain ⟨s, hcalls, heq⟩ := Option.map_eq_some_iff.mp faultyCalls_eq
  obtain ⟨hfailed, hstack⟩ := Prod.mk.inj heq
  obtain ⟨tr, hrun⟩ := exists_run_calls ⟨[], .start⟩ hcalls
  refine ⟨tr, s, hrun, hfailed, hstack, fun hcorrect => ?_⟩
  exact not_fails (h := javaLang) hfailed hstack ((hcorrect.failed 1 hfailed).2 0 [] hstack)

/-! ## One thread at a time -/

/-- **One thread at a time** initialises a class, and the status of the class tells whether one does. -/
theorem status_initialising (hrun : Run h tr s) (c : Class) : (s.status c = .compiling ∧ ∃! t, Initialising s t c) ∨
    s.status c ≠ .compiling ∧ ∀ t, ¬ Initialising s t c := by
  have hinv := inv_of_run hrun
  by_cases hheld : ∃ t, Initialising s t c
  · obtain ⟨t, ht⟩ := hheld
    have howned := hinv.owned_of_held (initialising_iff.mp ht)
    refine .inl ⟨howned.status, t, ht, fun u hu => ?_⟩
    by_contra hne
    exact absurd (initialising_iff.mp hu) (by rw [howned.held_other u hne]; decide)
  · refine .inr ⟨fun hst => hheld ?_, not_exists.mp hheld⟩
    rcases hinv.owner c with ⟨-, ⟨hst', -⟩ | ⟨ok, hst'⟩⟩ | ⟨t, howned⟩
    · cases hst'.symm.trans hst
    · cases ok <;> cases hst'.symm.trans hst
    · exact ⟨t, initialising_iff.mpr (by rw [howned.held_self]; decide)⟩

/-- While a thread runs the static initialiser of a class, another one waits for it. -/
def waitingCalls : List (Call Nat Nat) := [⟨0, 5, List.replicate 18 0⟩, ⟨1, 5, List.replicate 5 0⟩]

theorem waitingCalls_eq : ((waitingCalls.foldlM (callAndAct javaLang) initial).map fun s =>
    (s.status 5, s.stack 0, s.stack 1)) = some (.compiling, [(5, .runClinit 0)], [(5, .semWait)]) := by
  decide +kernel

theorem status_initialising_waiting : ∃ (tr : List (Event Nat)) (s : State Nat Nat), Run javaLang tr s ∧
    s.stack 0 = [(5, .runClinit 0)] ∧ s.stack 1 = [(5, .semWait)] ∧ s.status 5 = .compiling ∧
      ∃! t, Initialising s t 5 := by
  obtain ⟨s, hcalls, heq⟩ := Option.map_eq_some_iff.mp waitingCalls_eq
  obtain ⟨hst, hfirst, hsecond⟩ : _ ∧ _ ∧ _ := by simpa only [Prod.mk.injEq] using heq
  obtain ⟨tr, hrun⟩ := exists_run_calls ⟨[], .start⟩ hcalls
  exact ⟨tr, s, hrun, hfirst, hsecond, (status_initialising hrun 5).resolve_right fun h => h.1 hst⟩

end Jato.Vm.ClassInit
