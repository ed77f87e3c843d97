import Jato.Vm.ClassLoaderInvariant

/-!
# Runs of the class loader

Every step keeps the invariant and makes the work that is left smaller (`Inv.advance`), some thread can always go on
(`Inv.progress`), and so the class loader does what it is for in every run if every load comes to an end (`loadCorrect`).
-/

namespace Jato.Vm.ClassLoader

open Jato.Lib List Function

variable {Loader Thread : Type} {env : Env Loader} {x : Entry Thread Loader} {f : Frame Loader}
  {l : List (Frame Loader)} {result : Option (Class Loader)} {r a : Answer Loader}

/-- The class is what the request is answered with. -/
def Returned (s : State env Thread) (q : Key Loader) (c : Class Loader) : Prop :=
  (∃ m, (server env).Evaluates (classloaderLoad env q) (.inl (some c)) m) ∨
    ∃ key m e x, (server env).Evaluates (classloaderLoad env q) (.inr key) m ∧ s.entries e = some x ∧ x.key = key ∧
      x.status = .loaded ∧ x.cls = some c

/-- Classes that have been loaded stay. -/
def Keeps (s s' : State env Thread) : Prop :=
  ∀ e x, s.entries e = some x → x.status = .loaded → ∃ x', s'.entries e = some x' ∧ x'.key = x.key ∧
    x'.status = .loaded ∧ x'.cls = x.cls

section

variable {s s' : State env Thread} {tr : List (Event Loader)} {w : Thread → Nat} {t : Thread} {ev : Event Loader}
  {q key : Key Loader} {e n : Nat} {rest : List (Frame Loader)}

theorem Returned.keeps {c : Class Loader} (hret : Returned s q c) (hkeeps : Keeps s s') : Returned s' q c := by
  refine hret.imp_right fun ⟨key, m, e, x, hbody, hx, hkey, hst, hcls⟩ => ?_
  obtain ⟨x', hx', hkey', hst', hcls'⟩ := hkeeps e x hx hst
  exact ⟨key, m, e, x', hbody, hx', hkey'.trans hkey, hst', hcls'.trans hcls⟩

theorem keeps_of_eq (hentries : s'.entries = s.entries) : Keeps s s' :=
  fun _ x hx hst => ⟨x, hentries ▸ hx, rfl, hst, rfl⟩

/-- An entry may change if it has not been loaded, or if its class stays. -/
theorem keeps_of_update {o : Option (Entry Thread Loader)} (hentries : s'.entries = update s.entries e o)
    (ho : ∀ x, s.entries e = some x → x.status = .loaded → ∃ x', o = some x' ∧ x'.key = x.key ∧ x'.status = .loaded ∧
      x'.cls = x.cls) : Keeps s s' := by
  intro e' x hx hst
  rw [hentries]
  by_cases he : e' = e
  · subst he
    rw [update_self]
    exact ho x hx hst
  · rw [update_of_ne he]
    exact ⟨x, hx, rfl, hst, rfl⟩

theorem Keeps.trans {s'' : State env Thread} (hkeeps : Keeps s s') (hkeeps' : Keeps s' s'') : Keeps s s'' := by
  intro e x hx hst
  obtain ⟨x', hx', hkey', hst', hcls'⟩ := hkeeps e x hx hst
  obtain ⟨x'', hx'', hkey'', hst'', hcls''⟩ := hkeeps' e x' hx' hst'
  exact ⟨x'', hx'', hkey''.trans hkey', hst'', hcls''.trans hcls'⟩

theorem not_mem_loads {l : Nat} (hgood : Good env (f :: rest) n)
    (hasks : f.Asks env key) (hload : (server env).Evaluates (loadEntry env key) r l) : (key, e) ∉ loads rest := by
  obtain ⟨_, _, _, hchain, -⟩ := hgood
  exact fun hmem => hload.not_transGen (hchain.asks key hasks _ hmem)

theorem nodup_suspended (hsus : Suspended env q rest n) : ((loads rest).map Prod.fst).Nodup := by
  induction rest generalizing q n with
  | nil => exact nodup_nil
  | cons f rest ih =>
    obtain ⟨a, c, f', m, m', -, hres, hok, hchain, hsus, -⟩ := hsus
    cases hres with
    | enter => exact ih hsus
    | @load q' key e k =>
      refine nodup_cons.mpr ⟨fun hmem => ?_, ih hsus⟩
      obtain ⟨r, _, l, _, -, hload, -⟩ := hok
      obtain ⟨p, hp, rfl⟩ := mem_map.mp hmem
      exact hload.not_transGen (hchain.asks p.1 rfl p hp)

/-- A thread does not load a class twice at once. -/
theorem nodup_loads (hgood : Good env l n) : ((loads l).map Prod.fst).Nodup := by
  cases l with
  | nil => exact nodup_nil
  | cons f rest =>
    obtain ⟨m, m', hok, hchain, hsus, -⟩ := hgood
    cases f with
    | load q key e task =>
      refine nodup_cons.mpr ⟨fun hmem => ?_, nodup_suspended hsus⟩
      obtain ⟨r, _, l, _, -, hload, -⟩ := hok
      obtain ⟨p, hp, rfl⟩ := mem_map.mp hmem
      exact hload.not_transGen (hchain.asks p.1 rfl p hp)
    | enter q task | wait q key e =>
      have hnodup := nodup_suspended hsus
      exact hnodup

theorem mem_loads_of_suspended (hsus : Suspended env q rest n) (hf : f ∈ rest) (he : f.entry? = some e) :
    ∃ key, (key, e) ∈ loads rest := by
  induction rest generalizing q n with
  | nil => cases hf
  | cons f' rest ih =>
    obtain ⟨_, _, _, _, _, _, hres, _, _, hsus, _⟩ := hsus
    rcases mem_cons.mp hf with rfl | hf
    · cases hres with
      | enter => cases he
      | load =>
        cases he
        exact ⟨_, mem_cons_self⟩
    · obtain ⟨key, hkey⟩ := ih hsus hf
      cases hres with
      | enter => exact ⟨key, hkey⟩
      | load => exact ⟨key, mem_cons_of_mem _ hkey⟩

variable [Fintype Thread] [DecidableEq Thread] [DecidableEq Loader]

structure Inv (s : State env Thread) (tr : List (Event Loader)) (w : Thread → Nat) : Prop where
  good : ∀ t, Good env (s.stack t) (w t)
  shared : Shared s
  returned : ∀ q c, .ret q (some c) ∈ tr → Returned s q c

section

variable (hinv : Inv s tr w) (hshared : Shared s') (hstack : ∀ u, u ≠ t → s'.stack u = s.stack u)
  (hgood : Good env (s'.stack t) n) (hkeeps : Keeps s s')

include hinv hshared hstack hgood hkeeps

theorem Inv.change : Inv s' tr (update w t n) := by
  refine ⟨fun u => ?_, hshared, fun q c hmem => (hinv.returned q c hmem).keeps hkeeps⟩
  by_cases hu : u = t
  · rw [hu, update_self]
    exact hgood
  · rw [update_of_ne hu, hstack u hu]
    exact hinv.good u

theorem Inv.next (hev : ∀ q c, ev = .ret q (some c) → Returned s' q c) : Inv s' (tr ++ [ev]) (update w t n) := by
  obtain ⟨hgood', -, hreturned⟩ := hinv.change hshared hstack hgood hkeeps
  refine ⟨hgood', hshared, fun q c hmem => ?_⟩
  rcases mem_append.mp hmem with hmem | hmem
  · exact hreturned q c hmem
  · exact hev q c (mem_singleton.mp hmem).symm

end

/-! ## Calls and returns -/

theorem Inv.setStack (hinv : Inv s tr w) (hloads : loads l = loads (s.stack t))
    (hwaits : waits l = waits (s.stack t)) (hgood : Good env l n) (hev : ∀ q c, ev = .ret q (some c) → Returned s q c) :
    Inv (s.setStack t l) (tr ++ [ev]) (update w t n) := by
  refine hinv.next (hinv.shared.setStack hloads hwaits) (fun u hu => ?_) ?_ (keeps_of_eq rfl) hev
  · rw [stack_setStack, if_neg hu]
  · rwa [stack_setStack, if_pos rfl]

theorem Inv.retEnter (hinv : Inv s tr w) (hstack : s.stack t = .enter q (.done (.inl result)) :: rest) :
    ∃ n < w t, Inv (s.ret t q result rest).1 (tr ++ [(s.ret t q result rest).2]) (update w t n) := by
  have hgood := hstack ▸ hinv.good t
  obtain ⟨m, m', hok, hchain, hsus, hw⟩ := hgood
  rcases hok with ⟨c, i, i', htask, hbody, rfl⟩ | ⟨key, _, _, _, _, htask, _⟩
  · cases htask
    have hcall : (server env).Calls q (result.map Class.classloader) (i' + 1) := .inl ⟨result, i', hbody, rfl, rfl⟩
    obtain ⟨⟨n, hlt, hgood'⟩, hloads, hwaits⟩ := good_return (f := .enter q (.done (.inl result))) (hstack ▸ hinv.good t) hcall
    refine ⟨n, hlt, hinv.setStack (hloads.trans ?_) (hwaits.trans ?_) hgood' fun q' c heq => ?_⟩
    · rw [hstack]
      rfl
    · rw [hstack]
      rfl
    · cases heq
      exact .inl ⟨i', hbody⟩
  · cases htask

/-! ## Loads that start -/

theorem keeps_startLoad (hs : Shared s) : Keeps s (s.startLoad t q key rest) := by
  refine keeps_of_update (e := s.nrEntries) rfl fun x hx => ?_
  exact absurd (hs.live _ x hx).2 (Nat.lt_irrefl _)

/-- A load starts from a state that differs from one with the invariant in the stack of its thread. -/
theorem Inv.startLoad (hinv : Inv s tr w) (hshared : Shared s') (hkeeps : Keeps s s')
    (hother : ∀ u, u ≠ t → s'.stack u = s.stack u) (hget : s'.classes.get key = none)
    (hstack : s'.stack t = .enter q (.done (.inr key)) :: rest)
    (hgood : Good env (.load q key s'.nrEntries (loadEntry env key) :: rest) n) :
    Inv (s'.startLoad t q key rest) (tr ++ [.none]) (update w t n) := by
  refine hinv.next (hshared.startLoad hget ?_ ?_) (fun u hu => ?_) ?_ (hkeeps.trans (keeps_startLoad hshared))
    fun q' c => nofun
  · rw [hstack]
    rfl
  · rw [hstack]
    rfl
  · exact (update_of_ne hu _ _).trans (hother u hu)
  · change Good env (update s'.stack t _ t) n
    rw [update_self]
    exact hgood

/-! ## Waiting -/

omit [DecidableEq Loader] in
theorem calls_of_wait (hgood : Good env (.wait q key e :: rest) n) : ∃ m r l, (server env).Calls q r (m + l + 3) ∧
    (server env).Evaluates (classloaderLoad env q) (.inr key) m ∧ (server env).Evaluates (loadEntry env key) r l := by
  obtain ⟨_, _, ⟨r, m, l, hbody, hload, -⟩, -⟩ := hgood
  exact ⟨m, r, l, .inr ⟨key, m, l, hbody, hload, rfl⟩, hbody, hload⟩

section

variable (hinv : Inv s tr w) (hstack : s.stack t = .wait q key e :: rest)

include hinv hstack

theorem Inv.retWait {l : Nat} (hx : s.entries e = some x) (hkey : x.key = key)
    (hload : (server env).Evaluates (loadEntry env key) (result.map Class.classloader) l)
    (hresult : ∀ c, result = some c → x.status = .loaded ∧ x.cls = some c) :
    ∃ n < w t, Inv (((s.setWoken t false).setEntry e (some { x with nrWaiting := x.nrWaiting - 1 })).ret t q result rest).1
      (tr ++ [.ret q result]) (update w t n) := by
  obtain ⟨m, r, l', hcall, hbody, hload'⟩ := calls_of_wait (hstack ▸ hinv.good t)
  obtain ⟨rfl, -⟩ := hload'.unique hload
  obtain ⟨⟨n, hlt, hgood⟩, hloads, hwaits⟩ := good_return (f := .wait q key e) (hstack ▸ hinv.good t) hcall
  have hwait : waits (s.stack t) = some (key, e) := by
    rw [hstack]
    rfl
  refine ⟨n, hlt, hinv.next (hinv.shared.endWait hwait hx (hloads.trans ?_) hwaits) (fun u hu => ?_) ?_
    (keeps_of_update rfl fun y hy hst => ?_) fun q' c heq => ?_⟩
  · rw [hstack]
    rfl
  · exact update_of_ne hu _ _
  · rw [State.ret, stack_setStack, if_pos rfl]
    exact hgood
  · cases hx.symm.trans hy
    exact ⟨_, rfl, rfl, hst, rfl⟩
  · cases heq
    obtain ⟨hst, hcls⟩ := hresult c rfl
    exact .inr ⟨key, m, e, { x with nrWaiting := x.nrWaiting - 1 }, hbody, update_self _ _ _, hkey, hst, hcls⟩

/-- The last thread that waits frees the entry and loads the class itself. -/
theorem Inv.retry
    (hx : s.entries e = some x) (hkey : x.key = key) (hst : x.status = .notFound) (hcount : x.nrWaiting - 1 = 0) :
    ∃ n < w t, Inv ((((s.setWoken t false).removeClass key).setEntry e none).startLoad t q key rest) (tr ++ [.none])
      (update w t n) := by
  subst hkey
  have hwait : waits (s.stack t) = some (x.key, e) := by
    rw [hstack]
    rfl
  -- the thread ceases to wait, frees the entry and begins anew
  have hend := hinv.shared.endWait (l := .enter q (.done (.inr x.key)) :: rest) hwait hx (by rw [hstack]; rfl) rfl
  have hfree := hend.free (x := { x with nrWaiting := x.nrWaiting - 1 }) (update_self _ _ _)
    (by rw [hst]; decide) hcount
  obtain ⟨n, hlt, hgood⟩ := good_load s.nrEntries (hstack ▸ hinv.good t)
  refine ⟨n, hlt, ?_⟩
  have hstart := hinv.startLoad (t := t) (q := q) hfree ?_ (fun u hu => update_of_ne hu _ _)
    ((HashMap.get_remove _ _ _).trans (if_pos rfl)) (update_self _ _ _) hgood
  · convert hstart using 1
    simp [State.startLoad, State.setEntry, State.setStack, State.removeClass, State.setWoken]
  · refine keeps_of_update (e := e) (o := none) ?_ fun y hy hyst => ?_
    · exact update_idem _ _ _
    · cases hx.symm.trans hy
      cases hst.symm.trans hyst

/-- **A thread that has been woken.** -/
theorem Inv.recheck (hadv : s.recheck t q key e rest = some (s', ev)) : ∃ n, Inv s' (tr ++ [ev]) (update w t n) ∧
      (n < w t ∨ n = w t ∧ s'.woken = update s.woken t false) := by
  obtain ⟨x, (hx : s.entries e = some x), (hkey : x.key = key), -⟩ :=
    hinv.shared.waiting t (key, e) (by rw [hstack]; rfl)
  obtain ⟨m, r, l, hcall, hbody, hload⟩ := calls_of_wait (hstack ▸ hinv.good t)
  have hsettled := hinv.shared.settled e x hx
  simp only [State.recheck, hx] at hadv
  split at hadv
  · rename_i hst
    cases hadv
    refine ⟨w t, hinv.next (hinv.shared.waitAgain hstack hx hst) (fun u hu => update_of_ne hu _ _) ?_
      (keeps_of_eq rfl) fun q' c => (by simp), .inr ⟨rfl, rfl⟩⟩
    rw [stack_setStack, if_pos rfl, ← hstack]
    exact hinv.good t
  · rename_i hst
    cases hadv
    obtain ⟨c, l', hcls, hload'⟩ := hsettled.loaded hst
    have hload'' : (server env).Evaluates (loadEntry env key) (x.cls.map Class.classloader) l' := by
      rw [hcls, ← hkey]
      exact hload'
    obtain ⟨n, hlt, hinv'⟩ := hinv.retWait hstack hx hkey hload'' fun c hc => ⟨hst, hc⟩
    exact ⟨n, hinv', .inl hlt⟩
  · rename_i hst
    split_ifs at hadv with hcount
    · cases hadv
      obtain ⟨n, hlt, hinv'⟩ := hinv.retry hstack hx hkey hst hcount
      exact ⟨n, hinv', .inl hlt⟩
    · cases hadv
      obtain ⟨l', hload'⟩ := hsettled.notFound hst
      have hload'' : (server env).Evaluates (loadEntry env key) ((none : Option (Class Loader)).map Class.classloader) l' :=
        hkey ▸ hload'
      obtain ⟨n, hlt, hinv'⟩ := hinv.retWait hstack hx hkey hload'' fun c => (by simp)
      exact ⟨n, hinv', .inl hlt⟩

end

/-! ## The table is locked -/

omit [DecidableEq Loader] in
theorem evaluates_of_enter (hgood : Good env (.enter q (.done (.inr key)) :: rest) n) :
    ∃ r l, (server env).Evaluates (loadEntry env key) r l := by
  obtain ⟨_, _, ⟨_, _, _, htask, _⟩ | ⟨key', r, _, _, l, htask, _, hload, _⟩, -⟩ := hgood
  · cases htask
  · cases htask
    exact ⟨r, l, hload⟩

omit [Fintype Thread] in
theorem recheck_setStack {b : Bool} :
    ((s.setWoken t b).setStack t l).recheck t q key e rest = s.recheck t q key e rest := by
  simp [State.recheck, State.setWoken, State.setStack, State.setEntry, State.removeClass, State.ret, State.startLoad]

section

variable (hinv : Inv s tr w)

include hinv

theorem Inv.findClass (hstack : s.stack t = .enter q (.done (.inr key)) :: rest)
    (hadv : s.findClass t q key rest = some (s', ev)) : ∃ n < w t, Inv s' (tr ++ [ev]) (update w t n) := by
  have hgood := hstack ▸ hinv.good t
  obtain ⟨r, l, hload⟩ := evaluates_of_enter hgood
  unfold State.findClass at hadv
  cases hget : s.classes.get key with
  | none =>
    simp only [hget] at hadv
    cases hadv
    obtain ⟨n, hlt, hwait⟩ := good_wait 0 hgood
    obtain ⟨n', hlt', hgood'⟩ := good_load s.nrEntries hwait
    exact ⟨n', Nat.lt_trans hlt' hlt,
      hinv.startLoad hinv.shared (keeps_of_eq rfl) (fun _ _ => rfl) hget hstack hgood'⟩
  | some e =>
    obtain ⟨x, hx, rfl⟩ := hinv.shared.table key e hget
    have hmine : ¬ (x.status = .loading ∧ x.loadingThread = t) := by
      rintro ⟨hst, rfl⟩
      have hmem := hinv.shared.owner e x hx hst
      rw [hstack] at hmem
      exact not_mem_loads hgood (.inr ⟨0, .done _⟩) hload hmem
    simp only [hget, hx, if_neg hmine] at hadv
    -- the thread begins to wait and looks at the entry at once
    obtain ⟨n, hlt, hwait⟩ := good_wait e hgood
    have hinv' : Inv (((s.setEntry e (some { x with nrWaiting := x.nrWaiting + 1 })).setWoken t true).setStack t
        (.wait q x.key e :: rest)) tr (update w t n) := by
      refine hinv.change (hinv.shared.beginWait hx ?_ ?_) (fun u hu => ?_) ?_ (keeps_of_update rfl fun y hy hst => ?_)
      · rw [hstack]
        rfl
      · rw [hstack]
        rfl
      · rw [stack_setStack, if_neg hu]
        rfl
      · rwa [stack_setStack, if_pos rfl]
      · cases hx.symm.trans hy
        exact ⟨_, rfl, rfl, hst, rfl⟩
    rw [← recheck_setStack] at hadv
    obtain ⟨n', hinv'', hle⟩ := hinv'.recheck ((stack_setStack).trans (if_pos rfl)) hadv
    rw [update_idem] at hinv''
    rw [update_self] at hle
    exact ⟨n', by omega, hinv''⟩

/-! ## The end of a load -/

theorem Inv.settle (x' : Entry Thread Loader) (result : Option (Class Loader))
    (hstack : s.stack t = .load q key e (.done (result.map Class.classloader)) :: rest) (hx : s.entries e = some x)
    (hkey : x'.key = x.key) (hthread : x'.loadingThread = x.loadingThread) (hcount : x'.nrWaiting = x.nrWaiting)
    (hst : x'.status = if result.isSome then .loaded else .notFound) (hcls : ∀ c, result = some c → x'.cls = some c)
    (m : Nat) :
    ∃ n < w t, Inv ((({ s with woken := fun _ => true, nrClasses := m } : State env Thread).setEntry e (some x')).ret
      t q result rest).1 (tr ++ [.ret q result]) (update w t n) := by
  have hgood := hstack ▸ hinv.good t
  obtain ⟨i, l, hbody, hload⟩ : ∃ i l, (server env).Evaluates (classloaderLoad env q) (.inr key) i ∧
      (server env).Evaluates (loadEntry env key) (result.map Class.classloader) l := by
    obtain ⟨_, _, ⟨r, i, l, _, hbody, hload, htask, -⟩, -⟩ := hgood
    cases htask
    exact ⟨i, l, hbody, hload⟩
  obtain ⟨y, (hy : s.entries e = some y), -, -, (hyk : y.key = key)⟩ :=
    hinv.shared.loading t (key, e) (by rw [hstack]; exact mem_cons_self)
  cases hx.symm.trans hy
  have hload' : (server env).Evaluates (loadEntry env x'.key) (result.map Class.classloader) l := by
    rwa [hkey, hyk]
  have hsettled : Settled env x' := by
    cases result with
    | none =>
      rw [Option.isSome_none, if_neg Bool.false_ne_true] at hst
      exact ⟨fun h => absurd (hst.symm.trans h) (by decide), fun _ => ⟨l, hload'⟩⟩
    | some c =>
      rw [Option.isSome_some, if_pos rfl] at hst
      exact ⟨fun _ => ⟨c, l, hcls c rfl, hload'⟩, fun h => absurd (hst.symm.trans h) (by decide)⟩
  have hne : x'.status ≠ .loading := by
    rw [hst]
    split_ifs <;> decide
  have hcall : (server env).Calls q (result.map Class.classloader) (i + l + 3) := .inr ⟨key, i, l, hbody, hload, rfl⟩
  obtain ⟨⟨n, hlt, hgood'⟩, hloads, hwaits⟩ := good_return (f := .load q key e _) hgood hcall
  refine ⟨n, hlt, hinv.next (hinv.shared.settle ?_ (not_mem_loads hgood rfl hload) ?_ hx hloads hwaits hkey hthread hcount
    hne hsettled m) (fun u hu => update_of_ne hu _ _) ?_ (keeps_of_update rfl fun z hz hzst => ?_) fun q' c heq => ?_⟩
  · rw [hstack]
    rfl
  · rw [hstack]
    rfl
  · rw [State.ret, stack_setStack, if_pos rfl]
    exact hgood'
  · cases hx.symm.trans hz
    have hloading := hinv.shared.status_of_loads (t := t) (p := (key, e)) (by rw [hstack]; exact mem_cons_self) hx
    cases hloading.symm.trans hzst
  · cases heq
    exact .inr ⟨key, i, e, x', hbody, update_self _ _ _, hkey.trans hyk, hst, hcls c rfl⟩

theorem Inv.finish (hstack : s.stack t = .load q key e (.done a) :: rest)
    (hadv : s.finish t q key e a rest = some (s', ev)) : ∃ n < w t, Inv s' (tr ++ [ev]) (update w t n) := by
  obtain ⟨x, (hx : s.entries e = some x), -, -, (hkey : x.key = key)⟩ :=
    hinv.shared.loading t (key, e) (by rw [hstack]; exact mem_cons_self)
  subst hkey
  cases a with
  | none =>
    obtain ⟨n, hlt, hinv'⟩ := hinv.settle { x with status := .notFound } none hstack hx rfl rfl rfl rfl (fun c => (by simp))
      s.nrClasses
    simp only [State.finish, hx] at hadv
    split_ifs at hadv with hcount
    · cases hadv
      refine ⟨n, hlt, ?_⟩
      have hfree := hinv'.shared.free (x := { x with status := .notFound }) (update_self _ _ _) (by simp) hcount
      have hlast := hinv'.change (t := t) hfree (fun _ _ => rfl) (hinv'.good t) (keeps_of_update rfl fun y hy hst => ?_)
      · rw [update_eq_self] at hlast
        convert hlast using 1
        simp [State.ret, State.setEntry, State.setStack, State.removeClass]
      · change update s.entries e _ e = some y at hy
        rw [update_self] at hy
        cases hy
        cases hst
    · cases hadv
      exact ⟨n, hlt, hinv'⟩
  | some loader =>
    simp only [State.finish, hx] at hadv
    cases hadv
    exact hinv.settle { x with cls := some ⟨s.nrClasses, loader⟩, status := .loaded } (some ⟨s.nrClasses, loader⟩) hstack hx
      rfl rfl rfl rfl (fun c hc => hc) _

/-! ## Steps -/

/-- **Every step of a thread keeps the invariant**, and less work is left or the thread waits again. -/
theorem Inv.advance (hadv : s.advance t = some (s', ev)) : ∃ n, Inv s' (tr ++ [ev]) (update w t n) ∧
      (n < w t ∨ n = w t ∧ s.woken t = true ∧ s'.woken = update s.woken t false) := by
  unfold State.advance at hadv
  split at hadv
  · cases hadv
  · rename_i hstack
    cases hadv
    obtain ⟨n, hlt, hgood⟩ := good_push_enter (hstack ▸ hinv.good t)
    exact ⟨n, hinv.setStack (by rw [hstack]; rfl) (by rw [hstack]; rfl) hgood fun q c => (by simp), .inl hlt⟩
  · rename_i hstack
    cases hadv
    obtain ⟨n, hlt, hinv'⟩ := hinv.retEnter hstack
    exact ⟨n, hinv', .inl hlt⟩
  · rename_i hstack
    obtain ⟨n, hlt, hinv'⟩ := hinv.findClass hstack hadv
    exact ⟨n, hinv', .inl hlt⟩
  · rename_i hstack
    split_ifs at hadv with hwoken
    obtain ⟨n, hinv', hle⟩ := hinv.recheck hstack hadv
    exact ⟨n, hinv', hle.imp_right fun ⟨heq, hw⟩ => ⟨heq, hwoken, hw⟩⟩
  · rename_i hstack
    cases hadv
    obtain ⟨n, hlt, hgood⟩ := good_push_load (hstack ▸ hinv.good t)
    exact ⟨n, hinv.setStack (by rw [hstack]; rfl) (by rw [hstack]; rfl) hgood fun q c => (by simp), .inl hlt⟩
  · rename_i hstack
    obtain ⟨n, hlt, hinv'⟩ := hinv.finish hstack hadv
    exact ⟨n, hinv', .inl hlt⟩

/-! ## The end of all calls -/

omit hinv in
omit [DecidableEq Loader] in
theorem sum_update_lt (hlt : n < w t) : ∑ u, update w t n u < ∑ u, w u := by
  refine Finset.sum_lt_sum (fun u _ => ?_) ⟨t, Finset.mem_univ t, ?_⟩
  · by_cases hu : u = t
    · rw [hu, update_self]
      exact Nat.le_of_lt hlt
    · rw [update_of_ne hu]
  · rwa [update_self]

theorem Inv.bounded : Acc (fun s' s : State env Thread => ∃ t ev, s.advance t = some (s', ev)) s := by
  -- first the work that is left, then the number of threads that have been woken
  induction hwork : ∑ u, w u using Nat.strongRecOn generalizing s tr w with
  | ind work ihwork =>
    induction hwoken : (Finset.univ.filter fun u => s.woken u = true).card using Nat.strongRecOn generalizing s tr w with
    | ind count ihcount =>
      subst hwork hwoken
      refine ⟨_, fun s' ⟨t, ev, hadv⟩ => ?_⟩
      obtain ⟨n, hinv', hlt | ⟨rfl, hw, hw'⟩⟩ := hinv.advance hadv
      · exact ihwork _ (sum_update_lt hlt) hinv' rfl
      · rw [update_eq_self] at hinv'
        refine ihcount _ (Finset.card_lt_card ⟨fun u hu => ?_, fun hsub => ?_⟩) hinv' rfl rfl
        · rw [Finset.mem_filter, hw'] at hu
          refine Finset.mem_filter.mpr ⟨Finset.mem_univ u, ?_⟩
          by_cases hut : u = t
          · rwa [hut]
          · rw [update_of_ne hut] at hu
            exact hu.2
        · have hmem := hsub (Finset.mem_filter.mpr ⟨Finset.mem_univ t, hw⟩)
          rw [Finset.mem_filter, hw', update_self] at hmem
          cases hmem.2

omit hinv in
omit [Fintype Thread] in
theorem isSome_recheck (hx : s.entries e = some x) : (s.recheck t q key e rest).isSome := by
  simp only [State.recheck, hx]
  split
  · rfl
  · rfl
  · split_ifs <;> rfl

omit hinv in
omit [Fintype Thread] in
theorem isSome_finish (hx : s.entries e = some x) : (s.finish t q key e a rest).isSome := by
  cases a with
  | none =>
    simp only [State.finish, hx]
    split_ifs <;> rfl
  | some loader =>
    simp only [State.finish, hx]
    rfl

omit hinv in
theorem isSome_findClass (hs : Shared s) : (s.findClass t q key rest).isSome := by
  unfold State.findClass
  cases hget : s.classes.get key with
  | none => rfl
  | some e =>
    obtain ⟨x, hx, -⟩ := hs.table key e hget
    simp only [hx]
    split_ifs
    · rfl
    · exact isSome_recheck (update_self _ _ _)

/-- The activation on top goes on, or waits for a class that is being loaded. -/
theorem Inv.top (hstack : s.stack t = f :: rest) : (s.advance t).isSome ∨
    ∃ q e x, f = .wait q x.key e ∧ s.entries e = some x ∧ x.status = .loading := by
  cases f with
  | enter q task =>
    refine .inl ?_
    match task with
    | .request _ _ | .done (.inl _) => simp only [State.advance, hstack, Option.isSome_some]
    | .done (.inr key) =>
      simp only [State.advance, hstack]
      exact isSome_findClass hinv.shared
  | wait q key e =>
    obtain ⟨x, (hx : s.entries e = some x), (hkey : x.key = key), hst⟩ :=
      hinv.shared.waiting t (key, e) (by rw [hstack]; rfl)
    cases hwoken : s.woken t with
    | true =>
      refine .inl ?_
      simp only [State.advance, hstack, hwoken, if_true]
      exact isSome_recheck hx
    | false => exact .inr ⟨q, e, x, by rw [hkey], hx, hst hwoken⟩
  | load q key e task =>
    refine .inl ?_
    obtain ⟨x, hx, -⟩ := hinv.shared.loading t (key, e) (by rw [hstack]; exact mem_cons_self)
    cases task with
    | request _ _ => simp only [State.advance, hstack, Option.isSome_some]
    | done a =>
      simp only [State.advance, hstack]
      exact isSome_finish hx

theorem Inv.advance_of_loading {l : Nat}
    (hx : s.entries e = some x) (hst : x.status = .loading) (hload : (server env).Evaluates (loadEntry env x.key) r l) :
    ∃ t, (s.advance t).isSome := by
  induction l using Nat.strongRecOn generalizing e x r with
  | ind l ih =>
    have hmem := hinv.shared.owner e x hx hst
    cases hstack : s.stack x.loadingThread with
    | nil =>
      rw [hstack] at hmem
      cases hmem
    | cons f rest =>
      rcases hinv.top hstack with hadv | ⟨q, e', x', rfl, hx', hst'⟩
      · exact ⟨_, hadv⟩
      · rw [hstack] at hmem
        obtain ⟨_, _, _, hchain, -⟩ := hstack ▸ hinv.good x.loadingThread
        obtain ⟨r', l', hload', hlt⟩ := hload.of_transGen (hchain.asks x'.key rfl _ hmem)
        exact ih l' hlt hx' hst' hload'

theorem Inv.progress (hcall : ∃ t, s.stack t ≠ []) : ∃ t, (s.advance t).isSome := by
  obtain ⟨t, ht⟩ := hcall
  obtain ⟨f, rest, hstack⟩ := exists_cons_of_ne_nil ht
  rcases hinv.top hstack with hadv | ⟨q, e, x, rfl, hx, hst⟩
  · exact ⟨t, hadv⟩
  · obtain ⟨_, r, l, _, _, hload⟩ := calls_of_wait (hstack ▸ hinv.good t)
    exact hinv.advance_of_loading hx hst hload

/-! ## Loads in progress -/

omit hinv in
omit [Fintype Thread] [DecidableEq Thread] in
theorem countP_loads (l : List (Frame Loader)) : l.countP (Frame.loads key) = ((loads l).map Prod.fst).count key := by
  induction l with
  | nil => rfl
  | cons f l ih =>
    cases f with
    | load q key' e task =>
      rw [countP_cons, ih, loads, map_cons, count_cons]
      simp [Frame.loads]
    | _ =>
      rw [countP_cons_of_neg Bool.false_ne_true]
      exact ih

omit [DecidableEq Thread] in
theorem Inv.oneLoad (key : Key Loader) : (∀ t, (s.stack t).countP (Frame.loads key) ≤ 1) ∧
    ∀ t u, 0 < (s.stack t).countP (Frame.loads key) → 0 < (s.stack u).countP (Frame.loads key) → t = u := by
  simp only [countP_loads]
  refine ⟨fun t => nodup_iff_count_le_one.mp (nodup_loads (hinv.good t)) key, fun t u ht hu => ?_⟩
  obtain ⟨p, hp, rfl⟩ := mem_map.mp (count_pos_iff.mp ht)
  obtain ⟨p', hp', heq⟩ := mem_map.mp (count_pos_iff.mp hu)
  obtain ⟨x, hx, -, hxt, hxk⟩ := hinv.shared.loading t p hp
  obtain ⟨x', hx', -, hxt', hxk'⟩ := hinv.shared.loading u p' hp'
  have hget := (hinv.shared.live p.2 x hx).1
  have hget' := (hinv.shared.live p'.2 x' hx').1
  rw [hxk', heq, ← hxk, hget] at hget'
  rw [← Option.some.inj hget', hx] at hx'
  cases hx'
  exact hxt.symm.trans hxt'

omit [DecidableEq Thread] in
theorem Inv.sameClass {c c' : Class Loader} (hc : .ret q (some c) ∈ tr) (hc' : .ret q (some c') ∈ tr) : c = c' := by
  rcases hinv.returned q c hc with ⟨m, hbody⟩ | ⟨key, m, e, x, hbody, hx, hkey, -, hcls⟩
  · rcases hinv.returned q c' hc' with ⟨m', hbody'⟩ | ⟨key', m', e', x', hbody', -⟩
    · cases (hbody.unique hbody').1
      rfl
    · cases (hbody.unique hbody').1
  · rcases hinv.returned q c' hc' with ⟨m', hbody'⟩ | ⟨key', m', e', x', hbody', hx', hkey', -, hcls'⟩
    · cases (hbody.unique hbody').1
    · cases (hbody.unique hbody').1
      have hget := (hinv.shared.live e x hx).1
      have hget' := (hinv.shared.live e' x' hx').1
      rw [hkey', ← hkey, hget] at hget'
      rw [← Option.some.inj hget', hx] at hx'
      cases hx'
      exact Option.some.inj (hcls.symm.trans hcls')

omit [DecidableEq Thread] in
theorem Inv.notFreed (hf : f ∈ s.stack t) (he : f.entry? = some e) : s.entries e ≠ none := by
  have hof p (hp : p ∈ loads (s.stack t)) : s.entries p.2 ≠ none := by
    obtain ⟨x, hx, -⟩ := hinv.shared.loading t p hp
    rw [hx]
    simp
  have hgood := hinv.good t
  cases hstack : s.stack t with
  | nil =>
    rw [hstack] at hf
    cases hf
  | cons f' rest =>
    rw [hstack] at hf hgood hof
    obtain ⟨_, _, _, _, hsus, _⟩ := hgood
    rcases mem_cons.mp hf with rfl | hf
    · cases f with
      | enter => cases he
      | wait q key e' =>
        cases he
        obtain ⟨x, (hx : s.entries e = some x), -⟩ := hinv.shared.waiting t (key, e) (by rw [hstack]; rfl)
        rw [hx]
        simp
      | load q key e' task =>
        cases he
        exact hof (key, e) mem_cons_self
    · obtain ⟨key, hkey⟩ := mem_loads_of_suspended hsus hf he
      refine hof (key, e) ?_
      cases f' with
      | load => exact mem_cons_of_mem _ hkey
      | _ => exact hkey

end

/-! ## Every run -/

omit [DecidableEq Thread] in
theorem shared_initial : Shared (initial : State env Thread) where
  table key e hget := by
    cases (HashMap.get_empty key (by decide)).symm.trans hget
  live _ _ hx := nomatch hx
  loading _ _ hp := absurd hp not_mem_nil
  waiting _ _ hp := nomatch hp
  owner _ _ hx := nomatch hx
  nrWaiting _ _ hx := nomatch hx
  settled _ _ hx := nomatch hx

theorem inv_of_run (hload : ∀ key, (server env).Loadable key) (hrun : Run tr s) : ∃ w, Inv s tr w := by
  induction hrun with
  | start =>
    exact ⟨fun _ => 0, fun _ => rfl, shared_initial, fun _ _ hmem => absurd hmem not_mem_nil⟩
  | step _ hstep ih =>
    obtain ⟨w, hinv⟩ := ih
    cases hstep with
    | call request hstack =>
      obtain ⟨x, m, hbody⟩ := Server.evaluates_body request fun key _ => hload key
      have hcalls : ∃ a c, (server env).Calls request a c := by
        cases x with
        | inl c => exact ⟨_, _, .inl ⟨c, m, hbody, rfl, rfl⟩⟩
        | inr key =>
          obtain ⟨r, l, hl⟩ := hload key
          exact ⟨r, _, .inr ⟨key, m, l, hbody, hl, rfl⟩⟩
      obtain ⟨n, hgood⟩ := good_call hcalls
      exact ⟨_, hinv.setStack (by rw [hstack]; rfl) (by rw [hstack]; rfl) hgood fun q c => (by simp)⟩
    | act hadv =>
      obtain ⟨n, hinv', -⟩ := hinv.advance hadv
      exact ⟨_, hinv'⟩

/-- **The class loader does what it is for in every run if every load comes to an end.** -/
theorem loadCorrect_of_loadable (hload : ∀ key, (server env).Loadable key) (hrun : Run tr s) : LoadCorrect tr s := by
  obtain ⟨w, hinv⟩ := inv_of_run hload hrun
  exact ⟨hinv.oneLoad, fun _ _ _ => hinv.sameClass, fun _ _ hf _ => hinv.notFreed hf, hinv.progress, hinv.bounded⟩

end

end Jato.Vm.ClassLoader
