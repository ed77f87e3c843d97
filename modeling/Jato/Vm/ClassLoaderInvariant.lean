import Mathlib.Algebra.BigOperators.Group.Finset.Piecewise
import Mathlib.Algebra.Order.BigOperators.Group.Finset
import Jato.Vm.ClassLoaderRequests

/-!
# The invariant of the class loader

Two parts. The activations of a thread wait for each other along requests, and each has a bound for the steps that it still
takes (`Good`): a push, a return and an end of a task make the bound of the stack smaller. The table, the entries and the
activations that refer to them fit together (`Shared`).
-/

namespace Jato.Vm.ClassLoader

open Jato.Lib Function

variable {Loader : Type} {env : Env Loader} {k : Answer Loader → Task (Key Loader) (Answer Loader) _}
  {rest : List (Frame Loader)} {key q : Key Loader} {p : Key Loader × Nat} {result : Option (Class Loader)} {e c : Nat}

/-! ## Stacks of activations -/

def Frame.request : Frame Loader → Key Loader
  | .enter q _ => q
  | .wait q _ _ => q
  | .load q _ _ _ => q

/-- The activation comes to an end in the given number of steps of its own, and with what its request is answered. -/
def FrameOk (env : Env Loader) : Frame Loader → Nat → Prop
  | .enter q task, n =>
    (∃ c m m', (server env).Evaluates task (.inl c) m ∧ (server env).Evaluates (classloaderLoad env q) (.inl c) m' ∧
      n = m + 1) ∨
    ∃ key r m m' l, (server env).Evaluates task (.inr key) m ∧
      (server env).Evaluates (classloaderLoad env q) (.inr key) m' ∧
      (server env).Evaluates (loadEntry env key) r l ∧ n = m + l + 3
  | .wait q key _, n => ∃ r m l, (server env).Evaluates (classloaderLoad env q) (.inr key) m ∧
      (server env).Evaluates (loadEntry env key) r l ∧ n = l + 2
  | .load q key _ task, n => ∃ r m l m', (server env).Evaluates (classloaderLoad env q) (.inr key) m ∧
      (server env).Evaluates (loadEntry env key) r l ∧ (server env).Evaluates task r m' ∧ n = m' + 1

/-- The keys that the activation works for. -/
def Frame.Asks (env : Env Loader) : Frame Loader → Key Loader → Prop
  | .enter _ task, key => (server env).Reaches task key ∨ ∃ m, (server env).Evaluates task (.inr key) m
  | .wait _ key' _, key => key = key'
  | .load _ key' _ _, key => key = key'

/-- A load asks for what its task asks for. -/
def Frame.Within (env : Env Loader) : Frame Loader → Prop
  | .load _ key _ task => ∀ key', (server env).Reaches task key' → (server env).Requests key key'
  | _ => True

/-- The loads of a stack, with their entries. -/
def loads : List (Frame Loader) → List (Key Loader × Nat)
  | [] => []
  | .load _ key e _ :: rest => (key, e) :: loads rest
  | _ :: rest => loads rest

/-- The entry that a stack waits for. -/
def waits : List (Frame Loader) → Option (Key Loader × Nat)
  | .wait _ key e :: _ => some (key, e)
  | _ => none

theorem waits_wait : waits (.wait q key e :: rest) = some (key, e) := rfl

/-- The loads below have asked for what the activation works for. -/
structure Chained (env : Env Loader) (f : Frame Loader) (rest : List (Frame Loader)) : Prop where
  asks : ∀ key, f.Asks env key → ∀ p ∈ loads rest, Relation.TransGen (server env).Requests p.1 key
  within : f.Within env

/-- The activation goes on with the answer to its request. -/
inductive Resumes (q : Key Loader) (a : Answer Loader) : Frame Loader → Frame Loader → Prop
  | enter {q' k} : Resumes q a (.enter q' (.request q k)) (.enter q' (k a))
  | load {q' key e k} : Resumes q a (.load q' key e (.request q k)) (.load q' key e (k a))

/-- The activations below the one for the request, and the steps that they take after its return. -/
def Suspended (env : Env Loader) (q : Key Loader) : List (Frame Loader) → Nat → Prop
  | [], n => n = 0
  | f :: rest, n => ∃ a c f' m m', (server env).Calls q a c ∧ Resumes q a f f' ∧ FrameOk env f' m ∧
      Chained env f rest ∧ Suspended env f.request rest m' ∧ n = m + m'

def Good (env : Env Loader) : List (Frame Loader) → Nat → Prop
  | [], n => n = 0
  | f :: rest, n => ∃ m m', FrameOk env f m ∧ Chained env f rest ∧ Suspended env f.request rest m' ∧ n = m + m'

section

variable {f f' : Frame Loader} {rest : List (Frame Loader)} {q q' : Key Loader} {a : Answer Loader} {n : Nat}

theorem Resumes.request_eq (hres : Resumes q a f f') : f'.request = f.request := by
  cases hres <;> rfl

theorem Resumes.loads_eq (hres : Resumes q a f f') : loads (f' :: rest) = loads (f :: rest) := by
  cases hres <;> rfl

theorem Resumes.waits_eq (hres : Resumes q a f f') : waits (f' :: rest) = none := by
  cases hres <;> rfl

theorem Chained.resumes (hchain : Chained env f rest) (hres : Resumes q a f f')
    (hcall : (server env).Calls q a c) : Chained env f' rest := by
  cases hres with
  | enter =>
    refine ⟨fun key hkey => hchain.asks key ?_, trivial⟩
    rcases hkey with hreach | ⟨m, heval⟩
    · exact .inl (.later hcall hreach)
    · exact .inr ⟨_, Server.evaluates_request.mpr ⟨_, _, _, hcall, heval, rfl⟩⟩
  | load => exact ⟨hchain.asks, fun key hreach => hchain.within key (.later hcall hreach)⟩

theorem FrameOk.pos (hok : FrameOk env f n) : 0 < n := by
  cases f with
  | enter =>
    rcases hok with ⟨_, _, _, _, _, rfl⟩ | ⟨_, _, _, _, _, _, _, _, rfl⟩
    · exact Nat.succ_pos _
    · exact Nat.succ_pos _
  | wait =>
    obtain ⟨_, _, _, _, _, rfl⟩ := hok
    exact Nat.succ_pos _
  | load =>
    obtain ⟨_, _, _, _, _, _, _, rfl⟩ := hok
    exact Nat.succ_pos _

/-- The steps for a request are those of its answer and those behind it. -/
theorem frameOk_enter (hok : FrameOk env (.enter q' (.request q k)) n) :
    ∃ a c m, (server env).Calls q a c ∧ FrameOk env (.enter q' (k a)) m ∧ n = c + m + 1 := by
  rcases hok with ⟨r, m, m', htask, hbody, rfl⟩ | ⟨key, r, m, m', l, htask, hbody, hload, rfl⟩
  · obtain ⟨a, c, i, hcall, hk, rfl⟩ := Server.evaluates_request.mp htask
    exact ⟨a, c, i + 1, hcall, .inl ⟨r, i, m', hk, hbody, rfl⟩, by omega⟩
  · obtain ⟨a, c, i, hcall, hk, rfl⟩ := Server.evaluates_request.mp htask
    exact ⟨a, c, i + l + 3, hcall, .inr ⟨key, r, i, m', l, hk, hbody, hload, rfl⟩, by omega⟩

theorem frameOk_load (hok : FrameOk env (.load q' key e (.request q k)) n) :
    ∃ a c m, (server env).Calls q a c ∧ FrameOk env (.load q' key e (k a)) m ∧ n = c + m + 1 := by
  obtain ⟨r, m, l, m', hbody, hload, htask, rfl⟩ := hok
  obtain ⟨a, c, i, hcall, hk, rfl⟩ := Server.evaluates_request.mp htask
  exact ⟨a, c, i + 1, hcall, ⟨r, m, l, i, hbody, hload, hk, rfl⟩, by omega⟩

theorem frameOk_of_calls (hcall : (server env).Calls q a c) : FrameOk env (.enter q (classloaderLoad env q)) c := by
  rcases hcall with ⟨r, m, hbody, rfl, rfl⟩ | ⟨key, m, l, hbody, hload, rfl⟩
  · exact .inl ⟨r, m, m, hbody, hbody, rfl⟩
  · exact .inr ⟨key, a, m, m, l, hbody, hbody, hload, rfl⟩

theorem good_call (hq : ∃ a c, (server env).Calls q a c) : ∃ n, Good env [.enter q (classloaderLoad env q)] n := by
  obtain ⟨a, c, hcall⟩ := hq
  exact ⟨c, c, 0, frameOk_of_calls hcall, ⟨fun _ _ p hp => absurd hp List.not_mem_nil, trivial⟩, rfl, rfl⟩


theorem good_push_enter (hgood : Good env (.enter q' (.request q k) :: rest) n) :
    ∃ n' < n, Good env (.enter q (classloaderLoad env q) :: .enter q' (.request q k) :: rest) n' := by
  obtain ⟨m, m', hok, hchain, hsus, rfl⟩ := hgood
  obtain ⟨a, c, i, hcall, hok', rfl⟩ := frameOk_enter hok
  refine ⟨c + (i + m'), by omega, c, i + m', frameOk_of_calls hcall, ⟨fun key hkey => ?_, trivial⟩,
    ⟨a, c, _, i, m', hcall, .enter, hok', hchain, hsus, rfl⟩, rfl⟩
  exact hchain.asks key (.inl (Server.Pending.reaches hkey))

theorem good_push_load (hgood : Good env (.load q' key e (.request q k) :: rest) n) :
    ∃ n' < n, Good env (.enter q (classloaderLoad env q) :: .load q' key e (.request q k) :: rest) n' := by
  obtain ⟨m, m', hok, hchain, hsus, rfl⟩ := hgood
  obtain ⟨a, c, i, hcall, hok', rfl⟩ := frameOk_load hok
  refine ⟨c + (i + m'), by omega, c, i + m', frameOk_of_calls hcall, ⟨fun key' hkey' p hp => ?_, trivial⟩,
    ⟨a, c, _, i, m', hcall, .load, hok', hchain, hsus, rfl⟩, rfl⟩
  have hreq := hchain.within key' (Server.Pending.reaches hkey')
  rcases List.mem_cons.mp hp with rfl | hp
  · exact .single hreq
  · exact (hchain.asks key rfl p hp).tail hreq

theorem Suspended.returnTo (hsus : Suspended env q rest n)
    (hcall : (server env).Calls q (result.map Class.classloader) c) :
    Good env (State.returnTo result rest) n ∧ loads (State.returnTo result rest) = loads rest ∧
      waits (State.returnTo result rest) = none := by
  cases rest with
  | nil => exact ⟨hsus, rfl, rfl⟩
  | cons f rest =>
    obtain ⟨a, c', f', m, m', hcall', hres, hok, hchain, hsus, rfl⟩ := hsus
    obtain ⟨rfl, -⟩ := hcall'.unique hcall
    have heq : State.returnTo result (f :: rest) = f' :: rest := by
      cases hres <;> rfl
    rw [heq]
    exact ⟨⟨m, m', hok, hchain.resumes hres hcall, hres.request_eq ▸ hsus, rfl⟩, hres.loads_eq, hres.waits_eq⟩

theorem good_return (hgood : Good env (f :: rest) n)
    (hcall : (server env).Calls f.request (result.map Class.classloader) c) :
    (∃ n' < n, Good env (State.returnTo result rest) n') ∧ loads (State.returnTo result rest) = loads rest ∧
      waits (State.returnTo result rest) = none := by
  obtain ⟨m, m', hok, hchain, hsus, rfl⟩ := hgood
  obtain ⟨hgood', hloads, hwaits⟩ := hsus.returnTo hcall
  exact ⟨⟨m', Nat.lt_add_of_pos_left hok.pos, hgood'⟩, hloads, hwaits⟩

theorem good_wait (e : Nat) (hgood : Good env (.enter q (.done (.inr key)) :: rest) n) :
    ∃ n' < n, Good env (.wait q key e :: rest) n' := by
  obtain ⟨m, m', hok, hchain, hsus, rfl⟩ := hgood
  rcases hok with ⟨_, _, _, htask, _⟩ | ⟨key', r, i, i', l, htask, hbody, hload, rfl⟩
  · cases htask
  · cases htask
    refine ⟨l + 2 + m', by omega, l + 2, m', ⟨r, i', l, hbody, hload, rfl⟩, ⟨fun key' hkey' => ?_, trivial⟩, hsus, rfl⟩
    obtain rfl : key' = key := hkey'
    exact hchain.asks key' (.inr ⟨0, .done _⟩)

theorem good_load (e' : Nat) (hgood : Good env (.wait q key e :: rest) n) :
    ∃ n' < n, Good env (.load q key e' (loadEntry env key) :: rest) n' := by
  obtain ⟨m, m', ⟨r, i, l, hbody, hload, rfl⟩, hchain, hsus, rfl⟩ := hgood
  exact ⟨l + 1 + m', by omega, l + 1, m', ⟨r, i, l, l, hbody, hload, hload, rfl⟩, ⟨hchain.asks, fun _ hreach => hreach⟩,
    hsus, rfl⟩

end

/-! ## Entries and the activations that refer to them -/

section

variable {Thread : Type} [Fintype Thread] [DecidableEq Thread] [DecidableEq Loader]

/-- The entry tells how its load has ended. -/
structure Settled (env : Env Loader) (x : Entry Thread Loader) : Prop where
  loaded : x.status = .loaded → ∃ c l, x.cls = some c ∧
    (server env).Evaluates (loadEntry env x.key) (some c.classloader) l
  notFound : x.status = .notFound → ∃ l, (server env).Evaluates (loadEntry env x.key) none l

/-- The threads that wait for an entry. -/
def waiters (stack : Thread → List (Frame Loader)) (e : Nat) : Finset Thread :=
  Finset.univ.filter fun t => (waits (stack t)).map Prod.snd = some e

structure Shared (s : State env Thread) : Prop where
  table : ∀ key e, s.classes.get key = some e → ∃ x, s.entries e = some x ∧ x.key = key
  live : ∀ e x, s.entries e = some x → s.classes.get x.key = some e ∧ e < s.nrEntries
  loading : ∀ t, ∀ p ∈ loads (s.stack t), ∃ x, s.entries p.2 = some x ∧ x.status = .loading ∧ x.loadingThread = t ∧
    x.key = p.1
  waiting : ∀ t p, waits (s.stack t) = some p → ∃ x, s.entries p.2 = some x ∧ x.key = p.1 ∧
    (s.woken t = false → x.status = .loading)
  owner : ∀ e x, s.entries e = some x → x.status = .loading → (x.key, e) ∈ loads (s.stack x.loadingThread)
  nrWaiting : ∀ e x, s.entries e = some x → x.nrWaiting = (waiters s.stack e).card
  settled : ∀ e x, s.entries e = some x → Settled env x

variable {s s' : State env Thread} {t u : Thread} {l : List (Frame Loader)} {e : Nat} {x x' : Entry Thread Loader}

omit [Fintype Thread] [DecidableEq Loader] in
theorem stack_setStack : (s.setStack t l).stack u = if u = t then l else s.stack u := update_apply _ _ _ _

omit [Fintype Thread] [DecidableEq Loader] in
theorem loads_setStack (hl : loads l = loads (s.stack t)) (u : Thread) :
    loads ((s.setStack t l).stack u) = loads (s.stack u) := by
  rw [stack_setStack]
  split_ifs with hu
  · rw [hl, hu]
  · rfl

omit [Fintype Thread] [DecidableEq Loader] in
theorem waits_setStack (hl : waits l = waits (s.stack t)) (u : Thread) :
    waits ((s.setStack t l).stack u) = waits (s.stack u) := by
  rw [stack_setStack]
  split_ifs with hu
  · rw [hl, hu]
  · rfl

theorem Shared.setStack (hs : Shared s) (hloads : loads l = loads (s.stack t)) (hwaits : waits l = waits (s.stack t)) :
    Shared (s.setStack t l) where
  table := hs.table
  live := hs.live
  loading u p hp := hs.loading u p (loads_setStack hloads u ▸ hp)
  waiting u p hp := hs.waiting u p (waits_setStack hwaits u ▸ hp)
  owner e x hx hst := (loads_setStack hloads _).symm ▸ hs.owner e x hx hst
  nrWaiting e x hx := by
    rw [hs.nrWaiting e x hx, waiters, waiters]
    simp only [waits_setStack hwaits]
  settled := hs.settled

omit [DecidableEq Loader] in
/-- A thread that begins or ceases to wait changes the number of those that do. -/
theorem card_waiters (e' : Nat) :
    (waiters (s.setStack t l).stack e').card + (if (waits (s.stack t)).map Prod.snd = some e' then 1 else 0) =
      (waiters s.stack e').card + if (waits l).map Prod.snd = some e' then 1 else 0 := by
  rw [waiters, waiters, Finset.card_filter, Finset.card_filter, ← Finset.add_sum_erase _ _ (Finset.mem_univ t),
    ← Finset.add_sum_erase _ _ (Finset.mem_univ t)]
  have hrest : ∀ u ∈ Finset.univ.erase t, (if (waits ((s.setStack t l).stack u)).map Prod.snd = some e' then 1 else 0) =
      if (waits (s.stack u)).map Prod.snd = some e' then 1 else 0 := fun u hu => by
    rw [stack_setStack, if_neg (Finset.ne_of_mem_erase hu)]
  rw [Finset.sum_congr rfl hrest, stack_setStack, if_pos rfl]
  omega

theorem Shared.change (hs : Shared s) (hx : s.entries e = some x)
    (hclasses : s'.classes = s.classes) (hentries : s'.entries = update s.entries e (some x'))
    (hnr : s'.nrEntries = s.nrEntries) (hstack : s'.stack = update s.stack t l)
    (hkey : x'.key = x.key) (hthread : x'.loadingThread = x.loadingThread)
    (hloads : ∀ p, p ∈ loads l ↔ p ∈ loads (s.stack t) ∧ (p.2 = e → x'.status = .loading))
    (hstatus : x'.status = .loading → x.status = .loading)
    (hmine : x.status = .loading → x'.status ≠ .loading → x.loadingThread = t) (hsettled : Settled env x')
    (hcount : ∀ e', (if (waits l).map Prod.snd = some e' then 1 else 0) + (if e' = e then x.nrWaiting else 0) =
      (if (waits (s.stack t)).map Prod.snd = some e' then 1 else 0) + if e' = e then x'.nrWaiting else 0)
    (hwaits : ∀ p, waits l = some p → p = (x.key, e) ∧ (s'.woken t = false → x'.status = .loading))
    (hwoken : ∀ u, u ≠ t → s'.woken u = false → s.woken u = false ∧ x'.status = x.status) : Shared s' := by
  have hself : s'.entries e = some x' := by rw [hentries, update_self]
  have hother e' (hne : e' ≠ e) : s'.entries e' = s.entries e' := by rw [hentries, update_of_ne hne]
  have hstackt : s'.stack t = l := by rw [hstack, update_self]
  have hstacku u (hne : u ≠ t) : s'.stack u = s.stack u := by rw [hstack, update_of_ne hne]
  constructor
  · intro key e' hget
    rw [hclasses] at hget
    obtain ⟨y, hy, rfl⟩ := hs.table key e' hget
    by_cases he : e' = e
    · subst he
      cases hx.symm.trans hy
      exact ⟨x', hself, hkey⟩
    · exact ⟨y, (hother e' he).trans hy, rfl⟩
  · intro e' y hy
    rw [hclasses, hnr]
    by_cases he : e' = e
    · subst he
      cases hself.symm.trans hy
      rw [hkey]
      exact hs.live e' x hx
    · exact hs.live e' y ((hother e' he).symm.trans hy)
  · intro u p hp
    by_cases hu : u = t
    · rw [hu, hstackt] at hp
      obtain ⟨hp, hst⟩ := (hloads p).mp hp
      obtain ⟨y, hy, hyst, hyt, hyk⟩ := hs.loading t p hp
      by_cases he : p.2 = e
      · rw [he] at hy
        cases hx.symm.trans hy
        exact ⟨x', he ▸ hself, hst he, hthread.trans (hyt.trans hu.symm), hkey.trans hyk⟩
      · exact ⟨y, (hother _ he).trans hy, hyst, hyt.trans hu.symm, hyk⟩
    · rw [hstacku u hu] at hp
      obtain ⟨y, hy, hyst, hyt, hyk⟩ := hs.loading u p hp
      by_cases he : p.2 = e
      · rw [he] at hy
        cases hx.symm.trans hy
        have hst : x'.status = .loading := by
          by_contra hst
          exact hu (hyt.symm.trans (hmine hyst hst))
        exact ⟨x', he ▸ hself, hst, hthread.trans hyt, hkey.trans hyk⟩
      · exact ⟨y, (hother _ he).trans hy, hyst, hyt, hyk⟩
  · intro u p hp
    by_cases hu : u = t
    · rw [hu, hstackt] at hp
      obtain ⟨rfl, hst⟩ := hwaits p hp
      exact ⟨x', hself, hkey, hu ▸ hst⟩
    · rw [hstacku u hu] at hp
      obtain ⟨y, hy, hyk, hyst⟩ := hs.waiting u p hp
      by_cases he : p.2 = e
      · rw [he] at hy
        cases hx.symm.trans hy
        exact ⟨x', he ▸ hself, hkey.trans hyk, fun hw => (hwoken u hu hw).2.trans (hyst (hwoken u hu hw).1)⟩
      · exact ⟨y, (hother _ he).trans hy, hyk, fun hw => hyst (hwoken u hu hw).1⟩
  · intro e' y hy hst
    have hmem (hold : (y.key, e') ∈ loads (s.stack y.loadingThread)) (hnew : e' = e → x'.status = .loading) :
        (y.key, e') ∈ loads (s'.stack y.loadingThread) := by
      by_cases hu : y.loadingThread = t
      · rw [hu, hstackt]
        exact (hloads _).mpr ⟨hu ▸ hold, hnew⟩
      · rwa [hstacku _ hu]
    by_cases he : e' = e
    · subst he
      cases hself.symm.trans hy
      refine hmem ?_ fun _ => hst
      rw [hkey, hthread]
      exact hs.owner e' x hx (hstatus hst)
    · exact hmem (hs.owner e' y ((hother e' he).symm.trans hy) hst) fun h => absurd h he
  · intro e' y hy
    have hcard := card_waiters (s := s) (t := t) (l := l) e'
    have hc := hcount e'
    rw [hstack]
    change y.nrWaiting = (waiters (s.setStack t l).stack e').card
    by_cases he : e' = e
    · subst he
      cases hself.symm.trans hy
      rw [if_pos rfl, if_pos rfl, hs.nrWaiting e' x hx] at hc
      omega
    · rw [if_neg he, if_neg he] at hc
      rw [hs.nrWaiting e' y ((hother e' he).symm.trans hy)]
      omega
  · intro e' y hy
    by_cases he : e' = e
    · subst he
      cases hself.symm.trans hy
      exact hsettled
    · exact hs.settled e' y ((hother e' he).symm.trans hy)

omit [DecidableEq Thread] in
theorem Shared.status_of_loads (hs : Shared s) (hp : p ∈ loads (s.stack t))
    (hx : s.entries p.2 = some x) : x.status = .loading := by
  obtain ⟨y, hy, hst, -⟩ := hs.loading t p hp
  cases hx.symm.trans hy
  exact hst

section

variable (hs : Shared s)

include hs

omit [DecidableEq Thread] in
theorem Shared.nrWaiting_pos (hp : waits (s.stack t) = some p) (hx : s.entries p.2 = some x) : 0 < x.nrWaiting := by
  rw [hs.nrWaiting p.2 x hx, Finset.card_pos]
  exact ⟨t, Finset.mem_filter.mpr ⟨Finset.mem_univ t, by rw [hp]; rfl⟩⟩

/-- Only the count of an entry changes, with a thread that begins or ceases to wait for it. -/
theorem Shared.recount {n : Nat} (hx : s.entries e = some x) (hclasses : s'.classes = s.classes)
    (hentries : s'.entries = update s.entries e (some { x with nrWaiting := n }))
    (hnr : s'.nrEntries = s.nrEntries) (hstack : s'.stack = update s.stack t l)
    (hloads : loads l = loads (s.stack t))
    (hcount : ∀ e', (if (waits l).map Prod.snd = some e' then 1 else 0) + (if e' = e then x.nrWaiting else 0) =
      (if (waits (s.stack t)).map Prod.snd = some e' then 1 else 0) + if e' = e then n else 0)
    (hwaits : ∀ p, waits l = some p → p = (x.key, e) ∧ (s'.woken t = false → x.status = .loading))
    (hwoken : ∀ u, u ≠ t → s'.woken u = s.woken u) : Shared s' := by
  refine hs.change hx hclasses hentries hnr hstack rfl rfl (fun p => ?_) id (fun hst hne => absurd hst hne)
    ⟨(hs.settled e x hx).loaded, (hs.settled e x hx).notFound⟩ hcount hwaits
    fun u hu hw => ⟨(hwoken u hu).symm.trans hw, rfl⟩
  rw [hloads]
  refine ⟨fun hp => ⟨hp, fun he => ?_⟩, And.left⟩
  subst he
  have hst := hs.status_of_loads hp hx
  exact hst

theorem Shared.beginWait (hx : s.entries e = some x)
    (hloads : loads rest = loads (s.stack t)) (hwaits : waits (s.stack t) = none) :
    Shared (((s.setEntry e (some { x with nrWaiting := x.nrWaiting + 1 })).setWoken t true).setStack t
      (.wait q x.key e :: rest)) := by
  refine hs.recount hx rfl rfl rfl rfl hloads (fun e' => ?_) (fun p hp => ?_) fun u hu => update_of_ne hu _ _
  · simp only [hwaits, waits_wait, Option.map_some, Option.map_none, Option.some.injEq, reduceCtorEq, if_false]
    by_cases he : e' = e
    · rw [if_pos he, if_pos he, if_pos he.symm]
      omega
    · rw [if_neg he, if_neg he, if_neg (Ne.symm he)]
  · cases hp
    refine ⟨rfl, fun hw => ?_⟩
    change update s.woken t true t = false at hw
    rw [update_self] at hw
    cases hw

theorem Shared.waitAgain
    (hstack : s.stack t = .wait q key e :: rest) (hx : s.entries e = some x) (hst : x.status = .loading) :
    Shared ((s.setWoken t false).setStack t (.wait q key e :: rest)) := by
  obtain ⟨y, hy, hkey, -⟩ := hs.waiting t (key, e) (by rw [hstack]; rfl)
  cases hx.symm.trans hy
  refine hs.recount (n := x.nrWaiting) hx rfl (update_eq_self_iff.mpr hx.symm).symm rfl rfl (by rw [hstack])
    (fun e' => by rw [hstack]) (fun p hp => ?_) fun u hu => update_of_ne hu _ _
  cases hp
  exact ⟨by rw [hkey], fun _ => hst⟩

theorem Shared.endWait (hp : waits (s.stack t) = some p)
    (hx : s.entries p.2 = some x) (hloads : loads l = loads (s.stack t)) (hwaits : waits l = none) :
    Shared (((s.setWoken t false).setEntry p.2 (some { x with nrWaiting := x.nrWaiting - 1 })).setStack t l) := by
  have hpos := hs.nrWaiting_pos hp hx
  refine hs.recount hx rfl rfl rfl rfl hloads (fun e' => ?_) (fun p' hp' => ?_) fun u hu => update_of_ne hu _ _
  · simp only [hwaits, hp, Option.map_some, Option.map_none, Option.some.injEq, reduceCtorEq, if_false]
    by_cases he : e' = p.2
    · rw [if_pos he, if_pos he, if_pos he.symm]
      omega
    · rw [if_neg he, if_neg he, if_neg (Ne.symm he)]
  · cases hwaits.symm.trans hp'

theorem Shared.settle (hloads : loads (s.stack t) = (key, e) :: loads rest) (hnodup : (key, e) ∉ loads rest)
    (hwaits : waits (s.stack t) = none) (hx : s.entries e = some x) (hl : loads l = loads rest) (hl' : waits l = none)
    (hkey : x'.key = x.key) (hthread : x'.loadingThread = x.loadingThread) (hcount : x'.nrWaiting = x.nrWaiting)
    (hst : x'.status ≠ .loading) (hsettled : Settled env x') (n : Nat) :
    Shared ((({ s with woken := fun _ => true, nrClasses := n } : State env Thread).setEntry e (some x')).setStack t l) := by
  obtain ⟨y, hy, hyst, hyt, hyk⟩ := hs.loading t (key, e) (hloads ▸ List.mem_cons_self)
  cases hx.symm.trans hy
  refine hs.change hx rfl rfl rfl rfl hkey hthread (fun p => ?_) (fun h => absurd h hst) (fun _ _ => hyt) hsettled
    (fun e' => ?_) (fun p hp => ?_) fun u _ hw => ?_
  · rw [hl, hloads, List.mem_cons]
    constructor
    · intro hp
      refine ⟨.inr hp, fun he => ?_⟩
      obtain ⟨z, hz, -, -, hzk⟩ := hs.loading t p (hloads ▸ List.mem_cons_of_mem _ hp)
      rw [he] at hz
      cases hx.symm.trans hz
      have heq := Prod.ext (hzk.symm.trans hyk) he
      exact absurd (heq ▸ hp) hnodup
    · rintro ⟨rfl | hp, hne⟩
      · exact absurd (hne rfl) hst
      · exact hp
  · rw [hl', hwaits, hcount]
  · cases hl'.symm.trans hp
  · cases hw

end

/-! ## New and freed entries -/

omit [DecidableEq Thread] in
theorem Shared.free (hs : Shared s) (hx : s.entries e = some x) (hst : x.status ≠ .loading) (hcount : x.nrWaiting = 0) :
    Shared ((s.removeClass x.key).setEntry e none) := by
  have hother e' y (hy : ((s.removeClass x.key).setEntry e none).entries e' = some y) :
      e' ≠ e ∧ s.entries e' = some y := by
    by_cases he : e' = e
    · subst he
      have hnone : ((s.removeClass x.key).setEntry e' none).entries e' = none := update_self _ _ _
      cases hnone.symm.trans hy
    · exact ⟨he, (update_of_ne he _ _).symm.trans hy⟩
  have hkept e' y (he : e' ≠ e) (hy : s.entries e' = some y) :
      ((s.removeClass x.key).setEntry e none).entries e' = some y := (update_of_ne he _ _).trans hy
  have hget key : ((s.removeClass x.key).setEntry e none).classes.get key =
      if key = x.key then none else s.classes.get key := HashMap.get_remove _ _ _
  constructor
  · intro key e' hkey
    rw [hget] at hkey
    split_ifs at hkey with hne
    obtain ⟨y, hy, rfl⟩ := hs.table key e' hkey
    refine ⟨y, hkept e' y (fun he => ?_) hy, rfl⟩
    subst he
    cases hx.symm.trans hy
    exact hne rfl
  · intro e' y hy
    obtain ⟨he, hy⟩ := hother e' y hy
    obtain ⟨hkey, hlt⟩ := hs.live e' y hy
    refine ⟨?_, hlt⟩
    rw [hget, if_neg fun heq => ?_]
    · exact hkey
    · rw [heq, (hs.live e x hx).1] at hkey
      exact he (Option.some.inj hkey).symm
  · intro u p hp
    obtain ⟨y, hy, hyst, hrest⟩ := hs.loading u p hp
    refine ⟨y, hkept _ y (fun he => ?_) hy, hyst, hrest⟩
    rw [he] at hy
    cases hx.symm.trans hy
    exact hst hyst
  · intro u p hp
    obtain ⟨y, hy, hrest⟩ := hs.waiting u p hp
    refine ⟨y, hkept _ y (fun he => ?_) hy, hrest⟩
    rw [he] at hy
    cases hx.symm.trans hy
    have hpos := hs.nrWaiting_pos hp (he ▸ hx)
    omega
  · intro e' y hy hyst
    exact hs.owner e' y (hother e' y hy).2 hyst
  · intro e' y hy
    exact hs.nrWaiting e' y (hother e' y hy).2
  · intro e' y hy
    exact hs.settled e' y (hother e' y hy).2

theorem Shared.startLoad (hs : Shared s)
    (hget : s.classes.get key = none) (hloads : loads rest = loads (s.stack t)) (hwaits : waits (s.stack t) = none) :
    Shared (s.startLoad t q key rest) := by
  have hget' key' : (s.startLoad t q key rest).classes.get key' =
      if key' = key then some s.nrEntries else s.classes.get key' := HashMap.get_put _ _ _ _
  have hself : (s.startLoad t q key rest).entries s.nrEntries =
      some { status := .loading, cls := none, nrWaiting := 0, loadingThread := t, key := key } :=
    update_self _ _ _
  have hfresh e x (hx : s.entries e = some x) :
      (s.startLoad t q key rest).entries e = some x :=
    (update_of_ne (Nat.ne_of_lt (hs.live e x hx).2) _ _).trans hx
  have hcases e x (hx : (s.startLoad t q key rest).entries e = some x) :
      e = s.nrEntries ∧ x = { status := .loading, cls := none, nrWaiting := 0, loadingThread := t, key := key } ∨
        s.entries e = some x := by
    by_cases he : e = s.nrEntries
    · subst he
      exact .inl ⟨rfl, (Option.some.inj (hself.symm.trans hx)).symm⟩
    · exact .inr ((update_of_ne he _ _).symm.trans hx)
  have hstackt : (s.startLoad t q key rest).stack t = .load q key s.nrEntries (loadEntry env key) :: rest :=
    update_self _ _ _
  have hstacku u (hu : u ≠ t) : (s.startLoad t q key rest).stack u = s.stack u := update_of_ne hu _ _
  have hwaits' u : waits ((s.startLoad t q key rest).stack u) = waits (s.stack u) := by
    by_cases hu : u = t
    · rw [hu, hstackt, hwaits]
      rfl
    · rw [hstacku u hu]
  constructor
  · intro key' e hkey
    rw [hget'] at hkey
    split_ifs at hkey with heq
    · cases hkey
      exact ⟨_, hself, heq.symm⟩
    · obtain ⟨x, hx, hxk⟩ := hs.table key' e hkey
      exact ⟨x, hfresh e x hx, hxk⟩
  · intro e x hx
    rw [hget']
    rcases hcases e x hx with ⟨rfl, rfl⟩ | hx
    · exact ⟨if_pos rfl, Nat.lt_succ_self _⟩
    · obtain ⟨hxk, hlt⟩ := hs.live e x hx
      rw [if_neg fun heq => ?_]
      · exact ⟨hxk, Nat.lt_succ_of_lt hlt⟩
      · rw [heq, hget] at hxk
        cases hxk
  · intro u p hp
    by_cases hu : u = t
    · rw [hu, hstackt] at hp
      rcases List.mem_cons.mp hp with rfl | hp
      · exact ⟨_, hself, rfl, hu.symm, rfl⟩
      · rw [hloads, ← hu] at hp
        obtain ⟨x, hx, hrest⟩ := hs.loading u p hp
        exact ⟨x, hfresh _ x hx, hrest⟩
    · rw [hstacku u hu] at hp
      obtain ⟨x, hx, hrest⟩ := hs.loading u p hp
      exact ⟨x, hfresh _ x hx, hrest⟩
  · intro u p hp
    rw [hwaits'] at hp
    obtain ⟨x, hx, hrest⟩ := hs.waiting u p hp
    exact ⟨x, hfresh _ x hx, hrest⟩
  · intro e x hx hst
    rcases hcases e x hx with ⟨rfl, rfl⟩ | hx
    · rw [hstackt]
      exact List.mem_cons_self
    · have hmem := hs.owner e x hx hst
      by_cases hu : x.loadingThread = t
      · rw [hu, ← hloads] at hmem
        rw [hu, hstackt]
        exact List.mem_cons_of_mem _ hmem
      · rwa [hstacku _ hu]
  · intro e x hx
    have hsame : waiters (s.startLoad t q key rest).stack e = waiters s.stack e := by
      simp only [waiters, hwaits']
    rw [hsame]
    rcases hcases e x hx with ⟨rfl, rfl⟩ | hx
    · refine (Finset.card_eq_zero.mpr (Finset.filter_eq_empty_iff.mpr fun u _ hu => ?_)).symm
      obtain ⟨p, hp, heq⟩ := Option.map_eq_some_iff.mp hu
      obtain ⟨y, hy, -⟩ := hs.waiting u p hp
      exact absurd (hs.live p.2 y hy).2 (by omega)
    · exact hs.nrWaiting e x hx
  · intro e x hx
    rcases hcases e x hx with ⟨rfl, rfl⟩ | hx
    · exact ⟨fun h => (by cases h), fun h => (by cases h)⟩
    · exact hs.settled e x hx

end

end Jato.Vm.ClassLoader
