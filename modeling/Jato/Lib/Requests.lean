import Mathlib.Logic.Relation

/-!
# Computations that make requests

A task asks for something, goes on with the answer and ends with a value. A `Server` answers a request by another task: it
ends with an answer of its own, or with a key whose load, again a task, gives the answer. `Evaluates` says what a task ends
with if every request is answered in turn, and how many steps this takes. `Requests` is the relation between a key and
those that its load asks for; a load that evaluates asks for loads with fewer steps (`Evaluates.of_reaches`), and every
load evaluates if the relation is well founded (`evaluates_load`).
-/

namespace Jato.Lib

inductive Task (Q A α : Type)
  | done (a : α)
  | request (q : Q) (k : A → Task Q A α)

namespace Task

variable {Q A α : Type}

/-- Every request of the task, whatever the answers are. -/
def All (R : Q → Prop) : Task Q A α → Prop
  | .done _ => True
  | .request q k => R q ∧ ∀ a, (k a).All R

theorem all_of_forall {R : Q → Prop} (hR : ∀ q, R q) (t : Task Q A α) : t.All R := by
  induction t with
  | done a => trivial
  | request q k ih => exact ⟨hR q, ih⟩

end Task

/-- The requests of a body have a smaller rank than the one it is for. -/
structure Server (Q K A C : Type) where
  body : Q → Task Q A (C ⊕ K)
  answer : C → A
  load : K → Task Q A A
  rank : Q → Nat
  rank_lt : ∀ q, (body q).All fun q' => rank q' < rank q

namespace Server

variable {Q K A C : Type} (sv : Server Q K A C)

inductive Evaluates : {α : Type} → Task Q A α → α → Nat → Prop
  | done {α : Type} (a : α) : Evaluates (.done a) a 0
  | answer {α : Type} {q : Q} {k : A → Task Q A α} {c : C} {a : α} {m n : Nat} (hbody : Evaluates (sv.body q) (.inl c) m)
      (hk : Evaluates (k (sv.answer c)) a n) : Evaluates (.request q k) a (m + 1 + n + 1)
  | load {α : Type} {q : Q} {k : A → Task Q A α} {key : K} {r : A} {a : α} {m l n : Nat}
      (hbody : Evaluates (sv.body q) (.inr key) m) (hload : Evaluates (sv.load key) r l) (hk : Evaluates (k r) a n) :
      Evaluates (.request q k) a (m + l + 3 + n + 1)

/-- The answer to a request, and the number of steps that it takes. -/
def Calls (q : Q) (r : A) (n : Nat) : Prop :=
  (∃ c m, sv.Evaluates (sv.body q) (.inl c) m ∧ r = sv.answer c ∧ n = m + 1) ∨
    ∃ key m l, sv.Evaluates (sv.body q) (.inr key) m ∧ sv.Evaluates (sv.load key) r l ∧ n = m + l + 3

/-- The keys whose load a task asks for. -/
inductive Reaches : {α : Type} → Task Q A α → K → Prop
  | here {α : Type} {q : Q} {k : A → Task Q A α} {key : K} {m : Nat} (hbody : sv.Evaluates (sv.body q) (.inr key) m) :
      Reaches (.request q k) key
  | within {α : Type} {q : Q} {k : A → Task Q A α} {key : K} (hbody : Reaches (sv.body q) key) : Reaches (.request q k) key
  | later {α : Type} {q : Q} {k : A → Task Q A α} {key : K} {r : A} {n : Nat} (hcall : sv.Calls q r n)
      (hk : Reaches (k r) key) : Reaches (.request q k) key

def Requests (key key' : K) : Prop := sv.Reaches (sv.load key) key'

variable {sv} {α : Type} {q : Q} {k : A → Task Q A α} {t : Task Q A α} {key key' : K} {r r' : A} {a b : α} {m n : Nat}

/-! ## Evaluation -/

theorem evaluates_request :
    sv.Evaluates (.request q k) a n ↔ ∃ r m n', sv.Calls q r m ∧ sv.Evaluates (k r) a n' ∧ n = m + n' + 1 := by
  constructor
  · intro h
    cases h with
    | answer hbody hk => exact ⟨_, _, _, .inl ⟨_, _, hbody, rfl, rfl⟩, hk, rfl⟩
    | load hbody hload hk => exact ⟨_, _, _, .inr ⟨_, _, _, hbody, hload, rfl⟩, hk, rfl⟩
  · rintro ⟨r, m, n', ⟨c, m, hbody, rfl, rfl⟩ | ⟨key, m, l, hbody, hload, rfl⟩, hk, rfl⟩
    · exact .answer hbody hk
    · exact .load hbody hload hk

theorem Evaluates.unique (ht : sv.Evaluates t a n) (ht' : sv.Evaluates t b m) : a = b ∧ n = m := by
  induction ht generalizing m with
  | done a =>
    cases ht'
    exact ⟨rfl, rfl⟩
  | answer hbody hk ihb ihk =>
    cases ht' with
    | answer hbody' hk' =>
      obtain ⟨heq, rfl⟩ := ihb hbody'
      cases heq
      obtain ⟨rfl, rfl⟩ := ihk hk'
      exact ⟨rfl, rfl⟩
    | load hbody' =>
      cases (ihb hbody').1
  | load hbody hload hk ihb ihl ihk =>
    cases ht' with
    | answer hbody' =>
      cases (ihb hbody').1
    | load hbody' hload' hk' =>
      obtain ⟨heq, rfl⟩ := ihb hbody'
      cases heq
      obtain ⟨rfl, rfl⟩ := ihl hload'
      obtain ⟨rfl, rfl⟩ := ihk hk'
      exact ⟨rfl, rfl⟩

theorem Calls.unique (hcall : sv.Calls q r n) (hcall' : sv.Calls q r' m) : r = r' ∧ n = m := by
  rcases hcall with ⟨c, i, hbody, rfl, rfl⟩ | ⟨key, i, l, hbody, hload, rfl⟩
  · rcases hcall' with ⟨c', i', hbody', rfl, rfl⟩ | ⟨key', i', l', hbody', hload', rfl⟩
    · obtain ⟨heq, rfl⟩ := hbody.unique hbody'
      cases heq
      exact ⟨rfl, rfl⟩
    · cases (hbody.unique hbody').1
  · rcases hcall' with ⟨c', i', hbody', rfl, rfl⟩ | ⟨key', i', l', hbody', hload', rfl⟩
    · cases (hbody.unique hbody').1
    · obtain ⟨heq, rfl⟩ := hbody.unique hbody'
      cases heq
      obtain ⟨rfl, rfl⟩ := hload.unique hload'
      exact ⟨rfl, rfl⟩

/-! ## The keys that a task asks for -/

variable (sv) in
/-- The body of a request ends with a key, or asks for it. -/
def Pending (q : Q) (key : K) : Prop := sv.Reaches (sv.body q) key ∨ ∃ m, sv.Evaluates (sv.body q) (.inr key) m

theorem Pending.reaches (hpend : sv.Pending q key) : sv.Reaches (.request q k) key :=
  hpend.elim .within fun ⟨_, hbody⟩ => .here hbody

theorem Reaches.of_all {R : Q → Prop} (hreach : sv.Reaches t key) (hall : t.All R) : ∃ q, R q ∧ sv.Pending q key := by
  induction hreach with
  | here hbody => exact ⟨_, hall.1, .inr ⟨_, hbody⟩⟩
  | within hbody => exact ⟨_, hall.1, .inl hbody⟩
  | later _ _ ih => exact ih (hall.2 _)

/-- **A task that evaluates asks for loads that take fewer steps.** -/
theorem Evaluates.of_reaches (hreach : sv.Reaches t key) (ht : sv.Evaluates t a n) :
    ∃ r l, sv.Evaluates (sv.load key) r l ∧ l < n := by
  induction hreach generalizing n with
  | here hbody =>
    cases ht with
    | answer hbody' => cases (hbody.unique hbody').1
    | load hbody' hload =>
      cases (hbody.unique hbody').1
      exact ⟨_, _, hload, by omega⟩
  | within hbody ih =>
    cases ht with
    | answer hbody' | load hbody' =>
      obtain ⟨r, l, hload, hlt⟩ := ih hbody'
      exact ⟨r, l, hload, by omega⟩
  | later hcall hk ih =>
    obtain ⟨r', m, n', hcall', hk', rfl⟩ := evaluates_request.mp ht
    obtain ⟨rfl, rfl⟩ := hcall.unique hcall'
    obtain ⟨r, l, hload, hlt⟩ := ih hk'
    exact ⟨r, l, hload, by omega⟩

theorem Evaluates.of_transGen (hreq : Relation.TransGen sv.Requests key key')
    (hload : sv.Evaluates (sv.load key) r n) : ∃ r' l, sv.Evaluates (sv.load key') r' l ∧ l < n := by
  induction hreq with
  | single hreq => exact hload.of_reaches hreq
  | tail _ hreq ih =>
    obtain ⟨r', l, hload', hlt⟩ := ih
    obtain ⟨r'', l', hload'', hlt'⟩ := hload'.of_reaches hreq
    exact ⟨r'', l', hload'', Nat.lt_trans hlt' hlt⟩

theorem Evaluates.not_transGen (hload : sv.Evaluates (sv.load key) r n) : ¬ Relation.TransGen sv.Requests key key := by
  intro hreq
  obtain ⟨r', l, hload', hlt⟩ := hload.of_transGen hreq
  exact absurd (hload.unique hload').2 (Nat.ne_of_gt hlt)

/-! ## Loads that evaluate -/

variable (sv) in
def Loadable (key : K) : Prop := ∃ r n, sv.Evaluates (sv.load key) r n

theorem evaluates_of_all {R : Q → Prop}
    (hbody : ∀ q, R q → (∀ key, sv.Reaches (sv.body q) key → sv.Loadable key) → ∃ x m, sv.Evaluates (sv.body q) x m)
    (hall : t.All R) (ht : ∀ key, sv.Reaches t key → sv.Loadable key) : ∃ a n, sv.Evaluates t a n := by
  induction t with
  | done a => exact ⟨a, 0, .done a⟩
  | request q k ih =>
    obtain ⟨x, m, hx⟩ := hbody q hall.1 fun key hkey => ht key (.within hkey)
    cases x with
    | inl c =>
      have hcall : sv.Calls q (sv.answer c) (m + 1) := .inl ⟨c, m, hx, rfl, rfl⟩
      obtain ⟨a, n, ha⟩ := ih _ (hall.2 _) fun key hkey => ht key (.later hcall hkey)
      exact ⟨a, _, .answer hx ha⟩
    | inr key =>
      obtain ⟨r, l, hload⟩ := ht key (.here hx)
      have hcall : sv.Calls q r (m + l + 3) := .inr ⟨key, m, l, hx, hload, rfl⟩
      obtain ⟨a, n, ha⟩ := ih _ (hall.2 _) fun key hkey => ht key (.later hcall hkey)
      exact ⟨a, _, .load hx hload ha⟩

theorem evaluates_body (q : Q) (hq : ∀ key, sv.Reaches (sv.body q) key → sv.Loadable key) :
    ∃ x m, sv.Evaluates (sv.body q) x m := by
  induction hrank : sv.rank q using Nat.strongRecOn generalizing q with
  | ind n ih =>
    subst hrank
    exact evaluates_of_all (fun q' hlt hq' => ih _ hlt q' hq' rfl) (sv.rank_lt q) hq

/-- **Every load evaluates if no chain of requests goes on for ever.** -/
theorem evaluates_load (hacc : Acc (fun key' key => sv.Requests key key') key) : sv.Loadable key := by
  induction hacc with
  | intro key _ ih => exact evaluates_of_all (fun q _ => evaluates_body q) (Task.all_of_forall (fun _ => trivial) _) ih

end Server

end Jato.Lib
