import Mathlib.Algebra.Group.Nat.Defs
import SmpNostd.Lib.Machine
import Mathlib.Data.List.Range
import Mathlib.Tactic.Common

/-!
The ticket lock of `spinlock.rs`, at the granularity of its atomic steps.

`lock` takes a ticket by a `fetch_add` on `next_ticket` and then loads
`now_serving` until it equals the ticket. `try_lock` loads `now_serving`, then
`next_ticket`, and only if the two agree tries to move `next_ticket` on by a
`compare_exchange`; other threads may run between any two of these. Dropping a
guard is a `fetch_add` on `now_serving`. The counters are `u64`, so both wrap
at `2 ^ 64`.

The invariant is that the tickets from `now_serving` up to `next_ticket` are
exactly the ones in somebody's hands, and that `now_serving` belongs to the
guard if there is one. The delicate step is the `compare_exchange` of
`try_lock`: it goes by a value of `now_serving` that may be old. Since
`now_serving` only grows and never passes `next_ticket`, an exchange that
finds `next_ticket` equal to that old value finds `now_serving` equal to it
as well, so nobody is jumped over.
-/

namespace SmpNostd.TicketLock

open Machine

/-- Where a thread is in a call on the lock. -/
inductive Call
  | idle
  /-- `lock` has taken this ticket and is loading `now_serving`. -/
  | waiting (ticket : ℕ)
  | lockReturned
  /-- `try_lock` has loaded `now_serving`. -/
  | tryNext (current : ℕ)
  /-- `try_lock` has found the two counters equal to `next`. -/
  | tryExchange (next : ℕ)
  | tryReturned (acquired : Bool)
  /-- `is_locked` has loaded `now_serving`. -/
  | isLockedNext (serving : ℕ)
  | isLockedReturned (held : Bool)
  deriving DecidableEq, Repr

/-- The lock, the calls in progress on it and the live guards. A guard of the
source holds only a reference to the lock; the ticket it was granted for is
recorded next to its holder, and `taken` and `granted` record the tickets
taken and the order of the grants. No step looks at these three. -/
structure State (T : Type) where
  nextTicket : ℕ
  nowServing : ℕ
  calls : T → Call
  guards : List (T × ℕ)
  taken : ℕ
  granted : List ℕ

/-- A lock nobody has used yet. -/
def new (T : Type) : State T where
  nextTicket := 0
  nowServing := 0
  calls _ := .idle
  guards := []
  taken := 0
  granted := []

/-- A thread starts a call (and makes its first access), makes the next access
of its call, or drops a guard it holds. -/
inductive Label (T : Type)
  | lock (t : T)
  | tryLock (t : T)
  | isLocked (t : T)
  | step (t : T)
  | drop (t : T) (ticket : ℕ)
  deriving DecidableEq, Repr

/-- `fetch_add(1)` on an `AtomicU64`. -/
def fetchAdd (n : ℕ) : ℕ := (n + 1) % 2 ^ 64

variable {T : Type} [DecidableEq T]

/-- Thread `t` gets on with its call. -/
def State.setCall (s : State T) (t : T) (c : Call) : State T :=
  { s with calls := Function.update s.calls t c }

/-- A guard for `ticket` comes to life in the hands of `t`. -/
def State.grant (s : State T) (t : T) (ticket : ℕ) : State T :=
  { s with guards := (t, ticket) :: s.guards, granted := s.granted ++ [ticket] }

/-- A ticket leaves `next_ticket`. -/
def State.take (s : State T) : State T :=
  { s with nextTicket := fetchAdd s.nextTicket, taken := s.taken + 1 }

/-- The access a thread in the middle of a call makes next. -/
def advance (s : State T) (t : T) : Call → Option (State T)
  | .idle => none
  | .waiting ticket =>
      -- the loop condition `now_serving != ticket`
      if s.nowServing = ticket then some ((s.grant t ticket).setCall t .lockReturned)
      else some s
  | .tryNext current =>
      if current = s.nextTicket then some (s.setCall t (.tryExchange s.nextTicket))
      else some (s.setCall t (.tryReturned false))
  | .tryExchange next =>
      if s.nextTicket = next then some ((s.take.grant t next).setCall t (.tryReturned true))
      else some (s.setCall t (.tryReturned false))
  | .isLockedNext serving =>
      some (s.setCall t (.isLockedReturned (serving ≠ s.nextTicket)))
  | .lockReturned | .tryReturned _ | .isLockedReturned _ => some (s.setCall t .idle)

def step (s : State T) : Label T → Option (State T)
  | .lock t =>
      if s.calls t = .idle then some (s.take.setCall t (.waiting s.nextTicket)) else none
  | .tryLock t =>
      if s.calls t = .idle then some (s.setCall t (.tryNext s.nowServing)) else none
  | .isLocked t =>
      if s.calls t = .idle then some (s.setCall t (.isLockedNext s.nowServing)) else none
  | .step t => advance s t (s.calls t)
  | .drop t ticket =>
      if (t, ticket) ∈ s.guards then
        some { s with
          nowServing := fetchAdd s.nowServing, guards := s.guards.erase (t, ticket) }
      else none

/-- Thread `t` has ticket `k` in its hands: it waits with it in `lock`, or
holds the guard it was granted. -/
def Owns (s : State T) (t : T) (k : ℕ) : Prop :=
  s.calls t = .waiting k ∨ (t, k) ∈ s.guards

/-! ### The invariant -/

/-- What a call in progress knows about the counters. The values `try_lock`
has loaded are bounds from below on `now_serving`, never more. -/
def CallOk (serving next : ℕ) : Call → Prop
  | .waiting k => serving ≤ k ∧ k < next
  | .tryNext current => current ≤ serving
  | .tryExchange n => n ≤ serving
  | _ => True

/-- What holds as long as no ticket number has been given out twice. -/
structure Inv (s : State T) : Prop where
  next_eq : s.nextTicket = s.taken
  serving_le : s.nowServing ≤ s.nextTicket
  calls_ok : ∀ t, CallOk s.nowServing s.nextTicket (s.calls t)
  /-- There is at most one guard, and it is the one being served. -/
  guards_eq : s.guards = [] ∨
    ∃ t, s.guards = [(t, s.nowServing)] ∧ s.nowServing < s.nextTicket
  /-- No ticket is in two hands. -/
  owns_unique : ∀ t u k, Owns s t k → Owns s u k → t = u
  guard_not_waiting : ∀ t g, g ∈ s.guards → s.calls t ≠ .waiting g.2
  /-- Every outstanding ticket is in somebody's hands. -/
  owned : ∀ k, s.nowServing ≤ k → k < s.nextTicket → ∃ t, Owns s t k
  granted_eq : s.granted = List.range (s.nowServing + s.guards.length)

omit [DecidableEq T] in
theorem inv_new : Inv (new T) where
  next_eq := rfl
  serving_le := le_rfl
  calls_ok _ := trivial
  guards_eq := .inl rfl
  owns_unique t u k ht := by simp [Owns, new] at ht
  guard_not_waiting t g hg := by simp [new] at hg
  owned k _ hk := by simp [new] at hk
  granted_eq := rfl

@[simp] theorem setCall_calls_self (s : State T) (t : T) (c : Call) :
    (s.setCall t c).calls t = c := by simp [State.setCall]

@[simp] theorem setCall_calls_of_ne (s : State T) {t u : T} (c : Call) (h : u ≠ t) :
    (s.setCall t c).calls u = s.calls u := by simp [State.setCall, h]

@[simp] theorem setCall_nextTicket (s : State T) (t : T) (c : Call) :
    (s.setCall t c).nextTicket = s.nextTicket := rfl

@[simp] theorem setCall_nowServing (s : State T) (t : T) (c : Call) :
    (s.setCall t c).nowServing = s.nowServing := rfl

/-- A thread that neither was nor becomes a waiter changes nothing the
invariant speaks about. -/
theorem Inv.setCall {s : State T} (h : Inv s) {t : T} {c : Call}
    (hold : ∀ k, s.calls t ≠ .waiting k) (hnew : ∀ k, c ≠ .waiting k)
    (hok : CallOk s.nowServing s.nextTicket c) : Inv (s.setCall t c) := by
  have hwait : ∀ u k, (s.setCall t c).calls u = .waiting k ↔ s.calls u = .waiting k := by
    intro u k
    by_cases hu : u = t
    · subst hu
      simp [hold k, hnew k]
    · rw [setCall_calls_of_ne s c hu]
  have howns : ∀ u k, Owns (s.setCall t c) u k ↔ Owns s u k := by
    intro u k
    simp only [Owns, hwait]
    rfl
  refine ⟨h.next_eq, h.serving_le, ?_, h.guards_eq, ?_, ?_, ?_, h.granted_eq⟩
  · intro u
    by_cases hu : u = t
    · subst hu
      simpa using hok
    · simpa [hu] using h.calls_ok u
  · intro u v k hu hv
    exact h.owns_unique u v k ((howns u k).mp hu) ((howns v k).mp hv)
  · intro u g hg hu
    exact h.guard_not_waiting u g hg ((hwait u g.2).mp hu)
  · intro k hlo hhi
    obtain ⟨u, hu⟩ := h.owned k hlo hhi
    exact ⟨u, (howns u k).mpr hu⟩

theorem fetchAdd_of_lt {n : ℕ} (h : n + 1 < 2 ^ 64) : fetchAdd n = n + 1 :=
  Nat.mod_eq_of_lt h

omit [DecidableEq T] in
/-- Exactly the outstanding tickets are in somebody's hands. -/
theorem Inv.owns_range {s : State T} (h : Inv s) {t : T} {k : ℕ} (ho : Owns s t k) :
    s.nowServing ≤ k ∧ k < s.nextTicket := by
  rcases ho with hw | hg
  · have := h.calls_ok t
    rw [hw] at this
    exact this
  · rcases h.guards_eq with hnil | ⟨u, hone, hlt⟩
    · simp [hnil] at hg
    · simp only [hone, List.mem_singleton, Prod.mk.injEq] at hg
      exact ⟨hg.2.ge, hg.2 ▸ hlt⟩

omit [DecidableEq T] in
theorem Inv.take_nextTicket {s : State T} (h : Inv s) (hbound : s.taken + 1 < 2 ^ 64) :
    s.take.nextTicket = s.nextTicket + 1 :=
  fetchAdd_of_lt (by rw [h.next_eq]; exact hbound)

/-- Taking another ticket is seen by no call. -/
theorem CallOk.take {serving next : ℕ} {c : Call} (h : CallOk serving next c) :
    CallOk serving (next + 1) c := by
  cases c with
  | waiting k => exact ⟨h.1, h.2.trans (Nat.lt_succ_self _)⟩
  | _ => exact h

/-- Taking a ticket in `lock`. The new ticket is past every ticket in use. -/
theorem Inv.lock {s : State T} (h : Inv s) {t : T} (hidle : s.calls t = .idle)
    (hbound : s.taken + 1 < 2 ^ 64) :
    Inv (s.take.setCall t (.waiting s.nextTicket)) := by
  have hnext := h.take_nextTicket hbound
  have howns : ∀ u k, Owns (s.take.setCall t (.waiting s.nextTicket)) u k ↔
      (u = t ∧ k = s.nextTicket) ∨ Owns s u k := by
    intro u k
    by_cases hu : u = t
    · subst hu
      simp [Owns, State.setCall, State.take, hidle, eq_comm]
    · simp [Owns, State.setCall, State.take, hu]
  have holdlt : ∀ u k, Owns s u k → k < s.nextTicket := fun _ _ ho => (h.owns_range ho).2
  refine ⟨?_, ?_, ?_, ?_, ?_, ?_, ?_, h.granted_eq⟩
  · change s.take.nextTicket = s.taken + 1
    rw [hnext, h.next_eq]
  · change s.nowServing ≤ s.take.nextTicket
    have := h.serving_le
    omega
  · intro u
    change CallOk s.nowServing s.take.nextTicket _
    rw [hnext]
    by_cases hu : u = t
    · subst hu
      rw [setCall_calls_self]
      exact ⟨h.serving_le, Nat.lt_succ_self _⟩
    · rw [setCall_calls_of_ne _ _ hu]
      exact (h.calls_ok u).take
  · rcases h.guards_eq with hnil | ⟨u, hone, hlt⟩
    · exact .inl hnil
    · refine .inr ⟨u, hone, ?_⟩
      change s.nowServing < s.take.nextTicket
      omega
  · intro u v k hu hv
    rw [howns] at hu hv
    rcases hu with ⟨rfl, hk⟩ | hu <;> rcases hv with ⟨hv, hk'⟩ | hv
    · exact hv.symm
    · exact absurd (holdlt v k hv) (by omega)
    · exact absurd (holdlt u k hu) (by omega)
    · exact h.owns_unique u v k hu hv
  · intro u g hg hu
    by_cases hut : u = t
    · subst hut
      rw [setCall_calls_self, Call.waiting.injEq] at hu
      exact absurd (holdlt g.1 g.2 (.inr hg)) (by omega)
    · rw [setCall_calls_of_ne _ _ hut] at hu
      exact h.guard_not_waiting u g hg hu
  · intro k hlo hhi
    change k < s.take.nextTicket at hhi
    by_cases hk : k = s.nextTicket
    · exact ⟨t, (howns t k).mpr (.inl ⟨rfl, hk⟩)⟩
    · obtain ⟨u, hu⟩ := h.owned k hlo (by omega)
      exact ⟨u, (howns u k).mpr (.inr hu)⟩

/-- A waiter sees its ticket served. Its ticket is then the oldest one, so no
guard can be live: it would hold the same ticket. -/
theorem Inv.serve {s : State T} (h : Inv s) {t : T}
    (hwait : s.calls t = .waiting s.nowServing) :
    s.guards = [] ∧ Inv ((s.grant t s.nowServing).setCall t .lockReturned) := by
  have hlt : s.nowServing < s.nextTicket := (h.owns_range (.inl hwait)).2
  have hnil : s.guards = [] := by
    rcases h.guards_eq with hnil | ⟨u, hone, -⟩
    · exact hnil
    · exact absurd hwait (h.guard_not_waiting t (u, s.nowServing) (by simp [hone]))
  have hother : ∀ u, u ≠ t → s.calls u ≠ .waiting s.nowServing := fun u hu hu' =>
    hu (h.owns_unique u t s.nowServing (.inl hu') (.inl hwait))
  have howns : ∀ u k, Owns ((s.grant t s.nowServing).setCall t .lockReturned) u k ↔
      Owns s u k := by
    intro u k
    by_cases hu : u = t
    · subst hu
      simp [Owns, State.setCall, State.grant, hwait, hnil, eq_comm]
    · simp [Owns, State.setCall, State.grant, hu, hnil]
  refine ⟨hnil, h.next_eq, h.serving_le, ?_, ?_, ?_, ?_, ?_, ?_⟩
  · intro u
    by_cases hu : u = t
    · subst hu
      rw [setCall_calls_self]
      trivial
    · rw [setCall_calls_of_ne _ _ hu]
      exact h.calls_ok u
  · refine .inr ⟨t, ?_, hlt⟩
    simp [State.setCall, State.grant, hnil]
  · intro u v k hu hv
    exact h.owns_unique u v k ((howns u k).mp hu) ((howns v k).mp hv)
  · intro u g hg
    have hg : g = (t, s.nowServing) := by simpa [State.setCall, State.grant, hnil] using hg
    subst hg
    by_cases hu : u = t
    · subst hu
      simp
    · rw [setCall_calls_of_ne _ _ hu]
      exact hother u hu
  · intro k hlo hhi
    obtain ⟨u, hu⟩ := h.owned k hlo hhi
    exact ⟨u, (howns u k).mpr hu⟩
  · change s.granted ++ [s.nowServing] =
      List.range (s.nowServing + ((t, s.nowServing) :: s.guards).length)
    rw [h.granted_eq, hnil]
    exact List.range_succ.symm

/-- The `compare_exchange` of `try_lock` succeeds. The value it was made with
is a lower bound of `now_serving` and equals `next_ticket`, so no ticket is
outstanding. -/
theorem Inv.exchange {s : State T} (h : Inv s) {t : T}
    (hcall : s.calls t = .tryExchange s.nextTicket) (hbound : s.taken + 1 < 2 ^ 64) :
    s.nowServing = s.nextTicket ∧
      Inv ((s.take.grant t s.nextTicket).setCall t (.tryReturned true)) := by
  have hserving : s.nowServing = s.nextTicket := by
    have hle := h.calls_ok t
    rw [hcall] at hle
    exact le_antisymm h.serving_le hle
  have hnil : s.guards = [] := by
    rcases h.guards_eq with hnil | ⟨u, -, hlt⟩
    · exact hnil
    · omega
  have hnowait : ∀ u k, s.calls u ≠ .waiting k := by
    intro u k hu
    obtain ⟨hlo, hhi⟩ := h.owns_range (.inl hu)
    omega
  have hnext := h.take_nextTicket hbound
  have hcalls : ∀ u k, ((s.take.grant t s.nextTicket).setCall t (.tryReturned true)).calls u ≠
      .waiting k := by
    intro u k
    by_cases hu : u = t
    · subst hu
      simp
    · rw [setCall_calls_of_ne _ _ hu]
      exact hnowait u k
  have howns : ∀ u k, Owns ((s.take.grant t s.nextTicket).setCall t (.tryReturned true)) u k ↔
      u = t ∧ k = s.nextTicket := by
    intro u k
    simp only [Owns, hcalls, false_or]
    simp [State.setCall, State.grant, State.take, hnil]
  refine ⟨hserving, ?_, ?_, ?_, ?_, ?_, ?_, ?_, ?_⟩
  · change s.take.nextTicket = s.taken + 1
    rw [hnext, h.next_eq]
  · change s.nowServing ≤ s.take.nextTicket
    omega
  · intro u
    by_cases hu : u = t
    · subst hu
      rw [setCall_calls_self]
      trivial
    · rw [setCall_calls_of_ne _ _ hu]
      change CallOk s.nowServing s.take.nextTicket (s.calls u)
      rw [hnext]
      exact (h.calls_ok u).take
  · refine .inr ⟨t, ?_, ?_⟩
    · simp [State.setCall, State.grant, State.take, hnil, hserving]
    · change s.nowServing < s.take.nextTicket
      omega
  · intro u v k hu hv
    rw [howns] at hu hv
    rw [hu.1, hv.1]
  · intro u g _
    exact hcalls u g.2
  · intro k hlo hhi
    change s.nowServing ≤ k at hlo
    change k < s.take.nextTicket at hhi
    exact ⟨t, (howns t k).mpr ⟨rfl, by omega⟩⟩
  · change s.granted ++ [s.nextTicket] =
      List.range (s.nowServing + ((t, s.nextTicket) :: s.guards).length)
    rw [h.granted_eq, hnil, ← hserving]
    exact List.range_succ.symm

/-- The guard is dropped and the next ticket is served. -/
theorem Inv.drop {s : State T} (h : Inv s) {t : T} {k : ℕ} (hg : (t, k) ∈ s.guards)
    (hbound : s.taken < 2 ^ 64) :
    Inv { s with
      nowServing := fetchAdd s.nowServing, guards := s.guards.erase (t, k) } := by
  obtain ⟨hone, hk, hlt⟩ : s.guards = [(t, k)] ∧ k = s.nowServing ∧
      s.nowServing < s.nextTicket := by
    rcases h.guards_eq with hnil | ⟨u, hone, hlt⟩
    · simp [hnil] at hg
    · simp only [hone, List.mem_singleton, Prod.mk.injEq] at hg
      obtain ⟨rfl, rfl⟩ := hg
      exact ⟨hone, rfl, hlt⟩
  subst hk
  have hserving : fetchAdd s.nowServing = s.nowServing + 1 :=
    fetchAdd_of_lt (by have := h.next_eq; omega)
  have hnowait : ∀ u, s.calls u ≠ .waiting s.nowServing := fun u =>
    h.guard_not_waiting u (t, s.nowServing) hg
  have howns : ∀ u k, s.calls u = .waiting k → s.nowServing + 1 ≤ k ∧ k < s.nextTicket := by
    intro u k hu
    obtain ⟨hlo, hhi⟩ := h.owns_range (.inl hu)
    have hne : k ≠ s.nowServing := by
      rintro rfl
      exact hnowait u hu
    exact ⟨by omega, hhi⟩
  rw [hone, List.erase_cons_head, hserving]
  refine ⟨h.next_eq, hlt, ?_, .inl rfl, ?_, ?_, ?_, ?_⟩
  · intro u
    have hold := h.calls_ok u
    change CallOk (s.nowServing + 1) s.nextTicket (s.calls u)
    cases hc : s.calls u with
    | waiting k => exact howns u k hc
    | tryNext c => rw [hc] at hold; exact Nat.le_succ_of_le hold
    | tryExchange n => rw [hc] at hold; exact Nat.le_succ_of_le hold
    | _ => trivial
  · intro u v k hu hv
    simp only [Owns, List.not_mem_nil, or_false] at hu hv
    exact h.owns_unique u v k (.inl hu) (.inl hv)
  · intro u g hg
    simp at hg
  · intro k hlo hhi
    obtain ⟨u, hu | hu⟩ := h.owned k (by change s.nowServing + 1 ≤ k at hlo; omega) hhi
    · exact ⟨u, .inl hu⟩
    · simp only [hone, List.mem_singleton, Prod.mk.injEq] at hu
      change s.nowServing + 1 ≤ k at hlo
      omega
  · change s.granted = List.range (s.nowServing + 1 + 0)
    rw [h.granted_eq, hone]
    rfl

/-! ### Steps and runs -/

/-- Thread `t` makes, by the label `a`, one of the accesses of a `try_lock`
call. -/
def TryAccess (s : State T) (t : T) (a : Label T) : Prop :=
  a = .tryLock t ∨ a = .step t ∧
    ((∃ current, s.calls t = .tryNext current) ∨ ∃ next, s.calls t = .tryExchange next)

/-- No access of a `try_lock` call but its successful `compare_exchange`
touches the lock. -/
theorem tryAccess_frame {s s' : State T} {t : T} {a : Label T} (ha : TryAccess s t a)
    (hstep : step s a = some s') (hfail : s'.calls t ≠ .tryReturned true) :
    s'.nextTicket = s.nextTicket ∧ s'.nowServing = s.nowServing ∧
      s'.taken = s.taken ∧ s'.guards = s.guards := by
  rcases ha with rfl | ⟨rfl, ⟨current, hcall⟩ | ⟨next, hcall⟩⟩
  · simp only [step] at hstep
    split at hstep
    · cases hstep
      exact ⟨rfl, rfl, rfl, rfl⟩
    · cases hstep
  · simp only [step, hcall, advance] at hstep
    split at hstep <;> cases hstep <;> exact ⟨rfl, rfl, rfl, rfl⟩
  · simp only [step, hcall, advance] at hstep
    split at hstep
    · cases hstep
      simp at hfail
    · cases hstep
      exact ⟨rfl, rfl, rfl, rfl⟩

/-- Tickets are never given back. -/
theorem taken_le_of_step {s s' : State T} {a : Label T} (hstep : step s a = some s') :
    s.taken ≤ s'.taken := by
  cases a with
  | lock t | tryLock t | isLocked t | drop t k =>
      simp only [step] at hstep
      split at hstep <;> cases hstep
      simp [State.setCall, State.take]
  | step t =>
      simp only [step] at hstep
      cases hcall : s.calls t <;> simp only [hcall, advance] at hstep
      case idle => cases hstep
      case waiting | tryNext | tryExchange =>
        split at hstep <;> cases hstep <;> simp [State.setCall, State.grant, State.take]
      case lockReturned | tryReturned | isLockedReturned | isLockedNext =>
        cases hstep
        simp [State.setCall]

theorem inv_advance {s s' : State T} (h : Inv s) {t : T} (hbound : s'.taken < 2 ^ 64)
    (hstep : advance s t (s.calls t) = some s') : Inv s' := by
  cases hcall : s.calls t with
  | idle => simp [hcall, advance] at hstep
  | waiting k =>
      simp only [hcall, advance] at hstep
      split at hstep
      · rename_i hk
        subst hk
        cases hstep
        exact (h.serve hcall).2
      · cases hstep
        exact h
  | tryNext current =>
      have hle := h.calls_ok t
      rw [hcall] at hle
      simp only [hcall, advance] at hstep
      split at hstep
      · rename_i heq
        cases hstep
        exact h.setCall (by simp [hcall]) (by simp) (heq ▸ hle)
      · cases hstep
        exact h.setCall (by simp [hcall]) (by simp) trivial
  | tryExchange n =>
      simp only [hcall, advance] at hstep
      split at hstep
      · rename_i hn
        subst hn
        cases hstep
        exact (h.exchange hcall hbound).2
      · cases hstep
        exact h.setCall (by simp [hcall]) (by simp) trivial
  | isLockedNext _ | lockReturned | tryReturned _ | isLockedReturned _ =>
      simp only [hcall, advance, Option.some.injEq] at hstep
      subst hstep
      exact h.setCall (by simp [hcall]) (by simp) trivial

/-- One step keeps the invariant, as long as the tickets do not wrap. -/
theorem inv_step {s s' : State T} {a : Label T} (h : Inv s) (hbound : s'.taken < 2 ^ 64)
    (hstep : step s a = some s') : Inv s' := by
  have hmono := taken_le_of_step hstep
  cases a with
  | step t => exact inv_advance h hbound hstep
  | lock t =>
      simp only [step] at hstep
      split at hstep <;> cases hstep
      rename_i hidle
      exact h.lock hidle hbound
  | tryLock t | isLocked t =>
      simp only [step] at hstep
      split at hstep <;> cases hstep
      rename_i hidle
      refine h.setCall (by simp [hidle]) (by simp) ?_
      simp [CallOk]
  | drop t k =>
      simp only [step] at hstep
      split at hstep <;> cases hstep
      rename_i hg
      exact h.drop hg (lt_of_le_of_lt hmono hbound)

/-- Every state reached before the tickets run out satisfies the invariant. -/
theorem inv_of_reachable {s : State T} (hreach : Reachable step (new T) s)
    (hbound : s.taken < 2 ^ 64) : Inv s := by
  refine reachable_invariant (I := fun s : State T => s.taken < 2 ^ 64 → Inv s)
    ?_ (fun _ => inv_new) hreach hbound
  intro s a t hI hstep ht
  exact inv_step (hI (lt_of_le_of_lt (taken_le_of_step hstep) ht)) ht hstep

/-- With no guard live, the owner of the ticket being served is let in by its
next load, and no other waiter is. -/
theorem Inv.hand_off {s : State T} (h : Inv s) (hnil : s.guards = [])
    {u : T} {k : ℕ} (hu : s.calls u = .waiting k) :
    ∃ t, s.calls t = .waiting s.nowServing ∧
      (∃ s', step s (.step t) = some s' ∧ s'.guards = [(t, s.nowServing)]) ∧
      ∀ v j, v ≠ t → s.calls v = .waiting j → step s (.step v) = some s := by
  obtain ⟨hlo, hhi⟩ := h.owns_range (.inl hu)
  obtain ⟨t, ht | ht⟩ := h.owned s.nowServing le_rfl (lt_of_le_of_lt hlo hhi)
  · have hserve : step s (.step t) =
        some ((s.grant t s.nowServing).setCall t .lockReturned) := by
      simp [step, ht, advance]
    refine ⟨t, ht, ⟨_, hserve, ?_⟩, ?_⟩
    · simp [State.setCall, State.grant, hnil]
    · intro v j hv hj
      have hne : s.nowServing ≠ j := by
        rintro rfl
        exact hv (h.owns_unique v t _ (.inl hj) (.inl ht))
      simp only [step, hj, advance, if_neg hne]
  · simp [hnil] at ht

/-- **The ticket lock is exclusive and first come, first served**, in every
state reached with fewer than `2 ^ 64` tickets taken. -/
theorem exclusive_and_fifo {s : State T} (hreach : Reachable step (new T) s)
    (hbound : s.taken < 2 ^ 64) :
    -- the outstanding tickets have one owner each, and no other ticket has one
    (∀ k, s.nowServing ≤ k → k < s.nextTicket → ∃! t, Owns s t k) ∧
    (∀ t k, Owns s t k → s.nowServing ≤ k ∧ k < s.nextTicket) ∧
    -- at most one guard, for the ticket being served
    s.guards.length ≤ 1 ∧ (∀ g ∈ s.guards, g.2 = s.nowServing) ∧
    -- the grants are in ticket order, and no ticket is passed over
    s.granted.Pairwise (· < ·) ∧
    s.granted = List.range (s.nowServing + s.guards.length) ∧
    -- no hand-off is lost
    (s.guards = [] → (∃ u k, s.calls u = .waiting k) →
      ∃ t, s.calls t = .waiting s.nowServing ∧
        (∃ s', step s (.step t) = some s' ∧ s'.guards = [(t, s.nowServing)]) ∧
        ∀ v j, v ≠ t → s.calls v = .waiting j → step s (.step v) = some s) ∧
    -- a try_lock that does not get the lock leaves it alone
    (∀ t a s', TryAccess s t a → step s a = some s' → s'.calls t ≠ .tryReturned true →
      s'.nextTicket = s.nextTicket ∧ s'.nowServing = s.nowServing ∧
        s'.taken = s.taken ∧ s'.guards = s.guards) := by
  have h := inv_of_reachable hreach hbound
  refine ⟨?_, fun t k => h.owns_range, ?_, ?_, ?_, h.granted_eq, ?_, ?_⟩
  · intro k hlo hhi
    obtain ⟨t, ht⟩ := h.owned k hlo hhi
    exact ⟨t, ht, fun u hu => h.owns_unique u t k hu ht⟩
  · rcases h.guards_eq with hnil | ⟨t, hone, -⟩
    · simp [hnil]
    · simp [hone]
  · intro g hg
    rcases h.guards_eq with hnil | ⟨t, hone, -⟩
    · simp [hnil] at hg
    · simp only [hone, List.mem_singleton] at hg
      simp [hg]
  · rw [h.granted_eq]
    exact List.pairwise_lt_range
  · rintro hnil ⟨u, k, hu⟩
    exact h.hand_off hnil hu
  · intro t a s' ha hstep hfail
    exact tryAccess_frame ha hstep hfail

/-- Two threads queue up and the first one leaves: the second one is next. -/
theorem exclusive_and_fifo_after_drop :
    let run := run step (new ℕ) [.lock 0, .step 0, .tryLock 2, .lock 1, .step 2, .drop 0 0]
    ∃ s, run = some s ∧ s.taken < 2 ^ 64 ∧
      ∃ t, s.calls t = .waiting s.nowServing ∧
        ∃ s', step s (.step t) = some s' ∧ s'.guards = [(t, s.nowServing)] := by
  refine ⟨_, rfl, by decide, ?_⟩
  obtain ⟨-, -, -, -, -, -, hoff, -⟩ := exclusive_and_fifo (T := ℕ)
    ⟨[.lock 0, .step 0, .tryLock 2, .lock 1, .step 2, .drop 0 0], rfl⟩ (by decide)
  obtain ⟨t, ht, hnext, -⟩ := hoff rfl ⟨1, 1, rfl⟩
  exact ⟨t, ht, hnext⟩

end SmpNostd.TicketLock
