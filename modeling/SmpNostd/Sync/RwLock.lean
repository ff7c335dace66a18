import Mathlib.Algebra.Group.Nat.Defs
import SmpNostd.Lib.Machine
import Mathlib.Tactic.Common

/-!
The reader-writer lock of `spinlock.rs`, at the granularity of its atomic
steps.

One `u32` holds both the number of readers and the writer: `WRITER_BIT`, the
largest value, means that a writer holds the lock. `read` loads the word,
spins while it is `WRITER_BIT` and otherwise tries to exchange it for the next
number; `try_read` does the same once. `write` and `try_write` exchange `0`
for `WRITER_BIT`. The exchanges of `read` and `write` are the weak ones, which
may fail for no reason. A reader leaves by `fetch_sub`, a writer by storing `0`
whatever the word is.

Nothing in the source keeps the number of readers away from `WRITER_BIT`, and
guards may be leaked, so `2 ^ 32 - 1` of them can be live. The word is then
read as a writer's; the invariant holds there too, since it only asks that
the word, as a number, counts the readers.
-/

namespace SmpNostd.RwLock

open Machine

/-- `u32::MAX`: a writer holds the lock. -/
def writerBit : ℕ := 2 ^ 32 - 1

/-- Where a thread is in a call on the lock. -/
inductive Call
  | idle
  | readLoad
  /-- `read` has seen this many readers and no writer. -/
  | readExchange (current : ℕ)
  | readReturned
  | tryReadLoad
  | tryReadExchange (current : ℕ)
  | tryReadReturned (acquired : Bool)
  | writeExchange
  | writeReturned
  | tryWriteExchange
  | tryWriteReturned (acquired : Bool)
  deriving DecidableEq, Repr

/-- The lock word, the calls in progress and the live guards, each by its
holder. A leaked guard stays in its list for ever. -/
structure State (T : Type) where
  state : ℕ
  calls : T → Call
  readGuards : List T
  writeGuards : List T

/-- An unlocked lock. -/
def new (T : Type) : State T where
  state := 0
  calls _ := .idle
  readGuards := []
  writeGuards := []

/-- A thread starts a call, makes the next access of its call, has a weak
exchange fail for no reason, or drops a guard it holds. -/
inductive Label (T : Type)
  | read (t : T)
  | tryRead (t : T)
  | write (t : T)
  | tryWrite (t : T)
  | step (t : T)
  | spurious (t : T)
  | dropRead (t : T)
  | dropWrite (t : T)
  deriving DecidableEq, Repr

/-- `current + 1` in `u32`. -/
def incr (current : ℕ) : ℕ := (current + 1) % 2 ^ 32

/-- `fetch_sub(1)` on an `AtomicU32`. -/
def fetchSub (n : ℕ) : ℕ := (n + 2 ^ 32 - 1) % 2 ^ 32

variable {T : Type} [DecidableEq T]

def State.setCall (s : State T) (t : T) (c : Call) : State T :=
  { s with calls := Function.update s.calls t c }

/-- The exchange of a reader succeeds. -/
def State.enterRead (s : State T) (t : T) (current : ℕ) : State T :=
  { s with state := incr current, readGuards := t :: s.readGuards }

/-- The exchange of a writer succeeds. -/
def State.enterWrite (s : State T) (t : T) : State T :=
  { s with state := writerBit, writeGuards := t :: s.writeGuards }

/-- The access a thread in the middle of a call makes next. -/
def advance (s : State T) (t : T) : Call → Option (State T)
  | .idle => none
  | .readLoad =>
      if s.state = writerBit then some s else some (s.setCall t (.readExchange s.state))
  | .readExchange current =>
      if s.state = current then some ((s.enterRead t current).setCall t .readReturned)
      else some (s.setCall t .readLoad)
  | .tryReadLoad =>
      if s.state = writerBit then some (s.setCall t (.tryReadReturned false))
      else some (s.setCall t (.tryReadExchange s.state))
  | .tryReadExchange current =>
      if s.state = current then
        some ((s.enterRead t current).setCall t (.tryReadReturned true))
      else some (s.setCall t (.tryReadReturned false))
  | .writeExchange =>
      if s.state = 0 then some ((s.enterWrite t).setCall t .writeReturned) else some s
  | .tryWriteExchange =>
      if s.state = 0 then some ((s.enterWrite t).setCall t (.tryWriteReturned true))
      else some (s.setCall t (.tryWriteReturned false))
  | .readReturned | .tryReadReturned _ | .writeReturned | .tryWriteReturned _ =>
      some (s.setCall t .idle)

def step (s : State T) : Label T → Option (State T)
  | .read t => if s.calls t = .idle then some (s.setCall t .readLoad) else none
  | .tryRead t => if s.calls t = .idle then some (s.setCall t .tryReadLoad) else none
  | .write t => if s.calls t = .idle then some (s.setCall t .writeExchange) else none
  | .tryWrite t => if s.calls t = .idle then some (s.setCall t .tryWriteExchange) else none
  | .step t => advance s t (s.calls t)
  | .spurious t =>
      match s.calls t with
      | .readExchange _ => some (s.setCall t .readLoad)
      | .writeExchange => some s
      | _ => none
  | .dropRead t =>
      if t ∈ s.readGuards then
        some { s with state := fetchSub s.state, readGuards := s.readGuards.erase t }
      else none
  | .dropWrite t =>
      if t ∈ s.writeGuards then
        some { s with state := 0, writeGuards := s.writeGuards.erase t }
      else none

/-! ### The invariant -/

/-- Either one writer has the lock, or the word counts the readers. -/
def Accounted (s : State T) : Prop :=
  (∃ t, s.writeGuards = [t]) ∧ s.readGuards = [] ∧ s.state = writerBit ∨
    s.writeGuards = [] ∧ s.state = s.readGuards.length

/-- A reader between its load and its exchange has not seen a writer. -/
def CallOk : Call → Prop
  | .readExchange current | .tryReadExchange current => current < writerBit
  | _ => True

structure Inv (s : State T) : Prop where
  accounted : Accounted s
  state_le : s.state ≤ writerBit
  calls_ok : ∀ t, CallOk (s.calls t)

omit [DecidableEq T] in
theorem inv_new : Inv (new T) where
  accounted := .inr ⟨rfl, rfl⟩
  state_le := Nat.zero_le _
  calls_ok _ := trivial

/-- A call that goes on without an exchange leaves the lock as it is. -/
theorem Inv.setCall {s : State T} (h : Inv s) (t : T) {c : Call} (hc : CallOk c) :
    Inv (s.setCall t c) where
  accounted := h.accounted
  state_le := h.state_le
  calls_ok u := by
    by_cases hu : u = t
    · subst hu
      simpa [State.setCall] using hc
    · simpa [State.setCall, hu] using h.calls_ok u

omit [DecidableEq T] in
theorem Inv.enterRead {s : State T} (h : Inv s) (t : T) (hlt : s.state < writerBit) :
    Inv (s.enterRead t s.state) := by
  have hincr : incr s.state = s.state + 1 :=
    Nat.mod_eq_of_lt (by unfold writerBit at hlt; omega)
  rcases h.accounted with ⟨-, -, hw⟩ | ⟨hnil, hcount⟩
  · omega
  · refine ⟨.inr ⟨hnil, ?_⟩, ?_, h.calls_ok⟩
    · change incr s.state = s.readGuards.length + 1
      omega
    · change incr s.state ≤ writerBit
      omega

omit [DecidableEq T] in
theorem Inv.enterWrite {s : State T} (h : Inv s) (t : T) (hzero : s.state = 0) :
    Inv (s.enterWrite t) := by
  rcases h.accounted with ⟨-, -, hw⟩ | ⟨hnil, hcount⟩
  · rw [hzero] at hw
    exact absurd hw (by decide)
  · have hread : s.readGuards = [] := List.length_eq_zero_iff.mp (by omega)
    exact ⟨.inl ⟨⟨t, by simp [State.enterWrite, hnil]⟩, hread, rfl⟩, Nat.le_refl _, h.calls_ok⟩

/-- A reader leaves: it was counted, so the count does not go below zero. -/
theorem Inv.dropRead {s : State T} (h : Inv s) {t : T} (ht : t ∈ s.readGuards) :
    Inv { s with state := fetchSub s.state, readGuards := s.readGuards.erase t } := by
  have hle := h.state_le
  rcases h.accounted with ⟨-, hnil, -⟩ | ⟨hnil, hcount⟩
  · simp [hnil] at ht
  · have hpos := List.length_pos_of_mem ht
    have hsub : fetchSub s.state = s.state - 1 := by
      unfold fetchSub writerBit at *
      omega
    refine ⟨.inr ⟨hnil, ?_⟩, ?_, h.calls_ok⟩
    · change fetchSub s.state = (s.readGuards.erase t).length
      rw [hsub, List.length_erase_of_mem ht, hcount]
    · change fetchSub s.state ≤ writerBit
      omega

/-- A writer leaves: there is no reader whose count the store could erase. -/
theorem Inv.dropWrite {s : State T} (h : Inv s) {t : T} (ht : t ∈ s.writeGuards) :
    Inv { s with state := 0, writeGuards := s.writeGuards.erase t } := by
  rcases h.accounted with ⟨⟨u, hone⟩, hread, -⟩ | ⟨hnil, -⟩
  · have hut : t = u := by simpa [hone] using ht
    subst hut
    exact ⟨.inr ⟨by simp [hone], by simp [hread]⟩, Nat.zero_le _, h.calls_ok⟩
  · simp [hnil] at ht

theorem inv_advance {s s' : State T} (h : Inv s) {t : T}
    (hstep : advance s t (s.calls t) = some s') : Inv s' := by
  have hlt : s.state ≠ writerBit → s.state < writerBit := fun hne =>
    Nat.lt_of_le_of_ne h.state_le hne
  have hok := h.calls_ok t
  cases hcall : s.calls t with
  | idle => simp [hcall, advance] at hstep
  | readLoad | tryReadLoad =>
      simp only [hcall, advance] at hstep
      split at hstep <;> cases hstep
      · first | exact h | exact h.setCall t trivial
      · rename_i hne
        exact h.setCall t (hlt hne)
  | readExchange current | tryReadExchange current =>
      rw [hcall] at hok
      simp only [hcall, advance] at hstep
      split at hstep <;> cases hstep
      · rename_i heq
        subst heq
        exact (h.enterRead t hok).setCall t trivial
      · exact h.setCall t trivial
  | writeExchange | tryWriteExchange =>
      simp only [hcall, advance] at hstep
      split at hstep <;> cases hstep
      · rename_i hzero
        exact (h.enterWrite t hzero).setCall t trivial
      · first | exact h | exact h.setCall t trivial
  | readReturned | tryReadReturned _ | writeReturned | tryWriteReturned _ =>
      simp only [hcall, advance, Option.some.injEq] at hstep
      subst hstep
      exact h.setCall t trivial

theorem inv_step {s s' : State T} {a : Label T} (h : Inv s) (hstep : step s a = some s') :
    Inv s' := by
  cases a with
  | step t => exact inv_advance h hstep
  | read t | tryRead t | write t | tryWrite t =>
      simp only [step] at hstep
      split at hstep <;> cases hstep
      exact h.setCall t trivial
  | spurious t =>
      simp only [step] at hstep
      split at hstep <;> cases hstep
      · exact h.setCall t trivial
      · exact h
  | dropRead t =>
      simp only [step, Option.ite_none_right_eq_some, Option.some.injEq] at hstep
      obtain ⟨ht, rfl⟩ := hstep
      exact h.dropRead ht
  | dropWrite t =>
      simp only [step, Option.ite_none_right_eq_some, Option.some.injEq] at hstep
      obtain ⟨ht, rfl⟩ := hstep
      exact h.dropWrite ht

theorem inv_of_reachable {s : State T} (hreach : Reachable step (new T) s) : Inv s :=
  reachable_invariant (I := Inv) (fun _ _ _ hI hstep => inv_step hI hstep) inv_new hreach

/-- A reader's call succeeds with the exchange that adds its guard to the others. -/
theorem Inv.reader_entered {s s' : State T} (h : Inv s) {t : T}
    (hstep : step s (.step t) = some s')
    (hret : s'.calls t = .readReturned ∨ s'.calls t = .tryReadReturned true) :
    s.writeGuards = [] ∧ s'.writeGuards = [] ∧ s'.readGuards = t :: s.readGuards ∧
      s'.state = s.state + 1 := by
  have hok := h.calls_ok t
  simp only [step] at hstep
  cases hcall : s.calls t <;> simp only [hcall, advance] at hstep
  case idle => cases hstep
  case readExchange current | tryReadExchange current =>
    rw [hcall] at hok
    have hlt : current < writerBit := hok
    split at hstep <;> cases hstep
    · rename_i heq
      subst heq
      obtain ⟨-, -, hw⟩ | ⟨hnil, -⟩ := h.accounted
      · omega
      · exact ⟨hnil, hnil, rfl, Nat.mod_eq_of_lt (by unfold writerBit at hlt; omega)⟩
    · simp [State.setCall] at hret
  case readLoad | tryReadLoad | writeExchange | tryWriteExchange =>
    split at hstep <;> cases hstep <;> simp [State.setCall, hcall] at hret
  case readReturned | tryReadReturned | writeReturned | tryWriteReturned =>
    cases hstep
    simp [State.setCall] at hret

/-- A writer's call succeeds with the exchange that finds no guard and makes its
own. -/
theorem Inv.writer_entered {s s' : State T} (h : Inv s) {t : T}
    (hstep : step s (.step t) = some s')
    (hret : s'.calls t = .writeReturned ∨ s'.calls t = .tryWriteReturned true) :
    s.readGuards = [] ∧ s.writeGuards = [] ∧ s'.readGuards = [] ∧ s'.writeGuards = [t] ∧
      s'.state = writerBit := by
  simp only [step] at hstep
  cases hcall : s.calls t <;> simp only [hcall, advance] at hstep
  case idle => cases hstep
  case writeExchange | tryWriteExchange =>
    split at hstep <;> cases hstep
    · rename_i hzero
      obtain ⟨-, -, hw⟩ | ⟨hnil, hcount⟩ := h.accounted
      · rw [hzero] at hw
        exact absurd hw (by decide)
      · have hread : s.readGuards = [] := List.length_eq_zero_iff.mp (by omega)
        exact ⟨hread, hnil, hread, congrArg (t :: ·) hnil, rfl⟩
    · simp [State.setCall, hcall] at hret
  case readLoad | tryReadLoad | readExchange | tryReadExchange =>
    split at hstep <;> cases hstep <;> simp [State.setCall, hcall] at hret
  case readReturned | tryReadReturned | writeReturned | tryWriteReturned =>
    cases hstep
    simp [State.setCall] at hret

/-- **Exclusion and exact accounting** in every reachable state, whatever the
number of live read guards. -/
theorem exclusion_and_accounting {s : State T} (hreach : Reachable step (new T) s) :
    ((∃ t, s.writeGuards = [t]) ∧ s.readGuards = [] ∧ s.state = writerBit ∨
      s.writeGuards = [] ∧ s.state = s.readGuards.length) ∧
    -- no reader with a writer, no two writers
    (s.readGuards = [] ∨ s.writeGuards = []) ∧ s.writeGuards.length ≤ 1 ∧
    -- `current + 1` does not overflow in any reader about to exchange
    (∀ t current, s.calls t = .readExchange current ∨ s.calls t = .tryReadExchange current →
      current + 1 < 2 ^ 32 ∧ incr current = current + 1) ∧
    -- a reader's drop does not wrap, a writer's drop erases no reader
    (∀ t ∈ s.readGuards, 1 ≤ s.state ∧ fetchSub s.state = s.state - 1) ∧
    (∀ t ∈ s.writeGuards, s.readGuards = [] ∧ s.state = writerBit) ∧
    -- a call that is about to return with success has just made its guard
    (∀ t s', step s (.step t) = some s' →
      (s'.calls t = .readReturned ∨ s'.calls t = .tryReadReturned true →
        s.writeGuards = [] ∧ s'.writeGuards = [] ∧ s'.readGuards = t :: s.readGuards ∧
          s'.state = s.state + 1) ∧
      (s'.calls t = .writeReturned ∨ s'.calls t = .tryWriteReturned true →
        s.readGuards = [] ∧ s.writeGuards = [] ∧ s'.readGuards = [] ∧ s'.writeGuards = [t] ∧
          s'.state = writerBit)) := by
  have h := inv_of_reachable hreach
  have hle := h.state_le
  refine ⟨h.accounted, ?_, ?_, ?_, ?_, ?_, fun t s' hstep =>
    ⟨h.reader_entered hstep, h.writer_entered hstep⟩⟩
  · rcases h.accounted with ⟨-, hread, -⟩ | ⟨hwrite, -⟩
    · exact .inl hread
    · exact .inr hwrite
  · rcases h.accounted with ⟨⟨t, hone⟩, -, -⟩ | ⟨hnil, -⟩
    · simp [hone]
    · simp [hnil]
  · intro t current hcall
    have hlt : current < writerBit := by
      have hok := h.calls_ok t
      rcases hcall with hcall | hcall <;> rw [hcall] at hok <;> exact hok
    unfold writerBit at hlt
    exact ⟨by omega, Nat.mod_eq_of_lt (by omega)⟩
  · intro t ht
    rcases h.accounted with ⟨-, hnil, -⟩ | ⟨-, hcount⟩
    · simp [hnil] at ht
    · have hpos := List.length_pos_of_mem ht
      unfold fetchSub writerBit at *
      omega
  · intro t ht
    rcases h.accounted with ⟨-, hread, hw⟩ | ⟨hnil, -⟩
    · exact ⟨hread, hw⟩
    · simp [hnil] at ht

/-! ### The limit of the counter

One thread that keeps reading and leaks its guards gets the count up to
`WRITER_BIT` itself. -/

/-- `n` read guards live, all of them `t`'s, and no call in progress. -/
def leaked (t : T) (n : ℕ) : State T where
  state := n
  calls _ := .idle
  readGuards := List.replicate n t
  writeGuards := []

theorem run_leaked {t : T} {n : ℕ} (hn : n < writerBit) :
    run step (leaked t n) [.read t, .step t, .step t, .step t] = some (leaked t (n + 1)) := by
  have hne : n ≠ writerBit := Nat.ne_of_lt hn
  have hincr : incr n = n + 1 := Nat.mod_eq_of_lt (by unfold writerBit at hn; omega)
  simp [run, step, advance, leaked, State.setCall, State.enterRead, hne, hincr,
    List.replicate_succ]

theorem reachable_leaked (t : T) {n : ℕ} (hn : n ≤ writerBit) :
    Reachable step (new T) (leaked t n) := by
  induction n with
  | zero => exact ⟨[], rfl⟩
  | succ n ih => exact (ih (Nat.le_of_lt hn)).run (run_leaked hn)

/-- All `2 ^ 32 - 1` readers live at once: the count coincides with the
writer's mark and nothing is lost. Of two writers and a reader the writer that
comes first gets in, alone. -/
theorem exclusion_and_accounting_at_limit :
    (∃ s : State Unit, Reachable step (new Unit) s ∧ s.readGuards.length = 2 ^ 32 - 1 ∧
      s.state = writerBit ∧ s.writeGuards = [] ∧
      ∀ t ∈ s.readGuards, fetchSub s.state = s.state - 1) ∧
    ∃ s s' : State ℕ, run step (new ℕ) [.read 0, .step 0, .write 1, .tryWrite 2] = some s ∧
      step s (.step 1) = some s' ∧ s'.calls 0 = .readExchange 0 ∧ s'.writeGuards = [1] ∧
      s'.readGuards = [] ∧ s'.state = writerBit := by
  constructor
  · have hreach := reachable_leaked () (Nat.le_refl writerBit)
    obtain ⟨-, -, -, -, hdrop, -⟩ := exclusion_and_accounting hreach
    refine ⟨leaked () writerBit, hreach, ?_, rfl, rfl, fun t ht => (hdrop t ht).2⟩
    simp only [leaked, List.length_replicate, writerBit]
  · obtain ⟨s, s', hrun, hstep, hreads, hreturned⟩ : ∃ s s' : State ℕ,
        run step (new ℕ) [.read 0, .step 0, .write 1, .tryWrite 2] = some s ∧
          step s (.step 1) = some s' ∧ s'.calls 0 = .readExchange 0 ∧
          s'.calls 1 = .writeReturned := ⟨_, _, rfl, rfl, rfl, rfl⟩
    obtain ⟨-, -, -, -, -, -, hentered⟩ := exclusion_and_accounting ⟨_, hrun⟩
    obtain ⟨-, -, hread, hwrite, hstate⟩ := (hentered 1 s' hstep).2 (.inl hreturned)
    exact ⟨s, s', hrun, hstep, hreads, hwrite, hread, hstate⟩

end SmpNostd.RwLock
