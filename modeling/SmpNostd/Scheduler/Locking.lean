import SmpNostd.Scheduler.Calls
import SmpNostd.Sync.SpinLock

/-!
The locks of the run queues, the interrupt flag, and interrupts.

A core runs a task and, on top of it, any number of nested interrupt handlers;
the innermost one runs, and the others go on when it has returned. All of them
call the scheduler. Each of these levels is a thread of the calls in progress,
and its critical sections are taken apart into the steps of the spin lock: the
flag is read and cleared, the lock word is exchanged, the queue is worked on,
the lock word is cleared and the flag is restored. An interrupt arrives
whenever the flag of the core is set, whatever the core is doing.

Nothing stops an interrupt handler from calling the scheduler in the middle of
another call on the same core. That this does not block for ever is the work of
the flag: it is clear from before the first attempt to get a lock until after
the lock is free again, and no call holds one lock while it asks for another.
-/

namespace SmpNostd.Locking

open Machine Interleaving SpinLock

/-- How far a thread is with the lock of the critical section it is at. `was`
is what it has read of the interrupt flag. -/
inductive Phase
  | outside
  /-- The flag has been read, and not been cleared yet. -/
  | disabling (queue : ℕ) (was : Bool)
  /-- The flag is clear, and the lock word is to be exchanged. -/
  | acquiring (queue : ℕ) (was : Bool)
  | inside (queue : ℕ) (was : Bool)
  /-- The queue has been worked on, and the lock word is to be cleared. -/
  | leaving (queue : ℕ) (was : Bool)
  /-- The flag is to be restored. -/
  | released (was : Bool)
  deriving DecidableEq, Repr

/-- The calls in progress, by core and level; the lock words of the queues; how
far every thread is with its lock; and for each core its RFLAGS and the RFLAGS
that the interrupts in progress have saved, the innermost one's first. -/
structure State (C : Type) where
  calls : Interleaving.State (C × ℕ)
  locked : ℕ → Bool
  phase : C × ℕ → Phase
  rflags : C → BitVec 64
  saved : C → List (BitVec 64)

/-- A new scheduler, all locks free, no interrupt in progress, any flags. -/
def new {C : Type} (numCores : ℕ) (rflags : C → BitVec 64) : State C where
  calls := Interleaving.new (C × ℕ) numCores
  locked _ := false
  phase _ := .outside
  rflags := rflags
  saved _ := []

variable {C : Type} [DecidableEq C]

/-- The thread that runs on core `c`: its innermost level. -/
def State.running (s : State C) (c : C) : C × ℕ := (c, (s.saved c).length)

def State.setPhase (s : State C) (c : C) (p : Phase) : State C :=
  { s with phase := Function.update s.phase (s.running c) p }

def State.setRflags (s : State C) (c : C) (r : BitVec 64) : State C :=
  { s with rflags := Function.update s.rflags c r }

def State.setLocked (s : State C) (queue : ℕ) (b : Bool) : State C :=
  { s with locked := Function.update s.locked queue b }

/-- The queue whose lock the next step of a call takes. -/
def wants : Call Submission → Option ℕ
  | .pushing core _ | .popping core | .repushing core _ (_ :: _) => some core
  | .stealing _ victim => some victim
  | .idle | .leastLoaded _ _ _ | .busiest _ _ _ | .repushing _ _ [] | .returning _ _ => none

/-- The next step of the call that runs on core `c`. -/
def advance (s : State C) (c : C) : Option (State C) :=
  match s.phase (s.running c) with
  | .outside =>
      match wants (s.calls.calls (s.running c)) with
      | none =>
          (Interleaving.step s.calls (.step (s.running c))).map fun calls =>
            { s with calls := calls }
      | some queue =>
          if queue < s.calls.sched.runQueues.length then
            some (s.setPhase c (.disabling queue (interruptsEnabled (s.rflags c))))
          else none
  | .disabling queue was =>
      some ((s.setRflags c (cli (s.rflags c))).setPhase c (.acquiring queue was))
  | .acquiring queue was =>
      if s.locked queue then some s
      else some ((s.setLocked queue true).setPhase c (.inside queue was))
  | .inside queue was =>
      (Interleaving.step s.calls (.step (s.running c))).map fun calls =>
        { s with calls := calls }.setPhase c (.leaving queue was)
  | .leaving queue was => some ((s.setLocked queue false).setPhase c (.released was))
  | .released was =>
      some ((s.setRflags c (restoreInterrupts was (s.rflags c))).setPhase c .outside)

/-- The running level is not in the middle of a call. -/
def State.BetweenCalls (s : State C) (c : C) : Prop :=
  s.phase (s.running c) = .outside ∧ s.calls.calls (s.running c) = .idle

instance (s : State C) (c : C) : Decidable (s.BetweenCalls c) :=
  inferInstanceAs (Decidable (_ ∧ _))

/-- What can happen on a core. The handler of an interrupt is entered with the
flag clear or not, depending on the gate; the code between the calls may set
and clear the flag. The exchange on the lock word is the weak one. -/
inductive Label (C : Type)
  | start (c : C) (op : Op)
  | step (c : C)
  | spurious (c : C)
  | interrupt (c : C) (clearsFlag : Bool)
  | interruptReturn (c : C)
  | setFlags (c : C) (r : BitVec 64)
  deriving DecidableEq, Repr

def step (s : State C) : Label C → Option (State C)
  | .start c op =>
      if s.BetweenCalls c then
        (Interleaving.step s.calls (.start (s.running c) op)).map fun calls =>
          { s with calls := calls }
      else none
  | .step c => advance s c
  | .spurious c =>
      match s.phase (s.running c) with
      | .acquiring _ _ => some s
      | _ => none
  | .interrupt c clearsFlag =>
      if interruptsEnabled (s.rflags c) then
        some ({ s with saved := Function.update s.saved c (s.rflags c :: s.saved c) }.setRflags c
          (if clearsFlag then cli (s.rflags c) else s.rflags c))
      else none
  | .interruptReturn c =>
      if s.BetweenCalls c then
        match s.saved c with
        | [] => none
        | r :: rest => some ({ s with saved := Function.update s.saved c rest }.setRflags c r)
      else none
  | .setFlags c r => if s.BetweenCalls c then some (s.setRflags c r) else none

/-- What one step can do. -/
inductive Steps (s : State C) : State C → Prop
  | start {c op calls} (hbetween : s.BetweenCalls c)
      (h : Interleaving.step s.calls (.start (s.running c) op) = some calls) :
      Steps s { s with calls := calls }
  /-- A step of the call outside every critical section. -/
  | outside {c calls} (hphase : s.phase (s.running c) = .outside)
      (h : Interleaving.step s.calls (.step (s.running c)) = some calls) :
      Steps s { s with calls := calls }
  | read {c queue} (hphase : s.phase (s.running c) = .outside)
      (hwants : wants (s.calls.calls (s.running c)) = some queue)
      (hlt : queue < s.calls.sched.runQueues.length) :
      Steps s (s.setPhase c (.disabling queue (interruptsEnabled (s.rflags c))))
  | disable {c queue was} (hphase : s.phase (s.running c) = .disabling queue was) :
      Steps s ((s.setRflags c (cli (s.rflags c))).setPhase c (.acquiring queue was))
  | spin : Steps s s
  | acquire {c queue was} (hphase : s.phase (s.running c) = .acquiring queue was)
      (hfree : s.locked queue = false) :
      Steps s ((s.setLocked queue true).setPhase c (.inside queue was))
  | work {c queue was calls} (hphase : s.phase (s.running c) = .inside queue was)
      (h : Interleaving.step s.calls (.step (s.running c)) = some calls) :
      Steps s ({ s with calls := calls }.setPhase c (.leaving queue was))
  | unlock {c queue was} (hphase : s.phase (s.running c) = .leaving queue was) :
      Steps s ((s.setLocked queue false).setPhase c (.released was))
  | restore {c was} (hphase : s.phase (s.running c) = .released was) :
      Steps s ((s.setRflags c (restoreInterrupts was (s.rflags c))).setPhase c .outside)
  | interrupt {c r} (hflag : interruptsEnabled (s.rflags c) = true) :
      Steps s ({ s with saved := Function.update s.saved c (s.rflags c :: s.saved c) }.setRflags
        c r)
  | interruptReturn {c r rest} (hbetween : s.BetweenCalls c) (hsaved : s.saved c = r :: rest) :
      Steps s ({ s with saved := Function.update s.saved c rest }.setRflags c r)
  | setFlags {c r} (hbetween : s.BetweenCalls c) : Steps s (s.setRflags c r)

theorem advance_cases {s s' : State C} {c : C} (h : advance s c = some s') : Steps s s' := by
  unfold advance at h
  cases hphase : s.phase (s.running c) with
  | outside =>
      simp only [hphase] at h
      cases hwants : wants (s.calls.calls (s.running c)) with
      | none =>
          rw [hwants] at h
          obtain ⟨calls, hcalls, rfl⟩ := Option.map_eq_some_iff.mp h
          exact .outside hphase hcalls
      | some queue =>
          rw [hwants] at h
          obtain ⟨hlt, heq⟩ := Option.ite_none_right_eq_some.mp h
          obtain rfl := Option.some.inj heq
          exact .read hphase hwants hlt
  | disabling queue was =>
      rw [hphase] at h
      obtain rfl := Option.some.inj h
      exact .disable hphase
  | acquiring queue was =>
      simp only [hphase] at h
      split_ifs at h with hlocked <;> obtain rfl := Option.some.inj h
      · exact .spin
      · exact .acquire hphase (Bool.eq_false_iff.mpr hlocked)
  | inside queue was =>
      rw [hphase] at h
      obtain ⟨calls, hcalls, rfl⟩ := Option.map_eq_some_iff.mp h
      exact .work hphase hcalls
  | leaving queue was =>
      rw [hphase] at h
      obtain rfl := Option.some.inj h
      exact .unlock hphase
  | released was =>
      rw [hphase] at h
      obtain rfl := Option.some.inj h
      exact .restore hphase

theorem step_cases {s s' : State C} {l : Label C} (h : step s l = some s') : Steps s s' := by
  cases l with
  | start c op =>
      simp only [step, Option.ite_none_right_eq_some, Option.map_eq_some_iff] at h
      obtain ⟨hbetween, calls, hcalls, rfl⟩ := h
      exact .start hbetween hcalls
  | step c => exact advance_cases h
  | spurious c =>
      simp only [step] at h
      split at h
      · obtain rfl := Option.some.inj h
        exact .spin
      · cases h
  | interrupt c clearsFlag =>
      obtain ⟨hflag, heq⟩ := Option.ite_none_right_eq_some.mp h
      obtain rfl := Option.some.inj heq
      exact .interrupt hflag
  | interruptReturn c =>
      obtain ⟨hbetween, h⟩ := Option.ite_none_right_eq_some.mp h
      cases hsaved : s.saved c with
      | nil =>
          rw [hsaved] at h
          cases h
      | cons r rest =>
          rw [hsaved] at h
          obtain rfl := Option.some.inj h
          exact .interruptReturn hbetween hsaved
  | setFlags c r =>
      obtain ⟨hbetween, heq⟩ := Option.ite_none_right_eq_some.mp h
      obtain rfl := Option.some.inj heq
      exact .setFlags hbetween

/-- Every run is, without the locks, a run of the calls in progress. -/
theorem run_calls {s s' : State C} {as : List (Label C)} (hrun : run step s as = some s') :
    Reachable Interleaving.step s.calls s'.calls := by
  refine run_invariant (I := fun m : State C => Reachable Interleaving.step s.calls m.calls)
    (fun m l m' hm hl => ?_) ⟨[], rfl⟩ hrun
  cases step_cases hl with
  | start _ h | outside _ h | work _ h => exact hm.of_step h
  | read | disable | spin | acquire | unlock | restore | interrupt | interruptReturn
  | setFlags => exact hm

/-! ### The locks -/

/-- The thread keeps its core from being interrupted. -/
def Phase.Masks : Phase → Prop
  | .acquiring _ _ | .inside _ _ | .leaving _ _ | .released _ => True
  | .outside | .disabling _ _ => False

/-- The queue whose lock the thread holds. -/
def Phase.holds : Phase → Option ℕ
  | .inside queue _ | .leaving queue _ => some queue
  | .outside | .disabling _ _ | .acquiring _ _ | .released _ => none

/-- The queue whose lock the thread spins on. -/
def Phase.awaits : Phase → Option ℕ
  | .acquiring queue _ => some queue
  | .outside | .disabling _ _ | .inside _ _ | .leaving _ _ | .released _ => none

/-- The queue the thread is going to work on, with or without the lock. -/
def Phase.target : Phase → Option ℕ
  | .disabling queue _ | .acquiring queue _ | .inside queue _ => some queue
  | .outside | .leaving _ _ | .released _ => none

/-- A lock word is set exactly if one thread holds the lock. -/
structure Locks {T : Type} (locked : ℕ → Bool) (phase : T → Phase) : Prop where
  held : ∀ queue, locked queue = true ↔ ∃ t, (phase t).holds = some queue
  unique : ∀ {queue t t'}, (phase t).holds = some queue → (phase t').holds = some queue → t' = t

section Locks

variable {T : Type} [DecidableEq T] {locked : ℕ → Bool} {phase : T → Phase} {t : T} {p : Phase}
  {queue : ℕ}

theorem Locks.keep (h : Locks locked phase) {o : Option ℕ} (hold : (phase t).holds = o)
    (hp : p.holds = o) : Locks locked (Function.update phase t p) := by
  have hsame : ∀ t', (Function.update phase t p t').holds = (phase t').holds := by
    intro t'
    by_cases ht : t' = t
    · subst ht
      rw [Function.update_self, hp, hold]
    · rw [Function.update_of_ne ht]
  constructor
  · simpa only [hsame] using h.held
  · intro queue t₁ t₂ h₁ h₂
    rw [hsame] at h₁ h₂
    exact h.unique h₁ h₂

theorem Locks.acquire (h : Locks locked phase) (hfree : locked queue = false)
    (hold : (phase t).holds = none) (hp : p.holds = some queue) :
    Locks (Function.update locked queue true) (Function.update phase t p) := by
  have hnobody : ∀ t', (phase t').holds ≠ some queue := by
    intro t' ht'
    have hheld := (h.held queue).mpr ⟨t', ht'⟩
    rw [hfree] at hheld
    cases hheld
  have hcases : ∀ q t', (Function.update phase t p t').holds = some q ↔
      t' = t ∧ q = queue ∨ (phase t').holds = some q := by
    intro q t'
    by_cases ht : t' = t
    · subst ht
      simp [hp, hold, eq_comm]
    · simp [ht]
  constructor
  · intro q
    simp only [hcases]
    by_cases hq : q = queue
    · subst hq
      exact iff_of_true (Function.update_self ..) ⟨t, .inl ⟨rfl, rfl⟩⟩
    · rw [Function.update_of_ne hq, h.held q]
      simp [hq]
  · intro q t₁ t₂ h₁ h₂
    rw [hcases] at h₁ h₂
    obtain ⟨rfl, rfl⟩ | h₁ := h₁
    · obtain ⟨rfl, -⟩ | h₂ := h₂
      · rfl
      · exact absurd h₂ (hnobody t₂)
    · obtain ⟨rfl, rfl⟩ | h₂ := h₂
      · exact absurd h₁ (hnobody t₁)
      · exact h.unique h₁ h₂

theorem Locks.release (h : Locks locked phase) (hold : (phase t).holds = some queue)
    (hp : p.holds = none) :
    Locks (Function.update locked queue false) (Function.update phase t p) := by
  have hcases : ∀ q t', (Function.update phase t p t').holds = some q ↔
      q ≠ queue ∧ (phase t').holds = some q := by
    intro q t'
    by_cases ht : t' = t
    · subst ht
      simp only [Function.update_self, hp, hold, Option.some.injEq, reduceCtorEq, false_iff]
      rintro ⟨hne, rfl⟩
      exact hne rfl
    · rw [Function.update_of_ne ht]
      refine ⟨fun hq => ⟨?_, hq⟩, And.right⟩
      rintro rfl
      exact ht (h.unique hold hq)
  constructor
  · intro q
    simp only [hcases]
    by_cases hq : q = queue
    · subst hq
      simp
    · rw [Function.update_of_ne hq, h.held q]
      simp [hq]
  · intro q t₁ t₂ h₁ h₂
    rw [hcases] at h₁ h₂
    exact h.unique h₁.2 h₂.2

end Locks

/-! ### The levels of a core -/

/-- Only the running level of a core keeps interrupts away, and it does. -/
structure Frames (phase : C × ℕ → Phase) (rflags : C → BitVec 64)
    (saved : C → List (BitVec 64)) : Prop where
  above : ∀ c i, (saved c).length < i → phase (c, i) = .outside
  masks : ∀ c i, (phase (c, i)).Masks →
    i = (saved c).length ∧ interruptsEnabled (rflags c) = false

section Frames

variable {phase : C × ℕ → Phase} {rflags : C → BitVec 64} {saved : C → List (BitVec 64)} {c : C}
  {p : Phase} {r : BitVec 64}

/-- The running level of a core takes a step. -/
theorem Frames.set (h : Frames phase rflags saved)
    (hp : p.Masks → interruptsEnabled r = false) :
    Frames (Function.update phase (c, (saved c).length) p) (Function.update rflags c r)
      saved := by
  constructor
  · intro c' i hi
    have hne : (c', i) ≠ (c, (saved c).length) := by
      rintro ⟨⟩
      exact Nat.lt_irrefl _ hi
    rw [Function.update_of_ne hne]
    exact h.above c' i hi
  · intro c' i hmask
    by_cases ht : (c', i) = (c, (saved c).length)
    · obtain ⟨rfl, rfl⟩ := Prod.mk.inj ht
      rw [Function.update_self] at hmask ⊢
      exact ⟨rfl, hp hmask⟩
    · rw [Function.update_of_ne ht] at hmask
      obtain ⟨rfl, hflag⟩ := h.masks c' i hmask
      have hne : c' ≠ c := by
        rintro rfl
        exact ht rfl
      rw [Function.update_of_ne hne]
      exact ⟨rfl, hflag⟩

theorem Frames.setPhase (h : Frames phase rflags saved)
    (hp : p.Masks → interruptsEnabled (rflags c) = false) :
    Frames (Function.update phase (c, (saved c).length) p) rflags saved := by
  simpa using h.set (c := c) hp

omit [DecidableEq C] in
theorem Frames.not_masks (h : Frames phase rflags saved)
    (hphase : phase (c, (saved c).length) = .outside) (i : ℕ) : ¬(phase (c, i)).Masks := by
  intro hmask
  obtain ⟨rfl, -⟩ := h.masks c i hmask
  rw [hphase] at hmask
  exact hmask

/-- A core no level of which keeps interrupts away gets other flags. -/
theorem Frames.setRflags (h : Frames phase rflags saved)
    (hnone : ∀ i, ¬(phase (c, i)).Masks) : Frames phase (Function.update rflags c r) saved := by
  refine ⟨h.above, fun c' i hmask => ?_⟩
  have hne : c' ≠ c := by
    rintro rfl
    exact hnone i hmask
  rw [Function.update_of_ne hne]
  exact h.masks c' i hmask

/-- A core no level of which keeps interrupts away gets other levels, and those
above them are outside. -/
theorem Frames.setSaved (h : Frames phase rflags saved) {l : List (BitVec 64)}
    (hnone : ∀ i, ¬(phase (c, i)).Masks) (habove : ∀ i, l.length < i → phase (c, i) = .outside) :
    Frames phase rflags (Function.update saved c l) := by
  constructor
  · intro c' i hi
    by_cases hc : c' = c
    · subst hc
      rw [Function.update_self] at hi
      exact habove i hi
    · rw [Function.update_of_ne hc] at hi
      exact h.above c' i hi
  · intro c' i hmask
    have hne : c' ≠ c := by
      rintro rfl
      exact hnone i hmask
    rw [Function.update_of_ne hne]
    exact h.masks c' i hmask

end Frames

/-! ### What the threads are at -/

/-- A thread that is going to work on a queue is at a call that wants it. -/
def Targets (s : State C) : Prop :=
  ∀ t queue, (s.phase t).target = some queue →
    wants (s.calls.calls t) = some queue ∧ queue < s.calls.sched.runQueues.length

/-- A call that wants a queue that there is can work on it. -/
theorem exists_work {T : Type} [DecidableEq T] (m : Interleaving.State T) (t : T) {queue : ℕ}
    (hwants : wants (m.calls t) = some queue) (hlt : queue < m.sched.runQueues.length) :
    ∃ m', Interleaving.step m (.step t) = some m' := by
  obtain ⟨rq, hrq⟩ := exists_queue hlt
  simp only [Interleaving.step]
  generalize m.calls t = call at hwants
  unfold wants at hwants
  split at hwants
  · obtain rfl := Option.some.inj hwants
    simp [Interleaving.advance, Scheduler.pushTo, hrq]
  · obtain rfl := Option.some.inj hwants
    simp [Interleaving.advance, Scheduler.popFrom, hrq]
  · obtain rfl := Option.some.inj hwants
    simp [Interleaving.advance, Scheduler.pushTo, hrq]
  · obtain rfl := Option.some.inj hwants
    simp [Interleaving.advance, Scheduler.stealFrom, hrq]
  all_goals cases hwants

/-- The thread that runs on a core gets to another point of its call. -/
theorem Targets.setCalls {s : State C} (h : Targets s) {l : Interleaving.Label (C × ℕ)}
    {calls : Interleaving.State (C × ℕ)} (hcalls : Interleaving.step s.calls l = some calls)
    (hnone : (s.phase l.thread).target = none) : Targets { s with calls := calls } := by
  intro t queue ht
  have hne : t ≠ l.thread := by
    rintro rfl
    rw [show (State.mk calls s.locked s.phase s.rflags s.saved).phase = s.phase from rfl,
      hnone] at ht
    cases ht
  obtain ⟨hwants, hlt⟩ := h t queue ht
  exact ⟨(step_calls_of_ne hcalls hne).symm ▸ hwants, (step_length hcalls).symm ▸ hlt⟩

theorem Targets.setPhase {s : State C} (h : Targets s) {c : C} {p : Phase}
    (hp : ∀ queue, p.target = some queue →
      wants (s.calls.calls (s.running c)) = some queue ∧
        queue < s.calls.sched.runQueues.length) : Targets (s.setPhase c p) := by
  intro t queue ht
  by_cases heq : t = s.running c
  · subst heq
    exact hp queue (by simpa [State.setPhase] using ht)
  · exact h t queue (by simpa [State.setPhase, heq] using ht)

/-! ### The invariant -/

structure Inv (s : State C) : Prop where
  locks : Locks s.locked s.phase
  frames : Frames s.phase s.rflags s.saved
  targets : Targets s

omit [DecidableEq C] in
theorem new_inv (numCores : ℕ) (rflags : C → BitVec 64) : Inv (new numCores rflags) where
  locks := ⟨fun queue => by simp [new, Phase.holds], nofun⟩
  frames := ⟨fun _ _ _ => rfl, fun _ _ h => h.elim⟩
  targets := nofun

theorem Inv.steps {s s' : State C} (h : Inv s) (hstep : Steps s s') : Inv s' := by
  obtain ⟨hlocks, hframes, htargets⟩ := h
  -- the running level of the core, where it is in the middle of a lock
  have hflag : ∀ {c : C}, (s.phase (s.running c)).Masks →
      interruptsEnabled (s.rflags c) = false := fun hmask => (hframes.masks _ _ hmask).2
  have hholds : ∀ {c : C} {p : Phase}, s.phase (s.running c) = p →
      (s.phase (s.running c)).holds = p.holds := fun hphase => by rw [hphase]
  cases hstep with
  | @start c op calls hbetween hcalls =>
      exact ⟨hlocks, hframes, htargets.setCalls hcalls (by
        rw [show (Interleaving.Label.start (s.running c) op).thread = s.running c from rfl,
          hbetween.1]
        rfl)⟩
  | @outside c calls hphase hcalls =>
      exact ⟨hlocks, hframes, htargets.setCalls hcalls (by
        rw [show (Interleaving.Label.step (s.running c)).thread = s.running c from rfl, hphase]
        rfl)⟩
  | @read c queue hphase hwants hlt =>
      refine ⟨hlocks.keep (t := s.running c) (hholds hphase) rfl, hframes.setPhase False.elim,
        htargets.setPhase ?_⟩
      rintro q ⟨rfl⟩
      exact ⟨hwants, hlt⟩
  | @disable c queue was hphase =>
      refine ⟨hlocks.keep (t := s.running c) (hholds hphase) rfl,
        hframes.set fun _ => interruptsEnabled_cli _,
        Targets.setPhase (s := s.setRflags c (cli (s.rflags c))) htargets ?_⟩
      rintro q ⟨rfl⟩
      exact htargets (s.running c) queue (by rw [hphase]; rfl)
  | spin => exact ⟨hlocks, hframes, htargets⟩
  | @acquire c queue was hphase hfree =>
      refine ⟨hlocks.acquire (t := s.running c) hfree (hholds hphase) rfl,
        hframes.setPhase fun _ => hflag (by rw [hphase]; trivial),
        Targets.setPhase (s := s.setLocked queue true) htargets ?_⟩
      rintro q ⟨rfl⟩
      exact htargets (s.running c) queue (by rw [hphase]; rfl)
  | @work c queue was calls hphase hcalls =>
      refine ⟨hlocks.keep (t := s.running c) (hholds hphase) rfl,
        hframes.setPhase fun _ => hflag (by rw [hphase]; trivial), ?_⟩
      intro t q ht
      have hne : t ≠ s.running c := by
        rintro rfl
        simp [State.setPhase, State.running, Phase.target] at ht
      have hold : (s.phase t).target = some q := by
        have hupd : Function.update s.phase (s.running c) (.leaving queue was) t = s.phase t :=
          Function.update_of_ne hne ..
        rw [← hupd]
        exact ht
      obtain ⟨hwants, hlt⟩ := htargets t q hold
      exact ⟨(step_calls_of_ne hcalls hne).symm ▸ hwants, (step_length hcalls).symm ▸ hlt⟩
  | @unlock c queue was hphase =>
      exact ⟨hlocks.release (t := s.running c) (hholds hphase) rfl,
        hframes.setPhase fun _ => hflag (by rw [hphase]; trivial),
        Targets.setPhase (s := s.setLocked queue false) htargets nofun⟩
  | @restore c was hphase =>
      exact ⟨hlocks.keep (t := s.running c) (hholds hphase) rfl, hframes.set False.elim,
        Targets.setPhase (s := s.setRflags c _) htargets nofun⟩
  | @interrupt c r hset =>
      have hnone : ∀ i, ¬(s.phase (c, i)).Masks := by
        intro i hmask
        have hclear := (hframes.masks c i hmask).2
        rw [hset] at hclear
        cases hclear
      refine ⟨hlocks, (hframes.setSaved hnone fun i hi => ?_).setRflags hnone, htargets⟩
      exact hframes.above c i (Nat.lt_of_succ_lt hi)
  | @interruptReturn c r rest hbetween hsaved =>
      have hnone := hframes.not_masks hbetween.1
      refine ⟨hlocks, (hframes.setSaved hnone fun i hi => ?_).setRflags hnone, htargets⟩
      rcases Nat.eq_or_lt_of_le hi with rfl | hlt
      · have htop := hbetween.1
        rwa [State.running, hsaved] at htop
      · exact hframes.above c i (by rwa [hsaved])
  | setFlags hbetween =>
      exact ⟨hlocks, hframes.setRflags (hframes.not_masks hbetween.1), htargets⟩

/-! ### No deadlock -/

/-- The holder of a lock gets to free it by itself. -/
theorem Inv.holder_frees {s : State C} (h : Inv s) {c : C} {i queue : ℕ}
    (hholds : (s.phase (c, i)).holds = some queue) :
    ∃ n s', run step s (List.replicate n (.step c)) = some s' ∧ s'.locked queue = false := by
  have hleaving : ∀ (m : State C) was, m.phase (m.running c) = .leaving queue was →
      ∃ n s', run step m (List.replicate n (.step c)) = some s' ∧ s'.locked queue = false := by
    intro m was hm
    refine ⟨1, _, by simp only [List.replicate, run, step, advance, hm]; rfl, ?_⟩
    simp [State.setPhase, State.setLocked]
  have hmask : (s.phase (c, i)).Masks := by
    cases hphase : s.phase (c, i) with
    | inside | leaving => trivial
    | outside | disabling | acquiring | released => rw [hphase] at hholds; cases hholds
  obtain ⟨rfl, -⟩ := h.frames.masks c i hmask
  cases hphase : s.phase (c, (s.saved c).length) with
  | inside q was =>
      obtain ⟨hwants, hlt⟩ := h.targets (s.running c) q (by rw [State.running, hphase]; rfl)
      obtain ⟨calls, hcalls⟩ := exists_work s.calls (s.running c) hwants hlt
      rw [hphase] at hholds
      obtain rfl := Option.some.inj hholds
      obtain ⟨n, s', hrun, hfree⟩ :=
        hleaving ({ s with calls := calls }.setPhase c (.leaving q was)) was
          (Function.update_self ..)
      refine ⟨n + 1, s', ?_, hfree⟩
      have hadvance : advance s c =
          some ({ s with calls := calls }.setPhase c (.leaving q was)) := by
        simp only [advance, State.running, hphase]
        rw [show Interleaving.step s.calls (.step (c, (s.saved c).length)) = some calls from hcalls]
        rfl
      rwa [List.replicate_succ, run_cons, step, hadvance, Option.bind_some]
  | leaving q was =>
      rw [hphase] at hholds
      obtain rfl := Option.some.inj hholds
      exact hleaving s was hphase
  | outside | disabling | acquiring | released =>
      rw [hphase] at hholds
      cases hholds

/-- **The scheduler's locks cannot deadlock.** In every state of every run, on
a core that spins on the lock of a queue no level holds any lock; and if the
lock is held, it is held by one thread, of another core, which is inside its
critical section, waits for no lock on any level, and gets to free the lock by
its own steps. -/
theorem locking_deadlock_free {numCores : ℕ} {rflags : C → BitVec 64} {as : List (Label C)}
    {s : State C} (hrun : run step (new numCores rflags) as = some s) {c : C} {i queue : ℕ}
    (hspin : (s.phase (c, i)).awaits = some queue) :
    (∀ j, (s.phase (c, j)).holds = none) ∧
    (s.locked queue = true →
      ∃ c' j, c' ≠ c ∧ (s.phase (c', j)).holds = some queue ∧
        (∀ t, (s.phase t).holds = some queue → t = (c', j)) ∧
        (∀ k, (s.phase (c', k)).awaits = none) ∧
        ∃ n s', run step s (List.replicate n (.step c')) = some s' ∧
          s'.locked queue = false) := by
  have h : Inv s :=
    run_invariant (fun _ _ _ hs hstep => hs.steps (step_cases hstep)) (new_inv numCores rflags)
      hrun
  -- a level that spins or holds a lock is the running one
  have hrunning : ∀ {c : C} {i : ℕ}, (s.phase (c, i)).awaits ≠ none ∨
      (s.phase (c, i)).holds ≠ none → i = (s.saved c).length := by
    intro c i hi
    apply (h.frames.masks c i _).1
    cases hphase : s.phase (c, i) <;> rw [hphase] at hi <;>
      first | trivial | exact (hi.elim (· rfl) (· rfl)).elim
  have hexclusive : ∀ {c : C} {i j : ℕ}, (s.phase (c, i)).awaits ≠ none →
      (s.phase (c, j)).holds = none := by
    intro c i j hi
    by_contra hj
    obtain rfl : i = j := (hrunning (.inl hi)).trans (hrunning (.inr hj)).symm
    cases hphase : s.phase (c, i) <;> rw [hphase] at hi hj <;>
      first | exact hi rfl | exact hj rfl
  have hnone : ∀ j, (s.phase (c, j)).holds = none :=
    fun j => hexclusive (i := i) (by rw [hspin]; nofun)
  refine ⟨hnone, fun hlocked => ?_⟩
  obtain ⟨⟨c', j⟩, hholds⟩ := (h.locks.held queue).mp hlocked
  refine ⟨c', j, ?_, hholds, fun t ht => h.locks.unique hholds ht, fun k => ?_,
    h.holder_frees hholds⟩
  · rintro rfl
    rw [hnone j] at hholds
    cases hholds
  · by_contra hk
    rw [hexclusive hk] at hholds
    cases hholds

/-- Core 0 is inside the queue of core 0. A task on core 1 is about to push to
that queue when a timer interrupt calls `schedule` for core 0, which spins. -/
def contended : List (Label (Fin 2)) :=
  let task := Task.new 1 0 "task" 0 0 0
  [.start 0 (.spawnOnCore 0 task), .step 0, .step 0, .step 0, .start 1 (.spawnOnCore 0 task),
    .interrupt 1 true, .start 1 (.schedule 0), .step 1, .step 1, .step 1]

theorem locking_deadlock_free_contended :
    ∃ s, run step (new 2 fun _ => ifBit) contended = some s ∧
      (s.phase (1, 1)).awaits = some 0 ∧ s.locked 0 = true ∧
      ∃ c' j, c' ≠ 1 ∧ (s.phase (c', j)).holds = some 0 := by
  obtain ⟨s, hrun, hspin, hlocked⟩ : ∃ s, run step (new 2 fun _ => ifBit) contended = some s ∧
      (s.phase (1, 1)).awaits = some 0 ∧ s.locked 0 = true := ⟨_, rfl, rfl, rfl⟩
  obtain ⟨c', j, hne, hholds, -⟩ := (locking_deadlock_free hrun hspin).2 hlocked
  exact ⟨s, hrun, hspin, hlocked, c', j, hne, hholds⟩

end SmpNostd.Locking
