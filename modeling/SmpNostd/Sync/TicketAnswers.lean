import SmpNostd.Sync.TicketLock

/-!
What `try_lock` and `is_locked` of the ticket lock say.

Both load the two counters one after the other, so they may compare a value of
`now_serving` with one of `next_ticket` that it never stood next to. Still, the
answer was right at some instant of the call. Counters that stay equal to each
other stay what they are, so a call during which no ticket is outstanding finds
the same number in both. And a `next_ticket` that is found equal to an earlier
`now_serving` was equal to it when that was loaded.
-/

namespace SmpNostd.TicketLock

open Machine

variable {T : Type} [DecidableEq T]

/-- Some ticket has been taken and not been given back by the drop of its
guard. -/
def State.Outstanding (s : State T) : Prop := s.nowServing ≠ s.nextTicket

instance (s : State T) : Decidable s.Outstanding :=
  inferInstanceAs (Decidable (s.nowServing ≠ s.nextTicket))

/-- Thread `t` starts a call. -/
def Label.Starts (t : T) : Label T → Prop
  | .lock u | .tryLock u | .isLocked u => u = t
  | .step _ | .drop _ _ => False

/-- The thread that moves. -/
def Label.thread : Label T → T
  | .lock t | .tryLock t | .isLocked t | .step t | .drop t _ => t

/-- What a call that has found no ticket outstanding so far knows: the number it
has loaded is the one in both counters. -/
def Call.Current (next : ℕ) : Call → Prop
  | .tryNext n | .tryExchange n | .isLockedNext n => n = next
  | .tryReturned acquired => acquired = true
  | .isLockedReturned held => held = false
  | .idle | .waiting _ | .lockReturned => True

variable {s s' : State T} {t : T} {a : Label T}

/-! ### While no ticket is outstanding -/

/-- Taking a ticket makes it outstanding, and only then is there one to drop. -/
theorem nextTicket_of_not_outstanding (hstep : step s a = some s') (hs : ¬s.Outstanding)
    (hs' : ¬s'.Outstanding) : s'.nextTicket = s.nextTicket := by
  have hequal : s.nowServing = s.nextTicket := not_not.mp hs
  have hequal' : s'.nowServing = s'.nextTicket := not_not.mp hs'
  have hkept : s'.nowServing = s.nowServing → s'.nextTicket = s.nextTicket := fun h => by
    rw [← hequal', h, hequal]
  cases a with
  | lock u | tryLock u | isLocked u =>
      simp only [step] at hstep
      split at hstep <;> cases hstep
      exact hkept rfl
  | drop u k =>
      simp only [step] at hstep
      split at hstep <;> cases hstep
      rfl
  | step u =>
      simp only [step] at hstep
      cases hcall : s.calls u <;> simp only [hcall, advance] at hstep
      case idle => cases hstep
      case waiting | tryNext | tryExchange =>
        split at hstep <;> cases hstep <;> exact hkept rfl
      case lockReturned | tryReturned | isLockedReturned | isLockedNext =>
        cases hstep
        exact hkept rfl

/-- A step of the thread itself. -/
theorem Call.Current.step_self (hstep : advance s t (s.calls t) = some s') (hs : ¬s.Outstanding)
    (h : (s.calls t).Current s.nextTicket) : (s'.calls t).Current s.nextTicket := by
  have hequal : s.nowServing = s.nextTicket := not_not.mp hs
  cases hcall : s.calls t with
  | idle => simp [hcall, advance] at hstep
  | waiting k =>
      simp only [hcall, advance] at hstep
      split at hstep <;> cases hstep
      · simp [Call.Current]
      · rw [hcall]
        trivial
  | tryNext n =>
      obtain rfl : n = s.nextTicket := by rwa [hcall] at h
      simp only [hcall, advance, if_pos] at hstep
      cases hstep
      simp [Call.Current]
  | tryExchange n =>
      obtain rfl : n = s.nextTicket := by rwa [hcall] at h
      simp only [hcall, advance, if_pos] at hstep
      cases hstep
      simp [Call.Current]
  | isLockedNext n =>
      obtain rfl : n = s.nextTicket := by rwa [hcall] at h
      simp only [hcall, advance] at hstep
      cases hstep
      simp [Call.Current]
  | lockReturned | tryReturned _ | isLockedReturned _ =>
      simp only [hcall, advance] at hstep
      cases hstep
      simp [Call.Current]

/-- A thread gets on with a call only by its own steps. -/
theorem calls_of_ne (hstep : TicketLock.step s a = some s') (hne : t ≠ a.thread) :
    s'.calls t = s.calls t := by
  cases a with
  | lock u | tryLock u | isLocked u =>
      simp only [TicketLock.step] at hstep
      split at hstep <;> cases hstep
      exact setCall_calls_of_ne _ _ hne
  | drop u k =>
      simp only [TicketLock.step] at hstep
      split at hstep <;> cases hstep
      rfl
  | step u =>
      simp only [TicketLock.step] at hstep
      cases hcall : s.calls u <;> simp only [hcall, advance] at hstep
      case idle => cases hstep
      case waiting =>
        split at hstep <;> cases hstep
        · exact setCall_calls_of_ne _ _ hne
        · rfl
      case tryNext | tryExchange =>
        split at hstep <;> cases hstep <;> exact setCall_calls_of_ne _ _ hne
      case lockReturned | tryReturned | isLockedReturned | isLockedNext =>
        cases hstep
        exact setCall_calls_of_ne _ _ hne

theorem Call.Current.step (hstep : TicketLock.step s a = some s') (hs : ¬s.Outstanding)
    (h : (s.calls t).Current s.nextTicket) : (s'.calls t).Current s.nextTicket := by
  by_cases hne : t = a.thread
  · subst hne
    have hequal : s.nowServing = s.nextTicket := not_not.mp hs
    cases a with
    | step u => exact Call.Current.step_self hstep hs h
    | lock u | tryLock u | isLocked u =>
        simp only [TicketLock.step] at hstep
        split at hstep <;> cases hstep
        simp [Label.thread, Call.Current, hequal]
    | drop u k =>
        simp only [TicketLock.step] at hstep
        split at hstep <;> cases hstep
        exact h
  · rwa [calls_of_ne hstep hne]

/-- Along a run in which no ticket is ever outstanding. -/
theorem Call.Current.run {as : List (Label T)} (hrun : Machine.run TicketLock.step s as = some s')
    (hnever : ¬Sometime TicketLock.step State.Outstanding s as)
    (h : (s.calls t).Current s.nextTicket) : (s'.calls t).Current s'.nextTicket := by
  have hmeet := (throughout_of_not_sometime hnever).stepsMeet
  refine run_invariant_of_stepsMeet (I := fun m : State T => (m.calls t).Current m.nextTicket)
    (fun m l m' hm hfree hstep => ?_) h hmeet hrun
  rw [nextTicket_of_not_outstanding hstep hfree.1 (hfree.2 m' hstep)]
  exact hm.step hstep hfree.1

/-- If `try_lock` fails or `is_locked` says yes, some ticket was outstanding
during the call. -/
theorem sometime_outstanding {mid : List (Label T)} {m : State T}
    (hstart : (s.calls t).Current s.nowServing) (hrun : Machine.run TicketLock.step s mid = some m)
    (hret : TicketLock.step m (.step t) = some s')
    (hanswer : s'.calls t = .tryReturned false ∨ s'.calls t = .isLockedReturned true) :
    Sometime TicketLock.step State.Outstanding s mid := by
  by_contra hnever
  have hfirst : ¬s.Outstanding := fun h => hnever (.head h mid)
  have hlast : ¬m.Outstanding := fun h => hnever (.last hrun h)
  have hequal : s.nowServing = s.nextTicket := not_not.mp hfirst
  have hcurrent := ((hequal ▸ hstart : (s.calls t).Current s.nextTicket).run hrun hnever).step
    hret hlast
  rcases hanswer with hanswer | hanswer <;> rw [hanswer] at hcurrent <;> cases hcurrent

/-! ### Calls from their start to their last access -/

/-- Only the start of a call of `is_locked` loads `now_serving` for it. -/
theorem isLockedNext_of_step {n : ℕ} (hstep : TicketLock.step s a = some s') (ha : ¬a.Starts t)
    (h : s'.calls t = .isLockedNext n) : s.calls t = .isLockedNext n := by
  by_cases hne : t = a.thread
  · subst hne
    cases a with
    | lock u | tryLock u | isLocked u => exact absurd rfl ha
    | drop u k =>
        simp only [TicketLock.step] at hstep
        split at hstep <;> cases hstep
        exact h
    | step u =>
        simp only [TicketLock.step] at hstep
        simp only [Label.thread] at h ⊢
        cases hcall : s.calls u <;> simp only [hcall, advance] at hstep
        case idle => cases hstep
        case waiting =>
          split at hstep <;> cases hstep
          · simp at h
          · rwa [hcall] at h
        case tryNext | tryExchange => split at hstep <;> cases hstep <;> simp at h
        case lockReturned | tryReturned | isLockedReturned | isLockedNext =>
          cases hstep
          simp at h
  · rwa [calls_of_ne hstep hne] at h

/-- A call starts with a load of `now_serving`, which changes nothing. -/
theorem start_cases (hstart : step s (.tryLock t) = some s' ∨ step s (.isLocked t) = some s') :
    s'.nowServing = s.nowServing ∧ s'.nextTicket = s.nextTicket ∧
      (s'.calls t).Current s'.nowServing ∧
      ∀ n, s'.calls t = .isLockedNext n → n = s'.nowServing := by
  rcases hstart with hstart | hstart
  all_goals
    simp only [step] at hstart
    split at hstart <;> cases hstart
    simp [Call.Current]

/-- The last access of a call of `is_locked`. -/
theorem isLockedNext_of_answer {held : Bool} (hret : step s (.step t) = some s')
    (h : s'.calls t = .isLockedReturned held) :
    ∃ n, s.calls t = .isLockedNext n ∧ held = decide (n ≠ s.nextTicket) := by
  simp only [step] at hret
  cases hcall : s.calls t <;> simp only [hcall, advance] at hret
  case idle => cases hret
  case waiting =>
    split at hret <;> cases hret
    · simp at h
    · rw [hcall] at h
      cases h
  case tryNext | tryExchange => split at hret <;> cases hret <;> simp at h
  case lockReturned | tryReturned | isLockedReturned =>
    cases hret
    simp at h
  case isLockedNext n =>
    cases hret
    exact ⟨n, rfl, by simpa using h.symm⟩

/-- The last access of a call of `try_lock` that gets the lock. -/
theorem tryExchange_of_answer (hret : step s (.step t) = some s')
    (h : s'.calls t = .tryReturned true) :
    s.calls t = .tryExchange s.nextTicket ∧ s'.taken = s.taken + 1 ∧
      s'.guards = (t, s.nextTicket) :: s.guards := by
  simp only [step] at hret
  cases hcall : s.calls t <;> simp only [hcall, advance] at hret
  case idle => cases hret
  case waiting =>
    split at hret <;> cases hret
    · simp at h
    · rw [hcall] at h
      cases h
  case tryNext => split at hret <;> cases hret <;> simp at h
  case tryExchange n =>
    split at hret <;> cases hret
    · rename_i hn
      subst hn
      exact ⟨rfl, rfl, rfl⟩
    · simp at h
  case lockReturned | tryReturned | isLockedReturned | isLockedNext =>
    cases hret
    simp at h

theorem taken_le_of_run {as : List (Label T)} (hrun : run step s as = some s') :
    s.taken ≤ s'.taken :=
  run_invariant (I := fun m : State T => s.taken ≤ m.taken)
    (fun _ _ _ hm hstep => hm.trans (taken_le_of_step hstep)) le_rfl hrun

/-- **The answers of `try_lock` and `is_locked` were right at some instant of the
call.** A call starts in `s` with the load of `now_serving`; after any steps `mid`,
in which its thread starts no other call, it makes its last access in `m`. -/
theorem answers_true_at_some_instant {s₁ m : State T} {mid : List (Label T)}
    (hreach : Reachable step (new T) s)
    (hstart : step s (.tryLock t) = some s₁ ∨ step s (.isLocked t) = some s₁)
    (hmid : ∀ a ∈ mid, ¬a.Starts t) (hrun : run step s₁ mid = some m)
    (hret : step m (.step t) = some s') (hbound : s'.taken < 2 ^ 64) :
    (s'.calls t = .tryReturned false → Sometime step State.Outstanding s₁ mid) ∧
    (s'.calls t = .isLockedReturned true → Sometime step State.Outstanding s₁ mid) ∧
    (s'.calls t = .isLockedReturned false → Sometime step (¬·.Outstanding) s₁ mid) ∧
    -- the exchange of `try_lock` succeeds: nobody waits, and its guard is the only one
    (s'.calls t = .tryReturned true →
      ¬m.Outstanding ∧ (∀ u k, m.calls u ≠ .waiting k) ∧ s'.guards = [(t, m.nextTicket)]) := by
  obtain ⟨hserving, hnext, hcurrent, hloaded⟩ := start_cases hstart
  have hreach₁ : Reachable step (new T) s₁ :=
    hstart.elim (fun h => hreach.of_step h) (fun h => hreach.of_step h)
  have hmbound : m.taken < 2 ^ 64 := lt_of_le_of_lt (taken_le_of_step hret) hbound
  have hm : Inv m := inv_of_reachable (hreach₁.run hrun) hmbound
  refine ⟨fun h => sometime_outstanding hcurrent hrun hret (.inl h),
    fun h => sometime_outstanding hcurrent hrun hret (.inr h), fun h => ?_, fun h => ?_⟩
  · -- the load of `next_ticket` bounds it from above at the load of `now_serving`
    have hs₁ : Inv s₁ := inv_of_reachable hreach₁ (lt_of_le_of_lt (taken_le_of_run hrun) hmbound)
    obtain ⟨n, hcall, hn⟩ := isLockedNext_of_answer hret h
    have hn : n = m.nextTicket := by simpa using hn
    have hloaded : n = s₁.nowServing := by
      have hall : StepsMeet step (fun _ _ => True) s₁ mid :=
        stepsMeet_of_forall (fun _ _ => trivial) s₁ mid
      have hmeet := hall.and_forall_mem hmid
      exact run_invariant_of_stepsMeet
        (I := fun x : State T => ∀ n, x.calls t = .isLockedNext n → n = s₁.nowServing)
        (fun x a x' hx ha hstep n hn => hx n (isLockedNext_of_step hstep ha.2 hn)) hloaded hmeet
        hrun n hcall
    have hmono : s₁.nextTicket ≤ m.nextTicket := by
      rw [hs₁.next_eq, hm.next_eq]
      exact taken_le_of_run hrun
    have hle := hs₁.serving_le
    exact .head (fun hout => hout (by omega)) mid
  · obtain ⟨hcall, htaken, hguards⟩ := tryExchange_of_answer hret h
    have hfree : m.nowServing = m.nextTicket := (hm.exchange hcall (htaken ▸ hbound)).1
    have hnil : m.guards = [] := by
      rcases hm.guards_eq with hnil | ⟨u, -, hlt⟩
      · exact hnil
      · omega
    refine ⟨not_not.mpr hfree, fun u k hu => ?_, by rw [hguards, hnil]⟩
    obtain ⟨hlo, hhi⟩ := hm.owns_range (.inl hu)
    omega

/-- Thread 0 loads `now_serving` before thread 1 drops its guard, and `next_ticket`
after it: `try_lock` fails although the two are then equal. -/
theorem answers_true_at_some_instant_late_drop :
    ∃ s s₁ m s' : State ℕ, run step (new ℕ) [.lock 1, .step 1] = some s ∧
      step s (.tryLock 0) = some s₁ ∧ run step s₁ [.drop 1 0] = some m ∧
      step m (.step 0) = some s' ∧ s'.calls 0 = .tryReturned false ∧ ¬m.Outstanding ∧
      Sometime step State.Outstanding s₁ [.drop 1 0] := by
  refine ⟨_, _, _, _, rfl, rfl, rfl, rfl, rfl, by decide, ?_⟩
  have hmid : ∀ a ∈ [(.drop 1 0 : Label ℕ)], ¬a.Starts 0 := by simp [Label.Starts]
  exact (answers_true_at_some_instant ⟨[.lock 1, .step 1], rfl⟩ (.inl rfl) hmid rfl rfl
    (by decide)).1 rfl

end SmpNostd.TicketLock
